import MessageBrokerPatterns.IdempotencyMemory

/-!
# Both stores within one window

While no retention has ended a dedup store need only know which keys were marked, and `Marked`
answers so. The Redis store does as long as its one expiry, set by the first marking call, lies
ahead, the in-memory store as long as the retention of the first recording lasts, except that it
raises for a recording that would be retained past the last date.

An expiry of less than a millisecond is sent as zero. Then every marking call deletes the set
that it created, and no call finds a key marked.
-/

namespace IdempotencyStore
open PyText PyDict RedisSet ExpiringLedger

abbrev Marked := Finset String

namespace Marked

def call (marked : Marked) : Call → Answer × Marked
  | .isProcessed key => (.bool (key ∈ marked), marked)
  | .markProcessed key => (.none, insert key marked)
  | .markIfNew key => (.bool (key ∉ marked), insert key marked)

/-- A call at an instant, which the marked keys do not ask for. -/
def timed (marked : Marked) (r : ℤ × Call) : Answer × Marked := call marked r.2

def Records (marked : Marked) : Call → Prop
  | .isProcessed _ => False
  | .markProcessed _ => True
  | .markIfNew key => key ∉ marked

/-- The call records a key whose retention would end after the last date. -/
def PastDate (ttl : Ttl) (marked : Marked) (r : ℤ × Call) : Prop :=
  Records marked r.2 ∧ datetimeMax < r.1 + ttl.val

instance (marked : Marked) (c : Call) : Decidable (Records marked c) :=
  match c with
  | .isProcessed _ => isFalse id
  | .markProcessed _ => isTrue trivial
  | .markIfNew key => inferInstanceAs (Decidable (key ∉ marked))

instance (ttl : Ttl) (marked : Marked) (r : ℤ × Call) : Decidable (PastDate ttl marked r) :=
  inferInstanceAs (Decidable (_ ∧ _))

def dated (ttl : Ttl) : Marked → ℤ × Call → Answer × Marked :=
  Mealy.guarded (PastDate ttl) (.raised dateOverflow) timed

theorem timed_ne_raised (marked : Marked) (r : ℤ × Call) (e : PyExc) :
    (timed marked r).1 ≠ .raised e := by
  obtain ⟨now, c⟩ := r
  cases c <;> simp [timed, call]

end Marked

namespace RedisIdempotencyStore
variable {millis : ℤ → ℤ} {ttl : Ttl}

/-- The server holds the marked keys with an expiry. -/
def Holds (expiresAt : ℤ) (entry : Entry String) (marked : Marked) : Prop :=
  ∃ v, entry = some v ∧ v.members = marked ∧ v.expiresAt = some expiresAt

theorem isProcessed_eq (entry : Entry String) (key : String) :
    isProcessed entry key = mem entry key := by
  cases h : mem entry key <;> simp [isProcessed, sismember, h]

theorem markIfNew_fst (now : ℤ) (entry : Entry String) (key : String) :
    (markIfNew millis ttl now entry key).1 = !mem entry key := by
  cases h : mem entry key <;> simp [markIfNew, sadd_fst, h]

theorem Holds.markIfNew {expiresAt : ℤ} {entry : Entry String} {marked : Marked}
    (h : Holds expiresAt entry marked) (now : ℤ) (key : String) :
    Holds expiresAt (markIfNew millis ttl now entry key).2 (insert key marked) := by
  obtain ⟨v, rfl, rfl, hv⟩ := h
  have hexp : (expiry (sadd (some v) key).2).isSome := by
    rw [expiry_sadd]
    simp [expiry, hv]
  simp only [RedisIdempotencyStore.markIfNew, pexpire_nx_of_isSome hexp]
  exact ⟨_, rfl, rfl, hv⟩

theorem holds_markIfNew_none (hpos : 0 < millis ttl) (now : ℤ) (key : String) :
    Holds (now + millis ttl * 1000) (markIfNew millis ttl now none key).2 {key} := by
  simp only [markIfNew, sadd]
  rw [pexpire_nx_of_pos rfl now hpos]
  exact ⟨_, rfl, rfl, rfl⟩

theorem Holds.evict {expiresAt now : ℤ} {entry : Entry String} {marked : Marked}
    (h : Holds expiresAt entry marked) (hnow : now < expiresAt) : evict now entry = entry := by
  obtain ⟨v, rfl, rfl, hv⟩ := h
  apply evict_of_not_due
  simp [due, expiry, hv, hnow]

theorem Holds.mem {expiresAt : ℤ} {entry : Entry String} {marked : Marked}
    (h : Holds expiresAt entry marked) (key : String) :
    mem entry key = decide (key ∈ marked) := by
  obtain ⟨v, rfl, rfl, hv⟩ := h
  rfl

theorem Holds.call {expiresAt now : ℤ} {entry : Entry String} {marked : Marked}
    (h : Holds expiresAt entry marked) (hnow : now < expiresAt) (c : Call) :
    (call millis ttl now entry c).1 = (Marked.call marked c).1 ∧
      Holds expiresAt (call millis ttl now entry c).2 (Marked.call marked c).2 := by
  cases c with
  | isProcessed key =>
    simp only [RedisIdempotencyStore.call, h.evict hnow, isProcessed_eq, h.mem]
    exact ⟨rfl, h⟩
  | markProcessed key =>
    simp only [RedisIdempotencyStore.call, h.evict hnow]
    exact ⟨rfl, h.markIfNew now key⟩
  | markIfNew key =>
    simp only [RedisIdempotencyStore.call, h.evict hnow, Prod.map_fst, Prod.map_snd, markIfNew_fst,
      h.mem]
    refine ⟨?_, h.markIfNew now key⟩
    rw [← decide_not]
    rfl

theorem call_isProcessed_none (now : ℤ) (key : String) :
    call millis ttl now none (.isProcessed key) = (.bool false, none) := rfl

theorem call_none_of_marks (hpos : 0 < millis ttl) (now : ℤ) {key : String} {c : Call}
    (hc : c.Marks key) : (call millis ttl now none c).1 = (Marked.call ∅ c).1 ∧
      Holds (now + millis ttl * 1000) (call millis ttl now none c).2 (Marked.call ∅ c).2 := by
  obtain rfl | rfl := hc
  · exact ⟨rfl, holds_markIfNew_none hpos now key⟩
  · exact ⟨rfl, holds_markIfNew_none hpos now key⟩

end RedisIdempotencyStore

/-- From the first marking call on all instants come before that call's instant plus `ttl`. -/
def InWindow (ttl : Ttl) : List (ℤ × Call) → Prop
  | [] => True
  | (_, .isProcessed _) :: rest => InWindow ttl rest
  | (start, _) :: rest => ∀ r ∈ rest, r.1 < start + ttl.val

/-- A store that starts a window with its first marking call and answers as `g` does on the marked
keys while the window lasts answers as `g` does. -/
theorem outputs_eq_marked {σ : Type*} {ttl : Ttl} {f : σ → ℤ × Call → Answer × σ}
    {g : Marked → ℤ × Call → Answer × Marked} {R : ℤ → σ → Marked → Prop} {s : σ}
    (hread : ∀ now key, f s (now, .isProcessed key) = (.bool false, s))
    (hunmarked : ∀ now key, g ∅ (now, .isProcessed key) = (.bool false, ∅))
    (hfirst : ∀ now key c, c.Marks key → (f s (now, c)).1 = (g ∅ (now, c)).1 ∧
      R now (f s (now, c)).2 (g ∅ (now, c)).2)
    (hnext : ∀ start now s marked c, R start s marked → start ≤ now → now < start + ttl.val →
      (f s (now, c)).1 = (g marked (now, c)).1 ∧
        R start (f s (now, c)).2 (g marked (now, c)).2)
    {calls : List (ℤ × Call)} (hmono : (calls.map Prod.fst).Pairwise (· ≤ ·))
    (hwin : InWindow ttl calls) :
    Mealy.outputs f s calls = Mealy.outputs g ∅ calls := by
  have hrest : ∀ start s marked rest, R start s marked →
      (∀ r ∈ rest, start ≤ r.1 ∧ r.1 < start + ttl.val) →
      Mealy.outputs f s rest = Mealy.outputs g marked rest := by
    intro start s marked rest h hr
    apply Mealy.outputs_eq (R := fun s marked rest => R start s marked ∧
      ∀ r ∈ rest, start ≤ r.1 ∧ r.1 < start + ttl.val)
    · rintro s marked ⟨now, c⟩ rest ⟨h, hr⟩
      obtain ⟨hle, hlt⟩ := hr (now, c) List.mem_cons_self
      obtain ⟨hanswer, hlast⟩ := hnext start now s marked c h hle hlt
      exact ⟨hanswer, hlast, fun r hm => hr r (List.mem_cons_of_mem _ hm)⟩
    · exact ⟨h, hr⟩
  have hmark : ∀ start key c rest, c.Marks key →
      (((start, c) :: rest).map Prod.fst).Pairwise (· ≤ ·) →
      (∀ r ∈ rest, r.1 < start + ttl.val) → Mealy.outputs f s ((start, c) :: rest) =
        Mealy.outputs g ∅ ((start, c) :: rest) := by
    intro start key c rest hc hmono hwin
    obtain ⟨hanswer, hlast⟩ := hfirst start key c hc
    have hle := (List.pairwise_cons.mp hmono).1
    rw [Mealy.outputs_cons, Mealy.outputs_cons, hanswer]
    rw [hrest start _ _ rest hlast fun r hr => ⟨hle _ (List.mem_map_of_mem hr), hwin r hr⟩]
  induction calls with
  | nil => rfl
  | cons r rest ih =>
    obtain ⟨now, c⟩ := r
    cases c with
    | isProcessed key =>
      rw [Mealy.outputs_cons, Mealy.outputs_cons, hread, hunmarked,
        ih (List.pairwise_cons.mp hmono).2 hwin]
    | markProcessed key => exact hmark now key _ rest (Or.inl rfl) hmono hwin
    | markIfNew key => exact hmark now key _ rest (Or.inr rfl) hmono hwin

theorem RedisIdempotencyStore.outputs_eq_marked {millis : ℤ → ℤ} {ttl : Ttl}
    (hms : millis ttl * 1000 = ttl.val) {calls : List (ℤ × Call)}
    (hmono : (calls.map Prod.fst).Pairwise (· ≤ ·)) (hwin : InWindow ttl calls) :
    Mealy.outputs (fun entry r => call millis ttl r.1 entry r.2) none calls =
      Mealy.outputs Marked.timed ∅ calls := by
  have hpos : 0 < millis ttl := by
    have := ttl.property
    omega
  apply IdempotencyStore.outputs_eq_marked (R := fun start => Holds (start + ttl.val))
  · intro now key
    rfl
  · intro now key
    rfl
  · intro now key c hc
    rw [← hms]
    exact call_none_of_marks hpos now hc
  · intro start now entry marked c h hle hlt
    exact h.call hlt c
  · exact hmono
  · exact hwin

namespace LastRecorded
variable {ttl : Ttl}

/-- The marked keys are the recorded ones, all recorded at `start` or later. -/
structure Covers (start : ℤ) (last : LastRecorded) (marked : Marked) : Prop where
  mem_iff : ∀ key, key ∈ marked ↔ ∃ m, last key = some m
  le : ∀ key m, last key = some m → start ≤ m

theorem covers_empty (start : ℤ) : Covers start (fun _ => none) ∅ :=
  ⟨fun key => by simp, fun key m h => (by cases h)⟩

theorem Covers.liveAt_iff {start now : ℤ} {last : LastRecorded} {marked : Marked}
    (h : Covers start last marked) (hlt : now < start + ttl.val) (key : String) :
    LiveAt ttl.val now last key ↔ key ∈ marked := by
  rw [h.mem_iff]
  constructor
  · rintro ⟨m, hm, _⟩
    exact ⟨m, hm⟩
  · rintro ⟨m, hm⟩
    have hle := h.le key m hm
    exact ⟨m, hm, by omega⟩

theorem Covers.record {start now : ℤ} {last : LastRecorded} {marked : Marked}
    (h : Covers start last marked) (hle : start ≤ now) (key : String) :
    Covers start (ExpiringLedger.record last key now) (insert key marked) := by
  constructor
  · intro key'
    by_cases hk : key' = key
    · subst hk
      simp [ExpiringLedger.record]
    · rw [Finset.mem_insert, h.mem_iff, ExpiringLedger.record, Function.update_of_ne hk]
      simp [hk]
  · intro key' m hm
    by_cases hk : key' = key
    · subst hk
      simp only [ExpiringLedger.record, Function.update_self, Option.some.injEq] at hm
      omega
    · rw [ExpiringLedger.record, Function.update_of_ne hk] at hm
      exact h.le key' m hm

theorem Covers.call {start now : ℤ} {last : LastRecorded} {marked : Marked}
    (h : Covers start last marked) (hle : start ≤ now) (hlt : now < start + ttl.val) (c : Call) :
    (call ttl last now c).1 = (Marked.call marked c).1 ∧
      Covers start (call ttl last now c).2 (Marked.call marked c).2 := by
  cases c with
  | isProcessed key =>
    simp only [LastRecorded.call, Marked.call, h.liveAt_iff hlt]
    exact ⟨trivial, h⟩
  | markProcessed key => exact ⟨rfl, h.record hle key⟩
  | markIfNew key =>
    by_cases hk : key ∈ marked
    · simp only [LastRecorded.call, Marked.call, h.liveAt_iff hlt, hk, if_true]
      rw [Finset.insert_eq_of_mem hk]
      exact ⟨rfl, h⟩
    · simp only [LastRecorded.call, Marked.call, h.liveAt_iff hlt, hk, if_false]
      exact ⟨rfl, h.record hle key⟩

theorem Covers.records_iff {start now : ℤ} {last : LastRecorded} {marked : Marked}
    (h : Covers start last marked) (hlt : now < start + ttl.val) (c : Call) :
    Records ttl last now c ↔ marked.Records c := by
  cases c with
  | isProcessed key => exact Iff.rfl
  | markProcessed key => exact Iff.rfl
  | markIfNew key => exact not_congr (h.liveAt_iff hlt key)

theorem Covers.dated {start now : ℤ} {last : LastRecorded} {marked : Marked}
    (h : Covers start last marked) (hle : start ≤ now) (hlt : now < start + ttl.val) (c : Call) :
    (dated ttl last (now, .call c)).1 = (Marked.dated ttl marked (now, c)).1 ∧
      Covers start (dated ttl last (now, .call c)).2 (Marked.dated ttl marked (now, c)).2 := by
  have hiff := h.records_iff hlt c
  by_cases hpast : Records ttl last now c ∧ datetimeMax < now + ttl.val
  · have hmarked : Marked.PastDate ttl marked (now, c) := ⟨hiff.mp hpast.1, hpast.2⟩
    rw [dated_call_of_lt hpast.1 hpast.2, Marked.dated, Mealy.guarded, if_pos hmarked]
    exact ⟨rfl, h⟩
  · have hmarked : ¬ Marked.PastDate ttl marked (now, c) :=
      fun hm => hpast ⟨hiff.mpr hm.1, hm.2⟩
    rw [dated_call fun hrec => not_lt.mp fun hlt => hpast ⟨hrec, hlt⟩, Marked.dated, Mealy.guarded,
      if_neg hmarked]
    exact h.call hle hlt c

end LastRecorded

theorem InMemoryIdempotencyStore.outputs_eq_dated {ttl : Ttl} {calls : List (ℤ × Call)}
    (hmono : (calls.map Prod.fst).Pairwise (· ≤ ·)) (hwin : InWindow ttl calls) :
    Mealy.outputs (fun store r => store.call r.1 r.2) (empty ttl) calls =
      Mealy.outputs (Marked.dated ttl) ∅ calls := by
  have hledger : Mealy.outputs (fun store r => store.call r.1 r.2) (empty ttl) calls =
      Mealy.outputs (fun last r => LastRecorded.dated ttl last (r.1, .call r.2)) (fun _ => none)
        calls := by
    have hfst : (calls.map fun r => (r.1, Request.call r.2)).map Prod.fst = calls.map Prod.fst := by
      rw [List.map_map]
      rfl
    have h := outputs_request_of_agrees (by rw [hfst]; exact hmono) fun r _ => agrees_empty ttl r.1
    rw [Mealy.outputs_map, Mealy.outputs_map] at h
    exact h
  rw [hledger]
  apply IdempotencyStore.outputs_eq_marked (R := LastRecorded.Covers)
  · intro now key
    rw [LastRecorded.dated_call False.elim]
    simp [LastRecorded.call, LiveAt]
  · intro now key
    rfl
  · intro now key c hc
    have hlt : now < now + ttl.val := by
      have := ttl.property
      omega
    exact (LastRecorded.covers_empty now).dated le_rfl hlt c
  · intro start now last marked c h hle hlt
    exact h.dated hle hlt c
  · exact hmono
  · exact hwin

/-- Within one window, the `ttl` sent as it is, nobody can tell the two stores apart, exactly if no
recording would be retained past the last date. -/
theorem outputs_memory_eq_redis (millis : ℤ → ℤ) (ttl : Ttl) (hms : millis ttl * 1000 = ttl.val)
    (calls : List (ℤ × Call)) (hmono : (calls.map Prod.fst).Pairwise (· ≤ ·))
    (hwin : InWindow ttl calls) :
    Mealy.outputs (fun store r => InMemoryIdempotencyStore.call store r.1 r.2)
        (InMemoryIdempotencyStore.empty ttl) calls =
      Mealy.outputs (fun entry r => RedisIdempotencyStore.call millis ttl r.1 entry r.2) none
        calls ↔
      Mealy.Along (fun marked r => ¬ Marked.PastDate ttl marked r) Marked.timed ∅ calls := by
  rw [InMemoryIdempotencyStore.outputs_eq_dated hmono hwin,
    RedisIdempotencyStore.outputs_eq_marked hms hmono hwin]
  exact Mealy.outputs_guarded_iff (fun marked r => Marked.timed_ne_raised marked r _) ∅ calls

/-- Two keys over half a second, the first asked before it is marked and up to the last moment. -/
theorem outputs_memory_eq_redis_half_second :
    Mealy.outputs (fun store r => InMemoryIdempotencyStore.call store r.1 r.2)
        (InMemoryIdempotencyStore.empty ⟨500000, by decide⟩)
        [(-5, .isProcessed "a"), (0, .markIfNew "a"), (7, .markProcessed "b"),
          (499999, .markIfNew "a")] =
      Mealy.outputs
        (fun entry r => RedisIdempotencyStore.call (· / 1000) ⟨500000, by decide⟩ r.1 entry r.2) none
        [(-5, .isProcessed "a"), (0, .markIfNew "a"), (7, .markProcessed "b"),
          (499999, .markIfNew "a")] := by
  apply (outputs_memory_eq_redis (· / 1000) ⟨500000, by decide⟩ (by decide) _ _ _).mpr
  · simp [Mealy.Along, Marked.PastDate, datetimeMax]
  · decide
  · simp [InWindow]

/-- Three million days are whole milliseconds: the Redis store takes the key, the other raises. -/
theorem memory_ne_redis_past_date :
    (259200000000000000 : ℤ) / 1000 * 1000 = 259200000000000000 ∧
      Mealy.outputs (fun store r => InMemoryIdempotencyStore.call store r.1 r.2)
          (InMemoryIdempotencyStore.empty ⟨259200000000000000, by decide⟩)
          [(1785576600000000, .markIfNew "a")] = [.raised dateOverflow] ∧
      Mealy.outputs (fun entry r =>
          RedisIdempotencyStore.call (· / 1000) ⟨259200000000000000, by decide⟩ r.1 entry r.2) none
          [(1785576600000000, .markIfNew "a")] = [.bool true] := by
  refine ⟨by decide, ?_, ?_⟩
  · decide
  · decide

/-- No call asks for a key that an earlier call marked. -/
def NoneAskedAgain (calls : List Call) : Prop :=
  calls.Pairwise fun c d => ∀ key, c.Marks key → ¬ d.Asks key

theorem Marked.mem_call_iff {marked : Marked} {c : Call} {key : String} :
    key ∈ (Marked.call marked c).2 ↔ c.Marks key ∨ key ∈ marked := by
  cases c with
  | isProcessed k => simp [Marked.call, Call.Marks]
  | markProcessed k => simp [Marked.call, Call.Marks, eq_comm]
  | markIfNew k => simp [Marked.call, Call.Marks, eq_comm]

namespace RedisIdempotencyStore
variable {millis : ℤ → ℤ} {ttl : Ttl}

theorem outputs_eq_marked_of_pos (hpos : 0 < millis ttl) (now : ℤ) (calls : List Call) :
    Mealy.outputs (call millis ttl now) none calls = Mealy.outputs Marked.call ∅ calls := by
  have hahead : now < now + millis ttl * 1000 := by omega
  apply Mealy.outputs_eq (R := fun entry marked _ => entry = none ∧ marked = ∅ ∨
    Holds (now + millis ttl * 1000) entry marked)
  · rintro entry marked c rest (⟨rfl, rfl⟩ | h)
    · cases c with
      | isProcessed key => exact ⟨rfl, Or.inl ⟨rfl, rfl⟩⟩
      | markProcessed key => exact (call_none_of_marks hpos now (Or.inl rfl)).imp_right Or.inr
      | markIfNew key => exact (call_none_of_marks hpos now (Or.inr rfl)).imp_right Or.inr
    · exact (h.call hahead c).imp_right Or.inr
  · exact Or.inl ⟨rfl, rfl⟩

theorem call_snd_of_nonpos (hle : millis ttl ≤ 0) (now : ℤ) (c : Call) :
    (call millis ttl now none c).2 = none := by
  have hmark : ∀ key, (markIfNew millis ttl now none key).2 = none := fun key =>
    congrArg Prod.snd (pexpire_nx_of_nonpos
      (v := ⟨{key}, none, Finset.singleton_nonempty key⟩) rfl now hle)
  cases c with
  | isProcessed key => rfl
  | markProcessed key => exact hmark key
  | markIfNew key => exact hmark key

theorem call_fst_eq_marked_iff (now : ℤ) (marked : Marked) (c : Call) :
    (call millis ttl now none c).1 = (Marked.call marked c).1 ↔ ∀ key, c.Asks key → key ∉ marked := by
  cases c with
  | isProcessed k => simp [call_isProcessed_none, Marked.call, Call.Asks]
  | markProcessed k => simp [call, Marked.call, Call.Asks]
  | markIfNew k =>
    have hfst : (markIfNew millis ttl now none k).1 = true := markIfNew_fst now none k
    have h : (call millis ttl now none (.markIfNew k)).1 = .bool true := congrArg Answer.bool hfst
    rw [h]
    simp [Marked.call, Call.Asks]

theorem outputs_eq_marked_iff_of_nonpos (hle : millis ttl ≤ 0) (now : ℤ) (marked : Marked)
    (calls : List Call) :
    Mealy.outputs (call millis ttl now) none calls = Mealy.outputs Marked.call marked calls ↔
      (∀ c ∈ calls, ∀ key, c.Asks key → key ∉ marked) ∧ NoneAskedAgain calls := by
  induction calls generalizing marked with
  | nil => simp [Mealy.outputs, NoneAskedAgain]
  | cons c rest ih =>
    rw [Mealy.outputs_cons, Mealy.outputs_cons, List.cons.injEq, call_snd_of_nonpos hle, ih,
      call_fst_eq_marked_iff, NoneAskedAgain, NoneAskedAgain, List.pairwise_cons]
    simp only [List.forall_mem_cons, Marked.mem_call_iff, not_or]
    constructor
    · rintro ⟨hc, hrest, hpair⟩
      refine ⟨⟨hc, fun d hd key hk => (hrest d hd key hk).2⟩, ?_, hpair⟩
      intro d hd key hm hk
      exact (hrest d hd key hk).1 hm
    · rintro ⟨⟨hc, hrest⟩, hfirst, hpair⟩
      refine ⟨hc, fun d hd key hk => ⟨?_, hrest d hd key hk⟩, hpair⟩
      intro hm
      exact hfirst d hd key hm hk

/-- A `ttl` that the constructor accepts deduplicates exactly if it lasts a millisecond, or nobody
asks for a key that was marked. -/
theorem outputs_eq_marked_iff (millis : ℤ → ℤ)
    (hmillis : ∀ ttl : ℤ, 0 < ttl → (0 < millis ttl ↔ 1000 ≤ ttl)) (ttl : ℤ) (t : Ttl)
    (hnew : new ttl = .ok t) (now : ℤ) (calls : List Call) :
    Mealy.outputs (call millis t now) none calls = Mealy.outputs Marked.call ∅ calls ↔
      1000 ≤ ttl ∨ NoneAskedAgain calls := by
  have ht : t.val = ttl := validateTtl_eq_ok.mp hnew
  have hm := hmillis t.val t.property
  rw [ht] at hm
  by_cases hle : 1000 ≤ ttl
  · have hpos : 0 < millis t := by
      rw [ht]
      exact hm.mpr hle
    simp only [hle, true_or, iff_true]
    exact outputs_eq_marked_of_pos hpos now calls
  · have hneg : millis t ≤ 0 := by
      rw [ht]
      exact not_lt.mp fun h => hle (hm.mp h)
    rw [outputs_eq_marked_iff_of_nonpos hneg]
    simp [hle]

/-- A millisecond is enough. -/
theorem outputs_eq_marked_one_millisecond :
    Mealy.outputs (call (· / 1000) ⟨1000, by decide⟩ 0) none [.markIfNew "k", .markIfNew "k"] =
        Mealy.outputs Marked.call ∅ [.markIfNew "k", .markIfNew "k"] ↔
      (1000 : ℤ) ≤ 1000 ∨ NoneAskedAgain [.markIfNew "k", .markIfNew "k"] := by
  apply outputs_eq_marked_iff (· / 1000) (fun ttl h => ?_) 1000 ⟨1000, by decide⟩ rfl
  constructor
  · intro hpos
    omega
  · intro hle
    omega

/-- Half a millisecond is accepted, and the key is taken twice. -/
theorem half_millisecond_claimed_twice :
    new 500 = .ok ⟨500, by decide⟩ ∧
      Mealy.outputs (call (· / 1000) ⟨500, by decide⟩ 0) none [.markIfNew "k", .markIfNew "k"] =
        [.bool true, .bool true] ∧
      Mealy.outputs Marked.call ∅ [.markIfNew "k", .markIfNew "k"] = [.bool true, .bool false] := by
  refine ⟨rfl, ?_, ?_⟩
  · decide
  · decide

end RedisIdempotencyStore

end IdempotencyStore
