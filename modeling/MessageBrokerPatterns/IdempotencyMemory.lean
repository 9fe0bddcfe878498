import MessageBrokerPatterns.ExpiringLedger
import MessageBrokerPatterns.IdempotencyStore
import MessageBrokerPatterns.Mealy

/-!
# The in-memory store as a ledger that drops nothing

The dictionary of the in-memory store agrees with a ledger of last recordings about every
instant from the last call on: a key has an unexpired entry exactly if the ledger has it live.
Dropping the key that was read and sweeping all expired keys keep the agreement, so calls with a
clock that does not run backwards cannot tell the store from the ledger.

A recording raises where its expiry would come after the last date. `dated` is the ledger with that
guard: the store always answers as it does, and as the plain ledger while the guard is not met.
-/

namespace IdempotencyStore
open PyText PyDict ExpiringLedger

/-- A call of the protocol or a count of the keys within their retention. -/
inductive Request
  | call (c : Call)
  | size

abbrev LastRecorded := Ledger String ℤ

namespace LastRecorded

noncomputable def call (ttl : Ttl) (last : LastRecorded) (now : ℤ) : Call → Answer × LastRecorded
  | .isProcessed key => (.bool (LiveAt ttl.val now last key), last)
  | .markProcessed key => (.none, ExpiringLedger.record last key now)
  | .markIfNew key =>
    if LiveAt ttl.val now last key then (.bool false, last)
    else (.bool true, ExpiringLedger.record last key now)

noncomputable def request (ttl : Ttl) (last : LastRecorded) :
    ℤ × Request → Answer × LastRecorded
  | (now, .call c) => call ttl last now c
  | (now, .size) => (.int (liveCount ttl.val now last), last)

/-- `mark_if_new` succeeds on a key that was never recorded or has faded. -/
theorem call_markIfNew_eq_true {ttl : Ttl} {last : LastRecorded} {now : ℤ} {key : String} :
    (call ttl last now (.markIfNew key)).1 = .bool true ↔
      last key = none ∨ ∃ m, last key = some m ∧ m + ttl.val ≤ now := by
  rw [← not_liveAt_iff]
  by_cases h : LiveAt ttl.val now last key
  · simp [call, h]
  · simp [call, h]

/-- The call records its key. -/
def Records (ttl : Ttl) (last : LastRecorded) (now : ℤ) : Call → Prop
  | .isProcessed _ => False
  | .markProcessed _ => True
  | .markIfNew key => ¬ LiveAt ttl.val now last key

/-- The request records a key whose retention would end after the last date. -/
def PastDate (ttl : Ttl) (last : LastRecorded) : ℤ × Request → Prop
  | (now, .call c) => Records ttl last now c ∧ datetimeMax < now + ttl.val
  | (_, .size) => False

instance (ttl : Ttl) (last : LastRecorded) (now : ℤ) (c : Call) :
    Decidable (Records ttl last now c) :=
  match c with
  | .isProcessed _ => isFalse id
  | .markProcessed _ => isTrue trivial
  | .markIfNew key => inferInstanceAs (Decidable (¬ LiveAt ttl.val now last key))

instance (ttl : Ttl) (last : LastRecorded) (r : ℤ × Request) : Decidable (PastDate ttl last r) :=
  match r with
  | (now, .call c) => inferInstanceAs (Decidable (Records ttl last now c ∧ datetimeMax < now + ttl.val))
  | (_, .size) => isFalse id

/-- The ledger whose recordings past the last date raise and record nothing. -/
noncomputable def dated (ttl : Ttl) : LastRecorded → ℤ × Request → Answer × LastRecorded :=
  Mealy.guarded (PastDate ttl) (.raised dateOverflow) (request ttl)

theorem dated_call {ttl : Ttl} {last : LastRecorded} {now : ℤ} {c : Call}
    (h : Records ttl last now c → now + ttl.val ≤ datetimeMax) :
    dated ttl last (now, .call c) = call ttl last now c :=
  if_neg fun hpast => not_lt.mpr (h hpast.1) hpast.2

theorem dated_call_of_lt {ttl : Ttl} {last : LastRecorded} {now : ℤ} {c : Call}
    (h : Records ttl last now c) (hpast : datetimeMax < now + ttl.val) :
    dated ttl last (now, .call c) = (.raised dateOverflow, last) := if_pos ⟨h, hpast⟩

theorem request_ne_raised (ttl : Ttl) (last : LastRecorded) (r : ℤ × Request) (e : PyExc) :
    (request ttl last r).1 ≠ .raised e := by
  obtain ⟨now, r⟩ := r
  cases r with
  | size => simp [request]
  | call c =>
    cases c with
    | isProcessed key => simp [request, call]
    | markProcessed key => simp [request, call]
    | markIfNew key => by_cases h : LiveAt ttl.val now last key <;> simp [request, call, h]

end LastRecorded

namespace InMemoryIdempotencyStore

def request (store : InMemoryIdempotencyStore) :
    ℤ × Request → Answer × InMemoryIdempotencyStore
  | (now, .call c) => store.call now c
  | (now, .size) => (.int (store.size now), store)

/-- The dictionary has an entry for the key that expires after the instant. -/
def Unexpired (store : InMemoryIdempotencyStore) (t : ℤ) (key : String) : Prop :=
  ∃ expiresAt, get? store.expiry key = some expiresAt ∧ t < expiresAt

/-- From `now` on the entries that have not expired are the live keys of the ledger. -/
structure Agrees (ttl : Ttl) (now : ℤ) (store : InMemoryIdempotencyStore) (last : LastRecorded) :
    Prop where
  ttl_eq : store.ttl = ttl
  unexpired_iff : ∀ t, now ≤ t → ∀ key, store.Unexpired t key ↔ LiveAt ttl.val t last key

theorem Agrees.mono {ttl : Ttl} {now now' : ℤ} {store : InMemoryIdempotencyStore}
    {last : LastRecorded} (h : Agrees ttl now store last) (hle : now ≤ now') :
    Agrees ttl now' store last :=
  ⟨h.ttl_eq, fun t ht key => h.unexpired_iff t (hle.trans ht) key⟩

theorem agrees_empty (ttl : Ttl) (now : ℤ) : Agrees ttl now (empty ttl) fun _ => none := by
  refine ⟨rfl, fun t _ key => ?_⟩
  simp [Unexpired, empty, LiveAt]

theorem isLive_fst (store : InMemoryIdempotencyStore) (key : String) (now : ℤ) :
    (store.isLive key now).1 = true ↔ store.Unexpired now key := by
  cases h : get? store.expiry key with
  | none => simp [isLive, Unexpired, h]
  | some expiresAt =>
    by_cases hlt : now < expiresAt
    · simp [isLive, Unexpired, h, hlt]
    · simp [isLive, Unexpired, h, hlt]

theorem isLive_ttl (store : InMemoryIdempotencyStore) (key : String) (now : ℤ) :
    (store.isLive key now).2.ttl = store.ttl := by
  cases h : get? store.expiry key with
  | none => simp [isLive, h]
  | some expiresAt =>
    by_cases hlt : now < expiresAt
    · simp [isLive, h, hlt]
    · simp [isLive, h, hlt]

/-- The deletion on reading is not seen from the reading on. -/
theorem unexpired_isLive (store : InMemoryIdempotencyStore) {key : String} {now t : ℤ}
    (ht : now ≤ t) (key' : String) :
    (store.isLive key now).2.Unexpired t key' ↔ store.Unexpired t key' := by
  cases h : get? store.expiry key with
  | none => simp [isLive, h]
  | some expiresAt =>
    by_cases hlt : now < expiresAt
    · simp [isLive, h, hlt]
    · by_cases hk : key = key'
      · subst hk
        simp only [isLive, h, hlt, if_false, Unexpired, get?_erase, if_true]
        simp only [reduceCtorEq, false_and, exists_false, Option.some.injEq, false_iff]
        rintro ⟨e, rfl, he⟩
        omega
      · simp only [isLive, h, hlt, if_false, Unexpired, get?_erase, if_neg hk]

theorem mem_expired_iff (store : InMemoryIdempotencyStore) (now : ℤ) (key : String) :
    key ∈ keys (store.expiry.filter fun e => e.2 ≤ now) ↔
      ∃ expiresAt, get? store.expiry key = some expiresAt ∧ expiresAt ≤ now := by
  simp [keys, mem_iff_get? store.nodup]

theorem unexpired_purgeExpired (store : InMemoryIdempotencyStore) {now t : ℤ} (ht : now ≤ t)
    (key : String) : (store.purgeExpired now).Unexpired t key ↔ store.Unexpired t key := by
  simp only [Unexpired, purgeExpired, get?_foldl_erase, mem_expired_iff]
  by_cases hex : ∃ expiresAt, get? store.expiry key = some expiresAt ∧ expiresAt ≤ now
  · rw [if_pos hex]
    obtain ⟨e, he, hle⟩ := hex
    simp only [reduceCtorEq, false_and, exists_false, he, Option.some.injEq, false_iff]
    rintro ⟨e', rfl, hlt⟩
    omega
  · rw [if_neg hex]

theorem record_of_le {store : InMemoryIdempotencyStore} {now : ℤ}
    (h : now + store.ttl.val ≤ datetimeMax) (key : String) : store.record key now =
      (.ok (), ⟨store.ttl, assign (store.purgeExpired now).expiry key (now + store.ttl),
        nodup_keys_assign (store.purgeExpired now).nodup key _⟩) := by
  simp only [record, purgeExpired, addDelta_of_le h]

theorem record_of_lt {store : InMemoryIdempotencyStore} {now : ℤ}
    (h : datetimeMax < now + store.ttl.val) (key : String) :
    store.record key now = (.error dateOverflow, store.purgeExpired now) := by
  simp only [record, purgeExpired, addDelta_of_lt h]

theorem unexpired_record {store : InMemoryIdempotencyStore} {key : String} {now t : ℤ}
    (hdate : now + store.ttl.val ≤ datetimeMax) (ht : now ≤ t) (key' : String) :
    (store.record key now).2.Unexpired t key' ↔
      if key = key' then t < now + store.ttl.val else store.Unexpired t key' := by
  rw [← unexpired_purgeExpired store ht key', record_of_le hdate]
  by_cases hk : key = key'
  · simp [Unexpired, get?_assign, hk]
  · simp [Unexpired, get?_assign, hk]

theorem Agrees.isLive {ttl : Ttl} {now : ℤ} {store : InMemoryIdempotencyStore}
    {last : LastRecorded} (h : Agrees ttl now store last) (key : String) :
    Agrees ttl now (store.isLive key now).2 last := by
  refine ⟨(isLive_ttl store key now).trans h.ttl_eq, fun t ht key' => ?_⟩
  rw [unexpired_isLive store ht]
  exact h.unexpired_iff t ht key'

theorem Agrees.isLive_fst {ttl : Ttl} {now : ℤ} {store : InMemoryIdempotencyStore}
    {last : LastRecorded} (h : Agrees ttl now store last) (key : String) :
    (store.isLive key now).1 = decide (LiveAt ttl.val now last key) := by
  rw [Bool.eq_iff_iff, decide_eq_true_iff, ← h.unexpired_iff now le_rfl]
  exact InMemoryIdempotencyStore.isLive_fst store key now

theorem Agrees.purgeExpired {ttl : Ttl} {now : ℤ} {store : InMemoryIdempotencyStore}
    {last : LastRecorded} (h : Agrees ttl now store last) :
    Agrees ttl now (store.purgeExpired now) last := by
  refine ⟨h.ttl_eq, fun t ht key => ?_⟩
  rw [unexpired_purgeExpired store ht]
  exact h.unexpired_iff t ht key

theorem Agrees.record {ttl : Ttl} {now : ℤ} {store : InMemoryIdempotencyStore}
    {last : LastRecorded} (h : Agrees ttl now store last) (hdate : now + ttl.val ≤ datetimeMax)
    (key : String) : (store.record key now).1 = .ok () ∧
      Agrees ttl now (store.record key now).2 (ExpiringLedger.record last key now) := by
  rw [← h.ttl_eq] at hdate
  refine ⟨by rw [record_of_le hdate], ?_, fun t ht key' => ?_⟩
  · rw [record_of_le hdate]
    exact h.ttl_eq
  · rw [unexpired_record hdate ht, liveAt_record, h.ttl_eq, h.unexpired_iff t ht]

theorem Agrees.record_overflow {ttl : Ttl} {now : ℤ} {store : InMemoryIdempotencyStore}
    {last : LastRecorded} (h : Agrees ttl now store last) (hdate : datetimeMax < now + ttl.val)
    (key : String) : (store.record key now).1 = .error dateOverflow ∧
      Agrees ttl now (store.record key now).2 last := by
  rw [record_of_lt (h.ttl_eq ▸ hdate)]
  exact ⟨rfl, h.purgeExpired⟩

theorem Agrees.size {ttl : Ttl} {now : ℤ} {store : InMemoryIdempotencyStore}
    {last : LastRecorded} (h : Agrees ttl now store last) :
    store.size now = liveCount ttl.val now last := by
  have hcount := length_filter_eq_ncard store.nodup fun expiresAt => decide (now < expiresAt)
  rw [InMemoryIdempotencyStore.size, hcount, liveCount]
  congr 1
  ext key
  rw [Set.mem_ofPred_eq, Set.mem_ofPred_eq, ← h.unexpired_iff now le_rfl]
  simp [Unexpired]

theorem markIfNew_of_live {store : InMemoryIdempotencyStore} {key : String} {now : ℤ}
    (h : (store.isLive key now).1 = true) :
    store.markIfNew now key = (.ok false, (store.isLive key now).2) := by
  simp only [markIfNew, h, if_true]

theorem markIfNew_of_not_live {store : InMemoryIdempotencyStore} {key : String} {now : ℤ}
    (h : (store.isLive key now).1 = false) : store.markIfNew now key =
      (((store.isLive key now).2.record key now).1.map fun _ => true,
        ((store.isLive key now).2.record key now).2) := by
  simp only [markIfNew, h, Bool.false_eq_true, if_false]
  rfl

/-- A call that records its key takes it in the guarded ledger too, or raises there too. -/
theorem Agrees.record_dated {ttl : Ttl} {now : ℤ} {store : InMemoryIdempotencyStore}
    {last : LastRecorded} (h : Agrees ttl now store last) {c : Call} {key : String} {answer : Answer}
    (hrecords : LastRecorded.Records ttl last now c)
    (hcall : LastRecorded.call ttl last now c = (answer, ExpiringLedger.record last key now)) :
    Answer.ofExcept (fun _ => answer) (store.record key now).1 =
        (LastRecorded.dated ttl last (now, .call c)).1 ∧
      Agrees ttl now (store.record key now).2 (LastRecorded.dated ttl last (now, .call c)).2 := by
  rcases le_or_gt (now + ttl.val) datetimeMax with hdate | hdate
  · rw [LastRecorded.dated_call fun _ => hdate, hcall]
    obtain ⟨hok, hagrees⟩ := h.record hdate key
    exact ⟨by rw [hok]; rfl, hagrees⟩
  · rw [LastRecorded.dated_call_of_lt hrecords hdate]
    obtain ⟨hraised, hagrees⟩ := h.record_overflow hdate key
    exact ⟨by rw [hraised]; rfl, hagrees⟩

/-- A call at an instant gives the answer of the guarded ledger and keeps the agreement. -/
theorem Agrees.call {ttl : Ttl} {now : ℤ} {store : InMemoryIdempotencyStore}
    {last : LastRecorded} (h : Agrees ttl now store last) (c : Call) :
    (store.call now c).1 = (LastRecorded.dated ttl last (now, .call c)).1 ∧
      Agrees ttl now (store.call now c).2 (LastRecorded.dated ttl last (now, .call c)).2 := by
  cases c with
  | isProcessed key =>
    rw [LastRecorded.dated_call False.elim]
    exact ⟨congrArg Answer.bool (h.isLive_fst key), h.isLive key⟩
  | markProcessed key => exact h.record_dated trivial rfl
  | markIfNew key =>
    have hcall : store.call now (.markIfNew key) =
        (Answer.ofExcept Answer.bool (store.markIfNew now key).1, (store.markIfNew now key).2) := rfl
    have hread := h.isLive_fst key
    rw [hcall]
    by_cases hlive : LiveAt ttl.val now last key
    · rw [decide_eq_true hlive] at hread
      rw [LastRecorded.dated_call (c := .markIfNew key) fun hnot => absurd hlive hnot,
        markIfNew_of_live hread]
      simp only [LastRecorded.call, if_pos hlive]
      exact ⟨rfl, h.isLive key⟩
    · rw [decide_eq_false hlive] at hread
      have hledger : LastRecorded.call ttl last now (.markIfNew key) =
          (.bool true, ExpiringLedger.record last key now) := if_neg hlive
      obtain ⟨hanswer, hagrees⟩ := (h.isLive key).record_dated (c := .markIfNew key) hlive hledger
      rw [markIfNew_of_not_live hread, ← hanswer]
      refine ⟨?_, hagrees⟩
      cases ((store.isLive key now).2.record key now).1 with
      | ok => rfl
      | error e => rfl

theorem Agrees.request {ttl : Ttl} {now : ℤ} {store : InMemoryIdempotencyStore}
    {last : LastRecorded} (h : Agrees ttl now store last) (r : Request) :
    (store.request (now, r)).1 = (LastRecorded.dated ttl last (now, r)).1 ∧
      Agrees ttl now (store.request (now, r)).2 (LastRecorded.dated ttl last (now, r)).2 := by
  cases r with
  | call c => exact h.call c
  | size => exact ⟨congrArg Answer.int h.size, h⟩

theorem outputs_request_of_agrees {ttl : Ttl} {store : InMemoryIdempotencyStore}
    {last : LastRecorded} {requests : List (ℤ × Request)}
    (hmono : (requests.map Prod.fst).Pairwise (· ≤ ·))
    (h : ∀ r ∈ requests.head?, Agrees ttl r.1 store last) :
    Mealy.outputs request store requests = Mealy.outputs (LastRecorded.dated ttl) last requests := by
  apply Mealy.outputs_eq (R := fun store last rest => (rest.map Prod.fst).Pairwise (· ≤ ·) ∧
    ∀ r ∈ rest.head?, Agrees ttl r.1 store last)
  · rintro store last ⟨now, r⟩ rest ⟨hmono, h⟩
    obtain ⟨hfirst, hmono⟩ := List.pairwise_cons.mp hmono
    obtain ⟨hanswer, hnext⟩ := (h (now, r) rfl).request r
    refine ⟨hanswer, hmono, fun r' hr' => hnext.mono ?_⟩
    apply hfirst
    exact List.mem_map_of_mem (List.mem_of_head? hr')
  · exact ⟨hmono, h⟩

/-- The constructor accepts every positive `ttl`. While the clock does not run backwards the new
store answers as the guarded ledger does, and as the ledger of last recordings exactly if none of
its recordings would be retained past the last date. -/
theorem outputs_request_eq_ledger (ttl : ℤ) (hpos : 0 < ttl) :
    ∃ store, new ttl = .ok store ∧ ∀ requests : List (ℤ × Request),
      (requests.map Prod.fst).Pairwise (· ≤ ·) →
        Mealy.outputs request store requests =
            Mealy.outputs (LastRecorded.dated ⟨ttl, hpos⟩) (fun _ => none) requests ∧
          (Mealy.outputs request store requests =
              Mealy.outputs (LastRecorded.request ⟨ttl, hpos⟩) (fun _ => none) requests ↔
            Mealy.Along (fun last r => ¬ LastRecorded.PastDate ⟨ttl, hpos⟩ last r)
              (LastRecorded.request ⟨ttl, hpos⟩) (fun _ => none) requests) := by
  refine ⟨empty ⟨ttl, hpos⟩, by rw [new, validateTtl_of_pos hpos]; rfl, fun requests hmono => ?_⟩
  have h := outputs_request_of_agrees hmono fun r _ => agrees_empty ⟨ttl, hpos⟩ r.1
  refine ⟨h, ?_⟩
  rw [h]
  exact Mealy.outputs_guarded_iff (fun last r => LastRecorded.request_ne_raised _ last r _) _ _

/-- A key is taken again on the very instant its retention ends. -/
theorem outputs_request_boundary : ∃ store, new 10 = .ok store ∧
    Mealy.outputs request store [(0, .call (.markIfNew "a")), (9, .call (.markIfNew "a")),
      (10, .call (.isProcessed "a")), (10, .call (.markIfNew "a")), (15, .size)] =
    Mealy.outputs (LastRecorded.dated ⟨10, by decide⟩) (fun _ => none)
      [(0, .call (.markIfNew "a")), (9, .call (.markIfNew "a")),
      (10, .call (.isProcessed "a")), (10, .call (.markIfNew "a")), (15, .size)] ∧
    Mealy.outputs request store [(0, .call (.markIfNew "a")), (9, .call (.markIfNew "a")),
      (10, .call (.isProcessed "a")), (10, .call (.markIfNew "a")), (15, .size)] =
    [.bool true, .bool false, .bool false, .bool true, .int 1] := by
  obtain ⟨store, hnew, h⟩ := outputs_request_eq_ledger 10 (by decide)
  refine ⟨store, hnew, (h _ (by decide)).1, ?_⟩
  cases hnew
  decide

/-- Three million days from the year 2026 on end after the last date: the store raises where the
ledger takes the key. -/
theorem outputs_request_past_date : ∃ store, new 259200000000000000 = .ok store ∧
    Mealy.outputs request store [(1785576600000000, .call (.markIfNew "a"))] =
      [.raised dateOverflow] ∧
    Mealy.outputs (LastRecorded.request ⟨259200000000000000, by decide⟩) (fun _ => none)
      [(1785576600000000, .call (.markIfNew "a"))] = [.bool true] := by
  refine ⟨_, rfl, by decide, ?_⟩
  simp [Mealy.outputs, LastRecorded.request, LastRecorded.call, LiveAt]

end InMemoryIdempotencyStore

end IdempotencyStore
