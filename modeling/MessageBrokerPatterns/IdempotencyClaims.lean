import MessageBrokerPatterns.IdempotencyClients

/-!
# Claims in Redis and who was told of them

`SADD` makes the claim, the return of `mark_if_new` tells the caller of it. A call that fails in
between leaves a claim that nobody holds, and refuses the key to every later call until the set
expires. A claim stands while its key is in the set, or when a call was refused because of it.
When no call fails whose claim stands, whoever is refused is refused for the sake of a call that
ended normally.
-/

namespace IdempotencyStore
open RedisSet
variable {ι : Type*}

/-- The call that put the key into the set that exists. -/
def adder (key : String) : List (Event ι) → Option ι
  | [] => none
  | .created :: _ => none
  | .dropped :: _ => none
  | .completed _ :: history => adder key history
  | .sadd i k n :: history => if k = key ∧ n ≠ 0 then some i else adder key history

/-- The `SADD` of `i` found the key that `j` had put into the set. -/
def Hit (history : List (Event ι)) (i : ι) (key : String) (j : ι) : Prop :=
  ∃ past, (.sadd i key 0 :: past) <:+ history ∧ adder key past = some j

theorem hit_cons {e : Event ι} {history : List (Event ι)} {i j : ι} {key : String} :
    Hit (e :: history) i key j ↔
      (e = .sadd i key 0 ∧ adder key history = some j) ∨ Hit history i key j := by
  constructor
  · rintro ⟨past, hs, hj⟩
    rcases List.suffix_cons_iff.mp hs with heq | hs
    · obtain ⟨rfl, rfl⟩ := List.cons.inj heq
      exact Or.inl ⟨rfl, hj⟩
    · exact Or.inr ⟨past, hs, hj⟩
  · rintro (⟨rfl, hj⟩ | ⟨past, hs, hj⟩)
    · exact ⟨history, List.suffix_refl _, hj⟩
    · exact ⟨past, hs.trans (List.suffix_cons e history), hj⟩

theorem hit_turn {before after : Entry String} {history : List (Event ι)} {i j : ι} {key : String} :
    Hit (turn before after ++ history) i key j ↔ Hit history i key j := by
  cases before with
  | none =>
    cases after with
    | none => rfl
    | some v => simp [turn, hit_cons]
  | some u =>
    cases after with
    | none => simp [turn, hit_cons]
    | some v => rfl

/-- The phases of a call whose `SADD` added the key. -/
def Claims (key : String) (p : Phase) : Prop :=
  (∃ c n, p = .added c n ∧ n ≠ 0 ∧ c.Marks key) ∨ p = .ended (.markIfNew key) (.bool true) ∨
    p = .ended (.markProcessed key) .none ∨ ∃ c, p = .failed c ∧ c.Marks key

/-- The caller was told, or nobody was to be told. -/
def EndedNormally (key : String) (p : Phase) : Prop :=
  p = .ended (.markIfNew key) (.bool true) ∨ p = .ended (.markProcessed key) .none

structure Sound (w : World ι) : Prop where
  mem_iff : ∀ key, mem w.entry key = true ↔ ∃ j, adder key w.history = some j
  adder_claims : ∀ key j, adder key w.history = some j → Claims key (w.phase j)
  hit_claims : ∀ i key j, Hit w.history i key j → Claims key (w.phase j)
  hit_of_added : ∀ i c key, w.phase i = .added c 0 → c.Marks key → ∃ j, Hit w.history i key j
  hit_of_refused : ∀ i key, w.phase i = .ended (.markIfNew key) (.bool false) →
    ∃ j, Hit w.history i key j

theorem sound_init (now : ℤ) : Sound (World.init now : World ι) := by
  have hnone : ∀ i key j, ¬ Hit ([] : List (Event ι)) i key j := by
    rintro i key j ⟨past, hs, _⟩
    exact absurd (List.suffix_nil.mp hs) (List.cons_ne_nil _ _)
  refine ⟨fun key => ?_, fun key j h => ?_, fun i key j h => ?_, fun i c key h => ?_,
    fun i key h => ?_⟩
  · simp [World.init, adder]
  · cases h
  · exact absurd h (hnone i key j)
  · cases h
  · cases h

theorem Call.Marks.key_eq {c : Call} {key : String} (h : c.Marks key) : c.key = key := by
  obtain rfl | rfl := h
  · rfl
  · rfl

theorem Sound.adder_turn {w : World ι} (h : Sound w) (v : Value String) (key : String) :
    adder key (turn w.entry (some v) ++ w.history) = adder key w.history := by
  cases hw : w.entry with
  | none =>
    have hn : ¬ ∃ j, adder key w.history = some j := by
      rw [← h.mem_iff, hw, mem_none]
      exact Bool.false_ne_true
    simp only [turn, List.singleton_append, adder]
    cases ha : adder key w.history with
    | none => rfl
    | some j => exact absurd ⟨j, ha⟩ hn
  | some u => rfl

theorem not_claims_begun {key : String} {c : Call} : ¬ Claims key (.begun c) := by
  simp [Claims]

theorem adder_hold {w : World ι} {entry : Entry String} {key : String} {j : ι}
    (hj : adder key (w.hold entry []).history = some j) : adder key w.history = some j := by
  cases hw : w.entry with
  | none =>
    cases he : entry with
    | none => simpa [World.hold, hw, he, turn] using hj
    | some v => simp [World.hold, hw, he, turn, adder] at hj
  | some u =>
    cases he : entry with
    | none => simp [World.hold, hw, he, turn, adder] at hj
    | some v => simpa [World.hold, hw, he, turn] using hj

theorem Sound.hold {w : World ι} (h : Sound w) {entry : Entry String}
    (hentry : entry = none ∨
      (entry.isSome = w.entry.isSome ∧ ∀ k, mem entry k = mem w.entry k)) :
    Sound (w.hold entry []) := by
  refine ⟨fun key => ?_, fun key j hj => h.adder_claims key j (adder_hold hj), ?_, ?_, ?_⟩
  · rcases hentry with rfl | ⟨hsome, hmem⟩
    · simp only [World.hold_entry, mem_none, Bool.false_eq_true, false_iff]
      rintro ⟨j, hj⟩
      cases hw : w.entry with
      | none =>
        have hm := (h.mem_iff key).mpr ⟨j, adder_hold hj⟩
        rw [hw] at hm
        cases hm
      | some u => simp [World.hold, hw, turn, adder] at hj
    · have hturn : turn w.entry entry = ([] : List (Event ι)) := by
        cases hw : w.entry with
        | none =>
          cases he : entry with
          | none => rfl
          | some v => simp [hw, he] at hsome
        | some u =>
          cases he : entry with
          | none => simp [hw, he] at hsome
          | some v => rfl
      simp only [World.hold, hturn, List.nil_append, hmem]
      exact h.mem_iff key
  · intro i key j hh
    exact h.hit_claims i key j (hit_turn.mp hh)
  · intro i c key hp hc
    exact (h.hit_of_added i c key hp hc).imp fun j => hit_turn.mpr
  · intro i key hp
    exact (h.hit_of_refused i key hp).imp fun j => hit_turn.mpr

theorem hit_completed {history : List (Event ι)} {i j k : ι} {key : String} :
    Hit (.completed k :: history) i key j ↔ Hit history i key j := by
  simp [hit_cons]

theorem Sound.completed {w : World ι} (h : Sound w) (i : ι) :
    Sound { w with history := .completed i :: w.history } :=
  ⟨h.mem_iff, h.adder_claims, fun i key j hh => h.hit_claims i key j (hit_completed.mp hh),
    fun i c key hp hc => (h.hit_of_added i c key hp hc).imp fun _ => hit_completed.mpr,
    fun i key hp => (h.hit_of_refused i key hp).imp fun _ => hit_completed.mpr⟩

/-- The claim of a call is in the set, or has refused the key to someone. -/
def Stands (w : World ι) (i : ι) (key : String) : Prop :=
  adder key w.history = some i ∨ ∃ j, Hit w.history j key i

/-- No call fails whose claim stands. -/
def ClaimKept (w : World ι) (a : Action ι) : Prop :=
  ∀ i, a = .fail i → ∀ key, ¬ Stands w i key

def NoOrphan (w : World ι) : Prop := ∀ i key, Stands w i key → ∀ c, w.phase i ≠ .failed c

def AllEnded (w : World ι) : Prop :=
  ∀ i c, w.phase i ≠ .begun c ∧ ∀ n, w.phase i ≠ .added c n

/-- Whoever was refused was refused for the sake of a call that ended normally, and a call that
failed has not left its key taken. -/
structure RefusalsTold (w : World ι) : Prop where
  hit : AllEnded w → ∀ i key, w.phase i = .ended (.markIfNew key) (.bool false) →
    (∃ j, Hit w.history i key j) ∧ ∀ j, Hit w.history i key j → EndedNormally key (w.phase j)
  claimable : ∀ i key, w.phase i = .failed (.markIfNew key) → mem w.entry key = true →
    ∃ j, j ≠ i ∧ adder key w.history = some j ∧ ∀ c, w.phase j ≠ .failed c

theorem endedNormally_of_claims {key : String} {p : Phase} (h : Claims key p)
    (hadded : ∀ c n, p ≠ .added c n) (hfailed : ∀ c, p ≠ .failed c) : EndedNormally key p := by
  rcases h with ⟨c, n, hp, _⟩ | hp | hp | ⟨c, hp, _⟩
  · exact absurd hp (hadded c n)
  · exact Or.inl hp
  · exact Or.inr hp
  · exact absurd hp (hfailed c)

theorem Sound.refusalsTold {w : World ι} (h : Sound w) (ho : NoOrphan w) : RefusalsTold w := by
  constructor
  · intro hended i key hi
    refine ⟨h.hit_of_refused i key hi, fun j hj => ?_⟩
    apply endedNormally_of_claims (h.hit_claims i key j hj)
    · intro c
      exact (hended j c).2
    · exact ho j key (Or.inr ⟨i, hj⟩)
  · intro i key hi hm
    obtain ⟨j, hj⟩ := (h.mem_iff key).mp hm
    refine ⟨j, ?_, hj, ho j key (Or.inl hj)⟩
    rintro rfl
    exact ho j key (Or.inl hj) _ hi

theorem noOrphan_init (now : ℤ) : NoOrphan (World.init now : World ι) := by
  intro i key _ c h
  cases h

variable [DecidableEq ι] {millis : ℤ → ℤ} {ttl : ι → Ttl}

theorem Sound.enter {w : World ι} (h : Sound w) {i : ι} {p : Phase}
    (hclaims : ∀ key, Claims key (w.phase i) → Claims key p)
    (hadded : ∀ c key, p = .added c 0 → c.Marks key → ∃ j, Hit w.history i key j)
    (hrefused : ∀ key, p = .ended (.markIfNew key) (.bool false) → ∃ j, Hit w.history i key j) :
    Sound (w.enter i p) := by
  have hkeep : ∀ key j, Claims key (w.phase j) → Claims key ((w.enter i p).phase j) := by
    intro key j hj
    by_cases hji : j = i
    · subst hji
      rw [World.enter_phase_self]
      exact hclaims key hj
    · rw [World.enter_phase_of_ne w hji]
      exact hj
  refine ⟨h.mem_iff, fun key j hj => hkeep key j (h.adder_claims key j hj),
    fun i key j hh => hkeep key j (h.hit_claims i key j hh), fun j c key hp hc => ?_,
    fun j key hp => ?_⟩
  · by_cases hji : j = i
    · subst hji
      rw [World.enter_phase_self] at hp
      exact hadded c key hp hc
    · rw [World.enter_phase_of_ne w hji] at hp
      exact h.hit_of_added j c key hp hc
  · by_cases hji : j = i
    · subst hji
      rw [World.enter_phase_self] at hp
      exact hrefused key hp
    · rw [World.enter_phase_of_ne w hji] at hp
      exact h.hit_of_refused j key hp

theorem Sound.pexpire {w : World ι} (h : Sound w) {i : ι} {c : Call} {n : ℕ}
    (hi : w.phase i = .added c n) (millis : ℤ) : Sound (w.pexpire millis i c n) := by
  have hheld : Sound (w.hold (RedisSet.pexpire w.now w.entry millis true).2 [.completed i]) :=
    (h.hold (pexpire_members w.now w.entry millis true)).completed i
  apply hheld.enter
  · intro key hk
    rw [World.hold_phase, hi] at hk
    rcases hk with ⟨c', n', heq, hn, hc⟩ | heq | heq | ⟨c', heq, _⟩
    · cases heq
      obtain rfl | rfl := hc
      · exact Or.inr (Or.inr (Or.inl rfl))
      · right
        left
        simp [Call.result, hn]
    · cases heq
    · cases heq
    · cases heq
  · intro c' key hp
    cases hp
  · intro key hp
    cases c with
    | isProcessed k => cases hp
    | markProcessed k => cases hp
    | markIfNew k =>
      simp only [Call.result, Phase.ended.injEq, Call.markIfNew.injEq, Answer.bool.injEq,
        decide_eq_false_iff_not, ne_eq, not_not] at hp
      obtain ⟨rfl, rfl⟩ := hp
      obtain ⟨j, hj⟩ := h.hit_of_added i _ k hi (Or.inr rfl)
      exact ⟨j, hit_completed.mpr (hit_turn.mpr hj)⟩

theorem Sound.adder_sadd {w : World ι} (h : Sound w) (i : ι) (c : Call) (key : String) :
    adder key (w.sadd i c).history =
      if c.key = key ∧ mem w.entry c.key = false then some i else adder key w.history := by
  obtain ⟨v, hv⟩ := Option.ne_none_iff_exists'.mp (sadd_ne_none w.entry c.key)
  have hturn := h.adder_turn v key
  simp only [World.sadd, World.enter_history, World.hold, List.singleton_append, adder, hv, hturn,
    sadd_fst]
  cases mem w.entry c.key with
  | true => simp
  | false => simp

theorem Sound.hit_sadd {w : World ι} (h : Sound w) {i i' j : ι} {c : Call} {key : String} :
    Hit (w.sadd i c).history i' key j ↔
      (i' = i ∧ c.key = key ∧ mem w.entry key = true ∧ adder key w.history = some j) ∨
        Hit w.history i' key j := by
  obtain ⟨v, hv⟩ := Option.ne_none_iff_exists'.mp (sadd_ne_none w.entry c.key)
  have hturn := h.adder_turn v key
  simp only [World.sadd, World.enter_history, World.hold, List.singleton_append, hit_cons,
    hit_turn, hv, hturn, sadd_fst, Event.sadd.injEq]
  apply or_congr_left
  constructor
  · rintro ⟨⟨rfl, rfl, hn⟩, hj⟩
    exact ⟨rfl, rfl, by simpa using hn, hj⟩
  · rintro ⟨rfl, rfl, hm, hj⟩
    exact ⟨⟨rfl, rfl, by simp [hm]⟩, hj⟩

theorem Sound.sadd {w : World ι} (h : Sound w) {i : ι} {c : Call} (hi : w.phase i = .begun c)
    (hc : c.Marks c.key) : Sound (w.sadd i c) := by
  have hne : ∀ {key j}, Claims key (w.phase j) → j ≠ i := by
    rintro key j hj rfl
    rw [hi] at hj
    exact not_claims_begun hj
  have hphase : ∀ {j}, j ≠ i → (w.sadd i c).phase j = w.phase j := fun hji =>
    World.enter_phase_of_ne _ hji _
  have hself : (w.sadd i c).phase i = .added c (if mem w.entry c.key then 0 else 1) := by
    rw [← sadd_fst]
    exact World.enter_phase_self _ _ _
  constructor
  · intro key
    rw [h.adder_sadd, World.sadd, World.enter_entry, World.hold_entry, mem_sadd]
    by_cases hk : c.key = key
    · subst hk
      cases hm : mem w.entry c.key with
      | true => simpa using (h.mem_iff c.key).mp hm
      | false => simp
    · simp [hk, Ne.symm hk, h.mem_iff]
  · intro key j hj
    rw [h.adder_sadd] at hj
    by_cases hk : c.key = key ∧ mem w.entry c.key = false
    · rw [if_pos hk, Option.some.injEq] at hj
      subst hj
      left
      refine ⟨c, 1, ?_, Nat.one_ne_zero, hk.1 ▸ hc⟩
      rw [hself, hk.2]
      rfl
    · rw [if_neg hk] at hj
      have hcl := h.adder_claims key j hj
      rw [hphase (hne hcl)]
      exact hcl
  · intro i' key j hj
    rcases h.hit_sadd.mp hj with ⟨_, _, _, hj⟩ | hj
    · have hcl := h.adder_claims key j hj
      rw [hphase (hne hcl)]
      exact hcl
    · have hcl := h.hit_claims i' key j hj
      rw [hphase (hne hcl)]
      exact hcl
  · intro i' c' key hp hc'
    by_cases hi' : i' = i
    · subst hi'
      rw [hself, Phase.added.injEq] at hp
      obtain ⟨rfl, hn⟩ := hp
      have hkey := hc'.key_eq
      have hm : mem w.entry key = true := by
        rw [← hkey]
        by_contra hm
        simp [hm] at hn
      obtain ⟨j, hj⟩ := (h.mem_iff key).mp hm
      exact ⟨j, h.hit_sadd.mpr (Or.inl ⟨rfl, hkey, hm, hj⟩)⟩
    · rw [hphase hi'] at hp
      exact (h.hit_of_added i' c' key hp hc').imp fun j hj => h.hit_sadd.mpr (Or.inr hj)
  · intro i' key hp
    by_cases hi' : i' = i
    · subst hi'
      rw [hself] at hp
      cases hp
    · rw [hphase hi'] at hp
      exact (h.hit_of_refused i' key hp).imp fun j hj => h.hit_sadd.mpr (Or.inr hj)

theorem sound_step {w t : World ι} {a : Action ι} (h : Sound w)
    (hstep : World.step millis ttl w a = some t) : Sound t := by
  cases World.step_cases hstep with
  | call hi =>
    apply h.enter
    · intro key hk
      rw [hi] at hk
      simp [Claims] at hk
    · intro c key hp
      cases hp
    · intro key hp
      cases hp
  | sismember hi =>
    apply h.enter
    · intro key hk
      rw [hi] at hk
      exact absurd hk not_claims_begun
    · intro c key hp
      cases hp
    · intro key hp
      cases hp
  | sadd hi hc => exact h.sadd hi hc
  | pexpire hi => exact h.pexpire hi _
  | fail hi =>
    apply h.enter
    · intro key hk
      rcases hi with hi | ⟨n, hi⟩
      · rw [hi] at hk
        exact absurd hk not_claims_begun
      · rw [hi] at hk
        rcases hk with ⟨c', n', heq, _, hc⟩ | heq | heq | ⟨c', heq, _⟩
        · cases heq
          exact Or.inr (Or.inr (Or.inr ⟨_, rfl, hc⟩))
        · cases heq
        · cases heq
        · cases heq
    · intro c key hp
      cases hp
    · intro key hp
      cases hp
  | expire _ => exact h.hold (Or.inl rfl)
  | tick d => exact ⟨h.mem_iff, h.adder_claims, h.hit_claims, h.hit_of_added, h.hit_of_refused⟩

theorem Sound.stands_of_step {w t : World ι} {a : Action ι} (h : Sound w)
    (hstep : World.step millis ttl w a = some t) {i : ι} {key : String} (hs : Stands t i key) :
    Stands w i key ∨ ∃ c n, t.phase i = .added c n := by
  cases World.step_cases hstep with
  | call _ => exact Or.inl hs
  | sismember _ => exact Or.inl hs
  | sadd hi hc =>
    rcases hs with hs | ⟨j, hs⟩
    · rw [h.adder_sadd] at hs
      split at hs
      · cases hs
        exact Or.inr ⟨_, _, World.enter_phase_self _ _ _⟩
      · exact Or.inl (Or.inl hs)
    · rcases h.hit_sadd.mp hs with ⟨_, _, _, hs⟩ | hs
      · exact Or.inl (Or.inl hs)
      · exact Or.inl (Or.inr ⟨j, hs⟩)
  | pexpire hi =>
    left
    rcases hs with hs | ⟨j, hs⟩
    · exact Or.inl (adder_hold hs)
    · exact Or.inr ⟨j, hit_turn.mp (hit_completed.mp hs)⟩
  | fail _ => exact Or.inl hs
  | expire _ =>
    left
    rcases hs with hs | ⟨j, hs⟩
    · exact Or.inl (adder_hold hs)
    · exact Or.inr ⟨j, hit_turn.mp hs⟩
  | tick d => exact Or.inl hs

/-- Only a failing call comes to have failed. -/
theorem failed_of_step {w t : World ι} {a : Action ι} (hstep : World.step millis ttl w a = some t)
    {i : ι} {c : Call} (ht : t.phase i = .failed c) : w.phase i = .failed c ∨ a = .fail i := by
  have hother : ∀ {j : ι} {u : World ι} {p : Phase}, t = u.enter j p → u.phase = w.phase →
      (∀ c, p ≠ .failed c) → w.phase i = .failed c := by
    rintro j u p rfl hu hp
    by_cases hij : i = j
    · subst hij
      rw [World.enter_phase_self] at ht
      exact absurd ht (hp c)
    · rw [World.enter_phase_of_ne u hij, hu] at ht
      exact ht
  cases World.step_cases hstep with
  | call _ => exact Or.inl (hother rfl rfl fun c => (by simp))
  | sismember _ => exact Or.inl (hother rfl rfl fun c => (by simp))
  | sadd _ _ => exact Or.inl (hother rfl rfl fun c => (by simp))
  | pexpire _ => exact Or.inl (hother rfl rfl fun c => (by simp))
  | @fail j c' _ =>
    by_cases hij : i = j
    · exact Or.inr (hij ▸ rfl)
    · rw [World.enter_phase_of_ne w hij] at ht
      exact Or.inl ht
  | expire _ => exact Or.inl ht
  | tick d => exact Or.inl ht

/-- A step keeps the standing claims unfailed exactly if it fails none of them. -/
theorem claimKept_iff {w t : World ι} {a : Action ι} (h : Sound w) (ho : NoOrphan w)
    (hstep : World.step millis ttl w a = some t) : ClaimKept w a ↔ NoOrphan t := by
  constructor
  · intro hk i key hs c hf
    rcases h.stands_of_step hstep hs with hw | ⟨c', n, hp⟩
    · rcases failed_of_step hstep hf with hf | rfl
      · exact ho i key hw c hf
      · exact hk i rfl key hw
    · rw [hp] at hf
      cases hf
  · rintro ht i rfl key hs
    cases World.step_cases hstep with
    | fail hi => exact ht i key hs _ (World.enter_phase_self _ _ _)

namespace World

/-- A run fails no call whose claim stands exactly if no failed call ever has a standing claim,
and then every refusal is told. -/
theorem refusals_told_of_claims_kept (millis : ℤ → ℤ) (ttl : ι → Ttl) (now : ℤ)
    (actions : List (Action ι)) (w : World ι)
    (hrun : ActionRun.run (step millis ttl) (init now) actions = some w) :
    (ActionRun.Along (step millis ttl) ClaimKept (init now) actions ↔
      ActionRun.Throughout (step millis ttl) NoOrphan (init now) actions) ∧
    (ActionRun.Along (step millis ttl) ClaimKept (init now) actions → RefusalsTold w) := by
  constructor
  · exact ActionRun.along_iff_throughout (fun s a t => sound_step)
      (fun s a t hs ho hst => claimKept_iff hs ho hst) (sound_init now) (noOrphan_init now) hrun
  · intro hkept
    have h := ActionRun.run_invariant (I := fun v => Sound v ∧ NoOrphan v)
      (fun s a t hs hc hst => ⟨sound_step hs.1 hst, (claimKept_iff hs.1 hs.2 hst).mp hc⟩)
      ⟨sound_init now, noOrphan_init now⟩ hkept hrun
    exact h.1.refusalsTold h.2

/-- Three calls for one key: the first fails before its `SADD`, the third is refused because of the
second. -/
theorem refusals_told_three_calls :
    ∃ w, ActionRun.run (step (· / 1000) fun _ => ⟨1000, by decide⟩) (init 0 : World ℕ)
        [.call 0 (.markIfNew "k"), .fail 0, .call 1 (.markIfNew "k"), .call 2 (.markIfNew "k"),
          .command 1, .command 2, .command 2, .command 1] = some w ∧
      w.phase 0 = .failed (.markIfNew "k") ∧
      w.phase 2 = .ended (.markIfNew "k") (.bool false) ∧ RefusalsTold w := by
  obtain ⟨w, hw, hf, hp⟩ :
      ∃ w, ActionRun.run (step (· / 1000) fun _ => ⟨1000, by decide⟩) (init 0 : World ℕ)
          [.call 0 (.markIfNew "k"), .fail 0, .call 1 (.markIfNew "k"), .call 2 (.markIfNew "k"),
            .command 1, .command 2, .command 2, .command 1] = some w ∧
        w.phase 0 = .failed (.markIfNew "k") ∧
        w.phase 2 = .ended (.markIfNew "k") (.bool false) := ⟨_, rfl, rfl, rfl⟩
  have h := refusals_told_of_claims_kept (· / 1000) (fun _ => ⟨1000, by decide⟩) 0 _ w hw
  refine ⟨w, hw, hf, hp, h.2 ?_⟩
  -- only the second action fails a call, and no claim stands then
  refine ⟨fun i hi => (by cases hi), fun t ht => ?_⟩
  cases ht
  refine ⟨fun i hi key hs => ?_, fun t ht => ?_⟩
  · cases hi
    rcases hs with hs | ⟨j, rest, hsuffix, -⟩
    · cases hs
    · cases List.suffix_nil.mp hsuffix
  · cases ht
    apply ActionRun.along_of_forall
    intro a ha s i hi
    subst hi
    simp at ha

/-- A call fails after its `SADD`: nobody holds the claim, and the next call is refused. -/
theorem failed_claim_refuses :
    ∃ w, ActionRun.run (step (· / 1000) fun _ => ⟨1000, by decide⟩) (init 0 : World Bool)
        [.call false (.markIfNew "k"), .command false, .fail false, .call true (.markIfNew "k"),
          .command true, .command true] = some w ∧
      AllEnded w ∧ w.phase true = .ended (.markIfNew "k") (.bool false) ∧
      Hit w.history true "k" false ∧ w.phase false = .failed (.markIfNew "k") ∧
      ¬ RefusalsTold w := by
  obtain ⟨w, hw, ht, hf, hh⟩ :
      ∃ w, ActionRun.run (step (· / 1000) fun _ => ⟨1000, by decide⟩) (init 0 : World Bool)
          [.call false (.markIfNew "k"), .command false, .fail false, .call true (.markIfNew "k"),
            .command true, .command true] = some w ∧
        w.phase true = .ended (.markIfNew "k") (.bool false) ∧
        w.phase false = .failed (.markIfNew "k") ∧
        w.history = [.completed true, .sadd true "k" 0, .sadd false "k" 1, .created] :=
    ⟨_, rfl, rfl, rfl, rfl⟩
  have hended : AllEnded w := by
    intro i c
    cases i with
    | false => simp [hf]
    | true => simp [ht]
  have hhit : Hit w.history true "k" false := by
    rw [hh]
    exact ⟨[.sadd false "k" 1, .created], List.suffix_cons _ _, by decide⟩
  refine ⟨w, hw, hended, ht, hhit, hf, fun htold => ?_⟩
  rcases (htold.hit hended true "k" ht).2 false hhit with h | h
  · rw [hf] at h
    cases h
  · rw [hf] at h
    cases h

end World

end IdempotencyStore
