import MessageBrokerPatterns.PriorityConsumer

/-!
# What a strict scan can miss

One strict-priority consumer and any number of publishers share the streams. A scan reads one tier
after another, and what is published behind its back, to a tier that it has already read, waits
until the next scan. The tiers that a scan has passed are empty when it claims from another tier,
exactly if nothing is published to a passed tier by the time of the claim.
-/

namespace PriorityQueue
open PyText PyDict RedisStream ActionRun

def Server.Waiting (s : Server) (q : Priority) : Prop := s.delivered q < (s.entries q).length

def Consumer.passed (k : Consumer) : List Priority :=
  match k.pc with
  | .scan left => k.scanOrder.take (k.scanOrder.length - left.length)
  | _ => []

namespace World

def passed (w : World) (i : ℕ) : List Priority :=
  match w.runs i with
  | some k => k.passed
  | none => []

/-- The action is a read by which the run `i` claims tickets of the tier `p`. -/
def Claims (i : ℕ) (p : Priority) (w : World) (a : Action) : Prop :=
  a = .run i ∧ ∃ k left, w.runs i = some k ∧ k.polls = some (p :: left) ∧
    (w.server.streams p).newBatch k.count ≠ []

/-- When the run claims tickets of one tier, no ticket waits in another tier that the scan has
passed. -/
def Strict (i : ℕ) (w : World) (a : Action) : Prop :=
  ∀ p, Claims i p w a → ∀ q ∈ w.passed i, q ≠ p → ¬ w.server.Waiting q

def Scanning (w : World) (i : ℕ) : Prop := ∃ k left, w.runs i = some k ∧ k.pc = .scan left

/-- The scan in progress goes on to claim tickets of the tier `p`. -/
inductive ScanClaims (i : ℕ) (p : Priority) : World → List Action → Prop where
  | now {w : World} {a : Action} {as : List Action} (h : Claims i p w a) : ScanClaims i p w (a :: as)
  | later {w w' : World} {a : Action} {as : List Action} (h : step w a = some w')
      (hscan : w'.Scanning i) (hrest : ScanClaims i p w' as) : ScanClaims i p w (a :: as)

/-- Nothing is published to a tier that a scan has passed, if the scan goes on to claim tickets of
another tier. -/
def ScansUndisturbed (i : ℕ) : World → List Action → Prop
  | _, [] => True
  | w, a :: as => ∀ w', step w a = some w' →
      (∀ t, a = .publish t → t.priority ∈ w.passed i → ∀ p, ScanClaims i p w' as → p = t.priority) ∧
        ScansUndisturbed i w' as

/-- Publishers, and the strict-priority consumer `i` alone. -/
def StrictRun (i : ℕ) : Action → Prop
  | .runConsumer _ _ _ _ => False
  | .runStrictPriorityConsumer j _ _ count => j = i ∧ 1 ≤ count
  | _ => True

/-- There is no other run, and the scan in progress is a part of the scan order. -/
structure ScanInv (i : ℕ) (w : World) : Prop where
  only : ∀ j, j ≠ i → w.runs j = none
  count_pos : ∀ k, w.runs i = some k → 1 ≤ k.count
  order : ∀ k left, w.runs i = some k → k.pc = .scan left → ∃ done, k.scanOrder = done ++ left

end World

theorem Consumer.passed_eq {k : Consumer} {done left : List Priority} (hpc : k.pc = .scan left)
    (h : k.scanOrder = done ++ left) : k.passed = done := by
  simp only [passed, hpc]
  rw [h, List.length_append, Nat.add_sub_cancel, List.take_left']
  rfl

theorem Consumer.polls_order {k : Consumer} {p : Priority} {left : List Priority}
    (hpolls : k.polls = some (p :: left))
    (horder : ∀ left, k.pc = .scan left → ∃ done, k.scanOrder = done ++ left) :
    k.scanOrder = k.passed ++ p :: left := by
  unfold polls at hpolls
  split at hpolls
  · rename_i hpc
    rw [Option.some.inj hpolls]
    simp only [passed, hpc, List.nil_append]
  · rename_i rest hpc
    obtain ⟨done, hdone⟩ := horder rest hpc
    rw [passed_eq hpc hdone, hdone, Option.some.inj hpolls]
  · cases hpolls

theorem Consumer.forBatch_not_scan (k : Consumer) (p : Priority) (batch : List (ℕ × Fields))
    (left : List Priority) : (k.forBatch p batch).pc ≠ .scan left := by
  cases batch with
  | nil => simp [forBatch]
  | cons e rest =>
    obtain ⟨id, f⟩ := e
    simp only [forBatch]
    split
    · simp
    · simp

theorem Consumer.forBatch_count (k : Consumer) (p : Priority) (batch : List (ℕ × Fields)) :
    (k.forBatch p batch).count = k.count := by
  cases batch with
  | nil => rfl
  | cons e rest =>
    obtain ⟨id, f⟩ := e
    simp only [forBatch]
    split
    · rfl
    · rfl

/-- A command that leaves the run in the middle of a scan has read one more tier and found it
empty. -/
theorem Move.scanning {k k' : Consumer} {s s' : Server} (hm : Move k s k' s')
    (horder : ∀ left, k.pc = .scan left → ∃ done, k.scanOrder = done ++ left)
    {left : List Priority} (hpc' : k'.pc = .scan left) :
    ∃ p, k.polls = some (p :: left) ∧ (s.streams p).newBatch k.count = [] ∧
      k'.passed = k.passed ++ [p] ∧ k'.scanOrder = k'.passed ++ left ∧
      s' = (s.readNew p k.consumerId k.count).2 := by
  cases hm with
  | claim p rest hpc hne => exact absurd hpc' (k.forBatch_not_scan _ _ _)
  | empty p rest hpc hnil =>
    change (if rest = [] then Pc.sleep else .scan rest) = .scan left at hpc'
    split_ifs at hpc' with hrest
    obtain rfl := Pc.scan.inj hpc'
    have ho := Consumer.polls_order hpc horder
    have happ : k.scanOrder = (k.passed ++ [p]) ++ rest := by
      rw [List.append_assoc]
      exact ho
    have hpassed : ({ k with pc := if rest = [] then .sleep else .scan rest } : Consumer).passed =
        k.passed ++ [p] := Consumer.passed_eq (if_neg hrest) happ
    exact ⟨p, hpc, hnil, hpassed, by rw [hpassed]; exact happ, rfl⟩
  | noTier hpc => cases hpc'
  | wake hpc => cases hpc'
  | ack m hpc => exact absurd hpc' (Consumer.forBatch_not_scan _ _ _ _)

theorem Server.waiting_readNew {s : Server} {p : Priority} {c : String} {count : ℕ}
    (hnil : (s.streams p).newBatch count = []) (q : Priority) :
    (s.readNew p c count).2.Waiting q ↔ s.Waiting q := by
  rw [Waiting, Waiting, entries_readNew, delivered_readNew]
  split_ifs with h
  · subst h
    rw [GroupStream.newBatch_eq_nil.mp hnil]
    rfl
  · rfl

theorem Server.not_waiting_of_empty {s : Server} {p : Priority} {count : ℕ} (hcount : 1 ≤ count)
    (hnil : (s.streams p).newBatch count = []) : ¬ s.Waiting p := by
  have hzero := GroupStream.newBatch_eq_nil.mp hnil
  simp only [GroupStream.newCount] at hzero
  simp only [Waiting, delivered, entries]
  omega

theorem Server.waiting_publish (s : Server) (t : SupportTicket) (q : Priority) :
    (s.publish t).Waiting q ↔ s.Waiting q ∨ q = t.priority := by
  have hle := (s.streams q).delivered_le
  rw [Waiting, Waiting, entries_publish, delivered_publish]
  split_ifs with h
  · simp only [h, or_true, iff_true, List.length_append, List.length_singleton]
    subst h
    exact Nat.lt_succ_of_le hle
  · simp only [h, or_false]

namespace World

theorem passed_eq {w : World} {i : ℕ} {k : Consumer} (hk : w.runs i = some k) :
    w.passed i = k.passed := by
  simp only [passed, hk]

theorem scanning_of_passed {w : World} {i : ℕ} {q : Priority} (hq : q ∈ w.passed i) :
    w.Scanning i := by
  unfold passed at hq
  split at hq
  · rename_i k hk
    unfold Consumer.passed at hq
    split at hq
    · rename_i left hpc
      exact ⟨k, left, hk, hpc⟩
    · cases hq
  · cases hq

theorem scanInv_init (i : ℕ) : ScanInv i {} where
  only j hj := rfl
  count_pos k hk := by cases hk
  order k left hk := by cases hk

theorem scanInv_setRun {w w' : World} {i : ℕ} (hi : ScanInv i w) {k : Consumer}
    (hruns : w'.runs = Function.update w.runs i (some k)) (hcount : 1 ≤ k.count)
    (horder : ∀ left, k.pc = .scan left → ∃ done, k.scanOrder = done ++ left) : ScanInv i w' := by
  have hself {l : Consumer} (hl : w'.runs i = some l) : k = l := by
    rw [hruns, Function.update_self] at hl
    exact Option.some.inj hl
  constructor
  · intro j hj
    rw [hruns, Function.update_of_ne hj]
    exact hi.only j hj
  · intro l hl
    exact hself hl ▸ hcount
  · intro l left hl hpc
    obtain rfl := hself hl
    exact horder left hpc

/-- Only the run `i` exists. -/
theorem ScanInv.eq_of_run {w : World} {i j : ℕ} (hi : ScanInv i w) {k : Consumer}
    (hk : w.runs j = some k) : j = i := by
  by_contra hj
  rw [hi.only j hj] at hk
  cases hk

theorem Move.count_eq {k k' : Consumer} {s s' : Server} (hm : Move k s k' s') :
    k'.count = k.count := by
  cases hm with
  | claim p left hpc hne => exact k.forBatch_count _ _
  | empty p left hpc hnil => rfl
  | noTier hpc => rfl
  | wake hpc => rfl
  | ack m hpc => exact Consumer.forBatch_count _ _ _

/-- The only run that starts is a strict-priority consumer under the number `i`. -/
theorem start_strict {i : ℕ} {w w' : World} {a : Action} (ha : StrictRun i a) (hstarts : Starts a)
    (h : step w a = some w') :
    ∃ consumerId priorities count, 1 ≤ count ∧
      w' = w.setRun i (runStrictPriorityConsumer consumerId priorities count) := by
  cases a with
  | runStrictPriorityConsumer j consumerId priorities count =>
    obtain ⟨rfl, hcount⟩ := ha
    refine ⟨consumerId, priorities, count, hcount, ?_⟩
    simp only [step, startRun] at h
    split at h
    · exact (Option.some.inj h).symm
    · cases h
  | runConsumer j priority consumerId count => exact absurd ha id
  | publish t => exact absurd hstarts id
  | stop j => exact absurd hstarts id
  | run j => exact absurd hstarts id
  | handler j failure => exact absurd hstarts id
  | crash j => exact absurd hstarts id

theorem scanInv_step {i : ℕ} (w : World) (a : Action) (w' : World) (hi : ScanInv i w)
    (ha : StrictRun i a) (h : step w a = some w') : ScanInv i w' := by
  cases Effect.of_step h with
  | publish t => exact ⟨hi.only, hi.count_pos, hi.order⟩
  | start _ j k hstarts hnone hpc =>
    obtain ⟨consumerId, priorities, count, hcount, hw'⟩ := start_strict ha hstarts h
    rw [hw']
    exact scanInv_setRun hi rfl hcount fun left hl => by cases hl
  | stop j k hk hpc =>
    obtain rfl := hi.eq_of_run hk
    exact scanInv_setRun hi rfl (hi.count_pos k hk) fun left hl => by cases hl
  | run j k k' s' hk hm =>
    obtain rfl := hi.eq_of_run hk
    refine scanInv_setRun hi rfl ?_ ?_
    · rw [Move.count_eq hm]
      exact hi.count_pos k hk
    · intro left hpc
      obtain ⟨p, -, -, -, horder, -⟩ := hm.scanning (fun l hl => hi.order k l hk hl) hpc
      exact ⟨_, horder⟩
  | returns j k m hk hpc =>
    obtain rfl := hi.eq_of_run hk
    exact scanInv_setRun hi rfl (hi.count_pos k hk) fun left hl => by cases hl
  | raises j k m e hk hpc =>
    obtain rfl := hi.eq_of_run hk
    exact scanInv_setRun hi rfl (hi.count_pos k hk) fun left hl => by cases hl
  | crash j k hk hend =>
    obtain rfl := hi.eq_of_run hk
    exact scanInv_setRun hi rfl (hi.count_pos k hk) fun left hl => by cases hl

theorem scan_step {i : ℕ} {w w' : World} {a : Action} (hi : ScanInv i w) (ha : StrictRun i a)
    (h : step w a = some w') (hscan : w'.Scanning i) :
    (∃ t, a = .publish t ∧ w'.passed i = w.passed i ∧ w'.server = w.server.publish t) ∨
      ∃ p, w'.passed i = w.passed i ++ [p] ∧ ¬ w'.server.Waiting p ∧
        ∀ q, w'.server.Waiting q ↔ w.server.Waiting q := by
  obtain ⟨l, left, hl, hscan⟩ := hscan
  cases Effect.of_step h with
  | publish t => exact Or.inl ⟨t, rfl, rfl, rfl⟩
  | start _ j k hstarts hnone hpc =>
    obtain ⟨consumerId, priorities, count, -, hw'⟩ := start_strict ha hstarts h
    rw [hw'] at hl
    obtain rfl := Option.some.inj ((w.setRun_self i _).symm.trans hl)
    cases hscan
  | stop j k hk hpc =>
    obtain rfl := hi.eq_of_run hk
    obtain rfl := Option.some.inj ((w.setRun_self j _).symm.trans hl)
    cases hscan
  | run j k k' s' hk hm =>
    obtain rfl := hi.eq_of_run hk
    obtain rfl := Option.some.inj ((w.setRun_self j k').symm.trans hl)
    obtain ⟨p, -, hnil, hpassed, -, rfl⟩ := hm.scanning (fun l hl => hi.order k l hk hl) hscan
    refine Or.inr ⟨p, ?_, ?_, Server.waiting_readNew hnil⟩
    · rw [passed_eq hl, passed_eq hk, hpassed]
    · change ¬ (w.server.readNew p k.consumerId k.count).2.Waiting p
      rw [Server.waiting_readNew hnil]
      exact Server.not_waiting_of_empty (hi.count_pos k hk) hnil
  | returns j k m hk hpc =>
    obtain rfl := hi.eq_of_run hk
    obtain rfl := Option.some.inj ((w.setRun_self j _).symm.trans hl)
    cases hscan
  | raises j k m e hk hpc =>
    obtain rfl := hi.eq_of_run hk
    obtain rfl := Option.some.inj ((w.setRun_self j _).symm.trans hl)
    cases hscan
  | crash j k hk hend =>
    obtain rfl := hi.eq_of_run hk
    obtain rfl := Option.some.inj ((w.setRun_self j _).symm.trans hl)
    cases hscan

/-- What waits in a passed tier keeps waiting until the scan claims from another tier. -/
theorem not_strict_of_waiting {i : ℕ} {p q : Priority} {w : World} {as : List Action}
    (hclaims : ScanClaims i p w as) (hi : ScanInv i w) (hall : ∀ a ∈ as, StrictRun i a)
    (hq : q ∈ w.passed i) (hne : q ≠ p) (hwaits : w.server.Waiting q) :
    ¬ Along step (Strict i) w as := by
  intro hstrict
  induction hclaims with
  | now h => exact hstrict.1 p h q hq hne hwaits
  | @later w w' a as h hscan hrest ih =>
    have ha := hall a List.mem_cons_self
    have hi' := scanInv_step w a w' hi ha h
    have hall' : ∀ b ∈ as, StrictRun i b := fun b hb => hall b (List.mem_cons_of_mem a hb)
    rcases scan_step hi ha h hscan with ⟨t, -, hpassed, hserver⟩ | ⟨r, hpassed, -, hsame⟩
    · apply ih hi' hall' (hpassed ▸ hq) ?_ (hstrict.2 w' h)
      rw [hserver, Server.waiting_publish]
      exact Or.inl hwaits
    · apply ih hi' hall' ?_ ((hsame q).mpr hwaits) (hstrict.2 w' h)
      rw [hpassed]
      exact List.mem_append_left _ hq

theorem undisturbed_of_strict {i : ℕ} {as : List Action} {w : World} (hi : ScanInv i w)
    (hall : ∀ a ∈ as, StrictRun i a) (hstrict : Along step (Strict i) w as) :
    ScansUndisturbed i w as := by
  induction as generalizing w with
  | nil => trivial
  | cons a as ih =>
    intro w' h
    have hi' := scanInv_step w a w' hi (hall a List.mem_cons_self) h
    have hall' : ∀ b ∈ as, StrictRun i b := fun b hb => hall b (List.mem_cons_of_mem a hb)
    refine ⟨?_, ih hi' hall' (hstrict.2 w' h)⟩
    rintro t rfl hpassed p hclaims
    by_contra hne
    cases h
    apply not_strict_of_waiting hclaims hi' hall' hpassed (Ne.symm hne) ?_ (hstrict.2 _ rfl)
    rw [Server.waiting_publish]
    exact Or.inr rfl

/-- As long as the passed tiers of a scan that claims are empty, they stay empty when nothing is
published to them. -/
theorem strict_of_undisturbed {i : ℕ} {as : List Action} {w : World} (hi : ScanInv i w)
    (hall : ∀ a ∈ as, StrictRun i a)
    (hempty : ∀ p, ScanClaims i p w as → ∀ q ∈ w.passed i, q ≠ p → ¬ w.server.Waiting q)
    (hquiet : ScansUndisturbed i w as) : Along step (Strict i) w as := by
  induction as generalizing w with
  | nil => trivial
  | cons a as ih =>
    refine ⟨fun p h => hempty p (.now h), ?_⟩
    intro w' h
    have ha := hall a List.mem_cons_self
    obtain ⟨hpublish, hrest⟩ := hquiet w' h
    apply ih (scanInv_step w a w' hi ha h) (fun b hb => hall b (List.mem_cons_of_mem a hb)) ?_ hrest
    intro p hclaims q hq hne
    have hscan := scanning_of_passed hq
    have hbefore := hempty p (.later h hscan hclaims)
    rcases scan_step hi ha h hscan with ⟨t, rfl, hpassed, hserver⟩ | ⟨r, hpassed, hr, hsame⟩
    · rw [hpassed] at hq
      rw [hserver, Server.waiting_publish]
      rintro (hwaits | rfl)
      · exact hbefore q hq hne hwaits
      · exact hne (hpublish t rfl hq p hclaims).symm
    · rw [hpassed, List.mem_append, List.mem_singleton] at hq
      rcases hq with hq | rfl
      · rw [hsame]
        exact hbefore q hq hne
      · exact hr

/-- However a strict-priority consumer and publishers interleave, and whatever the scan order, no
ticket waits in a passed tier whenever tickets of another tier are claimed, exactly if nothing is
published to a passed tier of a scan that goes on to claim from another tier. -/
theorem strict_iff_undisturbed (i : ℕ) (acts : List Action) (hacts : ∀ a ∈ acts, StrictRun i a) :
    Along step (Strict i) {} acts ↔ ScansUndisturbed i {} acts := by
  constructor
  · exact undisturbed_of_strict (scanInv_init i) hacts
  · apply strict_of_undisturbed (scanInv_init i) hacts
    intro p hclaims q hq
    cases hq

def outage : SupportTicket := ⟨"t-1", "site is down", .high, "cust-1"⟩

def question : SupportTicket := ⟨"t-2", "where is my invoice", .low, "cust-2"⟩

/-- An urgent ticket arrives when the scan has read its tier and not yet the tier of a question. -/
def lateOutage : List Action :=
  [.publish question, .runStrictPriorityConsumer 0 "agent" none 10, .run 0, .run 0, .publish outage,
    .run 0]

theorem lateOutage_not_strict :
    (∀ a ∈ lateOutage, StrictRun 0 a) ∧ ∃ w, run step {} lateOutage = some w ∧
      ¬ Along step (Strict 0) {} lateOutage := by
  refine ⟨by simp [lateOutage, StrictRun], _, rfl, ?_⟩
  intro h
  iterate 5 replace h := ((along_cons rfl).mp h).2
  have hclaims := h.1 .low ⟨rfl, _, [], rfl, rfl, by simp [GroupStream.newBatch_eq_nil]; decide⟩
  exact hclaims .high (by decide) (by decide) Nat.zero_lt_one

/-- The urgent ticket arrives between two scans. -/
def earlyOutage : List Action :=
  [.publish question, .runStrictPriorityConsumer 0 "agent" none 10, .publish outage, .run 0]

theorem earlyOutage_strict : Along step (Strict 0) {} earlyOutage := by
  apply (strict_iff_undisturbed 0 earlyOutage (by simp [earlyOutage, StrictRun])).mpr
  intro w h
  cases h
  refine ⟨fun t _ ht p _ => ?_, ?_⟩
  · cases ht
  intro w h
  cases h
  refine ⟨fun t ht => ?_, ?_⟩
  · cases ht
  intro w h
  cases h
  refine ⟨fun t _ ht p _ => ?_, ?_⟩
  · cases ht
  intro w h
  cases h
  refine ⟨fun t ht => ?_, trivial⟩
  cases ht

end World
end PriorityQueue
