import MessageBrokerPatterns.ActionRun
import MessageBrokerPatterns.Bench
import MessageBrokerPatterns.Slots

/-!
# A phase of the bench

`_run_phase` with its workers, which share the count of started operations and interleave at the
await of the operation. An action carries the readings of the clock that it takes: a worker reads the
clock at the top of its `while`, again when it starts an operation, and again when the operation
returns. `gather` has returned when every worker has stopped; the first exception of a worker is the
one that it re-raises, and the other workers go on.

Every check of the window is kept in `checks`. An operation that was started has its latency recorded,
or it occupies a worker of its own.
-/

namespace Bench
open PyText ActionRun
open scoped BigOperators

/-- A worker whose task has begun; one that has stopped keeps the elapsed time that it read. -/
inductive Worker where
  | inFlight (callStartedAt : ℚ)
  | stopped (elapsed : ℚ)
  | raised (e : PyExc)
  deriving DecidableEq

/-- One evaluation of the `while` condition. -/
structure Check where
  elapsed : ℚ
  admits : Bool
  deriving DecidableEq

structure Phase where
  window : Window
  concurrency : ℕ
  startedAt : ℚ
  started : ℕ := 0
  latencies : List ℚ := []
  workers : ℕ → Option Worker := fun _ => none
  checks : List Check := []
  failure : Option PyExc := none

inductive PhaseAction where
  | begins (i : ℕ) (check call : ℚ)
  | returns (i : ℕ) (ended check call : ℚ)
  | raises (i : ℕ) (e : PyExc)
  deriving DecidableEq

def PhaseAction.isRaise : PhaseAction → Bool
  | .raises _ _ => true
  | _ => false

def PhaseAction.isReturn : PhaseAction → Bool
  | .returns _ _ _ _ => true
  | _ => false

namespace Phase

def stop (p : Phase) (i : ℕ) (elapsed : ℚ) : Phase := { p with
  workers := Function.update p.workers i (some (.stopped elapsed))
  checks := p.checks ++ [⟨elapsed, false⟩] }

def startOp (p : Phase) (i : ℕ) (elapsed call : ℚ) : Phase := { p with
  started := p.started + 1
  workers := Function.update p.workers i (some (.inFlight call))
  checks := p.checks ++ [⟨elapsed, true⟩] }

/-- The `while` of worker `i`, up to the await of its next operation. -/
def whileTop (p : Phase) (i : ℕ) (check call : ℚ) : ℚ × Phase :=
  let elapsed := check - p.startedAt
  if p.window.isDone p.started elapsed then (check, p.stop i elapsed)
  else (call, p.startOp i elapsed call)

def record (p : Phase) (latency : ℚ) : Phase := { p with latencies := p.latencies ++ [latency] }

def fail (p : Phase) (i : ℕ) (e : PyExc) : Phase := { p with
  workers := Function.update p.workers i (some (.raised e))
  failure := p.failure.or (some e) }

/-- An action at a reading of the clock that is not earlier than the last one. -/
def step (clock : ℚ) (p : Phase) : PhaseAction → Option (ℚ × Phase)
  | .begins i check call =>
      match p.workers i with
      | none =>
          if i < p.concurrency ∧ clock ≤ check ∧ check ≤ call then some (p.whileTop i check call)
          else none
      | some _ => none
  | .returns i ended check call =>
      match p.workers i with
      | some (.inFlight callStartedAt) =>
          if clock ≤ ended ∧ ended ≤ check ∧ check ≤ call then
            some ((p.record (ended - callStartedAt)).whileTop i check call)
          else none
      | _ => none
  | .raises i e =>
      match p.workers i with
      | some (.inFlight _) => some (clock, p.fail i e)
      | _ => none

/-- A step of the last reading of the clock and the phase. -/
def tick (s : ℚ × Phase) (a : PhaseAction) : Option (ℚ × Phase) := s.2.step s.1 a

/-- `gather` returns: every worker has left its loop. -/
def allStopped (p : Phase) : Bool :=
  (List.range p.concurrency).all fun i =>
    match p.workers i with
    | some (.stopped _) => true
    | _ => false

theorem allStopped_iff {p : Phase} :
    p.allStopped = true ↔ ∀ i < p.concurrency, ∃ elapsed, p.workers i = some (.stopped elapsed) := by
  simp only [allStopped, List.all_eq_true, List.mem_range]
  apply forall₂_congr
  intro i _
  cases p.workers i with
  | none => simp
  | some k => cases k <;> simp

end Phase

/-- All that an action of a worker can do. -/
inductive PhaseMove (clock : ℚ) (p : Phase) : PhaseAction → ℚ × Phase → Prop where
  | begins (i : ℕ) (check call : ℚ) (hi : i < p.concurrency) (hw : p.workers i = none)
      (h₁ : clock ≤ check) (h₂ : check ≤ call) :
      PhaseMove clock p (.begins i check call) (p.whileTop i check call)
  | returns (i : ℕ) (ended check call callStartedAt : ℚ)
      (hw : p.workers i = some (.inFlight callStartedAt)) (h₁ : clock ≤ check) (h₂ : check ≤ call) :
      PhaseMove clock p (.returns i ended check call)
        ((p.record (ended - callStartedAt)).whileTop i check call)
  | raises (i : ℕ) (e : PyExc) (callStartedAt : ℚ)
      (hw : p.workers i = some (.inFlight callStartedAt)) :
      PhaseMove clock p (.raises i e) (clock, p.fail i e)

theorem PhaseMove.of_step {clock : ℚ} {p : Phase} {a : PhaseAction} {s : ℚ × Phase}
    (h : p.step clock a = some s) : PhaseMove clock p a s := by
  cases a with
  | begins i check call =>
    simp only [Phase.step] at h
    split at h
    · rename_i hw
      split_ifs at h with hc
      cases h
      exact .begins i check call hc.1 hw hc.2.1 hc.2.2
    · cases h
  | returns i ended check call =>
    simp only [Phase.step] at h
    split at h
    · rename_i callStartedAt hw
      split_ifs at h with hc
      cases h
      exact .returns i ended check call callStartedAt hw (hc.1.trans hc.2.1) hc.2.2
    · cases h
  | raises i e =>
    simp only [Phase.step] at h
    split at h
    · rename_i callStartedAt hw
      cases h
      exact .raises i e callStartedAt hw
    · cases h

def unreturned : Option Worker → ℕ
  | some (.inFlight _) => 1
  | some (.raised _) => 1
  | _ => 0

namespace Phase
variable {p : Phase} {clock check call elapsed : ℚ} {i : ℕ}

/-- Every operation that was started has its latency recorded or occupies a worker. -/
def Accounted (p : Phase) : Prop :=
  p.started = p.latencies.length + ∑ i ∈ Finset.range p.concurrency, unreturned (p.workers i)

/-- What else holds of a phase whatever its workers have done. -/
structure Inv (clock : ℚ) (p : Phase) : Prop where
  begun : ∀ i k, p.workers i = some k → i < p.concurrency
  stopped : ∀ i k, p.workers i = some k → ∀ elapsed, k = .stopped elapsed →
    p.window.isDone p.started elapsed = true
  failure : p.failure = none → ∀ i k, p.workers i = some k → ∀ e, k ≠ .raised e
  admitted_count : p.checks.countP (·.admits) = p.started
  admitted : ∀ c ∈ p.checks, c.admits = true → p.window.isDone 0 c.elapsed = false
  past : ∀ c ∈ p.checks, c.elapsed ≤ clock - p.startedAt
  within : ∀ ops h, p.window = .ofOps ops h → (p.started : ℤ) ≤ ops
  closed_first : ∀ c, p.checks.head? = some c → c.admits = false →
    p.started = 0 ∧ p.window.isDone 0 c.elapsed = true

theorem accounted_new (window : Window) (concurrency : ℕ) (startedAt : ℚ) :
    Accounted { window, concurrency, startedAt } := by
  simp [Accounted, unreturned]

theorem inv_new (window : Window) (concurrency : ℕ) (startedAt clock : ℚ) :
    Inv clock { window, concurrency, startedAt } := by
  constructor
  case admitted_count => rfl
  case within =>
    intro ops h _
    change (0 : ℤ) ≤ ops
    omega
  all_goals simp

theorem sum_unreturned (hi : i < p.concurrency) (k : Worker) :
    ∑ j ∈ Finset.range p.concurrency, unreturned (Function.update p.workers i (some k) j) +
        unreturned (p.workers i) =
      ∑ j ∈ Finset.range p.concurrency, unreturned (p.workers j) + unreturned (some k) :=
  Slots.sum_update unreturned (Finset.mem_range.mpr hi)

theorem accounted_whileTop (hi : i < p.concurrency)
    (h : p.started + unreturned (p.workers i) =
      p.latencies.length + ∑ j ∈ Finset.range p.concurrency, unreturned (p.workers j)) :
    Accounted (p.whileTop i check call).2 := by
  by_cases hdone : p.window.isDone p.started (check - p.startedAt) = true
  · have hsum := sum_unreturned hi (.stopped (check - p.startedAt))
    simp only [whileTop, if_pos hdone, Accounted, stop]
    simp only [unreturned] at hsum h ⊢
    omega
  · have hsum := sum_unreturned hi (.inFlight call)
    simp only [whileTop, if_neg hdone, Accounted, startOp]
    simp only [unreturned] at hsum h ⊢
    omega

theorem head?_append_cases {l : List Check} {c d : Check} (h : (l ++ [d]).head? = some c) :
    l.head? = some c ∨ (l = [] ∧ c = d) := by
  cases l with
  | nil => exact Or.inr ⟨rfl, (Option.some.inj h).symm⟩
  | cons b l => exact Or.inl h

theorem Inv.mono {clock' : ℚ} (h : Inv clock p) (hle : clock ≤ clock') : Inv clock' p :=
  { h with past := fun c hc => (h.past c hc).trans (by linarith) }

theorem Inv.record (h : Inv clock p) (latency : ℚ) : Inv clock (p.record latency) :=
  { h with }

theorem Inv.stop (h : Inv check p) (hi : i < p.concurrency)
    (hdone : p.window.isDone p.started (check - p.startedAt) = true) :
    Inv check (p.stop i (check - p.startedAt)) := by
  constructor
  case begun => exact Slots.forall_update h.begun hi
  case stopped =>
    apply Slots.forall_update h.stopped
    intro elapsed he
    cases he
    exact hdone
  case failure =>
    intro hnone
    apply Slots.forall_update (h.failure hnone)
    intro e he
    cases he
  case admitted_count =>
    change (p.checks ++ [_]).countP _ = _
    rw [List.countP_append, h.admitted_count]
    rfl
  case admitted =>
    intro c hc
    rcases List.mem_append.mp hc with hc | hc
    · exact h.admitted c hc
    · rw [List.mem_singleton.mp hc]
      intro hadmits
      cases hadmits
  case past =>
    intro c hc
    rcases List.mem_append.mp hc with hc | hc
    · exact h.past c hc
    · rw [List.mem_singleton.mp hc]
      exact le_rfl
  case within => exact h.within
  case closed_first =>
    intro c hc hadmits
    obtain hc | ⟨hnil, rfl⟩ := head?_append_cases hc
    · exact h.closed_first c hc hadmits
    · have hzero : p.started = 0 := by rw [← h.admitted_count, hnil, List.countP_nil]
      rw [hzero] at hdone
      exact ⟨hzero, hdone⟩

theorem Inv.startOp (h : Inv check p) (hi : i < p.concurrency) (hcall : check ≤ call)
    (hdone : p.window.isDone p.started (check - p.startedAt) = false) :
    Inv call (p.startOp i (check - p.startedAt) call) := by
  have hopen : p.window.isDone 0 (check - p.startedAt) = false := by
    by_contra hne
    rw [Bool.not_eq_false] at hne
    rw [Window.isDone_mono (Nat.zero_le _) le_rfl hne] at hdone
    cases hdone
  constructor
  case begun => exact Slots.forall_update h.begun hi
  case stopped =>
    apply Slots.forall_update
    · intro j k hk elapsed he
      exact Window.isDone_mono (Nat.le_succ _) le_rfl (h.stopped j k hk elapsed he)
    · intro elapsed he
      cases he
  case failure =>
    intro hnone
    apply Slots.forall_update (h.failure hnone)
    intro e he
    cases he
  case admitted_count =>
    change (p.checks ++ [_]).countP _ = p.started + 1
    rw [List.countP_append, h.admitted_count]
    rfl
  case admitted =>
    intro c hc hadmits
    rcases List.mem_append.mp hc with hc | hc
    · exact h.admitted c hc hadmits
    · rw [List.mem_singleton.mp hc]
      exact hopen
  case past =>
    intro c hc
    rcases List.mem_append.mp hc with hc | hc
    · exact (h.past c hc).trans (sub_le_sub_right hcall _)
    · rw [List.mem_singleton.mp hc]
      exact sub_le_sub_right hcall _
  case within =>
    intro ops hops hw
    change p.window = _ at hw
    simp only [hw, Window.isDone, decide_eq_false_iff_not] at hdone
    change ((p.started + 1 : ℕ) : ℤ) ≤ ops
    omega
  case closed_first =>
    intro c hc hadmits
    obtain hc | ⟨-, rfl⟩ := head?_append_cases hc
    · -- the window of a phase that was closed at first has stayed closed
      obtain ⟨hzero, hclosed⟩ := h.closed_first c hc hadmits
      have hle := h.past c (List.mem_of_mem_head? hc)
      rw [hzero, Window.isDone_mono le_rfl hle hclosed] at hdone
      cases hdone
    · cases hadmits

theorem Inv.whileTop (h : Inv clock p) (hi : i < p.concurrency) (h₁ : clock ≤ check)
    (h₂ : check ≤ call) : Inv (p.whileTop i check call).1 (p.whileTop i check call).2 := by
  by_cases hdone : p.window.isDone p.started (check - p.startedAt) = true
  · simp only [Phase.whileTop, if_pos hdone]
    exact (h.mono h₁).stop hi hdone
  · simp only [Phase.whileTop, if_neg hdone]
    exact (h.mono h₁).startOp hi h₂ (by simpa using hdone)

theorem Inv.fail (h : Inv clock p) (hi : i < p.concurrency) (e : PyExc) :
    Inv clock (p.fail i e) := by
  constructor
  case begun => exact Slots.forall_update h.begun hi
  case stopped =>
    apply Slots.forall_update h.stopped
    intro elapsed he
    cases he
  case failure =>
    intro hnone
    simp [Phase.fail] at hnone
  case admitted_count => exact h.admitted_count
  case admitted => exact h.admitted
  case past => exact h.past
  case within => exact h.within
  case closed_first => exact h.closed_first

/-- The invariant of a phase, kept by every action of its workers. -/
theorem inv_step {a : PhaseAction} {s : ℚ × Phase} (h : Inv clock p) (ha : Accounted p)
    (hs : p.step clock a = some s) : Inv s.1 s.2 ∧ Accounted s.2 := by
  cases PhaseMove.of_step hs with
  | begins i check call hi hw h₁ h₂ =>
    refine ⟨h.whileTop hi h₁ h₂, accounted_whileTop hi ?_⟩
    rw [hw]
    exact ha
  | returns i ended check call callStartedAt hw h₁ h₂ =>
    have hi := h.begun i _ hw
    refine ⟨(h.record _).whileTop hi h₁ h₂, accounted_whileTop hi ?_⟩
    have hone : unreturned ((p.record (ended - callStartedAt)).workers i) = 1 := by
      change unreturned (p.workers i) = 1
      rw [hw]
      rfl
    have hlen : (p.record (ended - callStartedAt)).latencies.length = p.latencies.length + 1 := by
      rw [record, List.length_append]
      rfl
    rw [hone, hlen]
    change p.started = _ at ha
    change p.started + 1 = p.latencies.length + 1 + ∑ j ∈ Finset.range p.concurrency,
      unreturned (p.workers j)
    omega
  | raises i e callStartedAt hw =>
    have hi := h.begun i _ hw
    refine ⟨h.fail hi e, ?_⟩
    have hsum := sum_unreturned hi (.raised e)
    rw [hw] at hsum
    have hsame := Nat.add_right_cancel (m := 1) hsum
    change p.started = p.latencies.length + ∑ j ∈ Finset.range p.concurrency,
      unreturned (Function.update p.workers i (some (.raised e)) j)
    rw [hsame]
    exact ha

theorem clock_le_step {a : PhaseAction} {s : ℚ × Phase} (hs : p.step clock a = some s) :
    clock ≤ s.1 := by
  have hwhile (q : Phase) (i : ℕ) (check call : ℚ) (h₁ : clock ≤ check) (h₂ : check ≤ call) :
      clock ≤ (q.whileTop i check call).1 := by
    simp only [whileTop]
    split_ifs
    · exact h₁
    · exact h₁.trans h₂
  cases PhaseMove.of_step hs with
  | begins i check call hi hw h₁ h₂ => exact hwhile p i check call h₁ h₂
  | returns i ended check call callStartedAt hw h₁ h₂ => exact hwhile _ i check call h₁ h₂
  | raises i e callStartedAt hw => exact le_rfl

/-- The first exception stays the one that `gather` re-raises. -/
theorem failure_step {a : PhaseAction} {s : ℚ × Phase} {e : PyExc} (he : p.failure = some e)
    (hs : p.step clock a = some s) : s.2.failure = some e := by
  have hwhile (q : Phase) (i : ℕ) (check call : ℚ) (hq : q.failure = some e) :
      (q.whileTop i check call).2.failure = some e := by
    simp only [whileTop]
    split_ifs <;> exact hq
  cases PhaseMove.of_step hs with
  | begins i check call hi hw h₁ h₂ => exact hwhile p i check call he
  | returns i ended check call callStartedAt hw h₁ h₂ => exact hwhile _ i check call he
  | raises i e' callStartedAt hw =>
    change p.failure.or (some e') = some e
    rw [he]
    rfl

theorem failure_eq_of_not_raise {a : PhaseAction} {s : ℚ × Phase} (ha : a.isRaise = false)
    (hs : p.step clock a = some s) : s.2.failure = p.failure := by
  have hwhile (q : Phase) (i : ℕ) (check call : ℚ) :
      (q.whileTop i check call).2.failure = q.failure := by
    simp only [whileTop]
    split_ifs <;> rfl
  cases PhaseMove.of_step hs with
  | begins i check call hi hw h₁ h₂ => exact hwhile p i check call
  | returns i ended check call callStartedAt hw h₁ h₂ => exact hwhile _ i check call
  | raises i e callStartedAt hw => cases ha

theorem not_step_of_allStopped (h : Inv clock p) (hstopped : p.allStopped = true)
    (a : PhaseAction) : p.step clock a = none := by
  have hall := allStopped_iff.mp hstopped
  by_contra hne
  obtain ⟨s, hs⟩ := Option.ne_none_iff_exists'.mp hne
  cases PhaseMove.of_step hs with
  | begins i check call hi hw h₁ h₂ =>
    obtain ⟨elapsed, hk⟩ := hall i hi
    rw [hw] at hk
    cases hk
  | returns i ended check call callStartedAt hw h₁ h₂ =>
    obtain ⟨elapsed, hk⟩ := hall i (h.begun i _ hw)
    rw [hw] at hk
    cases hk
  | raises i e callStartedAt hw =>
    obtain ⟨elapsed, hk⟩ := hall i (h.begun i _ hw)
    rw [hw] at hk
    cases hk

/-- The arguments of a phase and its completed operations, across an action. -/
structure Keeps (p : Phase) (a : PhaseAction) (q : Phase) : Prop where
  window : q.window = p.window
  concurrency : q.concurrency = p.concurrency
  startedAt : q.startedAt = p.startedAt
  latencies : q.latencies.length = p.latencies.length + if a.isReturn then 1 else 0

theorem keeps_whileTop (p : Phase) (i : ℕ) (check call : ℚ) :
    (p.whileTop i check call).2.window = p.window ∧
      (p.whileTop i check call).2.concurrency = p.concurrency ∧
      (p.whileTop i check call).2.startedAt = p.startedAt ∧
      (p.whileTop i check call).2.latencies = p.latencies := by
  simp only [whileTop]
  split_ifs <;> exact ⟨rfl, rfl, rfl, rfl⟩

theorem keeps_step {a : PhaseAction} {s : ℚ × Phase} (hs : p.step clock a = some s) :
    Keeps p a s.2 := by
  cases PhaseMove.of_step hs with
  | begins i check call hi hw h₁ h₂ =>
    obtain ⟨hwindow, hconc, hstarted, hlat⟩ := p.keeps_whileTop i check call
    exact ⟨hwindow, hconc, hstarted, congrArg List.length hlat⟩
  | returns i ended check call callStartedAt hw h₁ h₂ =>
    obtain ⟨hwindow, hconc, hstarted, hlat⟩ :=
      (p.record (ended - callStartedAt)).keeps_whileTop i check call
    refine ⟨hwindow, hconc, hstarted, (congrArg List.length hlat).trans ?_⟩
    rw [record, List.length_append]
    rfl
  | raises i e callStartedAt hw => exact ⟨rfl, rfl, rfl, rfl⟩

theorem inv_run {s t : ℚ × Phase} {as : List PhaseAction} (h : Inv s.1 s.2) (ha : Accounted s.2)
    (hrun : run tick s as = some t) :
    Inv t.1 t.2 ∧ Accounted t.2 ∧ t.2.window = s.2.window ∧ t.2.concurrency = s.2.concurrency ∧
      t.2.latencies.length = s.2.latencies.length + as.countP PhaseAction.isReturn := by
  induction as generalizing s with
  | nil =>
    cases hrun
    exact ⟨h, ha, rfl, rfl, rfl⟩
  | cons a as ih =>
    obtain ⟨u, hu, hrun⟩ := run_cons_eq_some.mp hrun
    obtain ⟨hinv, hacc⟩ := inv_step h ha hu
    obtain ⟨hwindow, hconc, -, hlat⟩ := keeps_step hu
    obtain ⟨hinv', hacc', hwindow', hconc', hlat'⟩ := ih hinv hacc hrun
    refine ⟨hinv', hacc', hwindow'.trans hwindow, hconc'.trans hconc, ?_⟩
    rw [hlat', hlat, List.countP_cons]
    omega

theorem sum_unreturned_le (p : Phase) :
    ∑ i ∈ Finset.range p.concurrency, unreturned (p.workers i) ≤ p.concurrency := by
  have hle : ∑ i ∈ Finset.range p.concurrency, unreturned (p.workers i) ≤
      ∑ _i ∈ Finset.range p.concurrency, 1 := by
    apply Finset.sum_le_sum
    intro i _
    unfold unreturned
    split <;> omega
  rwa [Finset.sum_const, Finset.card_range, Nat.nsmul_eq_mul, Nat.mul_one] at hle

theorem started_of_allStopped (ha : Accounted p) (h : p.allStopped = true) :
    p.started = p.latencies.length := by
  have hzero : ∑ i ∈ Finset.range p.concurrency, unreturned (p.workers i) = 0 := by
    apply Finset.sum_eq_zero
    intro i hi
    obtain ⟨elapsed, hw⟩ := allStopped_iff.mp h i (Finset.mem_range.mp hi)
    rw [hw]
    rfl
  change p.started = _ at ha
  omega

/-- At most `concurrency` operations have not returned at any time, and a phase that returns has
started as many operations as it has latencies and as have returned: exactly `ops` of them, or those
that a check found in time, until each worker has read that the time is over. -/
theorem runPhase_admits_exactly (window : Window) (concurrency : ℕ) (hc : 1 ≤ concurrency)
    (startedAt : ℚ) (as : List PhaseAction) (clock : ℚ) (p : Phase)
    (hrun : run tick (startedAt, { window, concurrency, startedAt }) as = some (clock, p)) :
    p.started ≤ as.countP PhaseAction.isReturn + concurrency ∧
      (p.allStopped = true →
        p.started = p.latencies.length ∧ p.started = as.countP PhaseAction.isReturn ∧
          match window with
          | .ofOps ops _ => (p.started : ℤ) = ops
          | .ofSeconds seconds _ =>
              p.checks.countP (·.admits) = p.started ∧
                (∀ c ∈ p.checks, c.admits = true → c.elapsed < seconds) ∧
                ∀ i < concurrency, ∃ elapsed, p.workers i = some (.stopped elapsed) ∧
                  seconds ≤ elapsed) := by
  obtain ⟨hinv, hacc, hwindow, hconc, hlat⟩ :=
    inv_run (inv_new window concurrency startedAt startedAt) (accounted_new ..) hrun
  change Inv clock p at hinv
  change p.started = _ at hacc
  change p.window = window at hwindow
  change p.concurrency = concurrency at hconc
  change p.latencies.length = 0 + _ at hlat
  constructor
  · have hle := p.sum_unreturned_le
    change p.started = p.latencies.length + ∑ i ∈ Finset.range p.concurrency,
      unreturned (p.workers i) at hacc
    omega
  · intro hstopped
    have hstarted : p.started = p.latencies.length := started_of_allStopped hacc hstopped
    have hall := allStopped_iff.mp hstopped
    rw [hconc] at hall
    refine ⟨hstarted, by omega, ?_⟩
    cases window with
    | ofOps ops hpos =>
      obtain ⟨elapsed, hw⟩ := hall 0 hc
      have hdone := hinv.stopped 0 _ hw elapsed rfl
      simp only [hwindow, Window.isDone, decide_eq_true_eq] at hdone
      have := hinv.within ops hpos hwindow
      change (p.started : ℤ) = ops
      omega
    | ofSeconds seconds hpos =>
      refine ⟨hinv.admitted_count, ?_, ?_⟩
      · intro c hc hadmits
        have hopen := hinv.admitted c hc hadmits
        simpa [hwindow, Window.isDone] using hopen
      · intro i hi
        obtain ⟨elapsed, hw⟩ := hall i hi
        have hdone := hinv.stopped i _ hw elapsed rfl
        exact ⟨elapsed, hw, by simpa [hwindow, Window.isDone] using hdone⟩

/-- Three workers race for two operations; the one that comes too late starts none. -/
theorem runPhase_admits_exactly_two : ∃ clock p, run tick
      (0, { window := .ofOps 2 (by decide), concurrency := 3, startedAt := 0 })
      [.begins 1 0 0, .begins 0 1 1, .returns 1 4 4 4, .begins 2 5 5, .returns 0 9 9 9] =
        some (clock, p) ∧ p.allStopped = true ∧ (p.started : ℤ) = 2 := by
  refine ⟨_, _, rfl, by decide, ?_⟩
  exact ((runPhase_admits_exactly (.ofOps 2 (by decide)) 3 (by decide) 0
    [.begins 1 0 0, .begins 0 1 1, .returns 1 4 4 4, .begins 2 5 5, .returns 0 9 9 9] _ _ rfl).2
      (by decide)).2.2

end Phase
end Bench
