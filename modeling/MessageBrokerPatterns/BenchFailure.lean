import MessageBrokerPatterns.BenchRun

/-!
# A workload that fails

Once an operation has raised, `run_bench` raises, whatever the other workers do. `gather` stops none
of them, so which operations are started afterwards depends on where the others are at that moment:
none is exactly if every worker has ended by then or the window is closed.
-/

namespace Bench
open PyText PyDict ActionRun

def Worker.ended : Worker → Bool
  | .inFlight _ => false
  | .stopped _ => true
  | .raised _ => true

namespace Phase
variable {p : Phase} {clock : ℚ}

/-- Every worker has ended, or the window is closed at the last reading of the clock. -/
def Quiet (clock : ℚ) (p : Phase) : Prop :=
  (∀ i < p.concurrency, ∃ k, p.workers i = some k ∧ k.ended = true) ∨
    p.window.isDone p.started (clock - p.startedAt) = true

theorem whileTop_of_isDone {i : ℕ} {check : ℚ} (hle : clock ≤ check)
    (h : p.window.isDone p.started (clock - p.startedAt) = true) (call : ℚ) :
    p.whileTop i check call = (check, p.stop i (check - p.startedAt)) := by
  have hdone := Window.isDone_mono le_rfl (sub_le_sub_right hle p.startedAt) h
  simp only [whileTop, if_pos hdone]

theorem Quiet.step {a : PhaseAction} {s : ℚ × Phase} (h : Quiet clock p) (hi : p.Inv clock)
    (hs : p.step clock a = some s) : Quiet s.1 s.2 ∧ s.2.started = p.started := by
  have hstop (q : Phase) (i : ℕ) (check call : ℚ) (hle : clock ≤ check)
      (hdone : q.window.isDone q.started (clock - q.startedAt) = true) :
      Quiet (q.whileTop i check call).1 (q.whileTop i check call).2 ∧
        (q.whileTop i check call).2.started = q.started := by
    rw [whileTop_of_isDone hle hdone]
    exact ⟨Or.inr (Window.isDone_mono le_rfl (sub_le_sub_right hle _) hdone), rfl⟩
  rcases h with hall | hdone
  · -- no worker is left that could act
    cases PhaseMove.of_step hs with
    | begins i check call hlt hw h₁ h₂ =>
      obtain ⟨k, hk, -⟩ := hall i hlt
      rw [hw] at hk
      cases hk
    | returns i ended check call callStartedAt hw h₁ h₂ =>
      obtain ⟨k, hk, hend⟩ := hall i (hi.begun i _ hw)
      rw [hw] at hk
      cases hk
      cases hend
    | raises i e callStartedAt hw =>
      obtain ⟨k, hk, hend⟩ := hall i (hi.begun i _ hw)
      rw [hw] at hk
      cases hk
      cases hend
  · cases PhaseMove.of_step hs with
    | begins i check call hlt hw h₁ h₂ => exact hstop p i check call h₁ hdone
    | returns i ended check call callStartedAt hw h₁ h₂ =>
      exact hstop (p.record (ended - callStartedAt)) i check call h₁ hdone
    | raises i e callStartedAt hw => exact ⟨Or.inr hdone, rfl⟩

theorem exists_start (h : ¬ Quiet clock p) :
    ∃ a s, p.step clock a = some s ∧ s.2.started = p.started + 1 := by
  rw [Quiet, not_or, Bool.not_eq_true] at h
  obtain ⟨hall, hopen⟩ := h
  push Not at hall
  obtain ⟨i, hi, hk⟩ := hall
  cases hw : p.workers i with
  | none =>
    refine ⟨.begins i clock clock, p.whileTop i clock clock, ?_, ?_⟩
    · simp only [step, hw, hi, le_refl, and_self, if_true]
    · simp only [whileTop, hopen, Bool.false_eq_true, if_false, startOp]
  | some k =>
    cases k with
    | inFlight callStartedAt =>
      refine ⟨.returns i clock clock clock,
        (p.record (clock - callStartedAt)).whileTop i clock clock, ?_, ?_⟩
      · simp only [step, hw, le_refl, and_self, if_true]
      · have hopen' : (p.record (clock - callStartedAt)).window.isDone
            (p.record (clock - callStartedAt)).started
            (clock - (p.record (clock - callStartedAt)).startedAt) = false := hopen
        simp only [whileTop, hopen', Bool.false_eq_true, if_false, startOp]
        rfl
    | stopped elapsed => exact absurd rfl (hk _ hw)
    | raised e => exact absurd rfl (hk _ hw)

end Phase

namespace World
variable {V : Type*} {floatRepr : ℚ → String} {w w' : World V} {a : Action}

def Failing (w : World V) : Prop := ∃ p, w.phase = some p ∧ p.failure ≠ none

/-- The operations that have been started since `run_bench` was called. -/
def startedOps (w : World V) : ℕ :=
  match w.phase with
  | some p => w.warmupOps + p.started
  | none => w.warmupOps

def Quiet (w : World V) : Prop := ∀ p, w.phase = some p → p.Quiet w.clock

theorem Failing.over (h : w.Inv) (hf : w.Failing) : w.Over := by
  obtain ⟨p, hp, hfail⟩ := hf
  have hstage := h.stage
  unfold Over
  split
  · rename_i hpc
    simp only [Stage, hpc] at hstage
    rw [hstage.2] at hp
    cases hp
  · exact ⟨p, hp, hfail⟩
  · refine ⟨p, hp, ?_⟩
    obtain ⟨e, he⟩ := Option.ne_none_iff_exists'.mp hfail
    rw [gathered_eq_some.mpr ⟨he, fun hnone => absurd hnone (by simp)⟩]
    simp
  · trivial

theorem Failing.not_gathered {p : Phase} (hf : w.Failing) (hp : w.phase = some p) :
    gathered p ≠ some none := by
  obtain ⟨q, hq, hfail⟩ := hf
  obtain rfl := Option.some.inj (hp.symm.trans hq)
  intro hg
  exact hfail (gathered_eq_some.mp hg).1

theorem Failing.not_returned (h : w.Inv) (hf : w.Failing) (result : BenchResult V) :
    w.pc ≠ .returned result := by
  intro hpc
  have hstage := h.stage
  simp only [Stage, hpc] at hstage
  obtain ⟨-, p, hp, -, hg⟩ := hstage
  exact hf.not_gathered hp hg

theorem failing_step (h : w.Inv) (hf : w.Failing) (hs : w.step floatRepr a = some w') :
    w'.Failing := by
  have hstage := h.stage
  have hsome {p : Phase} (hp : w.phase = some p) : p.failure ≠ none := by
    obtain ⟨q, hq, hfail⟩ := hf
    obtain rfl := Option.some.inj (hp.symm.trans hq)
    exact hfail
  have hentry (hpc : w.pc = .entry) : False := by
    obtain ⟨p, hp, -⟩ := hf
    simp only [Stage, hpc] at hstage
    rw [hstage.2] at hp
    cases hp
  cases Effect.of_step hs with
  | warm t u window hpc hc ht => exact absurd hpc hentry
  | measure t u hpc hc ht => exact absurd hpc hentry
  | warmedUp t u p hpc hp hnone ht => exact absurd hnone (hsome hp)
  | finish t u p hl hhas ht =>
    exact absurd (hl.stage hstage).2.2 (hf.not_gathered hl.phase)
  | depth p durationS elapsed depth hpc hp =>
    simp only [Stage, hpc] at hstage
    obtain ⟨-, q, hq, -, hg⟩ := hstage
    exact absurd hg (hf.not_gathered hq)
  | worker b p s hp hstep =>
    obtain ⟨e, he⟩ := Option.ne_none_iff_exists'.mp (hsome hp)
    exact ⟨s.2, rfl, by rw [Phase.failure_step he hstep]; simp⟩
  | _ => exact hf

theorem failing_of_raises {i : ℕ} {e : PyExc}
    (hs : w.step floatRepr (.worker (.raises i e)) = some w') : w'.Failing := by
  cases Effect.of_step hs with
  | worker _ p s hp hstep =>
    cases PhaseMove.of_step hstep with
    | raises _ _ callStartedAt hw =>
      refine ⟨_, rfl, ?_⟩
      simp [Phase.fail]

/-- An exception of an operation is never forgotten. -/
theorem failing_run {as : List Action} (h : w.Inv) (hrun : run (step floatRepr) w as = some w')
    (hraise : ∃ i e, Action.worker (.raises i e) ∈ as) : w'.Failing := by
  induction as generalizing w with
  | nil =>
    obtain ⟨i, e, hmem⟩ := hraise
    cases hmem
  | cons a as ih =>
    obtain ⟨u, hu, hrest⟩ := run_cons_eq_some.mp hrun
    obtain ⟨i, e, hmem⟩ := hraise
    rcases List.mem_cons.mp hmem with rfl | hmem
    · have hboth := run_invariant_of_step (I := fun x => x.Inv ∧ x.Failing)
        (fun x b y hx hy => ⟨inv_step hx.1 hy, failing_step hx.1 hx.2 hy⟩)
        ⟨inv_step h hu, failing_of_raises hu⟩ hrest
      exact hboth.2
    · exact ih (inv_step h hu) hrest ⟨i, e, hmem⟩

/-- After `run_bench` has raised only the workers that it has left behind act. -/
theorem step_of_raised {e : PyExc} (h : w.Inv) (hpc : w.pc = .raised e)
    (hs : w.step floatRepr a = some w') : ∃ b p s, w.phase = some p ∧ p.step w.clock b = some s ∧
      w' = { w with clock := s.1, phase := some s.2 } := by
  have hstage := h.stage
  have hpc' {pc : Pc V} (h' : w.pc = pc) : pc = .raised e := h'.symm.trans hpc
  cases Effect.of_step hs with
  | worker b p s hp hstep => exact ⟨b, p, s, hp, hstep, rfl⟩
  | refuse t u h' hc => cases hpc' h'
  | warm t u window h' hc ht => cases hpc' h'
  | measure t u h' hc ht => cases hpc' h'
  | warmupFailed t u p e h' hp he => cases hpc' h'
  | warmedUp t u p h' hp hnone ht => cases hpc' h'
  | close t u p outcome h' hp hg hs => cases hpc' h'
  | samplerFailed t u p outcome e h' hp hs => cases hpc' h'
  | failed t u p e hl =>
    obtain ⟨h', -⟩ | ⟨h', -⟩ := hl.left
    · cases hpc' h'
    · cases hpc' h'
  | lastSample t u p hl hhas ht hu =>
    obtain ⟨h', -⟩ | ⟨h', -⟩ := hl.left
    · cases hpc' h'
    · cases hpc' h'
  | finish t u p hl hhas ht =>
    obtain ⟨h', -⟩ | ⟨h', -⟩ := hl.left
    · cases hpc' h'
    · cases hpc' h'
  | samplerRuns t p hp hsampler ht =>
    cases hpc' (hstage.measuring (hsampler.imp_right Or.inl)).1
  | samplerReads elapsed depth hsampler =>
    cases hpc' (hstage.measuring (Or.inr (Or.inr ⟨elapsed, hsampler⟩))).1
  | samplerRaises elapsed e hsampler =>
    cases hpc' (hstage.measuring (Or.inr (Or.inr ⟨elapsed, hsampler⟩))).1
  | samplerEnds hsampler =>
    obtain ⟨outcome, h', -⟩ := hstage.closing hsampler
    cases hpc' h'
  | depth p durationS elapsed depth h' hp => cases hpc' h'
  | depthRaises p durationS elapsed e h' hp => cases hpc' h'

theorem quiet_run {e : PyExc} (h : w.Inv) (hpc : w.pc = .raised e) (hq : w.Quiet)
    {as : List Action} (hrun : run (step floatRepr) w as = some w') :
    w'.startedOps = w.startedOps := by
  have hall : (w'.Inv ∧ w'.pc = .raised e) ∧ w'.Quiet ∧ w'.startedOps = w.startedOps := by
    apply run_invariant_of_step
      (I := fun u => (u.Inv ∧ u.pc = .raised e) ∧ u.Quiet ∧ u.startedOps = w.startedOps) _
      ⟨⟨h, hpc⟩, hq, rfl⟩ hrun
    rintro u b x ⟨⟨hu, hupc⟩, huq, hust⟩ hs
    refine ⟨⟨inv_step hu hs, ?_⟩, ?_⟩
    · obtain ⟨b', p, s, -, -, rfl⟩ := step_of_raised hu hupc hs
      exact hupc
    · obtain ⟨b', p, s, hp, hstep, rfl⟩ := step_of_raised hu hupc hs
      obtain ⟨hquiet, hstarted⟩ := (huq p hp).step (hu.phase p hp).1 hstep
      refine ⟨?_, ?_⟩
      · intro q hq
        cases hq
        exact hquiet
      · rw [← hust]
        simp only [startedOps, hp, hstarted]
  exact hall.2.2

/-- Whenever an operation raises, `run_bench` raises: it never returns, it can always go on, and
four pieces of its own lead to the end. After it has raised no operation is started, whatever the
schedule, exactly if at that moment every worker has ended or the window is closed. -/
theorem failing_workload_ends_iff (floatRepr : ℚ → String) (params : Params V) (clock : ℚ)
    (as : List Action) (w : World V) (hrun : run (step floatRepr) (init params clock) as = some w) :
    ((∃ i e, Action.worker (.raises i e) ∈ as) →
        ∀ more u, run (step floatRepr) w more = some u →
          (∀ result, u.pc ≠ .returned result) ∧
          ((∃ e, u.pc = .raised e) ∨ ∃ a u', a.isBench = true ∧ u.step floatRepr a = some u') ∧
          (4 ≤ more.countP Action.isBench → ∃ e, u.pc = .raised e)) ∧
      ∀ e, w.pc = .raised e →
        ((∀ more u, run (step floatRepr) w more = some u → u.startedOps = w.startedOps) ↔
          w.Quiet) := by
  have hinv := inv_run (inv_init params clock) hrun
  constructor
  · intro hraise more u hu
    have hfail := failing_run (inv_init params clock) hrun hraise
    have hfailu : u.Inv ∧ u.Failing := run_invariant_of_step (I := fun x => x.Inv ∧ x.Failing)
      (fun x b y hx hy => ⟨inv_step hx.1 hy, failing_step hx.1 hx.2 hy⟩) ⟨hinv, hfail⟩ hu
    have hnot := hfailu.2.not_returned hfailu.1
    have hraised (hend : u.ended = true) : ∃ e, u.pc = .raised e := by
      cases hpc : u.pc with
      | raised e => exact ⟨e, rfl⟩
      | returned result => exact absurd hpc (hnot result)
      | _ => simp [ended, hpc] at hend
    obtain ⟨hnext, hfour⟩ := (hfail.over hinv).ends hinv hu
    refine ⟨hnot, ?_, fun h => hraised (hfour h)⟩
    cases hend : u.ended with
    | true => exact Or.inl (hraised hend)
    | false =>
      obtain ⟨a, u', ha, -, hu'⟩ := hnext hend
      exact Or.inr ⟨a, u', ha, hu'⟩
  · intro e hpc
    constructor
    · intro h p hp
      by_contra hq
      obtain ⟨b, s, hs, hstarted⟩ := Phase.exists_start hq
      have hstep : w.step floatRepr (.worker b) =
          some { w with clock := s.1, phase := some s.2 } := by
        simp only [step, hp, hs, Option.map_some]
      have hsame := h [.worker b] _ (by rw [run_cons, hstep]; rfl)
      simp only [startedOps, hp, hstarted] at hsame
      omega
    · intro hq more u hu
      exact quiet_run hinv hpc hq hu

/-- Two workers share a window of three operations, and the first operation fails. -/
def failingPair : List Action :=
  [.main 0 0, .worker (.begins 0 0 0), .worker (.begins 1 0 0),
    .worker (.raises 0 (valueError "workload broke")), .main 1 1]

def threeOps : Params Unit := { name := "demo", measure := .ofOps 3 (by decide), concurrency := 2 }

/-- When `run_bench` has raised, the other worker comes back and starts the third operation. -/
theorem failingPair_starts_another :
    ((run (step fun _ => "") (init threeOps 0) failingPair).map fun w => (w.pc, w.startedOps)) =
        some (.raised (valueError "workload broke"), 2) ∧
      ((run (step fun _ => "") (init threeOps 0)
          (failingPair ++ [.worker (.returns 1 2 2 2)])).map startedOps) = some 3 :=
  ⟨rfl, rfl⟩

/-- With all three operations started before the failure the bench stays as it is. -/
theorem failing_workload_ends_late : ∃ w, run (step fun _ => "") (init threeOps 0)
      [.main 0 0, .worker (.begins 0 0 0), .worker (.begins 1 0 0),
        .worker (.returns 0 1 1 1), .worker (.raises 0 (valueError "workload broke")),
        .main 2 2] = some w ∧
    ∀ more u, run (step fun _ => "") w more = some u → u.startedOps = w.startedOps := by
  have hfacts : ((run (step fun _ => "") (init threeOps 0)
      [.main 0 0, .worker (.begins 0 0 0), .worker (.begins 1 0 0),
        .worker (.returns 0 1 1 1), .worker (.raises 0 (valueError "workload broke")),
        .main 2 2]).map fun w => (w.pc, w.phase.map fun p =>
          p.window.isDone p.started (w.clock - p.startedAt))) =
      some (.raised (valueError "workload broke"), some true) := rfl
  obtain ⟨w, hw, hfacts⟩ := Option.map_eq_some_iff.mp hfacts
  simp only [Prod.mk.injEq] at hfacts
  refine ⟨w, hw, ?_⟩
  refine ((failing_workload_ends_iff (fun _ => "") threeOps 0 _ w hw).2 _ hfacts.1).mpr ?_
  intro p hp
  have hdone := hfacts.2
  rw [hp] at hdone
  exact Or.inr (Option.some.inj hdone)

end World
end Bench
