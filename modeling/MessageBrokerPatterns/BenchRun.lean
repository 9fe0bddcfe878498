import MessageBrokerPatterns.BenchPhase

/-!
# A run of the bench

`run_bench` cut at its awaits, with the workers of its phases and the sampler task beside it. `main`
is the next piece of `run_bench` itself; it goes on when the `gather` that it awaits is over, which is
when every worker has stopped or when one of them has raised, and in the `finally` block when the
cancelled sampler task has ended. A sampler that catches the cancellation and goes on is outside the
model. Workers that are left when it raises go on as before.

A step of run_bench that is due comes to its end in at most four pieces: what it waits for then is its
own sampler task and its last call of the sampler.
-/

namespace Bench
open PyText PyDict ActionRun

variable {V : Type*}

/-- The arguments of `run_bench`; of the sampler, whether there is one. -/
structure Params (V : Type*) where
  name : String
  measure : Window
  warmup : Option Window := none
  concurrency : ℤ := 1
  knobs : Dict String V := []
  hasSampler : Bool := false

/-- The task of `_sample_depth`. It has no end of its own. -/
inductive SamplerTask where
  | absent
  | ready
  | reading (elapsed : ℚ)
  | asleep
  | cancelled
  | ended
  | raised (e : PyExc)
  deriving DecidableEq

/-- `task.cancel()`: the task is told at its await, unless it is over. -/
def SamplerTask.cancel : SamplerTask → SamplerTask
  | .absent => .absent
  | .ended => .ended
  | .raised e => .raised e
  | _ => .cancelled

inductive Pc (V : Type*) where
  | entry
  | warming
  | measuring
  | closing (outcome : Option PyExc)
  | sampling (durationS elapsed : ℚ)
  | returned (result : BenchResult V)
  | raised (e : PyExc)

structure World (V : Type*) where
  params : Params V
  clock : ℚ
  pc : Pc V := .entry
  warmupOps : ℕ := 0
  phase : Option Phase := none
  sampler : SamplerTask := .absent
  samples : List DepthSample := []

inductive Action where
  | main (t u : ℚ)
  | worker (a : PhaseAction)
  | samplerRuns (t : ℚ)
  | samplerReads (outcome : Except PyExc ℤ)
  | samplerEnds
  | depth (outcome : Except PyExc ℤ)

namespace World
variable (floatRepr : ℚ → String) (w : World V)

/-- `started_at = now()` and the start of the measured phase and of the sampler task. -/
def measureFrom (warmupOps : ℕ) (t : ℚ) : World V := { w with
  clock := t
  pc := .measuring
  warmupOps
  phase := some {
    window := w.params.measure, concurrency := w.params.concurrency.toNat, startedAt := t }
  sampler := if w.params.hasSampler then .ready else .absent }

/-- The result of the run, if its latencies can be summarised. -/
def finish (p : Phase) (durationS : ℚ) : World V :=
  match LatencySummary.fromSeconds floatRepr p.latencies with
  | .error e => { w with pc := .raised e }
  | .ok latency => { w with pc := .returned {
      name := w.params.name
      knobs := w.params.knobs
      warmupOps := w.warmupOps
      ops := p.started
      durationS
      throughputOpsS := if 0 < durationS then p.started / durationS else 0
      latency
      latenciesS := p.latencies
      queueDepth := w.samples } }

/-- The code behind the `finally` block, which is only reached without an exception. -/
def leaveFinally (p : Phase) (outcome : Option PyExc) (t u : ℚ) : Option (World V) :=
  match outcome with
  | some e => some { w with pc := .raised e }
  | none =>
      if w.clock ≤ t ∧ t ≤ u then
        if w.params.hasSampler then
          some { w with clock := u, pc := .sampling (t - p.startedAt) (u - p.startedAt) }
        else some ({ w with clock := t }.finish floatRepr p (t - p.startedAt))
      else none

/-- What `gather` hands to `run_bench`: an exception, or all workers have stopped. -/
def gathered (p : Phase) : Option (Option PyExc) :=
  match p.failure with
  | some e => some (some e)
  | none => if p.allStopped then some none else none

/-- The next piece of `run_bench`, with up to two readings of the clock. -/
def main (t u : ℚ) : Option (World V) :=
  match w.pc, w.phase with
  | .entry, _ =>
      if w.params.concurrency < 1 then
        some { w with pc := .raised (valueError
          ("concurrency must be at least 1, got " ++ pyStr w.params.concurrency)) }
      else if w.clock ≤ t then
        match w.params.warmup with
        | some window => some { w with
            clock := t
            pc := .warming
            phase := some {
              window, concurrency := w.params.concurrency.toNat, startedAt := t } }
        | none => some (w.measureFrom 0 t)
      else none
  | .warming, some p =>
      match gathered p with
      | none => none
      | some (some e) => some { w with pc := .raised e }
      | some none => if w.clock ≤ t then some (w.measureFrom p.started t) else none
  | .measuring, some p =>
      match gathered p with
      | none => none
      | some outcome =>
          if w.sampler = .absent then w.leaveFinally floatRepr p outcome t u
          else some { w with pc := .closing outcome, sampler := w.sampler.cancel }
  | .closing outcome, some p =>
      match w.sampler with
      | .raised e => some { w with pc := .raised e }
      | .ended => w.leaveFinally floatRepr p outcome t u
      | _ => none
  | _, _ => none

def samplerRuns (p : Phase) (t : ℚ) : Option (World V) :=
  if w.clock ≤ t then some { w with clock := t, sampler := .reading (t - p.startedAt) } else none

/-- A call of the sampler has returned. -/
def sampled (elapsed : ℚ) (depth : ℤ) : World V := { w with
  samples := w.samples ++ [⟨elapsed, depth⟩] }

/-- A sampler task that is cancelled ends, and by nothing but the cancellation. -/
def step : Action → Option (World V)
  | .main t u => w.main floatRepr t u
  | .worker a =>
      match w.phase with
      | some p => (p.step w.clock a).map fun s => { w with clock := s.1, phase := some s.2 }
      | none => none
  | .samplerRuns t =>
      match w.phase, w.sampler with
      | some p, .ready => w.samplerRuns p t
      | some p, .asleep => w.samplerRuns p t
      | _, _ => none
  | .samplerReads outcome =>
      match w.sampler, outcome with
      | .reading elapsed, .ok depth => some { w.sampled elapsed depth with sampler := .asleep }
      | .reading _, .error e => some { w with sampler := .raised e }
      | _, _ => none
  | .samplerEnds => if w.sampler = .cancelled then some { w with sampler := .ended } else none
  | .depth outcome =>
      match w.pc, w.phase, outcome with
      | .sampling durationS elapsed, some p, .ok depth =>
          some ((w.sampled elapsed depth).finish floatRepr p durationS)
      | .sampling _ _, some _, .error e => some { w with pc := .raised e }
      | _, _, _ => none

/-- `run_bench` gets behind its `finally` block with this outcome of the measured phase. -/
structure Leaves (p : Phase) (outcome : Option PyExc) : Prop where
  phase : w.phase = some p
  left : (w.pc = .measuring ∧ w.sampler = .absent ∧ gathered p = some outcome) ∨
    (w.pc = .closing outcome ∧ w.sampler = .ended)

end World

/-- All that one action can do. -/
inductive Effect (floatRepr : ℚ → String) (w : World V) : Action → World V → Prop where
  | refuse (t u : ℚ) (hpc : w.pc = .entry) (hc : w.params.concurrency < 1) :
      Effect floatRepr w (.main t u) { w with pc := .raised (valueError
        ("concurrency must be at least 1, got " ++ pyStr w.params.concurrency)) }
  | warm (t u : ℚ) (window : Window) (hpc : w.pc = .entry) (hc : 1 ≤ w.params.concurrency)
      (ht : w.clock ≤ t) :
      Effect floatRepr w (.main t u) { w with
        clock := t
        pc := .warming
        phase := some { window, concurrency := w.params.concurrency.toNat, startedAt := t } }
  | measure (t u : ℚ) (hpc : w.pc = .entry) (hc : 1 ≤ w.params.concurrency) (ht : w.clock ≤ t) :
      Effect floatRepr w (.main t u) (w.measureFrom 0 t)
  | warmupFailed (t u : ℚ) (p : Phase) (e : PyExc) (hpc : w.pc = .warming)
      (hp : w.phase = some p) (he : p.failure = some e) :
      Effect floatRepr w (.main t u) { w with pc := .raised e }
  | warmedUp (t u : ℚ) (p : Phase) (hpc : w.pc = .warming) (hp : w.phase = some p)
      (hnone : p.failure = none) (ht : w.clock ≤ t) :
      Effect floatRepr w (.main t u) (w.measureFrom p.started t)
  | close (t u : ℚ) (p : Phase) (outcome : Option PyExc) (hpc : w.pc = .measuring)
      (hp : w.phase = some p) (hg : World.gathered p = some outcome) (hs : w.sampler ≠ .absent) :
      Effect floatRepr w (.main t u)
        { w with pc := .closing outcome, sampler := w.sampler.cancel }
  | samplerFailed (t u : ℚ) (p : Phase) (outcome : Option PyExc) (e : PyExc)
      (hpc : w.pc = .closing outcome) (hp : w.phase = some p) (hs : w.sampler = .raised e) :
      Effect floatRepr w (.main t u) { w with pc := .raised e }
  | failed (t u : ℚ) (p : Phase) (e : PyExc) (hl : w.Leaves p (some e)) :
      Effect floatRepr w (.main t u) { w with pc := .raised e }
  | lastSample (t u : ℚ) (p : Phase) (hl : w.Leaves p none) (hs : w.params.hasSampler = true)
      (ht : w.clock ≤ t) (hu : t ≤ u) :
      Effect floatRepr w (.main t u)
        { w with clock := u, pc := .sampling (t - p.startedAt) (u - p.startedAt) }
  | finish (t u : ℚ) (p : Phase) (hl : w.Leaves p none) (hs : w.params.hasSampler = false)
      (ht : w.clock ≤ t) :
      Effect floatRepr w (.main t u)
        ({ w with clock := t }.finish floatRepr p (t - p.startedAt))
  | worker (a : PhaseAction) (p : Phase) (s : ℚ × Phase) (hp : w.phase = some p)
      (hs : p.step w.clock a = some s) :
      Effect floatRepr w (.worker a) { w with clock := s.1, phase := some s.2 }
  | samplerRuns (t : ℚ) (p : Phase) (hp : w.phase = some p)
      (hs : w.sampler = .ready ∨ w.sampler = .asleep) (ht : w.clock ≤ t) :
      Effect floatRepr w (.samplerRuns t)
        { w with clock := t, sampler := .reading (t - p.startedAt) }
  | samplerReads (elapsed : ℚ) (depth : ℤ) (hs : w.sampler = .reading elapsed) :
      Effect floatRepr w (.samplerReads (.ok depth))
        { w.sampled elapsed depth with sampler := .asleep }
  | samplerRaises (elapsed : ℚ) (e : PyExc) (hs : w.sampler = .reading elapsed) :
      Effect floatRepr w (.samplerReads (.error e)) { w with sampler := .raised e }
  | samplerEnds (hs : w.sampler = .cancelled) :
      Effect floatRepr w .samplerEnds { w with sampler := .ended }
  | depth (p : Phase) (durationS elapsed : ℚ) (depth : ℤ) (hpc : w.pc = .sampling durationS elapsed)
      (hp : w.phase = some p) :
      Effect floatRepr w (.depth (.ok depth))
        ((w.sampled elapsed depth).finish floatRepr p durationS)
  | depthRaises (p : Phase) (durationS elapsed : ℚ) (e : PyExc)
      (hpc : w.pc = .sampling durationS elapsed) (hp : w.phase = some p) :
      Effect floatRepr w (.depth (.error e)) { w with pc := .raised e }

namespace World
variable {floatRepr : ℚ → String} {w : World V} {p : Phase}

theorem gathered_eq_some {outcome : Option PyExc} :
    gathered p = some outcome ↔ p.failure = outcome ∧ (outcome = none → p.allStopped = true) := by
  unfold gathered
  cases hf : p.failure with
  | some e =>
    cases outcome with
    | none => simp
    | some e' => simp
  | none =>
    cases outcome with
    | none => simp
    | some e' => simp

end World

theorem Effect.of_leaveFinally {floatRepr : ℚ → String} {w w' : World V} {p : Phase}
    {outcome : Option PyExc} {t u : ℚ} (hl : w.Leaves p outcome)
    (h : w.leaveFinally floatRepr p outcome t u = some w') : Effect floatRepr w (.main t u) w' := by
  cases outcome with
  | some e =>
    cases h
    exact .failed t u p e hl
  | none =>
    simp only [World.leaveFinally] at h
    split_ifs at h with ht hs
    · cases h
      exact .lastSample t u p hl hs ht.1 ht.2
    · cases h
      exact .finish t u p hl (by simpa using hs) ht.1

theorem Effect.of_main {floatRepr : ℚ → String} {w w' : World V} {t u : ℚ}
    (h : w.main floatRepr t u = some w') : Effect floatRepr w (.main t u) w' := by
  unfold World.main at h
  split at h
  · rename_i hpc
    split_ifs at h with hc ht
    · cases h
      exact .refuse t u hpc hc
    · split at h
      · cases h
        exact .warm t u _ hpc (by omega) ht
      · cases h
        exact .measure t u hpc (by omega) ht
  · rename_i p hpc hp
    split at h
    · cases h
    · rename_i e hg
      cases h
      exact .warmupFailed t u p e hpc hp (World.gathered_eq_some.mp hg).1
    · rename_i hg
      split_ifs at h with ht
      cases h
      exact .warmedUp t u p hpc hp (World.gathered_eq_some.mp hg).1 ht
  · rename_i p hpc hp
    split at h
    · cases h
    · rename_i outcome hg
      split_ifs at h with hs
      · exact .of_leaveFinally ⟨hp, Or.inl ⟨hpc, hs, hg⟩⟩ h
      · cases h
        exact .close t u p outcome hpc hp hg hs
  · rename_i outcome p hpc hp
    split at h
    · rename_i e hs
      cases h
      exact .samplerFailed t u p outcome e hpc hp hs
    · rename_i hs
      exact .of_leaveFinally ⟨hp, Or.inr ⟨hpc, hs⟩⟩ h
    · cases h
  · cases h

theorem Effect.of_step {floatRepr : ℚ → String} {w w' : World V} {a : Action}
    (h : w.step floatRepr a = some w') : Effect floatRepr w a w' := by
  cases a with
  | main t u => exact .of_main h
  | worker a =>
    simp only [World.step] at h
    split at h
    · rename_i p hp
      obtain ⟨s, hs, rfl⟩ := Option.map_eq_some_iff.mp h
      exact .worker a p s hp hs
    · cases h
  | samplerRuns t =>
    simp only [World.step] at h
    split at h
    · rename_i p hp hs
      simp only [World.samplerRuns] at h
      split_ifs at h with ht
      cases h
      exact .samplerRuns t p hp (Or.inl hs) ht
    · rename_i p hp hs
      simp only [World.samplerRuns] at h
      split_ifs at h with ht
      cases h
      exact .samplerRuns t p hp (Or.inr hs) ht
    · cases h
  | samplerReads outcome =>
    simp only [World.step] at h
    split at h
    · rename_i elapsed depth hs
      cases h
      exact .samplerReads elapsed depth hs
    · rename_i elapsed e hs
      cases h
      exact .samplerRaises elapsed e hs
    · cases h
  | samplerEnds =>
    simp only [World.step] at h
    split_ifs at h with hs
    cases h
    exact .samplerEnds hs
  | depth outcome =>
    simp only [World.step] at h
    split at h
    · rename_i durationS elapsed p depth hpc hp
      cases h
      exact .depth p durationS elapsed depth hpc hp
    · rename_i e hpc hp
      cases h
      exact .depthRaises _ _ _ e hpc hp
    · cases h

namespace World
variable {floatRepr : ℚ → String} {w w' : World V} {p : Phase} {a : Action}

theorem gathered_step {outcome : Option PyExc} {b : PhaseAction} {s : ℚ × Phase}
    (hi : p.Inv w.clock) (hg : gathered p = some outcome) (hs : p.step w.clock b = some s) :
    gathered s.2 = some outcome := by
  obtain ⟨hf, hstopped⟩ := gathered_eq_some.mp hg
  cases outcome with
  | none =>
    rw [Phase.not_step_of_allStopped hi (hstopped rfl)] at hs
    cases hs
  | some e =>
    apply gathered_eq_some.mpr
    refine ⟨Phase.failure_step hf hs, ?_⟩
    intro hnone
    cases hnone

/-- The end of a run changes nothing but where `run_bench` is. -/
theorem finish_eq (floatRepr : ℚ → String) (w : World V) (p : Phase) (durationS : ℚ) :
    (p.latencies = [] ∧ w.finish floatRepr p durationS = { w with
        pc := .raised (valueError "cannot summarise an empty latency sample") }) ∨
      ∃ result : BenchResult V, p.latencies ≠ [] ∧
        w.finish floatRepr p durationS = { w with pc := .returned result } ∧
        result.ops = p.started ∧ result.latenciesS = p.latencies ∧
        result.latency.count = p.latencies.length ∧ result.queueDepth = w.samples := by
  by_cases hlat : p.latencies = []
  · refine Or.inl ⟨hlat, ?_⟩
    simp only [finish, hlat, LatencySummary.fromSeconds_nil]
  · obtain ⟨latency, hsummary, hcount⟩ := LatencySummary.exists_fromSeconds floatRepr hlat
    simp only [finish, hsummary]
    exact Or.inr ⟨_, hlat, rfl, rfl, rfl, hcount, rfl⟩

/-- Where the phases and the sampler task are at each await of `run_bench`. -/
def Stage (w : World V) : Prop :=
  match w.pc with
  | .entry => w.sampler = .absent ∧ w.phase = none
  | .warming => w.sampler = .absent ∧ ∃ p, w.phase = some p
  | .measuring => (w.sampler ≠ .cancelled ∧ w.sampler ≠ .ended) ∧
      (w.params.hasSampler = true ↔ w.sampler ≠ .absent) ∧
      ∃ p, w.phase = some p ∧ p.window = w.params.measure
  | .closing outcome => (w.sampler = .cancelled ∨ w.sampler = .ended ∨ ∃ e, w.sampler = .raised e) ∧
      w.params.hasSampler = true ∧
      ∃ p, w.phase = some p ∧ p.window = w.params.measure ∧ gathered p = some outcome
  | .sampling _ _ => w.sampler = .ended ∧
      ∃ p, w.phase = some p ∧ p.window = w.params.measure ∧ gathered p = some none
  | .returned _ => (w.sampler = .absent ∨ w.sampler = .ended) ∧
      ∃ p, w.phase = some p ∧ p.window = w.params.measure ∧ gathered p = some none
  | .raised _ => w.sampler = .absent ∨ w.sampler = .ended ∨ ∃ e, w.sampler = .raised e

structure Inv (w : World V) : Prop where
  phase : ∀ p, w.phase = some p →
    p.Inv w.clock ∧ p.Accounted ∧ (p.concurrency : ℤ) = w.params.concurrency
  concurrency : w.phase ≠ none → 1 ≤ w.params.concurrency
  stage : w.Stage

def init (params : Params V) (clock : ℚ) : World V := { params, clock }

theorem inv_init (params : Params V) (clock : ℚ) : (init params clock).Inv := by
  refine ⟨?_, ?_, ⟨rfl, rfl⟩⟩
  · intro p hp
    cases hp
  · intro hne
    exact absurd rfl hne

/-- The phases that `run_bench` starts. -/
theorem phase_new {w : World V} (hc : 1 ≤ w.params.concurrency) (window : Window) (t : ℚ) :
    ({ window, concurrency := w.params.concurrency.toNat, startedAt := t } : Phase).Inv t ∧
      ({ window, concurrency := w.params.concurrency.toNat, startedAt := t } : Phase).Accounted ∧
      ((w.params.concurrency.toNat : ℕ) : ℤ) = w.params.concurrency :=
  ⟨Phase.inv_new .., Phase.accounted_new .., Int.toNat_of_nonneg (by omega)⟩

theorem inv_measureFrom (hc : 1 ≤ w.params.concurrency) (warmupOps : ℕ) (t : ℚ) :
    (w.measureFrom warmupOps t).Inv := by
  refine ⟨?_, fun _ => hc, ?_⟩
  · intro p hp
    cases hp
    exact phase_new hc _ t
  · by_cases hs : w.params.hasSampler = true
    · simp [Stage, measureFrom, hs]
    · simp [Stage, measureFrom, hs]

theorem Inv.of_phase (h : w.Inv) (hphase : w'.phase = w.phase) (hparams : w'.params = w.params)
    (hclock : w.clock ≤ w'.clock) (hstage : w'.Stage) : w'.Inv := by
  refine ⟨?_, ?_, hstage⟩
  · intro p hp
    rw [hphase] at hp
    obtain ⟨hi, ha, hc⟩ := h.phase p hp
    exact ⟨hi.mono hclock, ha, by rw [hparams]; exact hc⟩
  · rw [hphase, hparams]
    exact h.concurrency

/-- Behind the `finally` block the sampler task is over and all workers have stopped or one has
raised. -/
theorem Leaves.stage {outcome : Option PyExc} (hl : w.Leaves p outcome) (h : w.Stage) :
    (w.sampler = .absent ∧ w.params.hasSampler = false ∨
        w.sampler = .ended ∧ w.params.hasSampler = true) ∧
      p.window = w.params.measure ∧ gathered p = some outcome := by
  obtain ⟨hp, ⟨hpc, hs, hg⟩ | ⟨hpc, hs⟩⟩ := hl
  · simp only [Stage, hpc, hs] at h
    obtain ⟨-, hsampler, q, hq, hwindow⟩ := h
    obtain rfl := Option.some.inj (hp.symm.trans hq)
    exact ⟨Or.inl ⟨hs, by simpa using hsampler⟩, hwindow, hg⟩
  · simp only [Stage, hpc] at h
    obtain ⟨-, hsampler, q, hq, hwindow, hg⟩ := h
    obtain rfl := Option.some.inj (hp.symm.trans hq)
    exact ⟨Or.inr ⟨hs, hsampler⟩, hwindow, hg⟩

theorem stage_finish (hp : w.phase = some p) (hs : w.sampler = .absent ∨ w.sampler = .ended)
    (hwindow : p.window = w.params.measure) (hg : gathered p = some none) (durationS : ℚ) :
    (w.finish floatRepr p durationS).Stage := by
  obtain ⟨-, hfin⟩ | ⟨result, -, hfin, -⟩ := finish_eq floatRepr w p durationS
  · rw [hfin]
    exact hs.elim Or.inl fun h => Or.inr (Or.inl h)
  · rw [hfin]
    exact ⟨hs, p, hp, hwindow, hg⟩

theorem finish_phase (floatRepr : ℚ → String) (w : World V) (p : Phase) (durationS : ℚ) :
    (w.finish floatRepr p durationS).phase = w.phase ∧
      (w.finish floatRepr p durationS).params = w.params ∧
      (w.finish floatRepr p durationS).clock = w.clock := by
  obtain ⟨-, hfin⟩ | ⟨result, -, hfin, -⟩ := finish_eq floatRepr w p durationS
  · rw [hfin]
    exact ⟨rfl, rfl, rfl⟩
  · rw [hfin]
    exact ⟨rfl, rfl, rfl⟩

theorem Stage.measuring (h : w.Stage) (hs : w.sampler = .ready ∨ w.sampler = .asleep ∨
    ∃ elapsed, w.sampler = .reading elapsed) :
    w.pc = .measuring ∧ w.params.hasSampler = true ∧
      ∃ p, w.phase = some p ∧ p.window = w.params.measure := by
  unfold Stage at h
  split at h
  case h_3 hpc =>
    refine ⟨hpc, h.2.1.mpr ?_, h.2.2⟩
    rcases hs with hs | hs | ⟨elapsed, hs⟩ <;> simp [hs]
  all_goals
    rcases hs with hs | hs | ⟨elapsed, hs⟩ <;> simp [hs] at h

theorem Stage.closing (h : w.Stage) (hs : w.sampler = .cancelled) :
    ∃ outcome, w.pc = .closing outcome ∧ w.params.hasSampler = true ∧
      ∃ p, w.phase = some p ∧ p.window = w.params.measure ∧ gathered p = some outcome := by
  unfold Stage at h
  split at h
  case h_4 outcome hpc => exact ⟨outcome, hpc, h.2.1, h.2.2⟩
  all_goals simp [hs] at h

theorem Inv.of_sampler (h : w.Inv) (hs : w.sampler = .ready ∨ w.sampler = .asleep ∨
    ∃ elapsed, w.sampler = .reading elapsed) (hphase : w'.phase = w.phase)
    (hparams : w'.params = w.params) (hpc : w'.pc = w.pc) (hclock : w.clock ≤ w'.clock)
    (hlive : w'.sampler ≠ .absent ∧ w'.sampler ≠ .cancelled ∧ w'.sampler ≠ .ended) : w'.Inv := by
  obtain ⟨hmeasuring, hhas, p, hp, hwindow⟩ := h.stage.measuring hs
  apply h.of_phase hphase hparams hclock
  simp only [Stage, hpc, hmeasuring, hparams, hphase]
  exact ⟨hlive.2, by simp [hhas, hlive.1], p, hp, hwindow⟩

/-- A worker's step leaves `run_bench` where it is. A phase that is over stays over, with the same
outcome. -/
theorem Stage.of_worker (h : w.Stage) (hp : w.phase = some p) (hi : p.Inv w.clock)
    {b : PhaseAction} {s : ℚ × Phase} (hstep : p.step w.clock b = some s) :
    ({ w with clock := s.1, phase := some s.2 } : World V).Stage := by
  obtain ⟨hwindow, -, -, -⟩ := Phase.keeps_step hstep
  have hother (q : Phase) (hq : w.phase = some q) : q = p := Option.some.inj (hq.symm.trans hp)
  have hover {outcome : Option PyExc} : (∃ q, w.phase = some q ∧ q.window = w.params.measure ∧
      gathered q = some outcome) → ∃ q, some s.2 = some q ∧ q.window = w.params.measure ∧
        gathered q = some outcome := by
    rintro ⟨q, hq, hqw, hg⟩
    obtain rfl := hother q hq
    exact ⟨s.2, rfl, hwindow.trans hqw, gathered_step hi hg hstep⟩
  unfold Stage at h ⊢
  cases hpc : w.pc with
  | entry =>
    rw [hpc] at h
    rw [h.2] at hp
    cases hp
  | warming =>
    rw [hpc] at h
    exact ⟨h.1, s.2, rfl⟩
  | measuring =>
    rw [hpc] at h
    obtain ⟨hs, hhas, q, hq, hqw⟩ := h
    exact ⟨hs, hhas, s.2, rfl, by rw [hwindow, ← hother q hq]; exact hqw⟩
  | closing outcome =>
    rw [hpc] at h
    exact ⟨h.1, h.2.1, hover h.2.2⟩
  | sampling durationS elapsed =>
    rw [hpc] at h
    exact ⟨h.1, hover h.2⟩
  | returned result =>
    rw [hpc] at h
    exact ⟨h.1, hover h.2⟩
  | raised e =>
    rw [hpc] at h
    exact h

theorem inv_step (h : w.Inv) (hs : w.step floatRepr a = some w') : w'.Inv := by
  have hstage := h.stage
  cases Effect.of_step hs with
  | refuse t u hpc hc =>
    simp only [Stage, hpc] at hstage
    exact h.of_phase rfl rfl le_rfl (Or.inl hstage.1)
  | warm t u window hpc hc ht =>
    simp only [Stage, hpc] at hstage
    refine ⟨?_, fun _ => hc, hstage.1, _, rfl⟩
    intro p hp
    cases hp
    exact phase_new hc _ t
  | measure t u hpc hc ht => exact inv_measureFrom hc 0 t
  | warmupFailed t u p e hpc hp he =>
    simp only [Stage, hpc] at hstage
    exact h.of_phase rfl rfl le_rfl (Or.inl hstage.1)
  | warmedUp t u p hpc hp hnone ht =>
    exact inv_measureFrom (h.concurrency (by rw [hp]; simp)) _ t
  | close t u p outcome hpc hp hg hsampler =>
    simp only [Stage, hpc] at hstage
    obtain ⟨-, hhas, q, hq, hwindow⟩ := hstage
    obtain rfl := Option.some.inj (hp.symm.trans hq)
    refine h.of_phase rfl rfl le_rfl ⟨?_, hhas.mpr hsampler, p, hp, hwindow, hg⟩
    change w.sampler.cancel = _ ∨ w.sampler.cancel = _ ∨ ∃ e, w.sampler.cancel = _
    cases hk : w.sampler with
    | absent => exact absurd hk hsampler
    | ended => exact Or.inr (Or.inl rfl)
    | raised e => exact Or.inr (Or.inr ⟨e, rfl⟩)
    | _ => exact Or.inl rfl
  | samplerFailed t u p outcome e hpc hp hsampler =>
    exact h.of_phase rfl rfl le_rfl (Or.inr (Or.inr ⟨e, hsampler⟩))
  | failed t u p e hl =>
    refine h.of_phase rfl rfl le_rfl ?_
    obtain ⟨hsampler | hsampler, -⟩ := hl.stage hstage
    · exact Or.inl hsampler.1
    · exact Or.inr (Or.inl hsampler.1)
  | lastSample t u p hl hhas ht hu =>
    obtain ⟨hsampler | hsampler, hwindow, hg⟩ := hl.stage hstage
    · rw [hhas] at hsampler
      cases hsampler.2
    · exact h.of_phase rfl rfl (ht.trans hu) ⟨hsampler.1, p, hl.phase, hwindow, hg⟩
  | finish t u p hl hhas ht =>
    obtain ⟨hsampler, hwindow, hg⟩ := hl.stage hstage
    obtain ⟨hphase, hparams, hclock⟩ :=
      finish_phase floatRepr { w with clock := t } p (t - p.startedAt)
    refine h.of_phase hphase hparams (by rw [hclock]; exact ht) ?_
    exact stage_finish (w := { w with clock := t }) hl.phase (hsampler.imp And.left And.left)
      hwindow hg _
  | worker b p s hp hstep =>
    obtain ⟨hi, hacc, hc⟩ := h.phase p hp
    obtain ⟨hi', hacc'⟩ := Phase.inv_step hi hacc hstep
    obtain ⟨-, hconc, -, -⟩ := Phase.keeps_step hstep
    refine ⟨?_, fun _ => h.concurrency (by rw [hp]; simp), ?_⟩
    · intro q hq
      cases hq
      exact ⟨hi', hacc', by rw [hconc]; exact hc⟩
    · exact hstage.of_worker hp hi hstep
  | samplerRuns t p hp hsampler ht =>
    exact h.of_sampler (hsampler.imp_right Or.inl) rfl rfl rfl ht
      ⟨by simp, by simp, by simp⟩
  | samplerReads elapsed depth hsampler =>
    exact h.of_sampler (Or.inr (Or.inr ⟨elapsed, hsampler⟩)) rfl rfl rfl le_rfl
      ⟨by simp, by simp, by simp⟩
  | samplerRaises elapsed e hsampler =>
    exact h.of_sampler (Or.inr (Or.inr ⟨elapsed, hsampler⟩)) rfl rfl rfl le_rfl
      ⟨by simp, by simp, by simp⟩
  | samplerEnds hsampler =>
    obtain ⟨outcome, hpc, hhas, hphase⟩ := hstage.closing hsampler
    refine h.of_phase rfl rfl le_rfl ?_
    simp only [Stage, hpc]
    exact ⟨Or.inr (Or.inl trivial), hhas, hphase⟩
  | depth p durationS elapsed depth hpc hp =>
    simp only [Stage, hpc] at hstage
    obtain ⟨hsampler, q, hq, hwindow, hg⟩ := hstage
    obtain rfl := Option.some.inj (hp.symm.trans hq)
    obtain ⟨hphase, hparams, hclock⟩ :=
      finish_phase floatRepr (w.sampled elapsed depth) p durationS
    exact h.of_phase hphase hparams hclock.ge
      (stage_finish (w := w.sampled elapsed depth) hp (Or.inr hsampler) hwindow hg _)
  | depthRaises p durationS elapsed e hpc hp =>
    simp only [Stage, hpc] at hstage
    exact h.of_phase rfl rfl le_rfl (Or.inr (Or.inl hstage.1))

theorem params_step (hs : w.step floatRepr a = some w') : w'.params = w.params := by
  cases Effect.of_step hs with
  | finish t u p hl hhas ht => exact (finish_phase _ { w with clock := t } _ _).2.1
  | depth p durationS elapsed depth hpc hp =>
    exact (finish_phase _ (w.sampled elapsed depth) _ _).2.1
  | _ => rfl

theorem inv_run {as : List Action} (h : w.Inv) (hrun : run (step floatRepr) w as = some w') :
    w'.Inv :=
  run_invariant_of_step (fun _ _ _ hi hs => inv_step hi hs) h hrun

/-- `run_bench` is over, or what it waits for is its own sampler task and its last sample. -/
def Over (w : World V) : Prop :=
  match w.pc with
  | .entry => False
  | .warming => ∃ p, w.phase = some p ∧ p.failure ≠ none
  | .measuring => ∃ p, w.phase = some p ∧ gathered p ≠ none
  | _ => True

def ended (w : World V) : Bool :=
  match w.pc with
  | .returned _ => true
  | .raised _ => true
  | _ => false

/-- How many pieces of its own are left to `run_bench` at most. -/
def remaining (w : World V) : ℕ :=
  match w.pc with
  | .entry => 4
  | .warming => 4
  | .measuring => 4
  | .closing _ => if w.sampler = .cancelled then 3 else 2
  | .sampling _ _ => 1
  | .returned _ => 0
  | .raised _ => 0

end World

/-- The pieces of `run_bench` itself and the end of its sampler task. -/
def Action.isBench : Action → Bool
  | .main _ _ => true
  | .samplerEnds => true
  | .depth _ => true
  | _ => false

def Action.raises : Action → Bool
  | .worker a => a.isRaise
  | .samplerReads (.error _) => true
  | .depth (.error _) => true
  | _ => false

namespace World
variable {floatRepr : ℚ → String} {w w' : World V} {p : Phase} {a : Action}

theorem remaining_finish (floatRepr : ℚ → String) (w : World V) (p : Phase) (durationS : ℚ) :
    (w.finish floatRepr p durationS).remaining = 0 ∧ (w.finish floatRepr p durationS).Over := by
  obtain ⟨-, hfin⟩ | ⟨result, -, hfin, -⟩ := finish_eq floatRepr w p durationS
  · rw [hfin]
    exact ⟨rfl, trivial⟩
  · rw [hfin]
    exact ⟨rfl, trivial⟩

theorem Leaves.two_le_remaining {outcome : Option PyExc} (hl : w.Leaves p outcome) :
    2 ≤ w.remaining := by
  obtain ⟨-, ⟨hpc, hs, -⟩ | ⟨hpc, hs⟩⟩ := hl
  · simp [remaining, hpc]
  · simp [remaining, hpc, hs]

theorem over_step (h : w.Inv) (ho : w.Over) (hs : w.step floatRepr a = some w') :
    w'.Over ∧ w'.remaining + (if a.isBench then 1 else 0) ≤ w.remaining := by
  have hstage := h.stage
  cases Effect.of_step hs with
  | refuse t u hpc hc => simp [Over, hpc] at ho
  | warm t u window hpc hc ht => simp [Over, hpc] at ho
  | measure t u hpc hc ht => simp [Over, hpc] at ho
  | warmupFailed t u p e hpc hp he => exact ⟨trivial, by simp [remaining, hpc, Action.isBench]⟩
  | warmedUp t u p hpc hp hnone ht =>
    simp only [Over, hpc] at ho
    obtain ⟨q, hq, hfail⟩ := ho
    obtain rfl := Option.some.inj (hp.symm.trans hq)
    exact absurd hnone hfail
  | close t u p outcome hpc hp hg hsampler =>
    refine ⟨trivial, ?_⟩
    simp only [remaining, hpc, Action.isBench, if_true]
    split_ifs <;> omega
  | samplerFailed t u p outcome e hpc hp hsampler =>
    exact ⟨trivial, by simp [remaining, hpc, hsampler, Action.isBench]⟩
  | failed t u p e hl =>
    have hle := hl.two_le_remaining
    exact ⟨trivial, by change 0 + 1 ≤ _; omega⟩
  | lastSample t u p hl hhas ht hu =>
    have hle := hl.two_le_remaining
    exact ⟨trivial, by change 1 + 1 ≤ _; omega⟩
  | finish t u p hl hhas ht =>
    have hle := hl.two_le_remaining
    obtain ⟨hzero, hover⟩ := remaining_finish floatRepr { w with clock := t } p (t - p.startedAt)
    refine ⟨hover, ?_⟩
    rw [hzero]
    change 0 + 1 ≤ _
    omega
  | worker b p s hp hstep =>
    refine ⟨?_, le_rfl⟩
    obtain ⟨hi, -, -⟩ := h.phase p hp
    unfold Over at ho ⊢
    cases hpc : w.pc with
    | entry => simp [hpc] at ho
    | warming =>
      rw [hpc] at ho
      obtain ⟨q, hq, hfail⟩ := ho
      obtain rfl := Option.some.inj (hp.symm.trans hq)
      obtain ⟨e, he⟩ := Option.ne_none_iff_exists'.mp hfail
      exact ⟨s.2, rfl, by rw [Phase.failure_step he hstep]; simp⟩
    | measuring =>
      rw [hpc] at ho
      obtain ⟨q, hq, hg⟩ := ho
      obtain rfl := Option.some.inj (hp.symm.trans hq)
      obtain ⟨outcome, hg⟩ := Option.ne_none_iff_exists'.mp hg
      exact ⟨s.2, rfl, by rw [gathered_step hi hg hstep]; simp⟩
    | _ => trivial
  | samplerRuns t p hp hsampler ht =>
    have hpc := (hstage.measuring (hsampler.imp_right Or.inl)).1
    refine ⟨ho, ?_⟩
    simp [remaining, hpc, Action.isBench]
  | samplerReads elapsed depth hsampler =>
    have hpc := (hstage.measuring (Or.inr (Or.inr ⟨elapsed, hsampler⟩))).1
    refine ⟨ho, ?_⟩
    simp [remaining, sampled, hpc, Action.isBench]
  | samplerRaises elapsed e hsampler =>
    have hpc := (hstage.measuring (Or.inr (Or.inr ⟨elapsed, hsampler⟩))).1
    refine ⟨ho, ?_⟩
    simp [remaining, hpc, Action.isBench]
  | samplerEnds hsampler =>
    obtain ⟨outcome, hpc, -⟩ := hstage.closing hsampler
    refine ⟨ho, ?_⟩
    simp [remaining, hpc, hsampler, Action.isBench]
  | depth p durationS elapsed depth hpc hp =>
    obtain ⟨hzero, hover⟩ := remaining_finish floatRepr (w.sampled elapsed depth) p durationS
    refine ⟨hover, ?_⟩
    rw [hzero]
    simp [remaining, hpc, Action.isBench]
  | depthRaises p durationS elapsed e hpc hp =>
    exact ⟨trivial, by simp [remaining, hpc, Action.isBench]⟩

/-- A step of `run_bench` that is due can be taken. -/
theorem Over.enabled (floatRepr : ℚ → String) (h : w.Inv) (ho : w.Over) (hend : w.ended = false) :
    ∃ a w', a.isBench = true ∧ a.raises = false ∧ w.step floatRepr a = some w' := by
  have hstage := h.stage
  have hleave (p : Phase) (outcome : Option PyExc) :
      ∃ w', w.leaveFinally floatRepr p outcome w.clock w.clock = some w' := by
    cases outcome with
    | some e => exact ⟨_, rfl⟩
    | none =>
      simp only [leaveFinally, le_refl, and_self, if_true]
      split_ifs <;> exact ⟨_, rfl⟩
  unfold Over at ho
  split at ho
  · cases ho
  · rename_i hpc
    obtain ⟨p, hp, hfail⟩ := ho
    obtain ⟨e, he⟩ := Option.ne_none_iff_exists'.mp hfail
    have hg : gathered p = some (some e) := gathered_eq_some.mpr ⟨he, by simp⟩
    refine ⟨.main w.clock w.clock, ?_⟩
    simp only [step, main, hpc, hp, hg]
    exact ⟨_, rfl, rfl, rfl⟩
  · rename_i hpc
    obtain ⟨p, hp, hg⟩ := ho
    obtain ⟨outcome, hg⟩ := Option.ne_none_iff_exists'.mp hg
    by_cases hs : w.sampler = .absent
    · obtain ⟨w', hw'⟩ := hleave p outcome
      refine ⟨.main w.clock w.clock, w', rfl, rfl, ?_⟩
      simp only [step, main, hpc, hp, hg, hs, if_true, hw']
    · refine ⟨.main w.clock w.clock, ?_⟩
      simp only [step, main, hpc, hp, hg, hs, if_false]
      exact ⟨_, rfl, rfl, rfl⟩
  · rename_i hne₁ hne₂ hne₃
    cases hpc : w.pc with
    | closing outcome =>
      simp only [Stage, hpc] at hstage
      obtain ⟨hs | hs | ⟨e, hs⟩, -, p, hp, -⟩ := hstage
      · refine ⟨.samplerEnds, ?_⟩
        simp only [step, hs, if_true]
        exact ⟨_, rfl, rfl, rfl⟩
      · obtain ⟨w', hw'⟩ := hleave p outcome
        refine ⟨.main w.clock w.clock, w', rfl, rfl, ?_⟩
        simp only [step, main, hpc, hp, hs, hw']
      · refine ⟨.main w.clock w.clock, ?_⟩
        simp only [step, main, hpc, hp, hs]
        exact ⟨_, rfl, rfl, rfl⟩
    | sampling durationS elapsed =>
      simp only [Stage, hpc] at hstage
      obtain ⟨-, p, hp, -⟩ := hstage
      refine ⟨.depth (.ok 0), ?_⟩
      simp only [step, hpc, hp]
      exact ⟨_, rfl, rfl, rfl⟩
    | entry => exact absurd hpc hne₁
    | warming => exact absurd hpc hne₂
    | measuring => exact absurd hpc hne₃
    | returned result => simp [ended, hpc] at hend
    | raised e => simp [ended, hpc] at hend

theorem ended_of_remaining (h : w.remaining = 0) : w.ended = true := by
  unfold remaining at h
  unfold ended
  cases hpc : w.pc with
  | closing outcome =>
    rw [hpc] at h
    simp only at h
    split_ifs at h
  | returned result => rfl
  | raised e => rfl
  | _ => simp [hpc] at h

/-- Whatever happens beside it, `run_bench` can always go on until it has ended, and it has after
four pieces of its own. -/
theorem Over.ends (h : w.Inv) (ho : w.Over) {as : List Action}
    (hrun : run (step floatRepr) w as = some w') :
    (w'.ended = false → ∃ a u, a.isBench = true ∧ a.raises = false ∧ w'.step floatRepr a = some u) ∧
      (4 ≤ as.countP Action.isBench → w'.ended = true) := by
  have hboth : w'.Inv ∧ w'.Over :=
    run_invariant_of_step (I := fun u => u.Inv ∧ u.Over)
      (fun u b x hi hs => ⟨inv_step hi.1 hs, (over_step hi.1 hi.2 hs).1⟩) ⟨h, ho⟩ hrun
  refine ⟨hboth.2.enabled floatRepr hboth.1, ?_⟩
  intro hfour
  have hle := countP_add_le (I := fun u => u.Inv ∧ u.Over) (p := Action.isBench) remaining
    (fun u b x hi hs => ⟨⟨inv_step hi.1 hs, (over_step hi.1 hi.2 hs).1⟩,
      (over_step hi.1 hi.2 hs).2⟩) ⟨h, ho⟩ hrun
  have hmax : w.remaining ≤ 4 := by
    unfold remaining
    split <;> try omega
    split_ifs <;> omega
  exact ended_of_remaining (by omega)

end World
end Bench
