import MessageBrokerPatterns.BenchRun

/-!
# What a bench without failures reports

When no operation and no sample fails, a run whose measured phase has ended comes to its end. What it
has to report is then decided by the very first check of the measured window: with the window closed
already there is no latency to summarise, and `run_bench` raises. Otherwise the result has a latency
for every operation, and the depth series is in the order of its readings.
-/

namespace Bench
open PyText PyDict ActionRun

namespace Phase
variable {p : Phase} {clock : ℚ}

/-- The window counts operations, or the first check of the phase has come in time. -/
def FirstCheckOpen (p : Phase) : Prop :=
  match p.window with
  | .ofOps _ _ => True
  | .ofSeconds seconds _ => ∃ c, p.checks.head? = some c ∧ c.elapsed < seconds

theorem started_pos_iff (h : p.Inv clock) (hc : 1 ≤ p.concurrency) (hstopped : p.allStopped = true) :
    0 < p.started ↔ p.FirstCheckOpen := by
  unfold FirstCheckOpen
  split
  · rename_i ops hpos hw
    obtain ⟨elapsed, hk⟩ := allStopped_iff.mp hstopped 0 hc
    have hdone := h.stopped 0 _ hk elapsed rfl
    simp only [hw, Window.isDone, decide_eq_true_eq] at hdone
    simp only [iff_true]
    omega
  · rename_i seconds hpos hw
    constructor
    · intro hstarted
      cases hhead : p.checks.head? with
      | none =>
        rw [← h.admitted_count, List.head?_eq_none_iff.mp hhead, List.countP_nil] at hstarted
        omega
      | some c =>
        refine ⟨c, rfl, ?_⟩
        cases hadmits : c.admits with
        | true =>
          have hopen := h.admitted c (List.mem_of_mem_head? hhead) hadmits
          simpa [hw, Window.isDone] using hopen
        | false =>
          have := (h.closed_first c hhead hadmits).1
          omega
    · rintro ⟨c, hhead, hlt⟩
      have hadmits : c.admits = true := by
        by_contra hne
        have hdone := (h.closed_first c hhead (by simpa using hne)).2
        simp only [hw, Window.isDone, decide_eq_true_eq] at hdone
        exact absurd hdone (not_le.mpr hlt)
      rw [← h.admitted_count, List.countP_pos_iff]
      exact ⟨c, List.mem_of_mem_head? hhead, hadmits⟩

end Phase

namespace World
variable {V : Type*} {floatRepr : ℚ → String} {w w' : World V} {a : Action}

def emptySample : PyExc := valueError "cannot summarise an empty latency sample"

/-- The depth series is in order, and no reading lies ahead of the clock. -/
structure Depths (w : World V) : Prop where
  sorted : w.samples.Pairwise fun s s' => s.elapsedS ≤ s'.elapsedS
  none_yet : w.pc = .entry ∨ w.pc = .warming → w.samples = []
  past : ∀ p, w.phase = some p → ∀ s ∈ w.samples, s.elapsedS ≤ w.clock - p.startedAt
  reading : ∀ elapsed, (w.sampler = .reading elapsed ∨ ∃ durationS, w.pc = .sampling durationS elapsed) →
    (∀ s ∈ w.samples, s.elapsedS ≤ elapsed) ∧
      ∀ p, w.phase = some p → elapsed ≤ w.clock - p.startedAt

/-- What a run without failures has come to. -/
structure Calm (w : World V) : Prop where
  concurrency : 1 ≤ w.params.concurrency
  failure : ∀ p, w.phase = some p → p.failure = none
  sampler : ∀ e, w.sampler ≠ .raised e
  raised : ∀ e, w.pc = .raised e → e = emptySample ∧ ∃ p, w.phase = some p ∧
    p.window = w.params.measure ∧ gathered p = some none ∧ p.latencies = []
  returned : ∀ result, w.pc = .returned result → ∃ p, w.phase = some p ∧
    p.window = w.params.measure ∧ gathered p = some none ∧ p.latencies ≠ [] ∧
    result.ops = p.started ∧ result.latenciesS = p.latencies ∧
    result.latency.count = p.latencies.length ∧ result.queueDepth = w.samples ∧
    (w.params.hasSampler = true → w.samples ≠ [])

theorem depths_init (params : Params V) (clock : ℚ) : (init params clock).Depths := by
  refine ⟨.nil, fun _ => rfl, fun p hp => ?_, fun elapsed h => ?_⟩
  · cases hp
  · rcases h with h | ⟨durationS, h⟩ <;> cases h

theorem calm_init {params : Params V} (hc : 1 ≤ params.concurrency) (clock : ℚ) :
    (init params clock).Calm := by
  refine ⟨hc, ?_, ?_, ?_, ?_⟩ <;> intro _ h <;> cases h

theorem Depths.of_clock (h : w.Depths) (hsamples : w'.samples = w.samples)
    (hclock : w.clock ≤ w'.clock)
    (hphase : ∀ p', w'.phase = some p' → ∃ p, w.phase = some p ∧ p'.startedAt = p.startedAt)
    (hpc : w'.pc = .entry ∨ w'.pc = .warming → w.samples = [])
    (hreading : ∀ elapsed, (w'.sampler = .reading elapsed ∨ ∃ d, w'.pc = .sampling d elapsed) →
      (w.sampler = .reading elapsed ∨ ∃ d, w.pc = .sampling d elapsed)) : w'.Depths := by
  refine ⟨by rw [hsamples]; exact h.sorted, by rw [hsamples]; exact hpc, ?_, ?_⟩
  · intro p' hp' s hs
    rw [hsamples] at hs
    obtain ⟨p, hp, heq⟩ := hphase p' hp'
    have hle := h.past p hp s hs
    rw [heq]
    linarith
  · intro elapsed he
    obtain ⟨hall, hle⟩ := h.reading elapsed (hreading elapsed he)
    refine ⟨by rw [hsamples]; exact hall, ?_⟩
    intro p' hp'
    obtain ⟨p, hp, heq⟩ := hphase p' hp'
    have := hle p hp
    rw [heq]
    linarith

theorem depths_new (hsamples : w.samples = []) (hsampler : ∀ elapsed, w.sampler ≠ .reading elapsed)
    (hpc : ∀ durationS elapsed, w.pc ≠ .sampling durationS elapsed) : w.Depths := by
  refine ⟨by rw [hsamples]; exact .nil, fun _ => hsamples, fun p _ s hs => ?_, fun elapsed h => ?_⟩
  · rw [hsamples] at hs
    cases hs
  · obtain h | ⟨durationS, h⟩ := h
    · exact absurd h (hsampler elapsed)
    · exact absurd h (hpc durationS elapsed)

theorem depths_measureFrom (hsamples : w.samples = []) (warmupOps : ℕ) (t : ℚ) :
    (w.measureFrom warmupOps t).Depths := by
  refine depths_new hsamples (fun elapsed he => ?_) (fun d e he => by cases he)
  simp only [measureFrom] at he
  split_ifs at he

theorem Depths.begun (h : w.Depths) {p : Phase} (hp : w.phase = some p)
    (hsamples : w'.samples = w.samples) (hphase : w'.phase = w.phase) (hclock : w.clock ≤ w'.clock)
    (hpc : w'.pc = .entry ∨ w'.pc = .warming → w.samples = [])
    (hreading : ∀ elapsed, (w'.sampler = .reading elapsed ∨ ∃ d, w'.pc = .sampling d elapsed) →
      elapsed = w'.clock - p.startedAt) : w'.Depths := by
  have hpast (q : Phase) (hq : w.phase = some q) (s : DepthSample) (hs : s ∈ w.samples) :
      s.elapsedS ≤ w'.clock - q.startedAt := by
    have := h.past q hq s hs
    linarith
  refine ⟨by rw [hsamples]; exact h.sorted, by rw [hsamples]; exact hpc, ?_, ?_⟩
  · rw [hphase, hsamples]
    exact hpast
  · intro elapsed he
    rw [hreading elapsed he, hphase, hsamples]
    refine ⟨hpast p hp, fun q hq => ?_⟩
    obtain rfl := Option.some.inj (hp.symm.trans hq)
    exact le_rfl

theorem Depths.sampled (h : w.Depths) {elapsed : ℚ}
    (hreading : w.sampler = .reading elapsed ∨ ∃ d, w.pc = .sampling d elapsed) (depth : ℤ)
    (hsamples : w'.samples = w.samples ++ [⟨elapsed, depth⟩]) (hclock : w'.clock = w.clock)
    (hphase : w'.phase = w.phase) (hsampler : ∀ e, w'.sampler ≠ .reading e)
    (hpc : ∀ d e, w'.pc ≠ .sampling d e) (hlate : w'.pc ≠ .entry ∧ w'.pc ≠ .warming) :
    w'.Depths := by
  obtain ⟨hall, hle⟩ := h.reading elapsed hreading
  constructor
  · rw [hsamples, List.pairwise_append]
    refine ⟨h.sorted, List.pairwise_singleton .., ?_⟩
    intro s hs s' hs'
    rw [List.mem_singleton.mp hs']
    exact hall s hs
  · rintro (hentry | hwarming)
    · exact absurd hentry hlate.1
    · exact absurd hwarming hlate.2
  · intro p hp s hs
    rw [hphase] at hp
    rw [hclock]
    rw [hsamples] at hs
    rcases List.mem_append.mp hs with hs | hs
    · exact h.past p hp s hs
    · rw [List.mem_singleton.mp hs]
      exact hle p hp
  · rintro e (he | ⟨d, he⟩)
    · exact absurd he (hsampler e)
    · exact absurd he (hpc d e)

theorem finish_ended (floatRepr : ℚ → String) (w : World V) (p : Phase) (durationS : ℚ) :
    (w.finish floatRepr p durationS).samples = w.samples ∧
      (w.finish floatRepr p durationS).sampler = w.sampler ∧
      (∀ d e, (w.finish floatRepr p durationS).pc ≠ .sampling d e) ∧
      (w.finish floatRepr p durationS).pc ≠ .entry ∧
      (w.finish floatRepr p durationS).pc ≠ .warming := by
  obtain ⟨-, hfin⟩ | ⟨result, -, hfin, -⟩ := finish_eq floatRepr w p durationS
  · rw [hfin]
    refine ⟨rfl, rfl, ?_, ?_, ?_⟩ <;> intros <;> simp
  · rw [hfin]
    refine ⟨rfl, rfl, ?_, ?_, ?_⟩ <;> intros <;> simp

theorem depths_step (hi : w.Inv) (h : w.Depths) (hs : w.step floatRepr a = some w') :
    w'.Depths := by
  have hstage := hi.stage
  have hsame (p' : Phase) (hp' : w.phase = some p') :
      ∃ p, w.phase = some p ∧ p'.startedAt = p.startedAt := ⟨p', hp', rfl⟩
  have hraised (u : World V) (e : PyExc) (hu : u = { w with pc := .raised e }) : u.Depths := by
    subst hu
    refine h.of_clock rfl le_rfl hsame (fun hpc => ?_) (fun elapsed he => ?_)
    · rcases hpc with hpc | hpc <;> cases hpc
    · rcases he with he | ⟨d, he⟩
      · exact Or.inl he
      · cases he
  have hover (u : World V) (task : SamplerTask) (hu : u = { w with sampler := task })
      (htask : ∀ elapsed, task ≠ .reading elapsed) : u.Depths := by
    subst hu
    exact h.of_clock rfl le_rfl hsame h.none_yet fun elapsed he => he.imp_left (absurd · (htask _))
  cases Effect.of_step hs with
  | refuse t u hpc hc => exact hraised _ _ rfl
  | warm t u window hpc hc ht =>
    simp only [Stage, hpc] at hstage
    refine depths_new (h.none_yet (Or.inl hpc)) (fun elapsed he => ?_) (fun d e he => by cases he)
    change w.sampler = _ at he
    rw [hstage.1] at he
    cases he
  | measure t u hpc hc ht => exact depths_measureFrom (h.none_yet (Or.inl hpc)) 0 t
  | warmupFailed t u p e hpc hp he => exact hraised _ _ rfl
  | warmedUp t u p hpc hp hnone ht => exact depths_measureFrom (h.none_yet (Or.inr hpc)) _ t
  | close t u p outcome hpc hp hg hsampler =>
    refine h.of_clock rfl le_rfl hsame (fun h' => ?_) (fun elapsed he => ?_)
    · rcases h' with h' | h' <;> cases h'
    · rcases he with he | ⟨d, he⟩
      · change w.sampler.cancel = _ at he
        cases hk : w.sampler <;> rw [hk] at he <;> cases he
      · cases he
  | samplerFailed t u p outcome e hpc hp hsampler => exact hraised _ _ rfl
  | failed t u p e hl => exact hraised _ _ rfl
  | lastSample t u p hl hhas ht hu =>
    obtain ⟨hsampler, -, -⟩ := hl.stage hstage
    refine h.begun hl.phase rfl rfl (ht.trans hu) (fun h' => ?_) (fun elapsed he => ?_)
    · rcases h' with h' | h' <;> cases h'
    · rcases he with he | ⟨d, he⟩
      · change w.sampler = _ at he
        rcases hsampler with hsampler | hsampler <;> rw [hsampler.1] at he <;> cases he
      · cases he
        rfl
  | finish t u p hl hhas ht =>
    obtain ⟨hsampler, -, -⟩ := hl.stage hstage
    obtain ⟨hphase, -, hclock⟩ :=
      finish_phase floatRepr { w with clock := t } p (t - p.startedAt)
    obtain ⟨hsamples, hsame', hpc, hentry, hwarming⟩ :=
      finish_ended floatRepr { w with clock := t } p (t - p.startedAt)
    refine h.of_clock hsamples (by rw [hclock]; exact ht) ?_ ?_ ?_
    · rw [hphase]
      exact hsame
    · rintro (h' | h')
      · exact absurd h' hentry
      · exact absurd h' hwarming
    · rintro elapsed (he | ⟨d, he⟩)
      · rw [hsame'] at he
        exact Or.inl he
      · exact absurd he (hpc d elapsed)
  | worker b p s hp hstep =>
    obtain ⟨-, -, hstarted, -⟩ := Phase.keeps_step hstep
    obtain ⟨hiu, -, -⟩ := hi.phase p hp
    refine h.of_clock rfl (Phase.clock_le_step hstep) (fun p' hp' => ?_) h.none_yet (fun _ he => he)
    cases hp'
    exact ⟨p, hp, hstarted⟩
  | samplerRuns t p hp hsampler ht =>
    have hpc := (hstage.measuring (hsampler.imp_right Or.inl)).1
    refine h.begun hp rfl rfl ht h.none_yet (fun elapsed he => ?_)
    rcases he with he | ⟨d, he⟩
    · cases he
      rfl
    · change w.pc = _ at he
      rw [hpc] at he
      cases he
  | samplerReads elapsed depth hsampler =>
    have hpc := (hstage.measuring (Or.inr (Or.inr ⟨elapsed, hsampler⟩))).1
    refine h.sampled (Or.inl hsampler) depth rfl rfl rfl (fun e he => by cases he) ?_ ?_
    · intro d e he
      change w.pc = _ at he
      rw [hpc] at he
      cases he
    · change w.pc ≠ _ ∧ w.pc ≠ _
      rw [hpc]
      exact ⟨by simp, by simp⟩
  | samplerRaises elapsed e hsampler => exact hover _ _ rfl (by simp)
  | samplerEnds hsampler => exact hover _ _ rfl (by simp)
  | depth p durationS elapsed depth hpc hp =>
    simp only [Stage, hpc] at hstage
    obtain ⟨hphase, -, hclock⟩ :=
      finish_phase floatRepr (w.sampled elapsed depth) p durationS
    obtain ⟨hsamples, hsame', hpc', hlate⟩ :=
      finish_ended floatRepr (w.sampled elapsed depth) p durationS
    refine h.sampled (Or.inr ⟨durationS, hpc⟩) depth hsamples hclock hphase (fun e he => ?_) hpc' hlate
    rw [hsame'] at he
    change w.sampler = _ at he
    rw [hstage.1] at he
    cases he
  | depthRaises p durationS elapsed e hpc hp => exact hraised _ _ rfl

theorem Calm.not_failed (h : w.Calm) {p : Phase} (hp : w.phase = some p) {e : PyExc} :
    gathered p ≠ some (some e) := by
  intro hg
  have hnone := h.failure p hp
  rw [(gathered_eq_some.mp hg).1] at hnone
  cases hnone

theorem Calm.of_running (h : w.Calm) (hparams : w'.params = w.params)
    (hfailure : ∀ p, w'.phase = some p → p.failure = none) (hsampler : ∀ e, w'.sampler ≠ .raised e)
    (hpc : w'.ended = false) : w'.Calm := by
  refine ⟨by rw [hparams]; exact h.concurrency, hfailure, hsampler, ?_, ?_⟩
  · intro e he
    simp [ended, he] at hpc
  · intro result hr
    simp [ended, hr] at hpc

theorem Calm.finish (h : w.Calm) {p : Phase} (hp : w.phase = some p)
    (hwindow : p.window = w.params.measure) (hg : gathered p = some none)
    (hsamples : w.params.hasSampler = true → w.samples ≠ []) (durationS : ℚ) :
    (w.finish floatRepr p durationS).Calm := by
  obtain ⟨hlat, hfin⟩ | ⟨result, hlat, hfin, hops, hlats, hcount, hdepth⟩ :=
    finish_eq floatRepr w p durationS
  · rw [hfin]
    refine ⟨h.concurrency, h.failure, h.sampler, ?_, ?_⟩
    · intro e he
      cases he
      exact ⟨rfl, p, hp, hwindow, hg, hlat⟩
    · intro result hr
      cases hr
  · rw [hfin]
    refine ⟨h.concurrency, h.failure, h.sampler, ?_, ?_⟩
    · intro e he
      cases he
    · intro r hr
      cases hr
      exact ⟨p, hp, hwindow, hg, hlat, hops, hlats, hcount, hdepth, hsamples⟩

theorem calm_step (hi : w.Inv) (h : w.Calm) (ha : a.raises = false)
    (hs : w.step floatRepr a = some w') : w'.Calm := by
  have hstage := hi.stage
  have hmeasure (warmupOps : ℕ) (t : ℚ) : (w.measureFrom warmupOps t).Calm := by
    refine h.of_running rfl (fun p hp => ?_) (fun e he => ?_) rfl
    · cases hp
      rfl
    · simp only [measureFrom] at he
      split_ifs at he
  have hleft {p : Phase} {e : PyExc} (hl : w.Leaves p (some e)) : False :=
    h.not_failed hl.phase (hl.stage hstage).2.2
  cases Effect.of_step hs with
  | refuse t u hpc hc =>
    have := h.concurrency
    omega
  | warm t u window hpc hc ht =>
    refine h.of_running rfl (fun p hp => ?_) h.sampler rfl
    cases hp
    rfl
  | measure t u hpc hc ht => exact hmeasure 0 t
  | warmupFailed t u p e hpc hp he =>
    rw [h.failure p hp] at he
    cases he
  | warmedUp t u p hpc hp hnone ht => exact hmeasure _ t
  | close t u p outcome hpc hp hg hsampler =>
    refine h.of_running rfl h.failure (fun e he => ?_) rfl
    change w.sampler.cancel = _ at he
    cases hk : w.sampler with
    | raised e' => exact h.sampler e' hk
    | _ => rw [hk] at he; cases he
  | samplerFailed t u p outcome e hpc hp hsampler => exact absurd hsampler (h.sampler e)
  | failed t u p e hl => exact (hleft hl).elim
  | lastSample t u p hl hhas ht hu => exact h.of_running rfl h.failure h.sampler rfl
  | finish t u p hl hhas ht =>
    obtain ⟨-, hwindow, hg⟩ := hl.stage hstage
    have hclock : ({ w with clock := t } : World V).Calm :=
      ⟨h.concurrency, h.failure, h.sampler, h.raised, h.returned⟩
    apply hclock.finish hl.phase hwindow hg
    intro hhas'
    change w.params.hasSampler = true at hhas'
    rw [hhas] at hhas'
    cases hhas'
  | worker b p s hp hstep =>
    have hfailure : ∀ q, some s.2 = some q → q.failure = none := by
      intro q hq
      cases hq
      rw [Phase.failure_eq_of_not_raise ha hstep]
      exact h.failure p hp
    have hidle (hg : gathered p = some none) : False := by
      rw [Phase.not_step_of_allStopped (hi.phase p hp).1 ((gathered_eq_some.mp hg).2 rfl)] at hstep
      cases hstep
    refine ⟨h.concurrency, hfailure, h.sampler, ?_, ?_⟩
    · intro e he
      obtain ⟨-, q, hq, -, hg, -⟩ := h.raised e he
      obtain rfl := Option.some.inj (hp.symm.trans hq)
      exact (hidle hg).elim
    · intro result hr
      obtain ⟨q, hq, -, hg, -⟩ := h.returned result hr
      obtain rfl := Option.some.inj (hp.symm.trans hq)
      exact (hidle hg).elim
  | samplerRuns t p hp hsampler ht =>
    have hpc := (hstage.measuring (hsampler.imp_right Or.inl)).1
    exact h.of_running rfl h.failure (fun e he => by cases he) (by simp [ended, hpc])
  | samplerReads elapsed depth hsampler =>
    have hpc := (hstage.measuring (Or.inr (Or.inr ⟨elapsed, hsampler⟩))).1
    exact h.of_running rfl h.failure (fun e he => by cases he) (by simp [ended, sampled, hpc])
  | samplerRaises elapsed e hsampler => cases ha
  | samplerEnds hsampler =>
    obtain ⟨outcome, hpc, -⟩ := hstage.closing hsampler
    exact h.of_running rfl h.failure (fun e he => by cases he) (by simp [ended, hpc])
  | depth p durationS elapsed depth hpc hp =>
    simp only [Stage, hpc] at hstage
    obtain ⟨-, q, hq, hwindow, hg⟩ := hstage
    obtain rfl := Option.some.inj (hp.symm.trans hq)
    have hsampled : (w.sampled elapsed depth).Calm := by
      refine h.of_running rfl h.failure h.sampler ?_
      simp [ended, sampled, hpc]
    apply hsampled.finish hp hwindow hg
    intro _
    simp [sampled]
  | depthRaises p durationS elapsed e hpc hp => cases ha

/-- What `run_bench` has to show for a measured phase that was not empty. -/
structure Complete (w : World V) (result : BenchResult V) : Prop where
  ops_pos : 1 ≤ result.ops
  count_eq : result.latency.count = result.ops
  length_eq : result.latenciesS.length = result.ops
  sorted : result.queueDepth.Pairwise fun s s' => s.elapsedS ≤ s'.elapsedS
  sampled : w.params.hasSampler = true → result.queueDepth ≠ []

/-- The measured phase is over: all of its workers have stopped. -/
def MeasuredEnded (w : World V) : Prop :=
  w.pc ≠ .entry ∧ w.pc ≠ .warming ∧ ∃ p, w.phase = some p ∧ p.allStopped = true

/-- When nothing raises and the measured phase ends, `run_bench` ends: it can always go on, and four
pieces of its own lead to the end. It returns a complete result if the window counts operations or
its first check came in time, and else raises that there is nothing to summarise. -/
theorem accepted_window_yields_result (floatRepr : ℚ → String) (params : Params V)
    (hc : 1 ≤ params.concurrency) (clock : ℚ) (as : List Action)
    (hcalm : ∀ a ∈ as, a.raises = false) (w : World V)
    (hrun : run (step floatRepr) (init params clock) as = some w) :
    (w.MeasuredEnded → ∀ more u, run (step floatRepr) w more = some u →
        (u.ended = false →
          ∃ a u', a.isBench = true ∧ a.raises = false ∧ u.step floatRepr a = some u') ∧
        (4 ≤ more.countP Action.isBench → u.ended = true)) ∧
      (w.ended = true → ∃ p, w.phase = some p ∧ p.window = params.measure ∧
        (p.FirstCheckOpen → ∃ result, w.pc = .returned result ∧ w.Complete result) ∧
        (¬ p.FirstCheckOpen → w.pc = .raised emptySample)) := by
  have hall : (w.Inv ∧ w.Depths ∧ w.Calm) ∧ w.params = params := by
    apply run_invariant (I := fun u => (u.Inv ∧ u.Depths ∧ u.Calm) ∧ u.params = params)
      (C := fun _ a => a.raises = false) _
      ⟨⟨inv_init params clock, depths_init params clock, calm_init hc clock⟩, rfl⟩
      (along_of_forall (fun a ha _ => hcalm a ha) _) hrun
    rintro u a x ⟨⟨hi, hd, hcu⟩, hparams⟩ ha hs
    exact ⟨⟨inv_step hi hs, depths_step hi hd hs, calm_step hi hcu ha hs⟩,
      (params_step hs).trans hparams⟩
  obtain ⟨⟨hi, hd, hcu⟩, rfl⟩ := hall
  constructor
  · rintro ⟨hentry, hwarming, p, hp, hstopped⟩ more u hu
    have hover : w.Over := by
      unfold Over
      split
      · exact absurd ‹_› hentry
      · exact absurd ‹_› hwarming
      · refine ⟨p, hp, ?_⟩
        rw [gathered_eq_some.mpr ⟨hcu.failure p hp, fun _ => hstopped⟩]
        simp
      · trivial
    exact hover.ends hi hu
  · intro hend
    have hopen {p : Phase} (hp : w.phase = some p) (hg : gathered p = some none) :
        p.latencies ≠ [] ↔ p.FirstCheckOpen := by
      obtain ⟨hpi, hacc, hconc⟩ := hi.phase p hp
      have hstopped := (gathered_eq_some.mp hg).2 rfl
      have hone := hcu.concurrency
      rw [← Phase.started_pos_iff hpi (by omega) hstopped, Phase.started_of_allStopped hacc hstopped,
        List.length_pos_iff]
    cases hpc : w.pc with
    | returned result =>
      obtain ⟨p, hp, hwindow, hg, hlat, hops, hlats, hcount, hdepth, hsamples⟩ :=
        hcu.returned result hpc
      have hstarted := Phase.started_of_allStopped (hi.phase p hp).2.1
        ((gathered_eq_some.mp hg).2 rfl)
      have hpos := List.length_pos_iff.mpr hlat
      refine ⟨p, hp, hwindow, fun _ => ⟨result, rfl, ?_⟩, fun hclosed => ?_⟩
      · refine ⟨by omega, by omega, by rw [hlats]; omega, ?_, ?_⟩
        · rw [hdepth]
          exact hd.sorted
        · rw [hdepth]
          exact hsamples
      · exact absurd ((hopen hp hg).mp hlat) hclosed
    | raised e =>
      obtain ⟨rfl, p, hp, hwindow, hg, hlat⟩ := hcu.raised e hpc
      refine ⟨p, hp, hwindow, fun hfirst => ?_, fun _ => rfl⟩
      exact absurd hlat ((hopen hp hg).mpr hfirst)
    | _ => simp [ended, hpc] at hend

def oneOp : Params Unit := { name := "demo", measure := .ofOps 1 Int.one_pos, hasSampler := true }

/-- One operation beside one sample, up to the last call of the sampler. -/
def oneOpRun : List Action :=
  [.main 0 0, .samplerRuns 0, .samplerReads (.ok 3), .worker (.begins 0 1 1),
    .worker (.returns 0 2 2 2), .main 2 2, .samplerEnds, .main 3 3]

theorem accepted_window_yields_result_one : ∃ w result,
    run (step fun _ => "") (init oneOp 0) (oneOpRun ++ [.depth (.ok 0)]) = some w ∧
      w.pc = .returned result ∧ w.Complete result := by
  have hpc : ((run (step fun _ => "") (init oneOp 0) oneOpRun).map fun w =>
      (w.pc, w.phase.isSome)) = some (.sampling (3 - 0) (3 - 0), true) := rfl
  obtain ⟨w, hw, hfacts⟩ := Option.map_eq_some_iff.mp hpc
  obtain ⟨hpc, hphase⟩ := Prod.mk.inj hfacts
  obtain ⟨p, hp⟩ := Option.isSome_iff_exists.mp hphase
  have hlast : run (step fun _ => "") (init oneOp 0) (oneOpRun ++ [.depth (.ok 0)]) =
      some ((w.sampled (3 - 0) 0).finish (fun _ => "") p (3 - 0)) := by
    rw [run_append, hw, Option.bind_some, run_cons]
    simp only [step, hpc, hp]
    rfl
  obtain ⟨q, hq, hwindow, hopen, -⟩ :=
    (accepted_window_yields_result (fun _ => "") oneOp (by decide) 0 _ (by decide) _ hlast).2
      (ended_of_remaining (remaining_finish _ _ _ _).1)
  have hfirst : q.FirstCheckOpen := by
    unfold Phase.FirstCheckOpen
    rw [hwindow]
    trivial
  obtain ⟨result, hresult, hcomplete⟩ := hopen hfirst
  exact ⟨_, result, hlast, hresult, hcomplete⟩

/-- The exception that `run_bench` has raised. -/
def exception (w : World V) : Option PyExc :=
  match w.pc with
  | .raised e => some e
  | _ => none

/-- A window of a millisecond is accepted and over before the first worker looks at it. -/
theorem short_window_raises :
    Window.new (fun _ => "") none (some (.finite (1 / 1000))) =
        .ok (.ofSeconds (1 / 1000) (by norm_num)) ∧
      ((run (step fun _ => "")
          (init (V := Unit) { name := "demo", measure := .ofSeconds (1 / 1000) (by norm_num) } 0)
          [.main 0 0, .worker (.begins 0 (1 / 500) (1 / 500)), .main 1 1]).map exception) =
        some (some emptySample) := by
  constructor
  · rw [Window.new, dif_pos]
  · decide +kernel

end World
end Bench
