import MessageBrokerPatterns.SagaRunner

/-!
# What a step of a saga run hands on

A run has handled the entries of a stream up to its cursor, except that the `XADD` for the entry at
the cursor may still be outstanding. `Runner.handled` counts them, `Placed` keeps the pages in hand
in place, and `Progress` lists what a single step can do to the streams and the counts: nothing, the
`OrderCreated` of a run, or the handling of one entry with the event that a service answers it by.
-/

namespace Saga
open PyText PyDict RedisStream ActionRun
variable {ρ F : Type}

namespace Runner

/-- How many entries of the stream the run has handled, up to the executed `XADD`. -/
def handled (k : Runner) (s : Stream) : ℕ :=
  match k.phase with
  | .handling t _ => if t = s then k.lastIds s - 1 else k.lastIds s
  | .publishing t _ _ => if t = s then k.lastIds s - 1 else k.lastIds s
  | _ => k.lastIds s

/-- The `OrderCreated` of the run is on its stream. -/
def posted (k : Runner) : Bool :=
  match k.phase with
  | .unstarted => false
  | .creating _ => false
  | _ => true

end Runner

/-- The cursors of a run are within the streams, the page it goes through lies behind its cursor,
and the `XADD` it waits for is the answer to the entry at its cursor. -/
structure Placed (ρ F : Type) [DecidableEq ρ] [PyFloat F] (streams : Stream → List Fields)
    (k : Runner) : Prop where
  within : ∀ s, k.lastIds s ≤ (streams s).length
  paging : ∀ s rest, k.phase = .paging s rest → IsPage (streams s) (k.lastIds s) rest
  publishing : ∀ s rest p, k.phase = .publishing s rest p →
    IsPage (streams s) (k.lastIds s) rest ∧ ∃ n raw, k.lastIds s = n + 1 ∧
      (streams s)[n]? = some raw ∧
      ∃ (svc : ℕ) (uuid : String) (m m' : Memory ρ F), Routed svc uuid m raw s m' (some p)

variable [DecidableEq ρ] [PyFloat F]

theorem Placed.grow {streams streams' : Stream → List Fields} {k : Runner}
    (h : Placed ρ F streams k) (hgrow : ∀ s, streams s <+: streams' s) :
    Placed ρ F streams' k := by
  constructor
  · exact fun s => (h.within s).trans (hgrow s).length_le
  · intro s rest hphase
    obtain ⟨more, hmore⟩ := hgrow s
    rw [← hmore]
    exact (h.paging s rest hphase).append (h.within s) more
  · intro s rest p hphase
    obtain ⟨hpage, n, raw, hn, hraw, hrouted⟩ := h.publishing s rest p hphase
    obtain ⟨more, hmore⟩ := hgrow s
    rw [← hmore]
    refine ⟨hpage.append (h.within s) more, n, raw, hn, ?_, hrouted⟩
    rw [List.getElem?_append_left (List.getElem?_eq_some_iff.mp hraw).1, hraw]

namespace Placed
variable {streams : Stream → List Fields} {k : Runner} {s : Stream} {raw : Fields}

theorem of_phase (h : Placed ρ F streams k) (phase : Phase)
    (hpage : ∀ s rest, phase ≠ .paging s rest) (hpublish : ∀ s rest p, phase ≠ .publishing s rest p) :
    Placed ρ F streams { k with phase } :=
  ⟨h.within, fun s rest hphase => absurd hphase (hpage s rest),
    fun s rest p hphase => absurd hphase (hpublish s rest p)⟩

theorem of_page (h : Placed ρ F streams k) {page : List (ℕ × Fields)}
    (hpage : IsPage (streams s) (k.lastIds s) page) :
    Placed ρ F streams { k with phase := .paging s page } := by
  refine ⟨h.within, fun t rest hphase => ?_, fun t rest p hphase => (by cases hphase)⟩
  cases hphase
  exact hpage

theorem of_ending (h : Placed ρ F streams k) (ending : Ending) :
    Placed ρ F streams { k with ending := some ending } :=
  ⟨h.within, h.paging, h.publishing⟩

theorem within_advance (h : Placed ρ F streams k) (hraw : (streams s)[k.lastIds s]? = some raw)
    (t : Stream) : Function.update k.lastIds s (k.lastIds s + 1) t ≤ (streams t).length := by
  by_cases ht : t = s
  · subst ht
    rw [Function.update_self]
    exact (List.getElem?_eq_some_iff.mp hraw).1
  · rw [Function.update_of_ne ht]
    exact h.within t

theorem advance (h : Placed ρ F streams k) (hraw : (streams s)[k.lastIds s]? = some raw) :
    Placed ρ F streams { k with
      lastIds := Function.update k.lastIds s (k.lastIds s + 1), phase := .atLoop } :=
  ⟨h.within_advance hraw, fun t rest hphase => (by cases hphase),
    fun t rest p hphase => (by cases hphase)⟩

theorem advance_publishing (h : Placed ρ F streams k)
    (hraw : (streams s)[k.lastIds s]? = some raw) {rest : List (ℕ × Fields)} {p : Publish}
    (hrest : IsPage (streams s) (k.lastIds s + 1) rest)
    (hrouted : ∃ (svc : ℕ) (uuid : String) (m m' : Memory ρ F), Routed svc uuid m raw s m' (some p)) :
    Placed ρ F streams { k with
      lastIds := Function.update k.lastIds s (k.lastIds s + 1),
      phase := .publishing s rest p } := by
  refine ⟨h.within_advance hraw, fun t rest' hphase => (by cases hphase), fun t rest' p' hphase => ?_⟩
  cases hphase
  simp only [Function.update_self]
  exact ⟨hrest, k.lastIds s, raw, rfl, hraw, hrouted⟩

end Placed

/-- The `XADD` that a run waits for. -/
def Phase.outgoing : Phase → Option Publish
  | .creating p => some p
  | .publishing _ _ p => some p
  | _ => none

/-- The fields that an `XADD`, if there is one, appends to a stream. -/
def added (out : Option Publish) (t : Stream) : List Fields :=
  match out with
  | some p => if t = p.stream then [p.fields] else []
  | none => []

theorem mem_added {p : Publish} {t : Stream} {raw : Fields} :
    raw ∈ added (some p) t ↔ t = p.stream ∧ raw = p.fields := by
  by_cases ht : t = p.stream
  · simp [added, ht]
  · simp [added, ht]

namespace World
variable {w w' : World ρ F} {r : ρ} {s : Stream} {a : Action ρ}

/-- What a single step does to the streams and to what the runs have handled. -/
inductive Progress (w w' : World ρ F) : Prop where
  | idle (hstreams : w'.streams = w.streams)
      (hhandled : ∀ q s, (w'.runners q).handled s = (w.runners q).handled s)
      (hposted : ∀ q, (w'.runners q).posted = (w.runners q).posted)
  | created (r : ρ) (p : Publish) (hphase : (w.runners r).phase = .creating p)
      (hstreams : ∀ s, w'.streams s = w.streams s ++ added (some p) s)
      (hhandled : ∀ q s, (w'.runners q).handled s = (w.runners q).handled s)
      (hself : (w'.runners r).posted = true)
      (hother : ∀ q, q ≠ r → (w'.runners q).posted = (w.runners q).posted)
  | handled (r : ρ) (s : Stream) (raw : Fields) (out : Option Publish)
      (hraw : (w.streams s)[(w.runners r).handled s]? = some raw)
      (hrouted : ∃ (svc : ℕ) (uuid : String) (m m' : Memory ρ F), Routed svc uuid m raw s m' out)
      (hstreams : ∀ t, w'.streams t = w.streams t ++ added out t)
      (hself : (fun q => (w'.runners q).handled s) =
        Function.update (fun q => (w.runners q).handled s) r ((w.runners r).handled s + 1))
      (hother : ∀ q t, t ≠ s → (w'.runners q).handled t = (w.runners q).handled t)
      (hposted : ∀ q, (w'.runners q).posted = (w.runners q).posted)

theorem placed_fresh (orders : ρ → Order F) (orderSvc : ρ → ℕ) (q : ρ) :
    Placed ρ F (fresh orders orderSvc).streams ((fresh orders orderSvc).runners q) :=
  ⟨fun s => le_rfl, fun s rest hphase => (by cases hphase),
    fun s rest p hphase => (by cases hphase)⟩

theorem Progress.of_runner (hstreams : w'.streams = w.streams)
    (hne : ∀ q, q ≠ r → w'.runners q = w.runners q)
    (hhandled : ∀ s, (w'.runners r).handled s = (w.runners r).handled s)
    (hposted : (w'.runners r).posted = (w.runners r).posted) : Progress w w' := by
  refine .idle hstreams (fun q s => ?_) fun q => ?_
  · by_cases hq : q = r
    · rw [hq, hhandled]
    · rw [hne q hq]
  · by_cases hq : q = r
    · rw [hq, hposted]
    · rw [hne q hq]

theorem Progress.of_setPhase {phase : Phase} (hstreams : w'.streams = w.streams)
    (hrunners : w'.runners = (w.setPhase r phase).runners)
    (hhandled : ∀ s, ({ w.runners r with phase } : Runner).handled s = (w.runners r).handled s)
    (hposted : ({ w.runners r with phase } : Runner).posted = (w.runners r).posted) :
    Progress w w' := by
  refine .of_runner (r := r) hstreams (fun q hq => ?_) (fun s => ?_) ?_
  · rw [hrunners]
    exact setRunner_of_ne hq _
  · rw [hrunners, setPhase, setRunner_self, hhandled]
  · rw [hrunners, setPhase, setRunner_self, hposted]

theorem Progress.of_endRun {ending : Ending} (hstreams : w'.streams = w.streams)
    (hrunners : w'.runners = (w.endRun r ending).runners) : Progress w w' := by
  refine .of_runner (r := r) hstreams (fun q hq => ?_) (fun s => ?_) ?_
  · rw [hrunners]
    exact setRunner_of_ne hq _
  · rw [hrunners, endRun, setRunner_self]
    rfl
  · rw [hrunners, endRun, setRunner_self]
    rfl

theorem Progress.of_handled {raw : Fields} {out : Option Publish}
    (hraw : (w.streams s)[(w.runners r).handled s]? = some raw)
    (hrouted : ∃ (svc : ℕ) (uuid : String) (m m' : Memory ρ F), Routed svc uuid m raw s m' out)
    (hstreams : ∀ t, w'.streams t = w.streams t ++ added out t)
    (hne : ∀ q, q ≠ r → w'.runners q = w.runners q)
    (hself : (w'.runners r).handled s = (w.runners r).handled s + 1)
    (hother : ∀ t, t ≠ s → (w'.runners r).handled t = (w.runners r).handled t)
    (hposted : (w'.runners r).posted = (w.runners r).posted) : Progress w w' := by
  refine .handled r s raw out hraw hrouted hstreams ?_ (fun q t ht => ?_) fun q => ?_
  · funext q
    by_cases hq : q = r
    · subst hq
      rw [Function.update_self, hself]
    · rw [Function.update_of_ne hq, hne q hq]
  · by_cases hq : q = r
    · rw [hq, hother t ht]
    · rw [hne q hq]
  · by_cases hq : q = r
    · rw [hq, hposted]
    · rw [hne q hq]

theorem Substep.progress (hplaced : ∀ q, Placed ρ F w.streams (w.runners q))
    (h : Substep w a w') : Progress w w' := by
  cases h with
  | start r hphase =>
    exact .of_setPhase rfl rfl (by simp [Runner.handled, hphase]) (by simp [Runner.posted, hphase])
  | created r p hphase =>
    refine .created r p hphase (streams_xadd p) (fun q s => ?_) ?_ fun q hq => ?_
    · by_cases hq : q = r
      · rw [hq, setPhase, setRunner_self]
        simp [Runner.handled, hphase, xadd]
      · rw [setPhase, setRunner_of_ne hq]
        rfl
    · rw [setPhase, setRunner_self]
      rfl
    · rw [setPhase, setRunner_of_ne hq]
      rfl
  | consumed r s hphase =>
    exact .of_setPhase rfl rfl (by simp [Runner.handled, hphase]) (by simp [Runner.posted, hphase])
  | published r s rest p hphase =>
    obtain ⟨-, n, raw, hn, hraw, hrouted⟩ := (hplaced r).publishing s rest p hphase
    have hhandled : (w.runners r).handled s = n := by
      simp only [Runner.handled, hphase, if_true, hn, Nat.add_sub_cancel]
    refine .of_handled (r := r) (s := s) (by rw [hhandled, hraw]) hrouted (streams_xadd p)
      (fun q hq => setRunner_of_ne hq _) ?_ (fun t ht => ?_) ?_
    · rw [hhandled, setPhase, setRunner_self]
      exact hn
    · rw [setPhase, setRunner_self]
      simp [Runner.handled, hphase, ht.symm, xadd]
    · rw [setPhase, setRunner_self]
      simp [Runner.posted, hphase]
  | leave r uuid hphase hstop => exact .of_endRun rfl rfl
  | enter r uuid hphase hstop =>
    exact .of_setPhase rfl rfl (by simp [Runner.handled, hphase]) (by simp [Runner.posted, hphase])
  | raised r uuid s id raw rest e hphase =>
    obtain ⟨rfl, -⟩ := ((hplaced r).paging s _ hphase).head
    refine .of_runner (r := r) rfl (fun q hq => ?_) (fun t => ?_) ?_
    · rw [endRun, setRunner_of_ne hq, routed, setRunner_of_ne hq]
    · rw [endRun, setRunner_self, routed, setRunner_self]
      by_cases ht : s = t
      · subst ht
        simp [Runner.handled, hphase]
      · simp [Runner.handled, hphase, ht, Ne.symm ht]
    · rw [endRun, setRunner_self, routed, setRunner_self]
      simp [Runner.posted, hphase]
  | passed r uuid s id raw rest m hphase hroute =>
    obtain ⟨rfl, hraw, -⟩ := ((hplaced r).paging s _ hphase).head
    have hhandled (t : Stream) : (w.runners r).handled t = (w.runners r).lastIds t := by
      simp only [Runner.handled, hphase]
    refine .of_handled (r := r) (s := s) (by rw [hhandled, hraw]) ⟨_, _, _, _, hroute⟩
      (fun t => (List.append_nil _).symm) (fun q hq => setRunner_of_ne hq _) ?_ (fun t ht => ?_) ?_
    · rw [hhandled, routed, setRunner_self]
      simp [Runner.handled]
    · rw [hhandled, routed, setRunner_self]
      simp [Runner.handled, ht]
    · rw [routed, setRunner_self]
      simp [Runner.posted, hphase]
  | issued r uuid s id raw rest m p hphase hroute =>
    obtain ⟨rfl, -⟩ := ((hplaced r).paging s _ hphase).head
    refine .of_runner rfl (fun q hq => setRunner_of_ne hq _) (fun t => ?_) ?_
    · rw [routed, setRunner_self]
      by_cases ht : s = t
      · subst ht
        simp [Runner.handled, hphase]
      · simp [Runner.handled, hphase, ht, Ne.symm ht]
    · rw [routed, setRunner_self]
      simp [Runner.posted, hphase]
  | nextStream r uuid s t hphase =>
    exact .of_setPhase rfl rfl (by simp [Runner.handled, hphase]) (by simp [Runner.posted, hphase])
  | sleep r uuid s hphase =>
    exact .of_setPhase rfl rfl (by simp [Runner.handled, hphase]) (by simp [Runner.posted, hphase])
  | finish r uuid hterminal => exact .of_endRun rfl rfl
  | stop r => exact .idle rfl (fun _ _ => rfl) fun _ => rfl
  | fail r e => exact .of_endRun rfl rfl
  | crash r hphase => exact .of_endRun rfl rfl

theorem Progress.grow (h : Progress w w') (s : Stream) : w.streams s <+: w'.streams s := by
  cases h with
  | idle hstreams =>
    exact ⟨[], by rw [hstreams, List.append_nil]⟩
  | created r p hphase hstreams =>
    rw [hstreams]
    exact List.prefix_append _ _
  | handled r s' raw out hraw hrouted hstreams =>
    rw [hstreams]
    exact List.prefix_append _ _

theorem Substep.placed (hplaced : ∀ q, Placed ρ F w.streams (w.runners q))
    (h : Substep w a w') (q : ρ) : Placed ρ F w'.streams (w'.runners q) := by
  have hgrow := (h.progress hplaced).grow
  have hset {u : World ρ F} {r : ρ} {k : Runner} (hk : Placed ρ F w.streams k)
      (hu : u.runners = (w.setRunner r k).runners) (hstreams : w'.streams = u.streams) :
      Placed ρ F w'.streams (u.runners q) := by
    rw [hu]
    by_cases hq : q = r
    · rw [hq, setRunner_self]
      exact hk.grow hgrow
    · rw [setRunner_of_ne hq]
      exact (hplaced q).grow hgrow
  cases h with
  | start r hphase => exact hset ((hplaced r).of_phase _ (by simp) (by simp)) rfl rfl
  | created r p hphase => exact hset ((hplaced r).of_phase _ (by simp) (by simp)) rfl rfl
  | consumed r s hphase => exact hset ((hplaced r).of_page (isPage_xread _ _ _)) rfl rfl
  | published r s rest p hphase =>
    exact hset ((hplaced r).of_page ((hplaced r).publishing s rest p hphase).1) rfl rfl
  | leave r uuid hphase hstop => exact hset ((hplaced r).of_ending _) rfl rfl
  | enter r uuid hphase hstop => exact hset ((hplaced r).of_phase _ (by simp) (by simp)) rfl rfl
  | raised r uuid s id raw rest e hphase =>
    obtain ⟨rfl, hraw, -⟩ := ((hplaced r).paging s _ hphase).head
    have hnext := ((hplaced r).advance hraw).of_phase (.handling s rest) (by simp)
      (by simp)
    exact hset (hnext.of_ending (.raised e)) (runners_endRun_routed _ _ _ _) rfl
  | passed r uuid s id raw rest m hphase hroute =>
    obtain ⟨rfl, hraw, hrest⟩ := ((hplaced r).paging s _ hphase).head
    refine hset (((hplaced r).advance hraw).of_page (s := s) ?_) rfl rfl
    simpa using hrest
  | issued r uuid s id raw rest m p hphase hroute =>
    obtain ⟨rfl, hraw, hrest⟩ := ((hplaced r).paging s _ hphase).head
    exact hset ((hplaced r).advance_publishing hraw hrest ⟨_, _, _, _, hroute⟩) rfl rfl
  | nextStream r uuid s t hphase => exact hset ((hplaced r).of_phase _ (by simp) (by simp)) rfl rfl
  | sleep r uuid s hphase => exact hset ((hplaced r).of_phase _ (by simp) (by simp)) rfl rfl
  | finish r uuid hterminal => exact hset ((hplaced r).of_ending _) rfl rfl
  | stop r => exact hplaced q
  | fail r e => exact hset ((hplaced r).of_ending _) rfl rfl
  | crash r hphase => exact hset ((hplaced r).of_ending _) rfl rfl

end World
end Saga
