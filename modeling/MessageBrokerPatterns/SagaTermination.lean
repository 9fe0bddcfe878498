import MessageBrokerPatterns.SagaSolo
import MessageBrokerPatterns.SagaDelivery

/-!
# A saga ends on any backlog

A run starts on streams that hold any number of events of other orders, and nobody else writes. Its
steps are bounded by the weight of what it has not handled: each handled entry lowers the weight, and
an iteration that reads nothing new does not follow another, because something is unread as long as
the order is open. So the run ends, and what it leaves on the streams for its order is one payment
with its shipment, or one failed payment with its cancellation.
-/

namespace Saga
open PyText PyDict RedisStream ActionRun
variable {ρ F : Type}

/-- The streams that an iteration reads behind a stream. -/
def Stream.later : Stream → List Stream
  | .orders => [.payments, .shipping]
  | .payments => [.shipping]
  | .shipping => []

theorem Stream.later_of_next {s t : Stream} (h : s.next = some t) : s.later = t :: t.later := by
  cases s with
  | orders =>
    cases h
    rfl
  | payments =>
    cases h
    rfl
  | shipping => cases h

theorem Stream.later_of_last {s : Stream} (h : s.next = none) : s.later = [] := by
  cases s with
  | orders => cases h
  | payments => cases h
  | shipping => rfl

namespace Phase

/-- What the iteration in progress has yet to go through. -/
def ahead (unread : Stream → ℕ) : Phase → ℕ
  | consuming s => unread s + (s.later.map unread).sum
  | paging s rest => rest.length + (s.later.map unread).sum
  | publishing s rest _ => rest.length + (s.later.map unread).sum
  | _ => 1

/-- How far the phase is from the start of the next iteration. -/
def place : Phase → ℕ
  | unstarted => 12
  | creating _ => 11
  | atLoop => 10
  | consuming s => 3 * s.later.length + 3
  | publishing s _ _ => 3 * s.later.length + 2
  | paging s _ => 3 * s.later.length + 1
  | handling _ _ => 0

/-- An iteration that goes through nothing is followed by one that does. -/
def rank (unread : Stream → ℕ) (phase : Phase) : ℕ :=
  phase.place + if phase.ahead unread = 0 then 10 else 0

/-- The page in hand lies behind the cursor, and an iteration begins with something unread. -/
def Fits (due : Stream → List Fields) (seen : Stream → ℕ) : Phase → Prop
  | unstarted => False
  | creating _ => 0 < work due seen
  | atLoop => 0 < work due seen
  | consuming _ => True
  | paging s rest => IsPage (due s) (seen s) rest
  | handling _ _ => False
  | publishing s rest _ => IsPage (due s) (seen s) rest

theorem rank_lt {unread : Stream → ℕ} {phase phase' : Phase} (hplace : phase'.place < phase.place)
    (hahead : phase'.ahead unread = 0 → phase.ahead unread = 0) :
    phase'.rank unread < phase.rank unread := by
  unfold rank
  split_ifs with h h'
  · omega
  · exact absurd (hahead h) h'
  · omega
  · omega

end Phase

def Action.own [DecidableEq ρ] (r : ρ) : Action ρ → Bool
  | .start q => q = r
  | .serve q => q = r
  | .resume q _ => q = r
  | _ => false

namespace World

/-- The entries of a stream with the event that the run is about to append. -/
def due (w : World ρ F) (r : ρ) (s : Stream) : List Fields :=
  w.streams s ++ added (w.runners r).phase.outgoing s

/-- A bound on the steps that the run has yet to take. -/
def measure (w : World ρ F) (r : ρ) : ℕ :=
  if (w.runners r).ending = none then
    20 * work (w.due r) (w.runners r).lastIds +
      (w.runners r).phase.rank (unread (w.due r) (w.runners r).lastIds)
  else 0

variable {r : ρ} {o : String} {nonpos : Bool} {w w' : World ρ F}

theorem due_of_outgoing (h : (w.runners r).phase.outgoing = none) : w.due r = w.streams := by
  funext s
  rw [due, h]
  exact List.append_nil _

theorem measure_of_running (h : (w.runners r).ending = none) : w.measure r =
    20 * work (w.due r) (w.runners r).lastIds +
      (w.runners r).phase.rank (unread (w.due r) (w.runners r).lastIds) := if_pos h

variable [PyFloat F]

/-- The run is in its loop. -/
structure Running (r : ρ) (o : String) (nonpos : Bool) (w : World ρ F) : Prop where
  ending : (w.runners r).ending = none
  stop : w.stopEvents r = false
  solo : Solo r (w.runners r).orderSvc o nonpos w.memory (w.due r) (w.runners r).lastIds
  fits : (w.runners r).phase.Fits (w.due r) (w.runners r).lastIds

/-- The run has ended with the outcome of its order. -/
structure Finished (r : ρ) (o : String) (nonpos : Bool) (w : World ρ F) : Prop where
  ending : (w.runners r).ending = some .returned
  status : (w.memory.orders r).status = .outcome nonpos
  outcome : if nonpos then total w.streams o .failed = 1 ∧ total w.streams o .cancelled = 1 ∧
      total w.streams o .shipped = 0
    else total w.streams o .processed = 1 ∧ total w.streams o .shipped = 1 ∧
      total w.streams o .cancelled = 0

/-- The run can start with its order: the streams hold events of other orders, as the services
publish them, and its order service keeps each order that it knows under its id. -/
structure Ready (r : ρ) (w : World ρ F) : Prop where
  unstarted : (w.runners r).phase = .unstarted
  ending : (w.runners r).ending = none
  cursors : ∀ s, (w.runners r).lastIds s = 0
  stop : w.stopEvents r = false
  keyed : ∀ key q, get? (w.memory.tables (w.runners r).orderSvc) key = some q →
    (w.memory.orders q).orderId = key
  backlog : ∀ s, ∀ raw ∈ w.streams s, ∃ e : Event F, e.publish = ⟨s, raw⟩ ∧
    e.orderId ≠ (w.memory.orders r).orderId

theorem Running.measure_pos (h : Running r o nonpos w) : 0 < w.measure r := by
  have hfits := h.fits
  rw [measure_of_running h.ending]
  apply Nat.add_pos_right
  apply Nat.add_pos_left
  cases hphase : (w.runners r).phase with
  | unstarted => simp [Phase.place]
  | creating p => simp [Phase.place]
  | atLoop => simp [Phase.place]
  | consuming s => simp [Phase.place]
  | paging s rest => simp [Phase.place]
  | publishing s rest p => simp [Phase.place]
  | handling s rest =>
    rw [hphase] at hfits
    exact absurd hfits id

variable [DecidableEq ρ]

theorem Running.setPhase (h : Running r o nonpos w) {u : World ρ F} {phase : Phase}
    (hmemory : u.memory = w.memory) (hrunners : u.runners = w.runners)
    (hstop : u.stopEvents = w.stopEvents)
    (hdue : ∀ s, u.streams s ++ added phase.outgoing s = w.due r s)
    (hfits : phase.Fits (w.due r) (w.runners r).lastIds)
    (hrank : phase.rank (unread (w.due r) (w.runners r).lastIds) <
      (w.runners r).phase.rank (unread (w.due r) (w.runners r).lastIds)) :
    Running r o nonpos (u.setPhase r phase) ∧ (u.setPhase r phase).measure r < w.measure r := by
  have hself : (u.setPhase r phase).runners r = { w.runners r with phase } := by
    rw [World.setPhase, setRunner_self, hrunners]
  have hdue' : (u.setPhase r phase).due r = w.due r := by
    funext s
    rw [due, hself]
    exact hdue s
  constructor
  · constructor
    · rw [hself]
      exact h.ending
    · exact (congrFun hstop r).trans h.stop
    · rw [hdue', hself]
      change Solo r _ o nonpos u.memory _ _
      rw [hmemory]
      exact h.solo
    · rw [hdue', hself]
      exact hfits
  · rw [measure_of_running (by rw [hself]; exact h.ending), measure_of_running h.ending, hdue', hself]
    exact Nat.add_lt_add_left hrank _

/-- The entry behind the cursor is an event that the run can handle, and its handling lowers the
measure whatever the run does next. -/
theorem Running.handle (h : Running r o nonpos w) {s : Stream} {id : ℕ} {raw : Fields}
    {rest : List (ℕ × Fields)} (hphase : (w.runners r).phase = .paging s ((id, raw) :: rest))
    (uuid : String) : ∃ m out, route (w.runners r).orderSvc uuid w.memory s raw = .ok (m, out) ∧
      ∀ phase : Phase, phase.outgoing = out → phase.place ≤ 9 →
        (∀ due seen, IsPage (due s) (seen s) rest → phase.Fits due seen) →
        Running r o nonpos (w.routed r s id m phase) ∧
          (w.routed r s id m phase).measure r < w.measure r := by
  have hstreams : w.due r = w.streams := due_of_outgoing (by rw [hphase]; rfl)
  have hfits := h.fits
  rw [hphase] at hfits
  obtain ⟨rfl, hraw, hrest⟩ := IsPage.head hfits
  obtain ⟨e, he, hnonpos⟩ := h.solo.tally.events s raw (List.mem_of_getElem? hraw)
  obtain rfl : e.kind.stream = s := e.stream_publish.symm.trans (congrArg Publish.stream he)
  obtain rfl : e.publish.fields = raw := congrArg Publish.fields he
  obtain ⟨reply, hreply, hroute⟩ := route_publish (w.runners r).orderSvc uuid w.memory e h.solo.keyed
  refine ⟨_, _, hroute, fun phase hout hplace hfit => ?_⟩
  generalize hm : OrderService.judged (w.runners r).orderSvc w.memory e = m
  generalize hu : w.routed r e.kind.stream ((w.runners r).lastIds e.kind.stream + 1) m phase = u
  have hself : u.runners r = { w.runners r with
      lastIds := Function.update (w.runners r).lastIds e.kind.stream
        ((w.runners r).lastIds e.kind.stream + 1), phase } := by
    rw [← hu, routed, setRunner_self]
  have hseen : (u.runners r).lastIds = Function.update (w.runners r).lastIds e.kind.stream
      ((w.runners r).lastIds e.kind.stream + 1) := by
    rw [hself]
  have hdue (t : Stream) : u.due r t = w.due r t ++ added (reply.map Event.publish) t := by
    rw [due, hself, ← hu, hstreams, ← hout]
    rfl
  have hsolo := h.solo.handle hraw hnonpos hreply hdue
  have hwork := work_handle h.solo.tally.within hraw hreply hdue
  have hending : (u.runners r).ending = none := by
    rw [hself]
    exact h.ending
  constructor
  · refine ⟨hending, ?_, ?_, ?_⟩
    · rw [← hu]
      exact h.stop
    · rw [hself, ← hu, ← hm]
      rw [← hu, ← hm] at hsolo
      exact hsolo
    · rw [hself]
      apply hfit
      rw [← hself, hdue, hseen, Function.update_self]
      exact hrest.append (List.getElem?_eq_some_iff.mp hraw).1 _
  · have hrank : (u.runners r).phase.rank (unread (u.due r) (u.runners r).lastIds) ≤ 19 := by
      have hnext : (u.runners r).phase = phase := by rw [hself]
      rw [hnext, Phase.rank]
      split_ifs
      · omega
      · omega
    rw [measure_of_running hending, measure_of_running h.ending]
    rw [hseen] at hrank ⊢
    omega

/-- Behind the page of a stream the run goes on to the next stream or into its next iteration, or the
order is terminal and the run ends. -/
theorem Running.endPage (h : Running r o nonpos w) {s : Stream}
    (hphase : (w.runners r).phase = .paging s []) :
    (Running r o nonpos (w.endPage r s) ∧ (w.endPage r s).measure r < w.measure r) ∨
      Finished r o nonpos (w.endPage r s) := by
  have hstreams : w.due r = w.streams := due_of_outgoing (by rw [hphase]; rfl)
  have horderId : (w.memory.orders r).orderId = o := h.solo.keyed o r h.solo.known
  have hterminal : w.terminal r = (w.memory.orders r).status.terminal := by
    rw [terminal, OrderService.getOrder, horderId, h.solo.known]
  unfold World.endPage
  cases hnext : s.next with
  | some t =>
    refine Or.inl (h.setPhase rfl rfl rfl (fun t => ?_) trivial ?_)
    · rw [hstreams]
      exact List.append_nil _
    · rw [hphase]
      apply Phase.rank_lt
      · simp only [Phase.place, Stream.later_of_next hnext, List.length_cons]
        omega
      · simp only [Phase.ahead, Stream.later_of_next hnext, List.length_nil, List.map_cons,
          List.sum_cons]
        omega
  | none =>
    simp only [hterminal]
    split_ifs with hclosed
    · right
      have hpassed := h.solo.terminal_iff.mp hclosed
      refine ⟨?_, ?_, ?_⟩
      · rw [endRun, setRunner_self]
      · exact h.solo.decided hpassed
      · have houtcome := h.solo.tally.outcome hpassed
        rw [hstreams] at houtcome
        exact houtcome
    · refine Or.inl (h.setPhase rfl rfl rfl (fun t => ?_) ?_ ?_)
      · rw [hstreams]
        exact List.append_nil _
      · exact h.solo.work_pos (by simpa using hclosed)
      · rw [hphase]
        simp [Phase.rank, Phase.place, Phase.ahead, Stream.later_of_last hnext]

theorem Running.handlePage (h : Running r o nonpos w) {s : Stream} {rest : List (ℕ × Fields)}
    (hphase : (w.runners r).phase = .paging s rest) (uuid : String) :
    (Running r o nonpos (handlePage r uuid s rest w) ∧
        (handlePage r uuid s rest w).measure r < w.measure r) ∨
      Finished r o nonpos (handlePage r uuid s rest w) := by
  induction rest generalizing w with
  | nil => exact h.endPage hphase
  | cons entry rest ih =>
    obtain ⟨id, raw⟩ := entry
    obtain ⟨m, out, hroute, hnext⟩ := h.handle hphase uuid
    rw [World.handlePage, hroute]
    have hplace : 3 * s.later.length ≤ 6 := by
      cases s <;> decide
    cases out with
    | none =>
      have hpaging := hnext (.paging s rest) rfl (by simp only [Phase.place]; omega) fun _ _ h => h
      obtain ⟨hrunning, hlt⟩ := hpaging
      rcases ih hrunning (by rw [routed, setRunner_self]) with ⟨hrunning', hlt'⟩ | hfinished
      · exact Or.inl ⟨hrunning', hlt'.trans hlt⟩
      · exact Or.inr hfinished
    | some p =>
      exact Or.inl (hnext (.publishing s rest p) rfl (by simp only [Phase.place]; omega)
        fun _ _ h => h)

theorem Running.serve (h : Running r o nonpos w) (hserve : w.serve r = some w') :
    Running r o nonpos w' ∧ w'.measure r < w.measure r := by
  have hfits := h.fits
  unfold World.serve at hserve
  split at hserve
  · rename_i p hphase
    cases hserve
    rw [hphase] at hfits
    refine h.setPhase rfl rfl rfl (fun t => ?_) hfits ?_
    · rw [due, hphase, streams_xadd]
      exact List.append_nil _
    · rw [hphase]
      exact Phase.rank_lt (by simp [Phase.place]) (by simp [Phase.ahead])
  · rename_i s hphase
    cases hserve
    have hstreams : w.due r = w.streams := due_of_outgoing (by rw [hphase]; rfl)
    refine h.setPhase rfl rfl rfl (fun t => ?_) ?_ ?_
    · rw [hstreams]
      exact List.append_nil _
    · rw [hstreams]
      exact isPage_xread _ _ _
    · rw [hphase]
      refine Phase.rank_lt (by simp [Phase.place]) fun hzero => ?_
      obtain ⟨hpage, hlater⟩ := Nat.add_eq_zero_iff.mp hzero
      rw [consume, length_xread] at hpage
      have hle : (w.streams s).length ≤ (w.runners r).lastIds s := by omega
      rw [Phase.ahead, hlater, unread, hstreams, List.drop_eq_nil_of_le hle]
      rfl
  · rename_i s rest p hphase
    cases hserve
    rw [hphase] at hfits
    refine h.setPhase rfl rfl rfl (fun t => ?_) hfits ?_
    · rw [due, hphase, streams_xadd]
      exact List.append_nil _
    · rw [hphase]
      exact Phase.rank_lt (by simp [Phase.place]) id
  · cases hserve

theorem Running.resume (h : Running r o nonpos w) {uuid : String}
    (hresume : w.resume r uuid = some w') :
    (Running r o nonpos w' ∧ w'.measure r < w.measure r) ∨ Finished r o nonpos w' := by
  have hfits := h.fits
  unfold World.resume at hresume
  split at hresume
  · rename_i hphase
    simp only [h.stop, Bool.false_eq_true, if_false] at hresume
    cases hresume
    rw [hphase] at hfits
    refine Or.inl (h.setPhase rfl rfl rfl (fun t => ?_) trivial ?_)
    · rw [due, hphase]
      rfl
    · rw [hphase]
      refine Phase.rank_lt (by simp [Phase.place, Stream.later]) fun hzero => ?_
      have hpos : 0 < work (w.due r) (w.runners r).lastIds := hfits
      simp only [Phase.ahead, Stream.later, List.map_cons, List.map_nil, List.sum_cons,
        List.sum_nil] at hzero
      unfold work at hpos
      omega
  · rename_i s rest hphase
    cases hresume
    exact h.handlePage hphase uuid
  · cases hresume

/-- Every step of a run in its loop keeps it there and lowers the measure, or ends it. -/
theorem Running.step (h : Running r o nonpos w) {a : Action ρ} (ha : a.own r = true)
    (hstep : World.step w a = some w') :
    (Running r o nonpos w' ∧ w'.measure r < w.measure r) ∨ Finished r o nonpos w' := by
  cases a with
  | start q =>
    obtain rfl : q = r := of_decide_eq_true ha
    simp only [World.step] at hstep
    split_ifs at hstep with hc
    have hfits := h.fits
    rw [isUnstarted_eq_true.mp hc.2] at hfits
    exact absurd hfits id
  | serve q =>
    obtain rfl : q = r := of_decide_eq_true ha
    rw [World.step, if_pos h.ending] at hstep
    exact Or.inl (h.serve hstep)
  | resume q uuid =>
    obtain rfl : q = r := of_decide_eq_true ha
    rw [World.step, if_pos h.ending] at hstep
    exact h.resume hstep
  | stop q => cases ha
  | fail q e => cases ha
  | crash q => cases ha

theorem Running.enabled (h : Running r o nonpos w) :
    ∃ a : Action ρ, a.own r = true ∧ (World.step w a).isSome = true := by
  have hfits := h.fits
  have hserve (hs : (w.serve r).isSome = true) : ∃ a : Action ρ, a.own r = true ∧
      (World.step w a).isSome = true := by
    refine ⟨.serve r, decide_eq_true rfl, ?_⟩
    rw [World.step, if_pos h.ending]
    exact hs
  have hresume (hs : (w.resume r "").isSome = true) : ∃ a : Action ρ, a.own r = true ∧
      (World.step w a).isSome = true := by
    refine ⟨.resume r "", decide_eq_true rfl, ?_⟩
    rw [World.step, if_pos h.ending]
    exact hs
  cases hphase : (w.runners r).phase with
  | creating p => exact hserve (by simp [World.serve, hphase])
  | consuming s => exact hserve (by simp [World.serve, hphase])
  | publishing s rest p => exact hserve (by simp [World.serve, hphase])
  | atLoop => exact hresume (by simp [World.resume, hphase, h.stop])
  | paging s rest => exact hresume (by simp [World.resume, hphase])
  | unstarted =>
    rw [hphase] at hfits
    exact absurd hfits id
  | handling s rest =>
    rw [hphase] at hfits
    exact absurd hfits id

theorem Finished.step_eq_none (h : Finished r o nonpos w) {a : Action ρ} (ha : a.own r = true) :
    World.step w a = none := by
  cases a with
  | start q =>
    obtain rfl : q = r := of_decide_eq_true ha
    simp [World.step, h.ending]
  | serve q =>
    obtain rfl : q = r := of_decide_eq_true ha
    simp [World.step, h.ending]
  | resume q uuid =>
    obtain rfl : q = r := of_decide_eq_true ha
    simp [World.step, h.ending]
  | stop q => cases ha
  | fail q e => cases ha
  | crash q => cases ha

/-- The run starts with the entries of the streams and its own `OrderCreated` before it. -/
theorem Ready.started (h : Ready r w) :
    Running r (w.memory.orders r).orderId (PyFloat.nonpos (w.memory.orders r).amount)
      (w.started r) ∧
    (w.started r).measure r = 20 * (work w.streams (fun _ => 0) + 3) + 11 := by
  generalize he : Event.created (w.memory.orders r).orderId (w.memory.orders r).customerId
    (w.memory.orders r).amount = e
  have horder : e.orderId = (w.memory.orders r).orderId := by rw [← he, Event.orderId]
  have hnonpos : e.nonpos = PyFloat.nonpos (w.memory.orders r).amount := by rw [← he, Event.nonpos]
  have hkind : e.kind = .created := by rw [← he, Event.kind]
  have hself : (w.started r).runners r = { w.runners r with phase := .creating e.publish } := by
    rw [World.started, World.setPhase, setRunner_self, OrderService.publishCreated_eq, ← he]
    rfl
  have hseen : ((w.started r).runners r).lastIds = fun _ => 0 := by
    rw [hself]
    exact funext h.cursors
  have hsvc : ((w.started r).runners r).orderSvc = (w.runners r).orderSvc := by rw [hself]
  have hphase : ((w.started r).runners r).phase = .creating e.publish := by rw [hself]
  have hending : ((w.started r).runners r).ending = none := by
    rw [hself]
    exact h.ending
  have hdue (t : Stream) : (w.started r).due r t = w.streams t ++ added (some e.publish) t := by
    rw [due, hphase]
    rfl
  have hstatus : ((w.started r).memory.orders r).status = .paymentProcessing := by
    change ((Memory.setStatus _ r _).orders r).status = _
    rw [Memory.setStatus_status, if_pos rfl]
  have hsolo : Solo r (w.runners r).orderSvc e.orderId e.nonpos (w.started r).memory
      ((w.started r).due r) (fun _ => 0) := by
    refine ⟨.start hkind ?_ hdue, ?_, ?_, fun hclosed => ?_, fun hterminal => ?_⟩
    · rw [horder]
      exact h.backlog
    · intro key q hq
      have hid : ((w.started r).memory.orders q).orderId = (w.memory.orders q).orderId :=
        Memory.setStatus_orderId _ _ _ _
      rw [hid]
      rcases get?_tables_started hq with hq | ⟨hkey, rfl⟩
      · exact h.keyed key q hq
      · exact hkey
    · rw [get?_tables_started_eq rfl, if_pos horder.symm]
    · simp [passed] at hclosed
    · rw [hstatus] at hterminal
      cases hterminal
  rw [← horder, ← hnonpos]
  constructor
  · refine ⟨hending, h.stop, ?_, ?_⟩
    · rw [hsvc, hseen]
      exact hsolo
    · rw [hphase, hseen]
      exact hsolo.work_pos (by rw [hstatus]; rfl)
  · have hweigh : weigh e.publish.fields = 3 := by
      rw [weigh, Event.eventTypeOf_publish, hkind]
      rfl
    rw [measure_of_running hending, hphase, hseen, work_append (fun _ => Nat.zero_le _) hdue, hweigh]
    rfl

theorem Ready.step_eq_started (h : Ready r w) {a : Action ρ} (ha : a.own r = true)
    (hstep : World.step w a = some w') : w' = w.started r := by
  cases a with
  | start q =>
    obtain rfl : q = r := of_decide_eq_true ha
    simp only [World.step] at hstep
    split_ifs at hstep
    exact (Option.some.inj hstep).symm
  | serve q =>
    obtain rfl : q = r := of_decide_eq_true ha
    simp [World.step, h.ending, serve, h.unstarted] at hstep
  | resume q uuid =>
    obtain rfl : q = r := of_decide_eq_true ha
    simp [World.step, h.ending, resume, h.unstarted] at hstep
  | stop q => cases ha
  | fail q e => cases ha
  | crash q => cases ha

theorem Running.run {acts : List (Action ρ)} (h : Running r o nonpos w)
    (hown : Along World.step (fun _ a => a.own r = true) w acts)
    (hrun : ActionRun.run World.step w acts = some w') :
    (Running r o nonpos w' ∨ Finished r o nonpos w') ∧ acts.length ≤ w.measure r := by
  have hstep (u : World ρ F) (a : Action ρ) (v : World ρ F)
      (hu : Running r o nonpos u ∨ Finished r o nonpos u) (ha : a.own r = true)
      (huv : World.step u a = some v) :
      (Running r o nonpos v ∨ Finished r o nonpos v) ∧ v.measure r < u.measure r := by
    rcases hu with hu | hu
    · rcases hu.step ha huv with ⟨hv, hlt⟩ | hv
      · exact ⟨Or.inl hv, hlt⟩
      · refine ⟨Or.inr hv, ?_⟩
        have hzero : v.measure r = 0 := if_neg (by simp [hv.ending])
        rw [hzero]
        exact hu.measure_pos
    · rw [hu.step_eq_none ha] at huv
      cases huv
  have hend := run_invariant (I := fun u => Running r o nonpos u ∨ Finished r o nonpos u)
    (C := fun _ a => a.own r = true) (fun u a v hu ha huv => (hstep u a v hu ha huv).1)
    (Or.inl h) hown hrun
  have hle := length_add_le (I := fun u => Running r o nonpos u ∨ Finished r o nonpos u)
    (C := fun _ a => a.own r = true) (fun u => u.measure r) hstep (Or.inl h) hown hrun
  exact ⟨hend, by omega⟩

/-- A run on a backlog of any size takes a bounded number of steps, and as long as it has not ended it
can take another. When it ends, its order is completed with one payment and one shipment and no
cancellation, or cancelled with one failed payment and one cancellation and no shipment. -/
theorem saga_terminates (h : Ready r w) (acts : List (Action ρ)) (hown : ∀ a ∈ acts, a.own r = true)
    (hrun : run World.step w acts = some w') :
    acts.length ≤ 20 * (work w.streams (fun _ => 0) + 3) + 12 ∧
    ((w'.runners r).ending = none →
      ∃ a : Action ρ, a.own r = true ∧ (World.step w' a).isSome = true) ∧
    ∀ ending, (w'.runners r).ending = some ending → ending = .returned ∧
      if PyFloat.nonpos (w.memory.orders r).amount then
        (w'.memory.orders r).status = .cancelled ∧
          total w'.streams (w.memory.orders r).orderId .failed = 1 ∧
          total w'.streams (w.memory.orders r).orderId .cancelled = 1 ∧
          total w'.streams (w.memory.orders r).orderId .shipped = 0
      else
        (w'.memory.orders r).status = .completed ∧
          total w'.streams (w.memory.orders r).orderId .processed = 1 ∧
          total w'.streams (w.memory.orders r).orderId .shipped = 1 ∧
          total w'.streams (w.memory.orders r).orderId .cancelled = 0 := by
  cases acts with
  | nil =>
    cases hrun
    refine ⟨Nat.zero_le _, fun _ => ⟨.start r, decide_eq_true rfl, ?_⟩, fun ending hending => ?_⟩
    · simp [World.step, h.ending, isUnstarted_eq_true.mpr h.unstarted]
    · rw [h.ending] at hending
      cases hending
  | cons a acts =>
    obtain ⟨u, hu, hrun⟩ := run_cons_eq_some.mp hrun
    obtain ⟨hrunning, hmeasure⟩ := h.started
    rw [h.step_eq_started (hown a List.mem_cons_self) hu] at hrun
    have hrest : ∀ b ∈ acts, ∀ _ : World ρ F, b.own r = true := fun b hb _ =>
      hown b (List.mem_cons_of_mem a hb)
    obtain ⟨hend, hle⟩ := hrunning.run (along_of_forall hrest _) hrun
    refine ⟨?_, fun hending => ?_, fun ending hending => ?_⟩
    · rw [List.length_cons]
      omega
    · rcases hend with hend | hend
      · exact hend.enabled
      · rw [hend.ending] at hending
        cases hending
    · rcases hend with hend | hend
      · rw [hend.ending] at hending
        cases hending
      · rw [hend.ending] at hending
        cases hending
        refine ⟨rfl, ?_⟩
        have hstatus := hend.status
        have houtcome := hend.outcome
        split_ifs at houtcome ⊢ with hnonpos
        · rw [hnonpos] at hstatus
          exact ⟨hstatus, houtcome⟩
        · rw [Bool.not_eq_true] at hnonpos
          rw [hnonpos] at hstatus
          exact ⟨hstatus, houtcome⟩

end World

/-- Events of two earlier orders. -/
def backlog : Stream → List (Event Whole)
  | .orders => [.created "ord-1" "c-1" ⟨42⟩, .created "ord-2" "c-1" ⟨0⟩]
  | .payments => [.processed "ord-1" "tx-1", .failed "ord-2" "Invalid amount: 0.0"]
  | .shipping => []

/-- The order service knows the order of another run. -/
def backlogged (known : Fin 2) : World (Fin 2) Whole where
  memory := { orders := orderOf, tables := fun _ => [((orderOf known).orderId, known)] }
  runners _ := { orderSvc := 0 }
  streams s := (backlog s).map fun e => e.publish.fields

theorem ready_backlogged (known : Fin 2) : World.Ready 0 (backlogged known) := by
  refine ⟨rfl, rfl, fun _ => rfl, rfl, fun key q hq => ?_, fun s raw hraw => ?_⟩
  · have hget : get? ([((orderOf known).orderId, known)] : Dict String (Fin 2)) key = some q := hq
    rw [get?_cons] at hget
    split_ifs at hget with hkey
    · cases hget
      exact hkey
    · cases hget
  · obtain ⟨e, he, rfl⟩ := List.mem_map.mp hraw
    have hall : ∀ e ∈ backlog s, e.kind.stream = s ∧ e.orderId ≠ "ord-0" := by
      cases s <;> simp [backlog, Event.kind, Kind.stream, Event.orderId]
    obtain ⟨hs, hne⟩ := hall e he
    refine ⟨e, ?_, hne⟩
    rw [← e.stream_publish] at hs
    rw [← hs]

theorem backlogged_completed :
    ∃ w, run World.step (backlogged 1) (alone 0 10) = some w ∧
      (w.runners 0).ending = some .returned ∧ (w.memory.orders 0).status = .completed ∧
      total w.streams "ord-0" .processed = 1 ∧ total w.streams "ord-0" .shipped = 1 ∧
      total w.streams "ord-0" .cancelled = 0 := by
  obtain ⟨w, hw, hending⟩ : ∃ w, run World.step (backlogged 1) (alone 0 10) = some w ∧
      (w.runners 0).ending = some .returned := ⟨_, rfl, rfl⟩
  obtain ⟨-, -, hend⟩ := World.saga_terminates (ready_backlogged 1) _ (by decide) hw
  have houtcome := (hend _ hending).2
  rw [if_neg (by decide)] at houtcome
  exact ⟨w, hw, hending, houtcome⟩

end Saga
