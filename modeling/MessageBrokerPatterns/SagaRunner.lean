import MessageBrokerPatterns.SagaRouting
import MessageBrokerPatterns.RedisStream
import MessageBrokerPatterns.ActionRun
import Mathlib.Logic.Relation

/-!
# The saga runner, one await at a time

`run_saga` cut at its awaits. A runner that has issued a Redis command waits until Redis executes it
and then until the event loop resumes the runner; from there to its next await it runs alone. Such a
segment may handle many messages of a page, and `Substep` is its decomposition into single ones.

Any number of runs share the three streams. Runs of one process may share an `OrderService`, and a
stop event may be set from outside. A run may crash, and the command it waits for may fail.
-/

namespace Saga
open PyText PyDict RedisStream ActionRun
variable {ρ F : Type}

def Stream.next : Stream → Option Stream
  | .orders => some .payments
  | .payments => some .shipping
  | .shipping => none

/-- Where a run of `run_saga` stands. `handling` is the call of a service method for the message at
the cursor, `publishing` the `XADD` in it. -/
inductive Phase where
  | unstarted
  | creating (p : Publish)
  | atLoop
  | consuming (s : Stream)
  | paging (s : Stream) (rest : List (ℕ × Fields))
  | handling (s : Stream) (rest : List (ℕ × Fields))
  | publishing (s : Stream) (rest : List (ℕ × Fields)) (p : Publish)

inductive Ending where
  | returned
  | raised (e : PyExc)
  | brokerError (e : PyExc)
  | crashed
  deriving DecidableEq

structure Runner where
  orderSvc : ℕ
  lastIds : Stream → ℕ := fun _ => 0
  phase : Phase := .unstarted
  ending : Option Ending := none

structure World (ρ F : Type) where
  memory : Memory ρ F
  runners : ρ → Runner
  stopEvents : ρ → Bool := fun _ => false
  streams : Stream → List Fields := fun _ => []

/-- `serve` is Redis executing the command that a run waits for, `resume` the event loop returning
to the run, with the next random id. -/
inductive Action (ρ : Type) where
  | start (r : ρ)
  | serve (r : ρ)
  | resume (r : ρ) (uuid : String)
  | stop (r : ρ)
  | fail (r : ρ) (e : PyExc)
  | crash (r : ρ)
  deriving DecidableEq

def Action.runner : Action ρ → Option ρ
  | .start r => some r
  | .serve r => some r
  | .resume r _ => some r
  | .fail r _ => some r
  | .crash r => some r
  | .stop _ => none

namespace World

def fresh (orders : ρ → Order F) (orderSvc : ρ → ℕ) : World ρ F where
  memory := { orders }
  runners r := { orderSvc := orderSvc r }

def xadd (w : World ρ F) (p : Publish) : World ρ F := { w with
  streams := Function.update w.streams p.stream (w.streams p.stream ++ [p.fields]) }

/-- `SagaBroker.consume`. -/
def consume (w : World ρ F) (s : Stream) (lastId : ℕ) : List (ℕ × Fields) :=
  xread (w.streams s) lastId 100

/-- The run waits for a Redis command that has not been executed. -/
def waits (w : World ρ F) (r : ρ) : Bool :=
  match (w.runners r).phase with
  | .creating _ => true
  | .consuming _ => true
  | .publishing _ _ _ => true
  | _ => false

def isUnstarted (w : World ρ F) (r : ρ) : Bool :=
  match (w.runners r).phase with
  | .unstarted => true
  | _ => false

/-- The run of the action has not ended, and where the event loop resumes it, no command of its is
outstanding. -/
def Poised (w : World ρ F) : Action ρ → Prop
  | .resume r _ => (w.runners r).ending = none ∧ w.waits r = false
  | .stop _ => True
  | .start r => (w.runners r).ending = none
  | .serve r => (w.runners r).ending = none
  | .fail r _ => (w.runners r).ending = none
  | .crash r => (w.runners r).ending = none

variable {w w' : World ρ F} {r : ρ} {s : Stream}

theorem poised_of_paging {rest : List (ℕ × Fields)} (uuid : String)
    (hend : (w.runners r).ending = none) (hphase : (w.runners r).phase = .paging s rest) :
    w.Poised (.resume r uuid) :=
  ⟨hend, by simp only [waits, hphase]⟩

theorem isUnstarted_eq_true : w.isUnstarted r = true ↔ (w.runners r).phase = .unstarted := by
  cases h : (w.runners r).phase <;> simp [isUnstarted, h]

theorem phase_ne_unstarted (h : w.isUnstarted r = false) : (w.runners r).phase ≠ .unstarted := by
  intro hphase
  rw [isUnstarted_eq_true.mpr hphase] at h
  cases h

theorem streams_xadd (p : Publish) (s : Stream) :
    (w.xadd p).streams s = w.streams s ++ if s = p.stream then [p.fields] else [] := by
  by_cases h : s = p.stream
  · subst h
    simp [xadd]
  · simp [xadd, h]

variable [DecidableEq ρ]

def setRunner (w : World ρ F) (r : ρ) (k : Runner) : World ρ F := { w with
  runners := Function.update w.runners r k }

def setPhase (w : World ρ F) (r : ρ) (phase : Phase) : World ρ F :=
  w.setRunner r { w.runners r with phase }

def endRun (w : World ρ F) (r : ρ) (ending : Ending) : World ρ F :=
  w.setRunner r { w.runners r with ending := some ending }

def setStop (w : World ρ F) (r : ρ) : World ρ F := { w with
  stopEvents := Function.update w.stopEvents r true }

/-- The message at the head of a page has become the cursor's, and its handling has left the order
objects as they are in `m`. -/
def routed (w : World ρ F) (r : ρ) (s : Stream) (id : ℕ) (m : Memory ρ F) (phase : Phase) :
    World ρ F :=
  ({ w with memory := m }).setRunner r
    { w.runners r with lastIds := Function.update (w.runners r).lastIds s id, phase }

theorem setRunner_self (k : Runner) : (w.setRunner r k).runners r = k := by
  simp [setRunner]

theorem setRunner_of_ne {q : ρ} (h : q ≠ r) (k : Runner) :
    (w.setRunner r k).runners q = w.runners q := by
  simp [setRunner, h]

theorem runners_endRun_routed (id : ℕ) (m : Memory ρ F) (phase : Phase) (ending : Ending) :
    ((w.routed r s id m phase).endRun r ending).runners = (w.setRunner r { w.runners r with
      lastIds := Function.update (w.runners r).lastIds s id, phase,
      ending := some ending }).runners := by
  rw [endRun, routed, setRunner_self]
  simp [setRunner]

variable [PyFloat F]

/-- `create_order`, and `publish_created` up to its `XADD`. -/
def started (w : World ρ F) (r : ρ) : World ρ F :=
  let m := OrderService.createOrder (w.runners r).orderSvc w.memory r
  let created := OrderService.publishCreated m r
  ({ w with memory := created.1 }).setPhase r (.creating created.2)

/-- The terminal state check: `get_order` finds a terminal order, or the run goes to sleep. -/
def terminal (w : World ρ F) (r : ρ) : Bool :=
  match OrderService.getOrder (w.runners r).orderSvc w.memory (w.memory.orders r).orderId with
  | some q => (w.memory.orders q).status.terminal
  | none => false

/-- What follows the page of a stream: the next stream, or the check behind the last one. -/
def endPage (w : World ρ F) (r : ρ) (s : Stream) : World ρ F :=
  match s.next with
  | some t => w.setPhase r (.consuming t)
  | none => if w.terminal r then (w.setStop r).endRun r .returned else w.setPhase r .atLoop

/-- The messages of a page, up to the first `XADD` or exception. -/
def handlePage (r : ρ) (uuid : String) (s : Stream) :
    List (ℕ × Fields) → World ρ F → World ρ F
  | [], w => w.endPage r s
  | (id, raw) :: rest, w =>
      match route (w.runners r).orderSvc uuid w.memory s raw with
      | .error e => (w.routed r s id w.memory (.handling s rest)).endRun r (.raised e)
      | .ok (m, none) => handlePage r uuid s rest (w.routed r s id m (.paging s rest))
      | .ok (m, some p) => w.routed r s id m (.publishing s rest p)

/-- Redis executes the command that the run waits for. -/
def serve (w : World ρ F) (r : ρ) : Option (World ρ F) :=
  match (w.runners r).phase with
  | .creating p => some ((w.xadd p).setPhase r .atLoop)
  | .consuming s => some (w.setPhase r (.paging s (w.consume s ((w.runners r).lastIds s))))
  | .publishing s rest p => some ((w.xadd p).setPhase r (.paging s rest))
  | _ => none

/-- The run goes on to its next await, or ends. -/
def resume (w : World ρ F) (r : ρ) (uuid : String) : Option (World ρ F) :=
  match (w.runners r).phase with
  | .atLoop =>
      if w.stopEvents r then some (w.endRun r .returned)
      else some (w.setPhase r (.consuming .orders))
  | .paging s rest => some (handlePage r uuid s rest w)
  | _ => none

def step (w : World ρ F) : Action ρ → Option (World ρ F)
  | .stop r => some (w.setStop r)
  | .start r =>
      if (w.runners r).ending = none ∧ w.isUnstarted r then some (w.started r) else none
  | .serve r => if (w.runners r).ending = none then w.serve r else none
  | .resume r uuid => if (w.runners r).ending = none then w.resume r uuid else none
  | .fail r e =>
      if (w.runners r).ending = none ∧ w.waits r then some (w.endRun r (.brokerError e)) else none
  | .crash r =>
      if (w.runners r).ending = none ∧ ¬ w.isUnstarted r then some (w.endRun r .crashed) else none

/-- One await of a run, one message of a page, or an event from outside. -/
inductive Substep (w : World ρ F) : Action ρ → World ρ F → Prop where
  | start (r : ρ) (hphase : (w.runners r).phase = .unstarted) : Substep w (.start r) (w.started r)
  | created (r : ρ) (p : Publish) (hphase : (w.runners r).phase = .creating p) :
      Substep w (.serve r) ((w.xadd p).setPhase r .atLoop)
  | consumed (r : ρ) (s : Stream) (hphase : (w.runners r).phase = .consuming s) :
      Substep w (.serve r) (w.setPhase r (.paging s (w.consume s ((w.runners r).lastIds s))))
  | published (r : ρ) (s : Stream) (rest : List (ℕ × Fields)) (p : Publish)
      (hphase : (w.runners r).phase = .publishing s rest p) :
      Substep w (.serve r) ((w.xadd p).setPhase r (.paging s rest))
  | leave (r : ρ) (uuid : String) (hphase : (w.runners r).phase = .atLoop)
      (hstop : w.stopEvents r = true) : Substep w (.resume r uuid) (w.endRun r .returned)
  | enter (r : ρ) (uuid : String) (hphase : (w.runners r).phase = .atLoop)
      (hstop : w.stopEvents r = false) :
      Substep w (.resume r uuid) (w.setPhase r (.consuming .orders))
  | raised (r : ρ) (uuid : String) (s : Stream) (id : ℕ) (raw : Fields)
      (rest : List (ℕ × Fields)) (e : PyExc)
      (hphase : (w.runners r).phase = .paging s ((id, raw) :: rest)) :
      Substep w (.resume r uuid) ((w.routed r s id w.memory (.handling s rest)).endRun r (.raised e))
  | passed (r : ρ) (uuid : String) (s : Stream) (id : ℕ) (raw : Fields)
      (rest : List (ℕ × Fields)) (m : Memory ρ F)
      (hphase : (w.runners r).phase = .paging s ((id, raw) :: rest))
      (hroute : Routed (w.runners r).orderSvc uuid w.memory raw s m none) :
      Substep w (.resume r uuid) (w.routed r s id m (.paging s rest))
  | issued (r : ρ) (uuid : String) (s : Stream) (id : ℕ) (raw : Fields)
      (rest : List (ℕ × Fields)) (m : Memory ρ F) (p : Publish)
      (hphase : (w.runners r).phase = .paging s ((id, raw) :: rest))
      (hroute : Routed (w.runners r).orderSvc uuid w.memory raw s m (some p)) :
      Substep w (.resume r uuid) (w.routed r s id m (.publishing s rest p))
  | nextStream (r : ρ) (uuid : String) (s t : Stream)
      (hphase : (w.runners r).phase = .paging s []) :
      Substep w (.resume r uuid) (w.setPhase r (.consuming t))
  | sleep (r : ρ) (uuid : String) (s : Stream) (hphase : (w.runners r).phase = .paging s []) :
      Substep w (.resume r uuid) (w.setPhase r .atLoop)
  | finish (r : ρ) (uuid : String) (hterminal : w.terminal r = true) :
      Substep w (.resume r uuid) ((w.setStop r).endRun r .returned)
  | stop (r : ρ) : Substep w (.stop r) (w.setStop r)
  | fail (r : ρ) (e : PyExc) : Substep w (.fail r e) (w.endRun r (.brokerError e))
  | crash (r : ρ) (hphase : (w.runners r).phase ≠ .unstarted) :
      Substep w (.crash r) (w.endRun r .crashed)

/-- A single step changes no run but the one that takes the action, and leaves it its order
service. -/
theorem Substep.runners_cases {a : Action ρ} (h : Substep w a w') : w'.runners = w.runners ∨
    ∃ r k, a.runner = some r ∧ w'.runners = (w.setRunner r k).runners ∧
      k.orderSvc = (w.runners r).orderSvc := by
  cases h with
  | start r hphase => exact Or.inr ⟨r, _, rfl, rfl, rfl⟩
  | created r p hphase => exact Or.inr ⟨r, _, rfl, rfl, rfl⟩
  | consumed r s hphase => exact Or.inr ⟨r, _, rfl, rfl, rfl⟩
  | published r s rest p hphase => exact Or.inr ⟨r, _, rfl, rfl, rfl⟩
  | leave r uuid hphase hstop => exact Or.inr ⟨r, _, rfl, rfl, rfl⟩
  | enter r uuid hphase hstop => exact Or.inr ⟨r, _, rfl, rfl, rfl⟩
  | raised r uuid s id raw rest e hphase =>
    exact Or.inr ⟨r, _, rfl, runners_endRun_routed _ _ _ _, rfl⟩
  | passed r uuid s id raw rest m hphase hroute => exact Or.inr ⟨r, _, rfl, rfl, rfl⟩
  | issued r uuid s id raw rest m p hphase hroute => exact Or.inr ⟨r, _, rfl, rfl, rfl⟩
  | nextStream r uuid s t hphase => exact Or.inr ⟨r, _, rfl, rfl, rfl⟩
  | sleep r uuid s hphase => exact Or.inr ⟨r, _, rfl, rfl, rfl⟩
  | finish r uuid hterminal => exact Or.inr ⟨r, _, rfl, rfl, rfl⟩
  | stop r => exact Or.inl rfl
  | fail r e => exact Or.inr ⟨r, _, rfl, rfl, rfl⟩
  | crash r hphase => exact Or.inr ⟨r, _, rfl, rfl, rfl⟩

theorem Substep.runners_of_ne {a : Action ρ} (h : Substep w a w') {q : ρ}
    (hq : a.runner ≠ some q) : w'.runners q = w.runners q := by
  rcases h.runners_cases with hsame | ⟨r, k, hr, hset, -⟩
  · rw [hsame]
  · rw [hset, setRunner_of_ne]
    rintro rfl
    exact hq hr

theorem Substep.orderSvc {a : Action ρ} (h : Substep w a w') (q : ρ) :
    (w'.runners q).orderSvc = (w.runners q).orderSvc := by
  rcases h.runners_cases with hsame | ⟨r, k, -, hset, hsvc⟩
  · rw [hsame]
  · rw [hset]
    by_cases hq : q = r
    · rw [hq, setRunner_self, hsvc]
    · rw [setRunner_of_ne hq]

theorem handlePage_substeps (r : ρ) (uuid : String) (s : Stream) (rest : List (ℕ × Fields))
    (w : World ρ F) (hend : (w.runners r).ending = none)
    (hphase : (w.runners r).phase = .paging s rest) :
    Relation.ReflTransGen (fun u v => u.Poised (.resume r uuid) ∧ Substep u (.resume r uuid) v) w
      (handlePage r uuid s rest w) := by
  induction rest generalizing w with
  | nil =>
    have hpoised := poised_of_paging uuid hend hphase
    rw [handlePage, endPage]
    split
    · rename_i t hnext
      exact .single ⟨hpoised, .nextStream r uuid s t hphase⟩
    · split_ifs with hterminal
      · exact .single ⟨hpoised, .finish r uuid hterminal⟩
      · exact .single ⟨hpoised, .sleep r uuid s hphase⟩
  | cons e rest ih =>
    obtain ⟨id, raw⟩ := e
    have hpoised := poised_of_paging uuid hend hphase
    unfold handlePage
    split
    · rename_i exc hroute
      exact .single ⟨hpoised, .raised r uuid s id raw rest exc hphase⟩
    · rename_i m hroute
      refine .head ⟨hpoised, .passed r uuid s id raw rest m hphase (.of_route hroute)⟩ (ih _ ?_ ?_)
      · rw [routed, setRunner_self]
        exact hend
      · rw [routed, setRunner_self]
    · rename_i m p hroute
      exact .single ⟨hpoised, .issued r uuid s id raw rest m p hphase (.of_route hroute)⟩

theorem Substep.of_serve (h : w.serve r = some w') : Substep w (.serve r) w' := by
  unfold serve at h
  split at h
  · rename_i p hphase
    cases h
    exact .created r p hphase
  · rename_i s hphase
    cases h
    exact .consumed r s hphase
  · rename_i s rest p hphase
    cases h
    exact .published r s rest p hphase
  · cases h

/-- An action is a sequence of single steps, each by a run that is poised for it. -/
theorem substeps_of_step {a : Action ρ} (h : step w a = some w') :
    Relation.ReflTransGen (fun u v => u.Poised a ∧ Substep u a v) w w' := by
  cases a with
  | start r =>
    simp only [step] at h
    split_ifs at h with hc
    cases h
    exact .single ⟨hc.1, .start r (isUnstarted_eq_true.mp hc.2)⟩
  | serve r =>
    simp only [step] at h
    split_ifs at h with hend
    exact .single ⟨hend, .of_serve h⟩
  | resume r uuid =>
    simp only [step] at h
    split_ifs at h with hend
    unfold resume at h
    split at h
    · rename_i hphase
      have hpoised : w.Poised (.resume r uuid) := ⟨hend, by simp only [waits, hphase]⟩
      split_ifs at h with hstop
      · cases h
        exact .single ⟨hpoised, .leave r uuid hphase hstop⟩
      · cases h
        exact .single ⟨hpoised, .enter r uuid hphase (by simpa using hstop)⟩
    · rename_i s rest hphase
      cases h
      exact handlePage_substeps r uuid s rest w hend hphase
    · cases h
  | stop r =>
    cases h
    exact .single ⟨trivial, .stop r⟩
  | fail r e =>
    simp only [step] at h
    split_ifs at h with hc
    cases h
    exact .single ⟨hc.1, .fail r e⟩
  | crash r =>
    simp only [step] at h
    split_ifs at h with hc
    cases h
    exact .single ⟨hc.1, .crash r fun hphase => hc.2 (isUnstarted_eq_true.mpr hphase)⟩

theorem step_invariant_of_poised {I : World ρ F → Prop} {a : Action ρ}
    (hsub : ∀ u v, I u → u.Poised a → Substep u a v → I v) (hw : I w)
    (h : step w a = some w') : I w' := by
  have hsteps := substeps_of_step h
  clear h
  induction hsteps with
  | refl => exact hw
  | tail _ hv ih => exact hsub _ _ ih hv.1 hv.2

theorem step_invariant {I : World ρ F → Prop} {a : Action ρ}
    (hsub : ∀ u v, I u → Substep u a v → I v) (hw : I w) (h : step w a = some w') : I w' :=
  step_invariant_of_poised (fun u v hu _ hv => hsub u v hu hv) hw h

/-- What every single step preserves, every run of the system preserves. -/
theorem run_invariant_of_substep {I : World ρ F → Prop} {acts : List (Action ρ)}
    (hsub : ∀ u a v, I u → Substep u a v → I v) (hw : I w) (h : run step w acts = some w') : I w' :=
  run_invariant_of_step (fun _ a _ hu hv => step_invariant (fun x y => hsub x a y) hu hv) hw h

end World
end Saga
