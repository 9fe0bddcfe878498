import MessageBrokerPatterns.DlqBroker
import MessageBrokerPatterns.ActionRun
import Mathlib.Logic.Function.Basic

/-!
# The idempotent consumer, one Redis command at a time

`command` is the loop of `run_idempotent_consumer` cut at its awaits: the program counter stands
before the next Redis command, and the code between two commands runs with the first of them.
The handler is the environment's, it ends by `handlerEnds` with no failure or with an exception.

`World` holds the server, any number of consumers by name and the trace of what happened to the
entries. A crash, or a broker error, removes the consumer at any point, and so does a `BaseException`
of the handler; a new run may then start under the same name. `Move` lists all that one step of a
running consumer can do.
-/

namespace Dlq
open PyText PyDict RedisStream

/-- The message of a batch that is being worked on, and the messages behind it. -/
structure Held where
  id : ℕ
  payment : Payment
  rest : List (ℕ × Fields)

/-- The next await for the message in hand. -/
inductive Stage where
  | check
  | skipAck
  | handler
  | mark
  | ack
  | dlqAck (reason : String) (attempt : ℕ)
  | dlqAdd (reason : String) (attempt : ℕ)
  deriving DecidableEq

inductive Pc where
  | readNew
  | readPending
  | sleep
  | busy (m : Held) (stage : Stage)
  | returned
  | raised (e : PyExc)

structure Consumer where
  maxAttempts : ℤ := 3
  count : ℕ := 10
  attempts : ℕ → Option ℕ := fun _ => none
  totalProcessed : ℕ := 0
  pc : Pc := .readNew

/-- What becomes of an entry: the handler's outcomes, the three terminal states, and a crash
between the two commands of `move_to_dlq`. -/
inductive Event where
  | handled (c : String) (id : ℕ) (p : Payment) (failure : Option PyExc)
  | processed (c : String) (id : ℕ) (p : Payment)
  | skipped (c : String) (id : ℕ) (p : Payment)
  | deadLettered (c : String) (id : ℕ) (p : Payment) (reason : String) (attempt : ℕ)
  | lost (c : String) (id : ℕ) (p : Payment)
  deriving DecidableEq

namespace Consumer

/-- The `for` loop at its next message; `from_fields` runs outside the handler's `try`. -/
def forBatch (k : Consumer) : List (ℕ × Fields) → Consumer
  | [] => { k with pc := .readNew }
  | (id, fields) :: rest =>
      match Payment.fromFields fields with
      | .ok payment => { k with pc := .busy ⟨id, payment, rest⟩ .check }
      | .error e => { k with pc := .raised e }

/-- `attempts.get(msg_id, 0)`. -/
def spent (k : Consumer) (id : ℕ) : ℕ := (k.attempts id).getD 0

/-- `attempts[msg_id] = attempt`, with one attempt more than before. -/
def bump (k : Consumer) (id : ℕ) : Consumer := { k with
  attempts := Function.update k.attempts id (some (k.spent id + 1)) }

/-- `attempts.pop(msg_id, None)`. -/
def dropAttempts (k : Consumer) (id : ℕ) : Consumer := { k with
  attempts := Function.update k.attempts id none }

def ended (k : Consumer) : Bool :=
  match k.pc with
  | .returned => true
  | .raised _ => true
  | _ => false

def command (c : String) (k : Consumer) (s : Server) : Option (Consumer × Server × List Event) :=
  match k.pc with
  | .readNew =>
      match s.readNew c k.count with
      | ([], s) => some ({ k with pc := .readPending }, s, [])
      | (batch, s) => some (k.forBatch batch, s, [])
  | .readPending =>
      match s.readPending c k.count with
      | ([], s) => some ({ k with pc := .sleep }, s, [])
      | (batch, s) => some (k.forBatch batch, s, [])
  | .sleep => some ({ k with pc := .readNew }, s, [])
  | .busy m .check =>
      if s.isProcessed m.payment.paymentId then some ({ k with pc := .busy m .skipAck }, s, [])
      else some ({ k with pc := .busy m .handler }, s, [])
  | .busy m .skipAck =>
      let s := s.ack m.id
      some (k.forBatch m.rest,
        { s with registry.skippedDuplicate := s.registry.skippedDuplicate + 1 },
        [.skipped c m.id m.payment])
  | .busy _ .handler => none
  | .busy m .mark => some ({ k with pc := .busy m .ack }, s.markProcessed m.payment.paymentId, [])
  | .busy m .ack =>
      let s := s.ack m.id
      some ({ k.dropAttempts m.id with totalProcessed := k.totalProcessed + 1 }.forBatch m.rest,
        { s with registry.paymentsProcessed := s.registry.paymentsProcessed + 1 },
        [.processed c m.id m.payment])
  | .busy m (.dlqAck reason attempt) =>
      some ({ k with pc := .busy m (.dlqAdd reason attempt) }, s.moveToDlqAck m.id, [])
  | .busy m (.dlqAdd reason attempt) =>
      some ((k.dropAttempts m.id).forBatch m.rest, s.moveToDlqAdd m.payment reason attempt,
        [.deadLettered c m.id m.payment reason attempt])
  | .returned => none
  | .raised _ => none

/-- The handler returns, or raises an `Exception` that counts against the retry budget. A
`BaseException` is not caught and ends the run, as a crash does. -/
def handlerEnds (c : String) (k : Consumer) (failure : Option PyExc) :
    Option (Consumer × List Event) :=
  match k.pc with
  | .busy m .handler =>
      match failure with
      | none => some ({ k with pc := .busy m .mark }, [.handled c m.id m.payment none])
      | some exc =>
          let attempt := k.spent m.id + 1
          let k := k.bump m.id
          if (attempt : ℤ) < k.maxAttempts then
            some (k.forBatch m.rest, [.handled c m.id m.payment (some exc)])
          else
            some ({ k with pc := .busy m (.dlqAck exc.className attempt) },
              [.handled c m.id m.payment (some exc)])
  | _ => none

theorem command_isSome {k : Consumer} (hend : k.ended = false)
    (hh : ∀ m, k.pc ≠ .busy m .handler) (c : String) (s : Server) :
    ∃ r, k.command c s = some r := by
  unfold command
  split
  · split <;> exact ⟨_, rfl⟩
  · split <;> exact ⟨_, rfl⟩
  · exact ⟨_, rfl⟩
  · split_ifs <;> exact ⟨_, rfl⟩
  · exact ⟨_, rfl⟩
  · rename_i m hpc
    exact absurd hpc (hh m)
  · exact ⟨_, rfl⟩
  · exact ⟨_, rfl⟩
  · exact ⟨_, rfl⟩
  · exact ⟨_, rfl⟩
  · rename_i hpc
    simp [ended, hpc] at hend
  · rename_i e hpc
    simp [ended, hpc] at hend

theorem handlerEnds_isSome {k : Consumer} {m : Held} (hpc : k.pc = .busy m .handler) (c : String)
    (failure : Option PyExc) : ∃ r, k.handlerEnds c failure = some r := by
  simp only [handlerEnds, hpc]
  cases failure with
  | none => exact ⟨_, rfl⟩
  | some exc =>
    dsimp only
    split_ifs <;> exact ⟨_, rfl⟩

end Consumer

/-- All that a step of a running consumer can do, to itself, to the server and to the trace. -/
inductive Move (c : String) (k : Consumer) (s : Server) :
    Consumer → Server → List Event → Prop where
  | readNew (hpc : k.pc = .readNew) (hne : s.main.newBatch k.count ≠ []) :
      Move c k s (k.forBatch (s.main.newBatch k.count)) (s.readNew c k.count).2 []
  | noNew (hpc : k.pc = .readNew) (hnil : s.main.newBatch k.count = []) :
      Move c k s { k with pc := .readPending } (s.readNew c k.count).2 []
  | readPending (hpc : k.pc = .readPending) (hne : s.main.pendingBatch c k.count ≠ []) :
      Move c k s (k.forBatch (s.main.pendingBatch c k.count)) (s.readPending c k.count).2 []
  | noPending (hpc : k.pc = .readPending) (hnil : s.main.pendingBatch c k.count = []) :
      Move c k s { k with pc := .sleep } (s.readPending c k.count).2 []
  | wake (hpc : k.pc = .sleep) : Move c k s { k with pc := .readNew } s []
  | hit (m : Held) (hpc : k.pc = .busy m .check) (hp : m.payment.paymentId ∈ s.processed) :
      Move c k s { k with pc := .busy m .skipAck } s []
  | miss (m : Held) (hpc : k.pc = .busy m .check) (hp : m.payment.paymentId ∉ s.processed) :
      Move c k s { k with pc := .busy m .handler } s []
  | skip (m : Held) (hpc : k.pc = .busy m .skipAck) :
      Move c k s (k.forBatch m.rest)
        { s.ack m.id with registry.skippedDuplicate := s.registry.skippedDuplicate + 1 }
        [.skipped c m.id m.payment]
  | returns (m : Held) (hpc : k.pc = .busy m .handler) :
      Move c k s { k with pc := .busy m .mark } s [.handled c m.id m.payment none]
  | retry (m : Held) (exc : PyExc) (hpc : k.pc = .busy m .handler)
      (hlt : ((k.spent m.id + 1 : ℕ) : ℤ) < k.maxAttempts) :
      Move c k s ((k.bump m.id).forBatch m.rest) s [.handled c m.id m.payment (some exc)]
  | exhaust (m : Held) (exc : PyExc) (hpc : k.pc = .busy m .handler)
      (hge : k.maxAttempts ≤ ((k.spent m.id + 1 : ℕ) : ℤ)) :
      Move c k s { k.bump m.id with pc := .busy m (.dlqAck exc.className (k.spent m.id + 1)) } s
        [.handled c m.id m.payment (some exc)]
  | mark (m : Held) (hpc : k.pc = .busy m .mark) :
      Move c k s { k with pc := .busy m .ack } (s.markProcessed m.payment.paymentId) []
  | ack (m : Held) (hpc : k.pc = .busy m .ack) :
      Move c k s ({ k.dropAttempts m.id with
          totalProcessed := k.totalProcessed + 1 }.forBatch m.rest)
        { s.ack m.id with registry.paymentsProcessed := s.registry.paymentsProcessed + 1 }
        [.processed c m.id m.payment]
  | dlqAck (m : Held) (reason : String) (attempt : ℕ)
      (hpc : k.pc = .busy m (.dlqAck reason attempt)) :
      Move c k s { k with pc := .busy m (.dlqAdd reason attempt) } (s.moveToDlqAck m.id) []
  | dlqAdd (m : Held) (reason : String) (attempt : ℕ)
      (hpc : k.pc = .busy m (.dlqAdd reason attempt)) :
      Move c k s ((k.dropAttempts m.id).forBatch m.rest) (s.moveToDlqAdd m.payment reason attempt)
        [.deadLettered c m.id m.payment reason attempt]

theorem Move.of_command {c : String} {k k' : Consumer} {s s' : Server} {evs : List Event}
    (h : k.command c s = some (k', s', evs)) : Move c k s k' s' evs := by
  unfold Consumer.command at h
  split at h
  · rename_i hpc
    cases hb : s.main.newBatch k.count with
    | nil =>
      simp only [Server.readNew, hb, Option.some.injEq, Prod.mk.injEq] at h
      obtain ⟨rfl, rfl, rfl⟩ := h
      exact .noNew hpc hb
    | cons e es =>
      simp only [Server.readNew, hb, Option.some.injEq, Prod.mk.injEq] at h
      obtain ⟨rfl, rfl, rfl⟩ := h
      rw [← hb]
      exact .readNew hpc (by simp [hb])
  · rename_i hpc
    cases hb : s.main.pendingBatch c k.count with
    | nil =>
      simp only [Server.readPending, hb, Option.some.injEq, Prod.mk.injEq] at h
      obtain ⟨rfl, rfl, rfl⟩ := h
      exact .noPending hpc hb
    | cons e es =>
      simp only [Server.readPending, hb, Option.some.injEq, Prod.mk.injEq] at h
      obtain ⟨rfl, rfl, rfl⟩ := h
      rw [← hb]
      exact .readPending hpc (by simp [hb])
  · rename_i hpc
    cases h
    exact .wake hpc
  · rename_i m hpc
    by_cases hp : m.payment.paymentId ∈ s.processed
    · simp only [Server.isProcessed, hp, decide_true, if_true] at h
      cases h
      exact .hit m hpc hp
    · simp only [Server.isProcessed, hp, decide_false, Bool.false_eq_true, if_false] at h
      cases h
      exact .miss m hpc hp
  · rename_i m hpc
    cases h
    exact .skip m hpc
  · cases h
  · rename_i m hpc
    cases h
    exact .mark m hpc
  · rename_i m hpc
    cases h
    exact .ack m hpc
  · rename_i m reason attempt hpc
    cases h
    exact .dlqAck m reason attempt hpc
  · rename_i m reason attempt hpc
    cases h
    exact .dlqAdd m reason attempt hpc
  · cases h
  · cases h

theorem Move.of_handlerEnds {c : String} {k k' : Consumer} {s : Server} {failure : Option PyExc}
    {evs : List Event} (h : k.handlerEnds c failure = some (k', evs)) : Move c k s k' s evs := by
  unfold Consumer.handlerEnds at h
  split at h
  · rename_i m hpc
    cases failure with
    | none =>
      cases h
      exact .returns m hpc
    | some exc =>
      simp only at h
      split_ifs at h with hlt
      · cases h
        exact .retry m exc hpc hlt
      · cases h
        exact .exhaust m exc hpc (not_lt.mp hlt)
  · cases h

structure World where
  server : Server := {}
  consumers : String → Option Consumer := fun _ => none
  trace : List Event := []

inductive Action where
  | publish (p : Payment)
  | xadd (fields : Fields)
  | start (c : String) (maxAttempts : ℤ) (count : ℕ)
  | stop (c : String)
  | run (c : String)
  | handler (c : String) (failure : Option PyExc)
  | crash (c : String)

namespace World

def setConsumer (w : World) (c : String) (k : Option Consumer) : World := { w with
  consumers := Function.update w.consumers c k }

/-- The world after a step of the consumer `c`. -/
def moved (w : World) (c : String) (k : Consumer) (s : Server) (evs : List Event) : World :=
  { (w.setConsumer c (some k)) with server := s, trace := w.trace ++ evs }

theorem setConsumer_self (w : World) (c : String) (ko : Option Consumer) :
    (w.setConsumer c ko).consumers c = ko := by
  simp [setConsumer]

theorem setConsumer_of_ne (w : World) {c d : String} (h : d ≠ c) (ko : Option Consumer) :
    (w.setConsumer c ko).consumers d = w.consumers d := by
  simp [setConsumer, h]

def awaits (w : World) (c : String) : Option Payment :=
  match w.consumers c with
  | some k =>
      match k.pc with
      | .busy m .handler => some m.payment
      | _ => none
  | none => none

/-- A crash between the `XACK` and the `XADD` of `move_to_dlq` is recorded as a loss. -/
def crashEvents (c : String) (k : Consumer) : List Event :=
  match k.pc with
  | .busy m (.dlqAdd _ _) => [.lost c m.id m.payment]
  | _ => []

def step (w : World) : Action → Option World
  | .publish p => some { w with server := w.server.publish p }
  | .xadd fields => some { w with server.main := w.server.main.xadd fields }
  | .start c maxAttempts count =>
      match w.consumers c with
      | none => some (w.setConsumer c (some { maxAttempts, count }))
      | some k => if k.ended then some (w.setConsumer c (some { maxAttempts, count })) else none
  | .stop c =>
      match w.consumers c with
      | some k =>
          match k.pc with
          | .readNew => some (w.setConsumer c (some { k with pc := .returned }))
          | _ => none
      | none => none
  | .run c =>
      match w.consumers c with
      | some k =>
          match k.command c w.server with
          | some (k', s', evs) => some (w.moved c k' s' evs)
          | none => none
      | none => none
  | .handler c failure =>
      match w.consumers c with
      | some k =>
          match k.handlerEnds c failure with
          | some (k', evs) => some (w.moved c k' w.server evs)
          | none => none
      | none => none
  | .crash c =>
      match w.consumers c with
      | some k =>
          if k.ended then none
          else some { (w.setConsumer c none) with trace := w.trace ++ crashEvents c k }
      | none => none

/-- All that one action can do. -/
inductive Effect (w : World) : Action → World → Prop where
  | publish (p : Payment) : Effect w (.publish p) { w with server := w.server.publish p }
  | xadd (fields : Fields) :
      Effect w (.xadd fields) { w with server.main := w.server.main.xadd fields }
  | start (c : String) (maxAttempts : ℤ) (count : ℕ)
      (h : ∀ k, w.consumers c = some k → k.ended = true) :
      Effect w (.start c maxAttempts count) (w.setConsumer c (some { maxAttempts, count }))
  | stop (c : String) (k : Consumer) (hk : w.consumers c = some k) (hpc : k.pc = .readNew) :
      Effect w (.stop c) (w.setConsumer c (some { k with pc := .returned }))
  | move (a : Action) (c : String) (k k' : Consumer) (s' : Server) (evs : List Event)
      (ha : a = .run c ∨ ∃ failure m, a = .handler c failure ∧ k.pc = .busy m .handler)
      (hk : w.consumers c = some k) (hm : Move c k w.server k' s' evs) :
      Effect w a (w.moved c k' s' evs)
  | crash (c : String) (k : Consumer) (hk : w.consumers c = some k) (he : k.ended = false) :
      Effect w (.crash c)
        { (w.setConsumer c none) with trace := w.trace ++ crashEvents c k }

theorem Effect.of_step {w w' : World} {a : Action} (h : step w a = some w') : Effect w a w' := by
  cases a with
  | publish p =>
    cases h
    exact .publish p
  | xadd fields =>
    cases h
    exact .xadd fields
  | start c maxAttempts count =>
    cases hk : w.consumers c with
    | none =>
      simp only [step, hk, Option.some.injEq] at h
      subst h
      exact .start c _ _ (by simp [hk])
    | some k =>
      simp only [step, hk] at h
      split_ifs at h with he
      cases h
      refine .start c _ _ ?_
      intro k' hk'
      rw [hk, Option.some.injEq] at hk'
      exact hk' ▸ he
  | stop c =>
    cases hk : w.consumers c with
    | none => simp [step, hk] at h
    | some k =>
      simp only [step, hk] at h
      split at h
      · rename_i hpc
        cases h
        exact .stop c k hk hpc
      · cases h
  | run c =>
    cases hk : w.consumers c with
    | none => simp [step, hk] at h
    | some k =>
      cases hc : k.command c w.server with
      | none => simp [step, hk, hc] at h
      | some r =>
        obtain ⟨k', s', evs⟩ := r
        simp only [step, hk, hc, Option.some.injEq] at h
        subst h
        exact .move _ c k k' s' evs (Or.inl rfl) hk (.of_command hc)
  | handler c failure =>
    cases hk : w.consumers c with
    | none => simp [step, hk] at h
    | some k =>
      cases hc : k.handlerEnds c failure with
      | none => simp [step, hk, hc] at h
      | some r =>
        obtain ⟨k', evs⟩ := r
        simp only [step, hk, hc, Option.some.injEq] at h
        subst h
        have hpc : ∃ m, k.pc = .busy m .handler := by
          unfold Consumer.handlerEnds at hc
          split at hc
          · rename_i m hpc
            exact ⟨m, hpc⟩
          · cases hc
        obtain ⟨m, hpc⟩ := hpc
        exact .move _ c k k' w.server evs (Or.inr ⟨failure, m, rfl, hpc⟩) hk (.of_handlerEnds hc)
  | crash c =>
    cases hk : w.consumers c with
    | none => simp [step, hk] at h
    | some k =>
      simp only [step, hk] at h
      split_ifs at h with he
      cases h
      exact .crash c k hk (by simpa using he)

end World
end Dlq
