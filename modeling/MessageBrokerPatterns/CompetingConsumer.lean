import MessageBrokerPatterns.PyDict
import MessageBrokerPatterns.RedisGroup
import MessageBrokerPatterns.ActionRun
import Mathlib.Logic.Function.Basic

/-!
# Competing consumers, one Redis command at a time

`Task` with its wire format, the stream and group behind `CompetingConsumersBroker`, and the loop of
`run_consumer` cut at its awaits: a sweep by `XAUTOCLAIM`, the swept batch, a read of new messages
and their batch. Entries come from `publish` or from another writer of the stream. The clock advances
between any two commands, and the pending list carries the time of each last delivery. A blocking
read is the read that is executed when its wait is over.

A run has a number of its own; a run that has ended keeps the ids that it had claimed and whose
handler had not completed.
-/

namespace CompetingConsumers
open PyText PyDict RedisStream

structure Task where
  taskId : String
  payload : String
  deriving DecidableEq, Repr

def Task.toFields (t : Task) : Dict String String :=
  [("task_id", t.taskId), ("payload", t.payload)]

def Task.fromFields (fields : Fields) : Except PyExc Task := do
  let taskId ← getText fields "task_id"
  let payload ← getText fields "payload"
  return { taskId, payload }

@[simp] theorem Task.fromFields_toFields (t : Task) :
    fromFields (encodeFields t.toFields) = .ok t := by
  have hget (k v : String) (h : get? t.toFields k = some v) := getText_encodeFields h
  simp only [fromFields, hget "task_id" t.taskId rfl, hget "payload" t.payload rfl, bind,
    Except.bind, pure, Except.pure]

/-- The counters of the `competing_consumers` pattern in the metrics registry. -/
structure Registry where
  messagesPublished : ℕ := 0
  messagesConsumed : ℕ := 0
  consumerJoins : ℕ := 0
  deriving DecidableEq, Repr

structure Server where
  stream : GroupStream Fields String ℕ := .empty
  registry : Registry := {}

namespace Server
variable (s : Server)

def publish (taskFields : Dict String String) : Server := { s with
  stream := s.stream.xadd (encodeFields taskFields)
  registry.messagesPublished := s.registry.messagesPublished + 1 }

def readNew (consumer : String) (now count : ℕ) : List (ℕ × Fields) × Server :=
  (s.stream.newBatch count, { s with stream := s.stream.readNew consumer now count })

def ack (id : ℕ) : Server := { s with stream := s.stream.xack id }

def reclaimStale (consumer : String) (now minIdleMs count : ℕ) : List (ℕ × Fields) × Server :=
  (s.stream.staleBatch now minIdleMs count,
    { s with stream := s.stream.autoclaim consumer now minIdleMs count })

end Server

/-- Whether a batch was swept from the pending list or read as new. -/
inductive Phase where
  | reclaimed
  | new
  deriving DecidableEq

/-- `_handle_batch` at one message: the messages behind it, and how many it has handled. -/
structure Held where
  id : ℕ
  task : Task
  rest : List (ℕ × Fields)
  phase : Phase
  handled : ℕ

inductive Pc where
  | top
  | readNew (didWork : Bool)
  | sleep
  | handler (m : Held)
  | ack (m : Held)
  | returned
  | raised (e : PyExc) (claims : List ℕ)
  | crashed (claims : List ℕ)

structure Consumer where
  consumerId : String
  count : ℕ := 10
  reclaimMinIdleMs : ℕ := 5000
  totalHandled : ℕ := 0
  pc : Pc := .top

/-- The handler of a run completes for an entry. -/
structure Handling where
  run : ℕ
  id : ℕ
  task : Task
  deriving DecidableEq

namespace Consumer

def claims (k : Consumer) : List ℕ :=
  match k.pc with
  | .handler m => m.id :: m.rest.map Prod.fst
  | .ack m => m.rest.map Prod.fst
  | .raised _ claims => claims
  | .crashed claims => claims
  | _ => []

def ended (k : Consumer) : Bool :=
  match k.pc with
  | .returned => true
  | .raised _ _ => true
  | .crashed _ => true
  | _ => false

/-- `_handle_batch` at its next message, or its return to the loop. -/
def handleBatch (k : Consumer) (phase : Phase) (handled : ℕ) : List (ℕ × Fields) → Consumer
  | [] =>
      let k := { k with totalHandled := k.totalHandled + handled }
      match phase with
      | .reclaimed => { k with pc := .readNew true }
      | .new => { k with pc := .top }
  | (id, fields) :: rest =>
      match Task.fromFields fields with
      | .ok task => { k with pc := .handler ⟨id, task, rest, phase, handled⟩ }
      | .error e => { k with pc := .raised e (id :: rest.map Prod.fst) }

/-- The next Redis command and the code up to the await behind it. -/
def command (k : Consumer) (now : ℕ) (s : Server) : Option (Consumer × Server) :=
  match k.pc with
  | .top =>
      match s.reclaimStale k.consumerId now k.reclaimMinIdleMs k.count with
      | ([], s) => some ({ k with pc := .readNew false }, s)
      | (batch, s) => some (k.handleBatch .reclaimed 0 batch, s)
  | .readNew didWork =>
      match s.readNew k.consumerId now k.count with
      | ([], s) => some ({ k with pc := if didWork then .top else .sleep }, s)
      | (batch, s) => some (k.handleBatch .new 0 batch, s)
  | .sleep => some ({ k with pc := .top }, s)
  | .handler _ => none
  | .ack m =>
      let s := s.ack m.id
      some (k.handleBatch m.phase (m.handled + 1) m.rest,
        { s with registry.messagesConsumed := s.registry.messagesConsumed + 1 })
  | .returned => none
  | .raised _ _ => none
  | .crashed _ => none

end Consumer

/-- All that a Redis command of a run, or its idle sleep, can do to the run and the server. -/
inductive Move (k : Consumer) (now : ℕ) (s : Server) : Consumer → Server → Prop where
  | sweep (hpc : k.pc = .top) (hne : s.stream.staleBatch now k.reclaimMinIdleMs k.count ≠ []) :
      Move k now s
        (k.handleBatch .reclaimed 0 (s.stream.staleBatch now k.reclaimMinIdleMs k.count))
        (s.reclaimStale k.consumerId now k.reclaimMinIdleMs k.count).2
  | nothingStale (hpc : k.pc = .top)
      (hnil : s.stream.staleBatch now k.reclaimMinIdleMs k.count = []) :
      Move k now s { k with pc := .readNew false }
        (s.reclaimStale k.consumerId now k.reclaimMinIdleMs k.count).2
  | readNew (didWork : Bool) (hpc : k.pc = .readNew didWork)
      (hne : s.stream.newBatch k.count ≠ []) :
      Move k now s (k.handleBatch .new 0 (s.stream.newBatch k.count))
        (s.readNew k.consumerId now k.count).2
  | nothingNew (didWork : Bool) (hpc : k.pc = .readNew didWork)
      (hnil : s.stream.newBatch k.count = []) :
      Move k now s { k with pc := if didWork then .top else .sleep }
        (s.readNew k.consumerId now k.count).2
  | wake (hpc : k.pc = .sleep) : Move k now s { k with pc := .top } s
  | ack (m : Held) (hpc : k.pc = .ack m) :
      Move k now s (k.handleBatch m.phase (m.handled + 1) m.rest)
        { s.ack m.id with registry.messagesConsumed := s.registry.messagesConsumed + 1 }

theorem Move.of_command {k k' : Consumer} {now : ℕ} {s s' : Server}
    (h : k.command now s = some (k', s')) : Move k now s k' s' := by
  unfold Consumer.command at h
  split at h
  · rename_i hpc
    cases hb : s.stream.staleBatch now k.reclaimMinIdleMs k.count with
    | nil =>
      simp only [Server.reclaimStale, hb, Option.some.injEq, Prod.mk.injEq] at h
      obtain ⟨rfl, rfl⟩ := h
      exact .nothingStale hpc hb
    | cons e es =>
      simp only [Server.reclaimStale, hb, Option.some.injEq, Prod.mk.injEq] at h
      obtain ⟨rfl, rfl⟩ := h
      rw [← hb]
      exact .sweep hpc (by simp [hb])
  · rename_i didWork hpc
    cases hb : s.stream.newBatch k.count with
    | nil =>
      simp only [Server.readNew, hb, Option.some.injEq, Prod.mk.injEq] at h
      obtain ⟨rfl, rfl⟩ := h
      exact .nothingNew didWork hpc hb
    | cons e es =>
      simp only [Server.readNew, hb, Option.some.injEq, Prod.mk.injEq] at h
      obtain ⟨rfl, rfl⟩ := h
      rw [← hb]
      exact .readNew didWork hpc (by simp [hb])
  · rename_i hpc
    cases h
    exact .wake hpc
  · cases h
  · rename_i m hpc
    cases h
    exact .ack m hpc
  · cases h
  · cases h
  · cases h

structure World where
  server : Server := {}
  now : ℕ := 0
  runs : ℕ → Option Consumer := fun _ => none
  trace : List Handling := []

inductive Action where
  | publish (taskFields : Dict String String)
  | xadd (fields : Fields)
  | start (i : ℕ) (consumerId : String) (count reclaimMinIdleMs : ℕ)
  | stop (i : ℕ)
  | run (i : ℕ)
  | handler (i : ℕ) (failure : Option PyExc)
  | crash (i : ℕ)
  | tick (ms : ℕ)

namespace World

def setRun (w : World) (i : ℕ) (k : Consumer) : World := { w with
  runs := Function.update w.runs i (some k) }

theorem setRun_self (w : World) (i : ℕ) (k : Consumer) : (w.setRun i k).runs i = some k := by
  simp [setRun]

theorem setRun_of_ne (w : World) {i j : ℕ} (h : j ≠ i) (k : Consumer) :
    (w.setRun i k).runs j = w.runs j := by
  simp [setRun, h]

/-- `run_consumer` joins the group under a number that has not been used. -/
def join (w : World) (i : ℕ) (k : Consumer) : World := { (w.setRun i k) with
  server.registry.consumerJoins := w.server.registry.consumerJoins + 1 }

/-- The world after a command of the run `i`. -/
def moved (w : World) (i : ℕ) (k : Consumer) (s : Server) : World :=
  { (w.setRun i k) with server := s }

/-- The world after the handler of the run `i` has completed for the message in hand. -/
def completed (w : World) (i : ℕ) (k : Consumer) (m : Held) : World :=
  { (w.setRun i { k with pc := .ack m }) with trace := w.trace ++ [⟨i, m.id, m.task⟩] }

def step (w : World) : Action → Option World
  | .publish taskFields => some { w with server := w.server.publish taskFields }
  | .xadd fields => some { w with server.stream := w.server.stream.xadd fields }
  | .start i consumerId count reclaimMinIdleMs =>
      match w.runs i with
      | none => some (w.join i { consumerId, count, reclaimMinIdleMs })
      | some _ => none
  | .stop i =>
      match w.runs i with
      | some k =>
          match k.pc with
          | .top => some (w.setRun i { k with pc := .returned })
          | _ => none
      | none => none
  | .run i =>
      match w.runs i with
      | some k => (k.command w.now w.server).map fun r => w.moved i r.1 r.2
      | none => none
  | .handler i failure =>
      match w.runs i with
      | some k =>
          match k.pc, failure with
          | .handler m, none => some (w.completed i k m)
          | .handler _, some e => some (w.setRun i { k with pc := .raised e k.claims })
          | _, _ => none
      | none => none
  | .crash i =>
      match w.runs i with
      | some k => if k.ended then none else some (w.setRun i { k with pc := .crashed k.claims })
      | none => none
  | .tick ms => some { w with now := w.now + ms }

/-- All that one action can do. -/
inductive Effect (w : World) : Action → World → Prop where
  | publish (taskFields : Dict String String) :
      Effect w (.publish taskFields) { w with server := w.server.publish taskFields }
  | xadd (fields : Fields) :
      Effect w (.xadd fields) { w with server.stream := w.server.stream.xadd fields }
  | start (i : ℕ) (consumerId : String) (count reclaimMinIdleMs : ℕ) (hnone : w.runs i = none) :
      Effect w (.start i consumerId count reclaimMinIdleMs)
        (w.join i { consumerId, count, reclaimMinIdleMs })
  | stop (i : ℕ) (k : Consumer) (hk : w.runs i = some k) (hpc : k.pc = .top) :
      Effect w (.stop i) (w.setRun i { k with pc := .returned })
  | run (i : ℕ) (k k' : Consumer) (s' : Server) (hk : w.runs i = some k)
      (hm : Move k w.now w.server k' s') : Effect w (.run i) (w.moved i k' s')
  | returns (i : ℕ) (k : Consumer) (m : Held) (hk : w.runs i = some k) (hpc : k.pc = .handler m) :
      Effect w (.handler i none) (w.completed i k m)
  | raises (i : ℕ) (k : Consumer) (m : Held) (e : PyExc) (hk : w.runs i = some k)
      (hpc : k.pc = .handler m) :
      Effect w (.handler i (some e)) (w.setRun i { k with pc := .raised e k.claims })
  | crash (i : ℕ) (k : Consumer) (hk : w.runs i = some k) (hend : k.ended = false) :
      Effect w (.crash i) (w.setRun i { k with pc := .crashed k.claims })
  | tick (ms : ℕ) : Effect w (.tick ms) { w with now := w.now + ms }

theorem Effect.of_step {w w' : World} {a : Action} (h : step w a = some w') : Effect w a w' := by
  cases a with
  | publish taskFields =>
    cases h
    exact .publish taskFields
  | xadd fields =>
    cases h
    exact .xadd fields
  | start i consumerId count reclaimMinIdleMs =>
    cases hk : w.runs i with
    | none =>
      simp only [step, hk, Option.some.injEq] at h
      subst h
      exact .start i consumerId count reclaimMinIdleMs hk
    | some k => simp [step, hk] at h
  | stop i =>
    cases hk : w.runs i with
    | none => simp [step, hk] at h
    | some k =>
      simp only [step, hk] at h
      split at h
      · rename_i hpc
        cases h
        exact .stop i k hk hpc
      · cases h
  | run i =>
    cases hk : w.runs i with
    | none => simp [step, hk] at h
    | some k =>
      simp only [step, hk, Option.map_eq_some_iff] at h
      obtain ⟨⟨k', s'⟩, hr, rfl⟩ := h
      exact .run i k k' s' hk (.of_command hr)
  | handler i failure =>
    cases hk : w.runs i with
    | none => simp [step, hk] at h
    | some k =>
      simp only [step, hk] at h
      split at h
      · rename_i m hpc
        cases h
        exact .returns i k m hk hpc
      · rename_i m e hpc
        cases h
        exact .raises i k m e hk hpc
      · cases h
  | crash i =>
    cases hk : w.runs i with
    | none => simp [step, hk] at h
    | some k =>
      simp only [step, hk] at h
      split_ifs at h with hend
      cases h
      exact .crash i k hk (by simpa using hend)
  | tick ms =>
    cases h
    exact .tick ms

end World
end CompetingConsumers
