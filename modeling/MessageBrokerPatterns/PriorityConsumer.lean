import MessageBrokerPatterns.PriorityBroker
import MessageBrokerPatterns.ActionRun

/-!
# The two consumers of the priority queue, one Redis command at a time

`run_consumer` and `run_strict_priority_consumer` are one loop: it polls the tiers of its scan order
until a tier has new tickets, works on these, and starts over; the dedicated consumer's scan order
is its own priority. The program counter stands before the next Redis command or in the handler.

A run has a number of its own, so that any runs may share a consumer name. A run that has ended
keeps the ids that it had claimed and whose handler had not completed.
-/

namespace PriorityQueue
open PyText PyDict RedisStream

/-- The message of a claimed batch that is being worked on, and the messages behind it. -/
structure Held where
  priority : Priority
  id : ℕ
  ticket : SupportTicket
  rest : List (ℕ × Fields)

inductive Pc where
  | top
  | scan (left : List Priority)
  | sleep
  | handler (m : Held)
  | ack (m : Held)
  | returned
  | raised (e : PyExc) (claims : List (Priority × ℕ))
  | crashed (claims : List (Priority × ℕ))

structure Consumer where
  consumerId : String
  scanOrder : List Priority := [.high, .normal, .low]
  count : ℕ := 10
  totalHandled : ℕ := 0
  pc : Pc := .top

/-- `run_consumer`. -/
def runConsumer (priority : Priority) (consumerId : String) (count : ℕ) : Consumer :=
  { consumerId, scanOrder := [priority], count }

/-- `run_strict_priority_consumer`. -/
def runStrictPriorityConsumer (consumerId : String) (priorities : Option (List Priority))
    (count : ℕ) : Consumer :=
  { consumerId, scanOrder := priorities.getD [.high, .normal, .low], count }

inductive Event where
  | handled (consumerId : String) (p : Priority) (id : ℕ) (t : SupportTicket)
  deriving DecidableEq

def claimsOf (p : Priority) (batch : List (ℕ × Fields)) : List (Priority × ℕ) :=
  batch.map fun e => (p, e.1)

namespace Consumer

def claims (k : Consumer) : List (Priority × ℕ) :=
  match k.pc with
  | .handler m => (m.priority, m.id) :: claimsOf m.priority m.rest
  | .ack m => claimsOf m.priority m.rest
  | .raised _ claims => claims
  | .crashed claims => claims
  | _ => []

def ended (k : Consumer) : Bool :=
  match k.pc with
  | .returned => true
  | .raised _ _ => true
  | .crashed _ => true
  | _ => false

def polls (k : Consumer) : Option (List Priority) :=
  match k.pc with
  | .top => some k.scanOrder
  | .scan left => some left
  | _ => none

/-- The `for` loop over a claimed batch at its next message. -/
def forBatch (k : Consumer) (p : Priority) : List (ℕ × Fields) → Consumer
  | [] => { k with pc := .top }
  | (id, fields) :: rest =>
      match SupportTicket.fromFields fields with
      | .ok ticket => { k with pc := .handler ⟨p, id, ticket, rest⟩ }
      | .error e => { k with pc := .raised e (claimsOf p ((id, fields) :: rest)) }

/-- The `for` loop over the tiers at its next poll. -/
def poll (k : Consumer) (s : Server) : List Priority → Consumer × Server
  | [] => ({ k with pc := .sleep }, s)
  | p :: left =>
      match s.readNew p k.consumerId k.count with
      | ([], s) => ({ k with pc := if left = [] then .sleep else .scan left }, s)
      | (batch, s) => (k.forBatch p batch, s)

def command (k : Consumer) (s : Server) : Option (Consumer × Server) :=
  match k.pc with
  | .top => some (k.poll s k.scanOrder)
  | .scan left => some (k.poll s left)
  | .sleep => some ({ k with pc := .top }, s)
  | .handler _ => none
  | .ack m =>
      some ({ k with totalHandled := k.totalHandled + 1 }.forBatch m.priority m.rest,
        (s.ack m.priority m.id).countConsumed m.priority)
  | .returned => none
  | .raised _ _ => none
  | .crashed _ => none

/-- The handler returns, or raises an exception that ends the run. -/
def handlerEnds (k : Consumer) (failure : Option PyExc) : Option (Consumer × List Event) :=
  match k.pc with
  | .handler m =>
      match failure with
      | none => some ({ k with pc := .ack m }, [.handled k.consumerId m.priority m.id m.ticket])
      | some e => some ({ k with pc := .raised e k.claims }, [])
  | _ => none

end Consumer

/-- All that a Redis command of a run, or its idle sleep, can do to the run and the server. -/
inductive Move (k : Consumer) (s : Server) : Consumer → Server → Prop where
  | claim (p : Priority) (left : List Priority) (hpc : k.polls = some (p :: left))
      (hne : (s.streams p).newBatch k.count ≠ []) :
      Move k s (k.forBatch p ((s.streams p).newBatch k.count)) (s.readNew p k.consumerId k.count).2
  | empty (p : Priority) (left : List Priority) (hpc : k.polls = some (p :: left))
      (hnil : (s.streams p).newBatch k.count = []) :
      Move k s { k with pc := if left = [] then .sleep else .scan left }
        (s.readNew p k.consumerId k.count).2
  | noTier (hpc : k.polls = some []) : Move k s { k with pc := .sleep } s
  | wake (hpc : k.pc = .sleep) : Move k s { k with pc := .top } s
  | ack (m : Held) (hpc : k.pc = .ack m) :
      Move k s ({ k with totalHandled := k.totalHandled + 1 }.forBatch m.priority m.rest)
        ((s.ack m.priority m.id).countConsumed m.priority)

theorem Move.of_poll {k k' : Consumer} {s s' : Server} {tiers : List Priority}
    (hpc : k.polls = some tiers) (h : k.poll s tiers = (k', s')) :
    Move k s k' s' := by
  cases tiers with
  | nil =>
    cases h
    exact .noTier hpc
  | cons p left =>
    cases hb : (s.streams p).newBatch k.count with
    | nil =>
      simp only [Consumer.poll, Server.readNew, hb, Prod.mk.injEq] at h
      obtain ⟨rfl, rfl⟩ := h
      exact .empty p left hpc hb
    | cons e es =>
      simp only [Consumer.poll, Server.readNew, hb, Prod.mk.injEq] at h
      obtain ⟨rfl, rfl⟩ := h
      rw [← hb]
      exact .claim p left hpc (by simp [hb])

theorem Move.of_command {k k' : Consumer} {s s' : Server} (h : k.command s = some (k', s')) :
    Move k s k' s' := by
  unfold Consumer.command at h
  split at h
  · rename_i hpc
    exact .of_poll (by simp only [Consumer.polls, hpc]) (Option.some.inj h)
  · rename_i left hpc
    exact .of_poll (by simp only [Consumer.polls, hpc]) (Option.some.inj h)
  · rename_i hpc
    cases h
    exact .wake hpc
  · cases h
  · rename_i m hpc
    cases h
    exact .ack m hpc
  · cases h
  · cases h
  · cases h

structure World where
  server : Server := {}
  runs : ℕ → Option Consumer := fun _ => none
  trace : List Event := []

inductive Action where
  | publish (t : SupportTicket)
  | runConsumer (i : ℕ) (priority : Priority) (consumerId : String) (count : ℕ)
  | runStrictPriorityConsumer (i : ℕ) (consumerId : String) (priorities : Option (List Priority))
      (count : ℕ)
  | stop (i : ℕ)
  | run (i : ℕ)
  | handler (i : ℕ) (failure : Option PyExc)
  | crash (i : ℕ)

namespace World

def setRun (w : World) (i : ℕ) (k : Consumer) : World := { w with
  runs := Function.update w.runs i (some k) }

/-- The world after a step of the run `i`. -/
def moved (w : World) (i : ℕ) (k : Consumer) (s : Server) (evs : List Event) : World :=
  { (w.setRun i k) with server := s, trace := w.trace ++ evs }

theorem setRun_self (w : World) (i : ℕ) (k : Consumer) : (w.setRun i k).runs i = some k := by
  simp [setRun]

theorem setRun_of_ne (w : World) {i j : ℕ} (h : j ≠ i) (k : Consumer) :
    (w.setRun i k).runs j = w.runs j := by
  simp [setRun, h]

/-- A run starts under a number that has not been used. -/
def startRun (w : World) (i : ℕ) (k : Consumer) : Option World :=
  match w.runs i with
  | none => some (w.setRun i k)
  | some _ => none

def step (w : World) : Action → Option World
  | .publish t => some { w with server := w.server.publish t }
  | .runConsumer i priority consumerId count =>
      w.startRun i (PriorityQueue.runConsumer priority consumerId count)
  | .runStrictPriorityConsumer i consumerId priorities count =>
      w.startRun i (PriorityQueue.runStrictPriorityConsumer consumerId priorities count)
  | .stop i =>
      match w.runs i with
      | some k =>
          match k.pc with
          | .top => some (w.setRun i { k with pc := .returned })
          | _ => none
      | none => none
  | .run i =>
      match w.runs i with
      | some k => (k.command w.server).map fun r => w.moved i r.1 r.2 []
      | none => none
  | .handler i failure =>
      match w.runs i with
      | some k => (k.handlerEnds failure).map fun r => w.moved i r.1 w.server r.2
      | none => none
  | .crash i =>
      match w.runs i with
      | some k => if k.ended then none else some (w.setRun i { k with pc := .crashed k.claims })
      | none => none

def Starts : Action → Prop
  | .runConsumer _ _ _ _ => True
  | .runStrictPriorityConsumer _ _ _ _ => True
  | _ => False

/-- All that one action can do. -/
inductive Effect (w : World) : Action → World → Prop where
  | publish (t : SupportTicket) : Effect w (.publish t) { w with server := w.server.publish t }
  | start (a : Action) (i : ℕ) (k : Consumer) (ha : Starts a) (hnone : w.runs i = none)
      (hpc : k.pc = .top) : Effect w a (w.setRun i k)
  | stop (i : ℕ) (k : Consumer) (hk : w.runs i = some k) (hpc : k.pc = .top) :
      Effect w (.stop i) (w.setRun i { k with pc := .returned })
  | run (i : ℕ) (k k' : Consumer) (s' : Server) (hk : w.runs i = some k)
      (hm : Move k w.server k' s') : Effect w (.run i) (w.moved i k' s' [])
  | returns (i : ℕ) (k : Consumer) (m : Held) (hk : w.runs i = some k) (hpc : k.pc = .handler m) :
      Effect w (.handler i none)
        (w.moved i { k with pc := .ack m } w.server
          [.handled k.consumerId m.priority m.id m.ticket])
  | raises (i : ℕ) (k : Consumer) (m : Held) (e : PyExc) (hk : w.runs i = some k)
      (hpc : k.pc = .handler m) :
      Effect w (.handler i (some e)) (w.moved i { k with pc := .raised e k.claims } w.server [])
  | crash (i : ℕ) (k : Consumer) (hk : w.runs i = some k) (hend : k.ended = false) :
      Effect w (.crash i) (w.setRun i { k with pc := .crashed k.claims })

theorem Effect.of_step {w w' : World} {a : Action} (h : step w a = some w') : Effect w a w' := by
  have hstart {a : Action} {i : ℕ} {k : Consumer} (ha : Starts a) (hpc : k.pc = .top)
      (h : w.startRun i k = some w') : Effect w a w' := by
    unfold startRun at h
    split at h
    · rename_i hnone
      cases h
      exact .start a i k ha hnone hpc
    · cases h
  cases a with
  | publish t =>
    cases h
    exact .publish t
  | runConsumer i priority consumerId count => exact hstart trivial rfl h
  | runStrictPriorityConsumer i consumerId priorities count => exact hstart trivial rfl h
  | stop i =>
    cases hk : w.runs i with
    | none => simp [step, hk] at h
    | some k =>
      simp only [step, hk] at h
      split at h
      · rename_i hpc
        cases h
        exact .stop i k hk hpc
      · cases h
  | run i =>
    cases hk : w.runs i with
    | none => simp [step, hk] at h
    | some k =>
      simp only [step, hk, Option.map_eq_some_iff] at h
      obtain ⟨⟨k', s'⟩, hr, rfl⟩ := h
      exact .run i k k' s' hk (.of_command hr)
  | handler i failure =>
    cases hk : w.runs i with
    | none => simp [step, hk] at h
    | some k =>
      simp only [step, hk, Option.map_eq_some_iff] at h
      obtain ⟨⟨k', evs⟩, hr, rfl⟩ := h
      unfold Consumer.handlerEnds at hr
      split at hr
      · rename_i m hpc
        cases failure with
        | none =>
          cases hr
          exact .returns i k m hk hpc
        | some e =>
          cases hr
          exact .raises i k m e hk hpc
      · cases hr
  | crash i =>
    cases hk : w.runs i with
    | none => simp [step, hk] at h
    | some k =>
      simp only [step, hk] at h
      split_ifs at h with hend
      cases h
      exact .crash i k hk (by simpa using hend)

end World
end PriorityQueue
