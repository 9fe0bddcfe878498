import MessageBrokerPatterns.PyDict
import MessageBrokerPatterns.RedisGroup
import Mathlib.Logic.Function.Basic

/-!
# Support tickets and the priority-queue broker

`SupportTicket` with its wire format, and the Redis keys behind `PriorityQueueBroker`: one stream
with its consumer group for each priority, together with the pattern's counters in the metrics
registry. `ensure_group` creates a group at id `0`, so that a group which is created late sees the
whole stream: the model has all the groups from the start.
-/

namespace PriorityQueue
open PyText PyDict RedisStream

inductive Priority where
  | high
  | normal
  | low
  deriving DecidableEq, Repr

def Priority.value : Priority → String
  | .high => "high"
  | .normal => "normal"
  | .low => "low"

/-- `Priority(value)`. -/
def Priority.ofValue (value : String) : Except PyExc Priority :=
  if value = "high" then .ok .high
  else if value = "normal" then .ok .normal
  else if value = "low" then .ok .low
  else .error (valueError ("'" ++ value ++ "' is not a valid Priority"))

@[simp] theorem Priority.ofValue_value (p : Priority) : ofValue p.value = .ok p := by
  cases p <;> rfl

structure SupportTicket where
  ticketId : String
  subject : String
  priority : Priority
  customerId : String
  deriving DecidableEq, Repr

def SupportTicket.toFields (t : SupportTicket) : Dict String String :=
  [("ticket_id", t.ticketId), ("subject", t.subject), ("priority", t.priority.value),
    ("customer_id", t.customerId)]

def SupportTicket.fromFields (fields : Fields) : Except PyExc SupportTicket := do
  let ticketId ← getText fields "ticket_id"
  let subject ← getText fields "subject"
  let priority ← Priority.ofValue (← getText fields "priority")
  let customerId ← getText fields "customer_id"
  return { ticketId, subject, priority, customerId }

@[simp] theorem SupportTicket.fromFields_toFields (t : SupportTicket) :
    fromFields (encodeFields t.toFields) = .ok t := by
  have hget (k v : String) (h : get? t.toFields k = some v) := getText_encodeFields h
  simp only [fromFields, hget "ticket_id" t.ticketId rfl, hget "subject" t.subject rfl,
    hget "priority" t.priority.value rfl, hget "customer_id" t.customerId rfl, bind, Except.bind,
    pure, Except.pure, Priority.ofValue_value]

/-- The counters of the `priority_queue` pattern in the metrics registry. -/
structure Registry where
  ticketsPublished : ℕ := 0
  published : Priority → ℕ := fun _ => 0
  ticketsConsumed : ℕ := 0
  consumed : Priority → ℕ := fun _ => 0

structure Server where
  streams : Priority → GroupStream Fields String Unit := fun _ => .empty
  registry : Registry := {}

namespace Server
variable (s : Server)

def publish (t : SupportTicket) : Server where
  streams := Function.update s.streams t.priority
    ((s.streams t.priority).xadd (encodeFields t.toFields))
  registry := { s.registry with
    ticketsPublished := s.registry.ticketsPublished + 1
    published := Function.update s.registry.published t.priority
      (s.registry.published t.priority + 1) }

def readNew (p : Priority) (consumer : String) (count : ℕ) : List (ℕ × Fields) × Server :=
  ((s.streams p).newBatch count, { s with
    streams := Function.update s.streams p ((s.streams p).readNew consumer () count) })

def ack (p : Priority) (id : ℕ) : Server := { s with
  streams := Function.update s.streams p ((s.streams p).xack id) }

/-- The counters that a consumer increments behind its acknowledgement. -/
def countConsumed (p : Priority) : Server := { s with
  registry.ticketsConsumed := s.registry.ticketsConsumed + 1
  registry.consumed := Function.update s.registry.consumed p (s.registry.consumed p + 1) }

def entries (p : Priority) : List Fields := (s.streams p).entries

def delivered (p : Priority) : ℕ := (s.streams p).delivered

variable {s}

theorem entries_publish (t : SupportTicket) (p : Priority) :
    (s.publish t).entries p =
      if p = t.priority then s.entries p ++ [encodeFields t.toFields] else s.entries p := by
  by_cases h : p = t.priority
  · subst h
    simp [entries, publish]
  · simp [entries, publish, h]

@[simp] theorem delivered_publish (t : SupportTicket) (p : Priority) :
    (s.publish t).delivered p = s.delivered p := by
  by_cases h : p = t.priority
  · subst h
    simp [delivered, publish]
  · simp [delivered, publish, h]

@[simp] theorem entries_readNew (p q : Priority) (c : String) (count : ℕ) :
    (s.readNew p c count).2.entries q = s.entries q := by
  by_cases h : q = p
  · subst h
    simp [entries, readNew]
  · simp [entries, readNew, h]

theorem delivered_readNew (p q : Priority) (c : String) (count : ℕ) :
    (s.readNew p c count).2.delivered q =
      if q = p then s.delivered p + (s.streams p).newCount count else s.delivered q := by
  by_cases h : q = p
  · subst h
    simp [delivered, readNew]
  · simp [delivered, readNew, h]

@[simp] theorem entries_ack (p q : Priority) (id : ℕ) : (s.ack p id).entries q = s.entries q := by
  by_cases h : q = p
  · subst h
    simp [entries, ack]
  · simp [entries, ack, h]

@[simp] theorem delivered_ack (p q : Priority) (id : ℕ) :
    (s.ack p id).delivered q = s.delivered q := by
  by_cases h : q = p
  · subst h
    simp [delivered, ack]
  · simp [delivered, ack, h]

end Server
end PriorityQueue
