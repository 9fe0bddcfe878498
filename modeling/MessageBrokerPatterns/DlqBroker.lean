import MessageBrokerPatterns.PyDict
import MessageBrokerPatterns.RedisGroup
import Mathlib.Data.Finset.Insert

/-!
# Payments and the DLQ broker

`Payment` with its wire format, and the Redis keys behind `DLQBroker`: the main stream with the
consumer group, the dead-letter stream and the set of processed payment ids, together with the
pattern's counters in the metrics registry. `move_to_dlq` issues two Redis commands and is split
into them. Nothing in this pattern reads a delivery time, so the pending list carries none.
-/

namespace Dlq
open PyText PyDict RedisStream

structure Payment where
  paymentId : String
  amountCents : ℤ
  customerId : String
  currency : String
  deriving DecidableEq, Repr

def Payment.toFields (p : Payment) : Dict String String :=
  [("payment_id", p.paymentId), ("amount_cents", pyStr p.amountCents),
    ("customer_id", p.customerId), ("currency", p.currency)]

def Payment.fromFields (fields : Fields) : Except PyExc Payment := do
  let paymentId ← getText fields "payment_id"
  let amountCents ← pyInt (← getText fields "amount_cents")
  let customerId ← getText fields "customer_id"
  let currency ← getText fields "currency"
  return { paymentId, amountCents, customerId, currency }

/-- The fields of a dead letter: `{**payment.to_fields(), "reason": ..., "attempt": ...}`. -/
def Payment.dlqFields (p : Payment) (reason : String) (attempt : ℤ) : Dict String String :=
  merge p.toFields [("reason", reason), ("attempt", pyStr attempt)]

theorem Payment.fromFields_append (p : Payment) (extra : Dict String String) :
    fromFields (encodeFields (p.toFields ++ extra)) = .ok p := by
  have hget (k v : String) (h : get? (p.toFields ++ extra) k = some v) :=
    getText_encodeFields h
  simp only [fromFields, hget "payment_id" p.paymentId rfl,
    hget "amount_cents" (pyStr p.amountCents) rfl, hget "customer_id" p.customerId rfl,
    hget "currency" p.currency rfl, bind, Except.bind, pure, Except.pure, pyInt_pyStr]

@[simp] theorem Payment.fromFields_toFields (p : Payment) :
    fromFields (encodeFields p.toFields) = .ok p := by
  simpa using p.fromFields_append []

theorem Payment.dlqFields_eq (p : Payment) (reason : String) (attempt : ℤ) :
    p.dlqFields reason attempt = p.toFields ++ [("reason", reason), ("attempt", pyStr attempt)] := by
  simp [dlqFields, toFields, merge, assign]

@[simp] theorem Payment.fromFields_dlqFields (p : Payment) (reason : String) (attempt : ℤ) :
    fromFields (encodeFields (p.dlqFields reason attempt)) = .ok p := by
  rw [dlqFields_eq, fromFields_append]

theorem Payment.getText_attempt (p : Payment) (reason : String) (attempt : ℤ) :
    getText (encodeFields (p.dlqFields reason attempt)) "attempt" = .ok (pyStr attempt) := by
  rw [dlqFields_eq]
  exact getText_encodeFields rfl

/-- The counters of the `dlq` pattern in the metrics registry. -/
structure Registry where
  paymentsPublished : ℕ := 0
  paymentsProcessed : ℕ := 0
  skippedDuplicate : ℕ := 0
  movedToDlq : ℕ := 0
  deriving DecidableEq, Repr

structure Server where
  main : GroupStream Fields String Unit := .empty
  dlq : List Fields := []
  processed : Finset String := ∅
  registry : Registry := {}

namespace Server
variable (s : Server)

def publish (p : Payment) : Server := { s with
  main := s.main.xadd (encodeFields p.toFields)
  registry.paymentsPublished := s.registry.paymentsPublished + 1 }

def readNew (consumer : String) (count : ℕ) : List (ℕ × Fields) × Server :=
  (s.main.newBatch count, { s with main := s.main.readNew consumer () count })

def readPending (consumer : String) (count : ℕ) : List (ℕ × Fields) × Server :=
  (s.main.pendingBatch consumer count, { s with main := s.main.readPending consumer () count })

def ack (id : ℕ) : Server := { s with main := s.main.xack id }

/-- The `XACK` of `move_to_dlq`. -/
def moveToDlqAck (id : ℕ) : Server := s.ack id

/-- The `XADD` of `move_to_dlq` with the counter behind it. -/
def moveToDlqAdd (p : Payment) (reason : String) (attempt : ℕ) : Server := { s with
  dlq := s.dlq ++ [encodeFields (p.dlqFields reason attempt)]
  registry.movedToDlq := s.registry.movedToDlq + 1 }

def isProcessed (paymentId : String) : Bool := paymentId ∈ s.processed

def markProcessed (paymentId : String) : Server := { s with
  processed := insert paymentId s.processed }

end Server
end Dlq
