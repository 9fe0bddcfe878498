import MessageBrokerPatterns.PyDict

/-!
# Saga events on the wire

The five events of the order saga with `to_dict` and `from_dict`, the three streams, and the fields
that `SagaBroker.publish` sends. An order's amount is a `float`; `PyFloat` is what the pattern asks
of Python's: a comparison with zero, and `str` and `float` with `float(str(x)) = x`.

`Names kind o raw` says that raw fields carry an event type and an order id. It is read off the raw
fields alone, so it also speaks about entries that no service has written.
-/

namespace Saga
open PyText PyDict

class PyFloat (F : Type) where
  str : F → String
  float : String → Except PyExc F
  nonpos : F → Bool
  float_str : ∀ x, float (str x) = .ok x

inductive Stream where
  | orders
  | payments
  | shipping
  deriving DecidableEq, Repr

/-- What every `to_dict` returns: the event type, the order id and the fields of the event. -/
def eventDict (eventType orderId : String) (more : Dict String String) : Dict String String :=
  ("event_type", eventType) :: ("order_id", orderId) :: more

structure OrderCreated where
  eventType : String := "OrderCreated"
  orderId : String := ""
  customerId : String := ""
  amount : String := ""
  deriving DecidableEq, Repr

structure PaymentProcessed where
  eventType : String := "PaymentProcessed"
  orderId : String := ""
  transactionId : String := ""
  deriving DecidableEq, Repr

structure PaymentFailed where
  eventType : String := "PaymentFailed"
  orderId : String := ""
  reason : String := ""
  deriving DecidableEq, Repr

structure OrderShipped where
  eventType : String := "OrderShipped"
  orderId : String := ""
  trackingNumber : String := ""
  deriving DecidableEq, Repr

structure OrderCancelled where
  eventType : String := "OrderCancelled"
  orderId : String := ""
  reason : String := ""
  deriving DecidableEq, Repr

def OrderCreated.toDict (e : OrderCreated) : Dict String String :=
  eventDict e.eventType e.orderId [("customer_id", e.customerId), ("amount", e.amount)]

def PaymentProcessed.toDict (e : PaymentProcessed) : Dict String String :=
  eventDict e.eventType e.orderId [("transaction_id", e.transactionId)]

def PaymentFailed.toDict (e : PaymentFailed) : Dict String String :=
  eventDict e.eventType e.orderId [("reason", e.reason)]

def OrderShipped.toDict (e : OrderShipped) : Dict String String :=
  eventDict e.eventType e.orderId [("tracking_number", e.trackingNumber)]

def OrderCancelled.toDict (e : OrderCancelled) : Dict String String :=
  eventDict e.eventType e.orderId [("reason", e.reason)]

/-- The `from_dict` of an event with one field besides the order id. -/
def eventFromDict {ε : Type} (field : String) (make : String → String → ε)
    (data : Dict String String) : Except PyExc ε := do
  let orderId ← getItem data "order_id"
  let value ← getItem data field
  return make orderId value

def OrderCreated.fromDict (data : Dict String String) : Except PyExc OrderCreated := do
  let orderId ← getItem data "order_id"
  let customerId ← getItem data "customer_id"
  let amount ← getItem data "amount"
  return { orderId, customerId, amount }

def PaymentProcessed.fromDict : Dict String String → Except PyExc PaymentProcessed :=
  eventFromDict "transaction_id" fun orderId transactionId => { orderId, transactionId }

def PaymentFailed.fromDict : Dict String String → Except PyExc PaymentFailed :=
  eventFromDict "reason" fun orderId reason => { orderId, reason }

def OrderShipped.fromDict : Dict String String → Except PyExc OrderShipped :=
  eventFromDict "tracking_number" fun orderId trackingNumber => { orderId, trackingNumber }

theorem orderId_of_eventFromDict {ε : Type} {field : String} {make : String → String → ε}
    {data : Dict String String} {e : ε} (h : eventFromDict field make data = .ok e) :
    ∃ orderId value, get? data "order_id" = some orderId ∧ e = make orderId value := by
  simp only [eventFromDict, bind_eq_ok, getItem_eq_ok] at h
  obtain ⟨orderId, ho, value, -, h⟩ := h
  cases h
  exact ⟨orderId, value, ho, rfl⟩

theorem PaymentProcessed.get?_orderId {data : Dict String String} {e : PaymentProcessed}
    (h : fromDict data = .ok e) : get? data "order_id" = some e.orderId := by
  obtain ⟨o, v, ho, rfl⟩ := orderId_of_eventFromDict h
  exact ho

theorem PaymentFailed.get?_orderId {data : Dict String String} {e : PaymentFailed}
    (h : fromDict data = .ok e) : get? data "order_id" = some e.orderId := by
  obtain ⟨o, v, ho, rfl⟩ := orderId_of_eventFromDict h
  exact ho

theorem OrderShipped.get?_orderId {data : Dict String String} {e : OrderShipped}
    (h : fromDict data = .ok e) : get? data "order_id" = some e.orderId := by
  obtain ⟨o, v, ho, rfl⟩ := orderId_of_eventFromDict h
  exact ho

theorem OrderCreated.get?_orderId {data : Dict String String} {e : OrderCreated}
    (h : fromDict data = .ok e) : get? data "order_id" = some e.orderId := by
  simp only [fromDict, bind_eq_ok, getItem_eq_ok] at h
  obtain ⟨orderId, ho, customerId, -, amount, -, h⟩ := h
  cases h
  exact ho

theorem OrderCreated.get?_amount {data : Dict String String} {e : OrderCreated}
    (h : fromDict data = .ok e) : get? data "amount" = some e.amount := by
  simp only [fromDict, bind_eq_ok, getItem_eq_ok] at h
  obtain ⟨orderId, -, customerId, -, amount, ha, h⟩ := h
  cases h
  exact ha

/-- An `XADD` that `SagaBroker.publish` issues. -/
structure Publish where
  stream : Stream
  fields : Fields

/-- `SagaBroker.publish`: the payload's own event type replaces the argument. -/
def publish (stream : Stream) (eventType : String) (payload : Dict String String) : Publish where
  stream := stream
  fields := encodeFields (merge [("event_type", eventType)] payload)

def Names (kind o : String) (raw : Fields) : Prop :=
  get? raw (utf8Encode "event_type") = some (utf8Encode kind) ∧
    get? raw (utf8Encode "order_id") = some (utf8Encode o)

instance (kind o : String) (raw : Fields) : Decidable (Names kind o raw) :=
  inferInstanceAs (Decidable (_ ∧ _))

theorem Names.kind_eq {kind kind' o o' : String} {raw : Fields} (h : Names kind o raw)
    (h' : Names kind' o' raw) : kind = kind' := by
  have hk := h.1.symm.trans h'.1
  simpa using hk

theorem Names.orderId_eq {kind kind' o o' : String} {raw : Fields} (h : Names kind o raw)
    (h' : Names kind' o' raw) : o = o' := by
  have ho := h.2.symm.trans h'.2
  simpa using ho

theorem names_encodeFields {kind o : String} {data : Dict String String} :
    Names kind o (encodeFields data) ↔
      get? data "event_type" = some kind ∧ get? data "order_id" = some o := by
  simp [Names]

theorem names_publish {kind o eventType eventType' orderId : String} {stream : Stream}
    {more : Dict String String}
    (hmore : ∀ p ∈ more, p.1 ≠ "event_type" ∧ p.1 ≠ "order_id") :
    Names kind o (publish stream eventType (eventDict eventType' orderId more)).fields ↔
      eventType' = kind ∧ orderId = o := by
  have hmerge : merge [("event_type", eventType)] (eventDict eventType' orderId more) =
      merge [("event_type", eventType'), ("order_id", orderId)] more := by
    simp [eventDict, merge_cons, assign]
  rw [publish, names_encodeFields, hmerge, get?_merge_of_forall_ne fun p hp => (hmore p hp).1,
    get?_merge_of_forall_ne fun p hp => (hmore p hp).2]
  simp [get?_cons]

end Saga
