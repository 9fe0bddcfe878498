import MessageBrokerPatterns.SagaEvents
import Mathlib.Logic.Function.Basic

/-!
# The services of the saga

`OrderService` keeps references to order objects: a table of each service instance maps an order id
to the object, and the object is the one that the run which created it holds. Objects are named by
their runs. `PaymentService` and `ShippingService` keep nothing. A handler is the code up to its
`XADD`, which the runner awaits; the random part of a published event is an argument.
-/

namespace Saga
open PyText PyDict

inductive SagaStatus where
  | pending
  | paymentProcessing
  | paid
  | shipped
  | completed
  | cancelled
  deriving DecidableEq, Repr

/-- `_TERMINAL` of the runner. -/
def SagaStatus.terminal : SagaStatus → Bool
  | .completed => true
  | .cancelled => true
  | _ => false

structure Order (F : Type) where
  orderId : String
  customerId : String
  amount : F
  status : SagaStatus := .pending

structure Memory (ρ F : Type) where
  orders : ρ → Order F
  tables : ℕ → Dict String ρ := fun _ => []

variable {ρ F : Type} [DecidableEq ρ]

namespace Memory

def setStatus (m : Memory ρ F) (r : ρ) (status : SagaStatus) : Memory ρ F := { m with
  orders := Function.update m.orders r { m.orders r with status } }

variable (m : Memory ρ F) (r q : ρ) (status : SagaStatus)

@[simp] theorem setStatus_tables : (m.setStatus r status).tables = m.tables := rfl

@[simp] theorem setStatus_orderId :
    ((m.setStatus r status).orders q).orderId = (m.orders q).orderId := by
  by_cases h : q = r
  · subst h
    simp [setStatus]
  · simp [setStatus, h]

@[simp] theorem setStatus_amount :
    ((m.setStatus r status).orders q).amount = (m.orders q).amount := by
  by_cases h : q = r
  · subst h
    simp [setStatus]
  · simp [setStatus, h]

theorem setStatus_status :
    ((m.setStatus r status).orders q).status = if q = r then status else (m.orders q).status := by
  by_cases h : q = r
  · subst h
    simp [setStatus]
  · simp [setStatus, h]

end Memory

namespace OrderService
variable (svc : ℕ) (m : Memory ρ F)

def createOrder (r : ρ) : Memory ρ F := { m with
  tables := Function.update m.tables svc (assign (m.tables svc) (m.orders r).orderId r) }

def getOrder (orderId : String) : Option ρ := get? (m.tables svc) orderId

/-- `publish_created` up to its `XADD`. -/
def publishCreated [PyFloat F] (r : ρ) : Memory ρ F × Publish :=
  let m := m.setStatus r .paymentProcessing
  let order := m.orders r
  let event : OrderCreated :=
    { orderId := order.orderId, customerId := order.customerId, amount := PyFloat.str order.amount }
  (m, publish .orders event.eventType event.toDict)

def handlePaymentProcessed (event : PaymentProcessed) : Memory ρ F :=
  match getOrder svc m event.orderId with
  | none => m
  | some r => m.setStatus r .paid

/-- `handle_payment_failed` up to its `XADD`, which an unknown order does not reach. -/
def handlePaymentFailed (event : PaymentFailed) : Memory ρ F × Option Publish :=
  match getOrder svc m event.orderId with
  | none => (m, none)
  | some r =>
      let compensation : OrderCancelled :=
        { orderId := (m.orders r).orderId, reason := event.reason }
      (m.setStatus r .cancelled,
        some (publish .orders compensation.eventType compensation.toDict))

def handleOrderShipped (event : OrderShipped) : Memory ρ F :=
  match getOrder svc m event.orderId with
  | none => m
  | some r => m.setStatus r .completed

end OrderService

/-- `handle_order_created` up to its `XADD`; the conversion of the amount may raise. -/
def PaymentService.handleOrderCreated (F : Type) [PyFloat F] (event : OrderCreated)
    (uuid : String) : Except PyExc Publish :=
  match PyFloat.float (F := F) event.amount with
  | .error e => .error e
  | .ok amount =>
      if PyFloat.nonpos amount then
        let failed : PaymentFailed :=
          { orderId := event.orderId, reason := "Invalid amount: " ++ event.amount }
        .ok (publish .payments failed.eventType failed.toDict)
      else
        let processed : PaymentProcessed := { orderId := event.orderId, transactionId := uuid }
        .ok (publish .payments processed.eventType processed.toDict)

def ShippingService.handlePaymentProcessed (event : PaymentProcessed) (uuid : String) : Publish :=
  let shipped : OrderShipped := { orderId := event.orderId, trackingNumber := uuid }
  publish .shipping shipped.eventType shipped.toDict

/-- The `OrderCreated` of a run's order. -/
theorem OrderService.names_publishCreated [PyFloat F] (m : Memory ρ F) (r : ρ) (kind o : String) :
    Names kind o (OrderService.publishCreated m r).2.fields ↔
      "OrderCreated" = kind ∧ (m.orders r).orderId = o := by
  rw [OrderService.publishCreated]
  simp only [OrderCreated.toDict, Memory.setStatus_orderId]
  exact names_publish (by simp)

theorem OrderService.amount_publishCreated [PyFloat F] (m : Memory ρ F) (r : ρ) :
    get? (OrderService.publishCreated m r).2.fields (utf8Encode "amount") =
      some (utf8Encode (PyFloat.str (m.orders r).amount)) := by
  simp [OrderService.publishCreated, publish, OrderCreated.toDict, eventDict, merge,
    assign, get?_cons]

theorem OrderService.names_handlePaymentFailed {svc : ℕ} {m : Memory ρ F} {event : PaymentFailed}
    {p : Publish} (h : (OrderService.handlePaymentFailed svc m event).2 = some p) :
    ∃ q, get? (m.tables svc) event.orderId = some q ∧ p.stream = .orders ∧
      ∀ kind o, Names kind o p.fields ↔ "OrderCancelled" = kind ∧ (m.orders q).orderId = o := by
  unfold OrderService.handlePaymentFailed at h
  split at h
  · cases h
  · rename_i q hq
    cases h
    exact ⟨q, hq, rfl, fun kind o => names_publish (by simp)⟩

theorem PaymentService.handleOrderCreated_ok [PyFloat F] {event : OrderCreated} {uuid : String}
    {p : Publish} (h : handleOrderCreated F event uuid = .ok p) :
    p.stream = .payments ∧ ∃ amount : F, PyFloat.float event.amount = .ok amount ∧
      ∀ kind o, Names kind o p.fields ↔
        (if PyFloat.nonpos amount then "PaymentFailed" else "PaymentProcessed") = kind ∧
          event.orderId = o := by
  unfold handleOrderCreated at h
  cases ha : PyFloat.float (F := F) event.amount with
  | error e => simp [ha] at h
  | ok amount =>
    simp only [ha] at h
    split_ifs at h with hpos
    · cases h
      refine ⟨rfl, amount, rfl, fun kind o => ?_⟩
      rw [if_pos hpos]
      exact names_publish (by simp)
    · cases h
      refine ⟨rfl, amount, rfl, fun kind o => ?_⟩
      rw [if_neg hpos]
      exact names_publish (by simp)

theorem ShippingService.names_handlePaymentProcessed (event : PaymentProcessed)
    (uuid kind o : String) :
    Names kind o (handlePaymentProcessed event uuid).fields ↔
      "OrderShipped" = kind ∧ event.orderId = o :=
  names_publish (by simp)

end Saga
