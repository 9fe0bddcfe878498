import MessageBrokerPatterns.SagaLedger
import MessageBrokerPatterns.SagaMemory

/-!
# What the services publish, and how they answer it

`Event` is an event as a service publishes it, and `Kind` forgets all of it but its type. Routing such
an event always succeeds. The services answer it by at most one event for the same order, of the kind
that `Kind.answer` names, and set the status that `Kind.verdict` names. An event tells whether the
amount of its order is positive: an `OrderCreated` by the amount, the others by their kind.
-/

namespace Saga
open PyText PyDict
variable {ρ F : Type}

inductive Kind where
  | created
  | processed
  | failed
  | shipped
  | cancelled
  deriving DecidableEq, Repr

namespace Kind

def name : Kind → String
  | created => "OrderCreated"
  | processed => "PaymentProcessed"
  | failed => "PaymentFailed"
  | shipped => "OrderShipped"
  | cancelled => "OrderCancelled"

def stream : Kind → Stream
  | created => .orders
  | processed => .payments
  | failed => .payments
  | shipped => .shipping
  | cancelled => .orders

/-- The kind of event that answers an event for an order whose amount is positive or not. -/
def answer (nonpos : Bool) : Kind → Option Kind
  | created => some (if nonpos then failed else processed)
  | processed => some shipped
  | failed => some cancelled
  | shipped => none
  | cancelled => none

/-- The status that an event sets for a known order. -/
def verdict : Kind → Option SagaStatus
  | processed => some .paid
  | failed => some .cancelled
  | shipped => some .completed
  | created => none
  | cancelled => none

/-- The event whose handling ends the saga of an order, and the status it ends in. -/
def closing (nonpos : Bool) : Kind := if nonpos then failed else shipped

theorem name_injective : Function.Injective name := by
  intro k k' h
  cases k <;> cases k' <;> first | rfl | exact absurd h (by decide)

theorem answer_injective {nonpos : Bool} {k k' ans : Kind} (h : answer nonpos k = some ans)
    (h' : answer nonpos k' = some ans) : k = k' := by
  revert h h'
  cases nonpos <;> cases k <;> cases k' <;> cases ans <;> decide

theorem answer_ne_created {nonpos : Bool} (k : Kind) : answer nonpos k ≠ some created := by
  cases nonpos <;> cases k <;> decide

end Kind

def SagaStatus.outcome (nonpos : Bool) : SagaStatus := if nonpos then .cancelled else .completed

theorem Kind.verdict_closing (nonpos : Bool) :
    (closing nonpos).verdict = some (.outcome nonpos) := by
  cases nonpos <;> rfl

inductive Event (F : Type) where
  | created (orderId customerId : String) (amount : F)
  | processed (orderId transactionId : String)
  | failed (orderId reason : String)
  | shipped (orderId trackingNumber : String)
  | cancelled (orderId reason : String)
  deriving Repr

namespace Event

def kind : Event F → Kind
  | created _ _ _ => .created
  | processed _ _ => .processed
  | failed _ _ => .failed
  | shipped _ _ => .shipped
  | cancelled _ _ => .cancelled

def orderId : Event F → String
  | created o _ _ => o
  | processed o _ => o
  | failed o _ => o
  | shipped o _ => o
  | cancelled o _ => o

variable [PyFloat F]

def nonpos : Event F → Bool
  | created _ _ amount => PyFloat.nonpos amount
  | processed _ _ => false
  | failed _ _ => true
  | shipped _ _ => false
  | cancelled _ _ => true

/-- The `XADD` of the service that publishes the event. -/
def publish : Event F → Publish
  | created orderId customerId amount =>
      let e : OrderCreated := { orderId, customerId, amount := PyFloat.str amount }
      Saga.publish .orders e.eventType e.toDict
  | processed orderId transactionId =>
      let e : PaymentProcessed := { orderId, transactionId }
      Saga.publish .payments e.eventType e.toDict
  | failed orderId reason =>
      let e : PaymentFailed := { orderId, reason }
      Saga.publish .payments e.eventType e.toDict
  | shipped orderId trackingNumber =>
      let e : OrderShipped := { orderId, trackingNumber }
      Saga.publish .shipping e.eventType e.toDict
  | cancelled orderId reason =>
      let e : OrderCancelled := { orderId, reason }
      Saga.publish .orders e.eventType e.toDict

theorem stream_publish (e : Event F) : e.publish.stream = e.kind.stream := by
  cases e <;> rfl

theorem names_publish (e : Event F) (k o : String) :
    Names k o e.publish.fields ↔ e.kind.name = k ∧ e.orderId = o := by
  cases e with
  | created orderId customerId amount => exact Saga.names_publish (by simp)
  | processed orderId transactionId => exact Saga.names_publish (by simp)
  | failed orderId reason => exact Saga.names_publish (by simp)
  | shipped orderId trackingNumber => exact Saga.names_publish (by simp)
  | cancelled orderId reason => exact Saga.names_publish (by simp)

theorem isKind_publish (e : Event F) (k : Kind) (o : String) :
    isKind k.name o e.publish.fields = decide (e.kind = k ∧ e.orderId = o) := by
  rw [isKind, decide_eq_decide, names_publish, Kind.name_injective.eq_iff]

/-- An event sets no status, or `PAID`, or the status that the saga of its order ends in. -/
theorem verdict_cases (e : Event F) : e.kind.verdict = none ∨
    (e.kind = .processed ∧ e.nonpos = false) ∨ e.kind = .closing e.nonpos := by
  cases e with
  | created orderId customerId amount => exact Or.inl rfl
  | processed orderId transactionId => exact Or.inr (Or.inl ⟨rfl, rfl⟩)
  | failed orderId reason => exact Or.inr (Or.inr rfl)
  | shipped orderId trackingNumber => exact Or.inr (Or.inr rfl)
  | cancelled orderId reason => exact Or.inl rfl

theorem nonpos_of_shipped {e : Event F} (h : e.kind = .shipped) : e.nonpos = false := by
  cases e with
  | shipped orderId trackingNumber => rfl
  | created orderId customerId amount => cases h
  | processed orderId transactionId => cases h
  | failed orderId reason => cases h
  | cancelled orderId reason => cases h

theorem nonpos_of_cancelled {e : Event F} (h : e.kind = .cancelled) : e.nonpos = true := by
  cases e with
  | cancelled orderId reason => rfl
  | created orderId customerId amount => cases h
  | processed orderId transactionId => cases h
  | failed orderId reason => cases h
  | shipped orderId trackingNumber => cases h

theorem eventTypeOf_publish (e : Event F) : eventTypeOf e.publish.fields = .ok e.kind.name :=
  eventTypeOf_of_names ((e.names_publish _ _).mpr ⟨rfl, rfl⟩)

end Event

variable [DecidableEq ρ]

/-- What the order service makes of an event that it may know the order of. -/
def OrderService.judged (svc : ℕ) (m : Memory ρ F) (e : Event F) : Memory ρ F :=
  match e.kind.verdict with
  | none => m
  | some status =>
      match getOrder svc m e.orderId with
      | none => m
      | some r => m.setStatus r status

namespace OrderService
variable (svc : ℕ) (m : Memory ρ F) (e : Event F)

theorem judged_cases : judged svc m e = m ∨ ∃ r status, judged svc m e = m.setStatus r status := by
  unfold judged
  split
  · exact Or.inl rfl
  · split
    · exact Or.inl rfl
    · exact Or.inr ⟨_, _, rfl⟩

@[simp] theorem judged_tables : (judged svc m e).tables = m.tables := by
  rcases judged_cases svc m e with h | ⟨r, status, h⟩
  · rw [h]
  · rw [h, Memory.setStatus_tables]

@[simp] theorem judged_orderId (q : ρ) :
    ((judged svc m e).orders q).orderId = (m.orders q).orderId := by
  rcases judged_cases svc m e with h | ⟨r, status, h⟩
  · rw [h]
  · rw [h, Memory.setStatus_orderId]

theorem judged_status {svc : ℕ} {m : Memory ρ F} {q : ρ} {o : String}
    (hkeyed : ∀ key r, get? (m.tables svc) key = some r → (m.orders r).orderId = key)
    (hq : get? (m.tables svc) o = some q) (e : Event F) :
    ((judged svc m e).orders q).status =
      if e.orderId = o then e.kind.verdict.getD (m.orders q).status
      else (m.orders q).status := by
  unfold judged
  cases e.kind.verdict with
  | none => rw [Option.getD_none, ite_self]
  | some status => exact Memory.status_found hkeyed hq e.orderId status

end OrderService

variable [PyFloat F]

/-- What the services publish for an event, the order of which is in the table or not. -/
structure Answers (known : Prop) (e : Event F) (reply : Option (Event F)) : Prop where
  answer : ∀ e', reply = some e' →
    e.kind.answer e.nonpos = some e'.kind ∧ e'.orderId = e.orderId ∧ e'.nonpos = e.nonpos
  silent : reply = none → known → e.kind.answer e.nonpos = none

theorem Answers.of_some {known : Prop} {e e' : Event F}
    (h : e.kind.answer e.nonpos = some e'.kind ∧ e'.orderId = e.orderId ∧ e'.nonpos = e.nonpos) :
    Answers known e (some e') := by
  constructor
  · rintro _ ⟨⟩
    exact h
  · intro hnone
    cases hnone

theorem Answers.of_none {known : Prop} {e : Event F}
    (h : known → e.kind.answer e.nonpos = none) : Answers known e none := by
  constructor
  · intro e' he
    cases he
  · exact fun _ => h

/-- What the payment service answers to an amount that was written by `str`. -/
theorem PaymentService.handleOrderCreated_str (orderId customerId uuid : String) (amount : F) :
    handleOrderCreated F { orderId, customerId, amount := PyFloat.str amount } uuid =
      .ok (if PyFloat.nonpos amount then
        Event.publish (F := F) (.failed orderId ("Invalid amount: " ++ PyFloat.str amount))
      else Event.publish (F := F) (.processed orderId uuid)) := by
  simp only [handleOrderCreated, PyFloat.float_str]
  split_ifs
  · rfl
  · rfl

/-- Routing an event that a service has published succeeds: it sets the status that goes with the
event, and the reply is the event that answers it. -/
theorem route_publish (svc : ℕ) (uuid : String) (m : Memory ρ F) (e : Event F)
    (hkeyed : ∀ key q, get? (m.tables svc) key = some q → (m.orders q).orderId = key) :
    ∃ reply, Answers (get? (m.tables svc) e.orderId ≠ none) e reply ∧
      route svc uuid m e.kind.stream e.publish.fields =
        .ok (OrderService.judged svc m e, reply.map Event.publish) := by
  have ht := e.eventTypeOf_publish
  cases e with
  | created orderId customerId amount =>
    have hroute : route svc uuid m .orders (Event.created orderId customerId amount).publish.fields =
        .ok (m, some (if PyFloat.nonpos amount then
          Event.publish (F := F) (.failed orderId ("Invalid amount: " ++ PyFloat.str amount))
          else Event.publish (F := F) (.processed orderId uuid))) := by
      rw [route, ht, Event.publish, publish, decodeFields_encodeFields]
      change (PaymentService.handleOrderCreated F
        { orderId, customerId, amount := PyFloat.str amount } uuid >>= fun p =>
          Except.ok (m, some p)) = _
      rw [PaymentService.handleOrderCreated_str]
      rfl
    by_cases hpos : PyFloat.nonpos amount = true
    · refine ⟨some (.failed orderId _), .of_some ?_, hroute.trans (by rw [if_pos hpos]; rfl)⟩
      simp [Event.kind, Kind.answer, Event.nonpos, Event.orderId, hpos]
    · refine ⟨some (.processed orderId uuid), .of_some ?_, hroute.trans (by rw [if_neg hpos]; rfl)⟩
      simp [Event.kind, Kind.answer, Event.nonpos, Event.orderId, hpos]
  | processed orderId transactionId =>
    refine ⟨some (.shipped orderId uuid), .of_some ⟨rfl, rfl, rfl⟩, ?_⟩
    rw [Event.kind, Kind.stream, route, ht, Event.publish, publish, decodeFields_encodeFields]
    rfl
  | failed orderId reason =>
    have hroute : route svc uuid m .payments (Event.failed orderId reason : Event F).publish.fields =
        .ok (OrderService.handlePaymentFailed svc m { orderId, reason }) := by
      rw [route, ht, Event.publish, publish, decodeFields_encodeFields]
      rfl
    cases hq : get? (m.tables svc) orderId with
    | none =>
      refine ⟨none, .of_none fun hknown => absurd hq hknown, hroute.trans ?_⟩
      simp only [OrderService.handlePaymentFailed, OrderService.judged, OrderService.getOrder, hq,
        Event.kind, Kind.verdict, Event.orderId, Option.map_none]
    | some q =>
      refine ⟨some (.cancelled orderId reason), .of_some ⟨rfl, rfl, rfl⟩, hroute.trans ?_⟩
      simp only [OrderService.handlePaymentFailed, OrderService.judged, OrderService.getOrder, hq,
        Event.kind, Kind.verdict, Event.orderId, hkeyed orderId q hq]
      rfl
  | shipped orderId trackingNumber =>
    refine ⟨none, .of_none fun _ => rfl, ?_⟩
    rw [Event.kind, Kind.stream, route, ht, Event.publish, publish, decodeFields_encodeFields]
    rfl
  | cancelled orderId reason =>
    refine ⟨none, .of_none fun _ => rfl, ?_⟩
    rw [Event.kind, Kind.stream, route, ht, Event.publish, publish, decodeFields_encodeFields]
    rfl

theorem OrderService.publishCreated_eq (m : Memory ρ F) (r : ρ) :
    (publishCreated m r).2 = Event.publish
      (.created (m.orders r).orderId (m.orders r).customerId (m.orders r).amount) := by
  simp [publishCreated, Event.publish, Memory.setStatus]

end Saga
