import MessageBrokerPatterns.SagaServices

/-!
# Routing a message to the services

`route` is what the runner does with one message of a page: it decodes the raw fields, looks at the
event type and calls the service that the stream and the type select. `Routed` lists all that such a
call can do to the order objects and which `XADD` it leaves the runner waiting for.
-/

namespace Saga
open PyText PyDict

/-- `raw.get(b"event_type", b"").decode()`. -/
def eventTypeOf (raw : Fields) : Except PyExc String :=
  utf8Decode ((get? raw (utf8Encode "event_type")).getD ByteArray.empty)

variable {ρ F : Type} [DecidableEq ρ] [PyFloat F]

/-- The body of the runner's loop over the page of a stream, up to the `XADD` of a service. -/
def route (svc : ℕ) (uuid : String) (m : Memory ρ F) (s : Stream) (raw : Fields) :
    Except PyExc (Memory ρ F × Option Publish) := do
  let eventType ← eventTypeOf raw
  let data ← decodeFields raw
  match s with
  | .orders =>
      if eventType = "OrderCreated" then
        let event ← OrderCreated.fromDict data
        let p ← PaymentService.handleOrderCreated F event uuid
        return (m, some p)
      else return (m, none)
  | .payments =>
      if eventType = "PaymentProcessed" then
        let event ← PaymentProcessed.fromDict data
        return (OrderService.handlePaymentProcessed svc m event,
          some (ShippingService.handlePaymentProcessed event uuid))
      else if eventType = "PaymentFailed" then
        let event ← PaymentFailed.fromDict data
        return OrderService.handlePaymentFailed svc m event
      else return (m, none)
  | .shipping =>
      if eventType = "OrderShipped" then
        let event ← OrderShipped.fromDict data
        return (OrderService.handleOrderShipped svc m event, none)
      else return (m, none)

/-- The event types that the runner looks for on a stream. -/
def Stream.kinds : Stream → List String
  | .orders => ["OrderCreated"]
  | .payments => ["PaymentProcessed", "PaymentFailed"]
  | .shipping => ["OrderShipped"]

/-- All that the handling of one message can do before its `XADD`. -/
inductive Routed (svc : ℕ) (uuid : String) (m : Memory ρ F) (raw : Fields) :
    Stream → Memory ρ F → Option Publish → Prop where
  | ignored (s : Stream) (hkind : ∀ kind ∈ s.kinds, ∀ o, ¬ Names kind o raw) :
      Routed svc uuid m raw s m none
  | created (data : Dict String String) (event : OrderCreated) (p : Publish)
      (hdata : raw = encodeFields data) (hevent : OrderCreated.fromDict data = .ok event)
      (hraw : Names "OrderCreated" event.orderId raw)
      (hp : PaymentService.handleOrderCreated F event uuid = .ok p) :
      Routed svc uuid m raw .orders m (some p)
  | processed (event : PaymentProcessed) (hraw : Names "PaymentProcessed" event.orderId raw) :
      Routed svc uuid m raw .payments (OrderService.handlePaymentProcessed svc m event)
        (some (ShippingService.handlePaymentProcessed event uuid))
  | failed (event : PaymentFailed) (hraw : Names "PaymentFailed" event.orderId raw) :
      Routed svc uuid m raw .payments (OrderService.handlePaymentFailed svc m event).1
        (OrderService.handlePaymentFailed svc m event).2
  | shipped (event : OrderShipped) (hraw : Names "OrderShipped" event.orderId raw) :
      Routed svc uuid m raw .shipping (OrderService.handleOrderShipped svc m event) none

theorem names_of_eventTypeOf {raw : Fields} {eventType : String} {data : Dict String String}
    (ht : eventTypeOf raw = .ok eventType) (hne : eventType ≠ "") (hdata : raw = encodeFields data)
    {o : String} (ho : get? data "order_id" = some o) : Names eventType o raw := by
  subst hdata
  rw [names_encodeFields]
  refine ⟨?_, ho⟩
  rw [eventTypeOf, get?_encodeFields] at ht
  cases ht' : get? data "event_type" with
  | none =>
    rw [ht'] at ht
    have hempty := eq_utf8Encode_of_utf8Decode ht
    exact absurd (utf8Encode_inj.mp (hempty.symm.trans (by rfl : _ = utf8Encode ""))) hne
  | some t =>
    rw [ht', Option.map_some, Option.getD_some, utf8Decode_utf8Encode, Except.ok.injEq] at ht
    rw [ht]

theorem eventTypeOf_of_names {raw : Fields} {kind o : String} (h : Names kind o raw) :
    eventTypeOf raw = .ok kind := by
  rw [eventTypeOf, h.1, Option.getD_some, utf8Decode_utf8Encode]

theorem Routed.of_route {svc : ℕ} {uuid : String} {m m' : Memory ρ F} {s : Stream} {raw : Fields}
    {out : Option Publish} (h : route svc uuid m s raw = .ok (m', out)) :
    Routed svc uuid m raw s m' out := by
  simp only [route, bind_eq_ok] at h
  obtain ⟨eventType, ht, data, hd, h⟩ := h
  have hdata := eq_encodeFields_of_decodeFields hd
  have hnot {kind o : String} (hne : eventType ≠ kind) : ¬ Names kind o raw := fun hn =>
    hne (Except.ok.inj (ht.symm.trans (eventTypeOf_of_names hn)))
  cases s with
  | orders =>
    simp only at h
    split_ifs at h with hkind
    · simp only [bind_eq_ok] at h
      obtain ⟨event, hevent, p, hp, h⟩ := h
      cases h
      have hraw := names_of_eventTypeOf ht (by simp [hkind]) hdata (OrderCreated.get?_orderId hevent)
      exact .created data event p hdata hevent (hkind ▸ hraw) hp
    · cases h
      exact .ignored _ (by simpa [Stream.kinds] using fun o => hnot hkind)
  | payments =>
    simp only at h
    split_ifs at h with hkind hkind'
    · simp only [bind_eq_ok] at h
      obtain ⟨event, hevent, h⟩ := h
      cases h
      have hraw :=
        names_of_eventTypeOf ht (by simp [hkind]) hdata (PaymentProcessed.get?_orderId hevent)
      exact .processed event (hkind ▸ hraw)
    · simp only [bind_eq_ok] at h
      obtain ⟨event, hevent, h⟩ := h
      have hraw :=
        names_of_eventTypeOf ht (by simp [hkind']) hdata (PaymentFailed.get?_orderId hevent)
      have hfailed : Routed svc uuid m raw .payments (OrderService.handlePaymentFailed svc m event).1
          (OrderService.handlePaymentFailed svc m event).2 := .failed event (hkind' ▸ hraw)
      rw [Except.ok.inj h] at hfailed
      exact hfailed
    · cases h
      refine .ignored _ ?_
      simpa [Stream.kinds] using ⟨fun o => hnot hkind, fun o => hnot hkind'⟩
  | shipping =>
    simp only at h
    split_ifs at h with hkind
    · simp only [bind_eq_ok] at h
      obtain ⟨event, hevent, h⟩ := h
      cases h
      have hraw := names_of_eventTypeOf ht (by simp [hkind]) hdata (OrderShipped.get?_orderId hevent)
      exact .shipped event (hkind ▸ hraw)
    · cases h
      exact .ignored _ (by simpa [Stream.kinds] using fun o => hnot hkind)

end Saga
