import MessageBrokerPatterns.SagaProgress
import MessageBrokerPatterns.ReactionLedger

/-!
# The saga streams answer each other

Every run reads the shared streams from their beginning and has the services answer what it reads:
an `OrderCreated` by one payment outcome, a `PaymentProcessed` by one `OrderShipped`. The payments
stream is thus the ledger of the answers to the orders stream, and the shipping stream that of the
answers to the payments stream, with the runs as readers. The `OrderCreated` events themselves are
one for each run that has published its own.
-/

namespace Saga
open PyText PyDict RedisStream ActionRun ReactionLedger
open scoped BigOperators
variable {ρ F : Type} [DecidableEq ρ] [PyFloat F]

def isKind (kind o : String) (raw : Fields) : Bool := Names kind o raw

def isOutcome (o : String) (raw : Fields) : Bool :=
  Names "PaymentProcessed" o raw ∨ Names "PaymentFailed" o raw

theorem countP_added (P : Fields → Bool) (p : Publish) (t : Stream) :
    (added (some p) t).countP P = if t = p.stream ∧ P p.fields then 1 else 0 := by
  unfold added
  by_cases ht : t = p.stream
  · simp [ht, List.countP_singleton]
  · simp [ht]

namespace Routed
variable {svc : ℕ} {uuid : String} {m m' : Memory ρ F} {raw : Fields} {s : Stream}
  {out : Option Publish}

/-- The services answer an order by its payment outcome and publish nothing else for it. -/
theorem answers_orders (h : Routed svc uuid m raw .orders m' out) (o : String) :
    (added out .payments).countP (isOutcome o) = (if isKind "OrderCreated" o raw then 1 else 0) ∧
      added out .orders = [] ∧ added out .shipping = [] := by
  cases h with
  | ignored s hkind =>
    have hnot : isKind "OrderCreated" o raw = false := by
      simpa [isKind] using hkind "OrderCreated" (by simp [Stream.kinds]) o
    simp [added, hnot]
  | created data event p hdata hevent hraw hp =>
    obtain ⟨hstream, amount, -, hnames⟩ := PaymentService.handleOrderCreated_ok hp
    have hasks : isKind "OrderCreated" o raw = decide (event.orderId = o) := by
      simp only [isKind, decide_eq_decide]
      exact ⟨fun hn => hraw.orderId_eq hn, fun ho => ho ▸ hraw⟩
    have hanswer : isOutcome o p.fields = decide (event.orderId = o) := by
      cases hpos : PyFloat.nonpos amount with
      | true => simp [isOutcome, hnames, hpos]
      | false => simp [isOutcome, hnames, hpos]
    refine ⟨?_, ?_, ?_⟩
    · rw [countP_added, hstream, hanswer, hasks]
      simp
    · simp [added, hstream]
    · simp [added, hstream]

/-- A processed payment is answered by its shipment, a failed one by a cancellation at most. -/
theorem answers_payments (h : Routed svc uuid m raw .payments m' out) (o : String) :
    (added out .shipping).countP (isKind "OrderShipped" o) =
        (if isKind "PaymentProcessed" o raw then 1 else 0) ∧
      added out .payments = [] ∧ (added out .orders).countP (isKind "OrderCreated" o) = 0 := by
  cases h with
  | ignored s hkind =>
    have hnot : isKind "PaymentProcessed" o raw = false := by
      simpa [isKind] using hkind "PaymentProcessed" (by simp [Stream.kinds]) o
    simp [added, hnot]
  | processed event hraw =>
    have hasks : isKind "PaymentProcessed" o raw = decide (event.orderId = o) := by
      simp only [isKind, decide_eq_decide]
      exact ⟨fun hn => hraw.orderId_eq hn, fun ho => ho ▸ hraw⟩
    have hstream {uuid : String} :
        (ShippingService.handlePaymentProcessed event uuid).stream = .shipping := rfl
    have hanswer : isKind "OrderShipped" o (ShippingService.handlePaymentProcessed event uuid).fields
        = decide (event.orderId = o) := by
      simp [isKind, ShippingService.names_handlePaymentProcessed]
    refine ⟨?_, ?_, ?_⟩
    · rw [countP_added, hstream, hanswer, hasks]
      simp
    · simp [added, hstream]
    · simp [added, hstream]
  | failed event hraw =>
    have hnot : isKind "PaymentProcessed" o raw = false := by
      simp only [isKind, decide_eq_false_iff_not]
      intro hn
      exact absurd (hn.kind_eq hraw) (by decide)
    rw [hnot]
    cases hout : (OrderService.handlePaymentFailed svc m event).2 with
    | none => simp [added]
    | some p =>
      obtain ⟨q, -, hstream, hnames⟩ := OrderService.names_handlePaymentFailed hout
      refine ⟨?_, ?_, ?_⟩
      · simp [added, hstream]
      · simp [added, hstream]
      · rw [countP_added, if_neg]
        rintro ⟨-, hn⟩
        simp [isKind, hnames] at hn

theorem answers_shipping (h : Routed svc uuid m raw .shipping m' out) : out = none := by
  cases h with
  | ignored s hkind => rfl
  | shipped event hraw => rfl

end Routed

namespace World
variable [Fintype ρ] {w w' : World ρ F} {a : Action ρ}

/-- The ledger of one order id. -/
structure Ledger (w : World ρ F) (o : String) : Prop where
  payments : Answered (w.streams .orders) (w.streams .payments)
    (fun q => (w.runners q).handled .orders) (isKind "OrderCreated" o) (isOutcome o)
  shipping : Answered (w.streams .payments) (w.streams .shipping)
    (fun q => (w.runners q).handled .payments) (isKind "PaymentProcessed" o)
    (isKind "OrderShipped" o)
  created : (w.streams .orders).countP (isKind "OrderCreated" o) =
    ∑ q, if (w.runners q).posted = true ∧ (w.memory.orders q).orderId = o then 1 else 0

/-- What a run waits for at first is the `OrderCreated` of its own order. -/
def Creating (w : World ρ F) : Prop :=
  ∀ q p, (w.runners q).phase = .creating p → p.stream = .orders ∧
    ∀ kind o, Names kind o p.fields ↔ "OrderCreated" = kind ∧ (w.memory.orders q).orderId = o

theorem Ledger.progress {o : String} (h : Ledger w o) (hcreating : Creating w)
    (hids : ∀ q, (w'.memory.orders q).orderId = (w.memory.orders q).orderId)
    (hp : Progress w w') : Ledger w' o := by
  cases hp with
  | idle hstreams hhandled hposted =>
    have hfun (s : Stream) : (fun q => (w'.runners q).handled s) =
        fun q => (w.runners q).handled s := funext fun q => hhandled q s
    constructor
    · rw [hstreams, hfun]
      exact h.payments
    · rw [hstreams, hfun]
      exact h.shipping
    · rw [hstreams, h.created]
      exact Finset.sum_congr rfl fun q _ => by rw [hposted, hids]
  | created r p hphase hstreams hhandled hself hother =>
    obtain ⟨hstream, hnames⟩ := hcreating r p hphase
    have hfun (s : Stream) : (fun q => (w'.runners q).handled s) =
        fun q => (w.runners q).handled s := funext fun q => hhandled q s
    have hrest {s : Stream} (hs : s ≠ .orders) : w'.streams s = w.streams s := by
      rw [hstreams, added, if_neg (by rwa [hstream]), List.append_nil]
    constructor
    · rw [hstreams .orders, hrest (by decide), hfun]
      exact h.payments.append_source _
    · rw [hrest (by decide), hrest (by decide), hfun]
      exact h.shipping
    · have hnot : (w.runners r).posted = false := by
        simp only [Runner.posted, hphase]
      have hcreated : isKind "OrderCreated" o p.fields = decide ((w.memory.orders r).orderId = o) := by
        simp [isKind, hnames]
      rw [hstreams, List.countP_append, h.created, countP_added, hcreated, hstream]
      refine (sum_eq_sum_add (r := r) ?_ fun q hq => ?_).symm
      · simp [hself, hnot, hids]
      · rw [hother q hq, hids]
  | handled r s raw out hraw hrouted hstreams hself hother hposted =>
    obtain ⟨svc, uuid, m, m', hrouted⟩ := hrouted
    have hfun {t : Stream} (ht : t ≠ s) : (fun q => (w'.runners q).handled t) =
        fun q => (w.runners q).handled t := funext fun q => hother q t ht
    have hsum : ∑ q, (if (w'.runners q).posted = true ∧ (w'.memory.orders q).orderId = o then 1
        else 0) = ∑ q, if (w.runners q).posted = true ∧ (w.memory.orders q).orderId = o then 1
          else 0 := Finset.sum_congr rfl fun q _ => by rw [hposted, hids]
    cases s with
    | orders =>
      obtain ⟨hanswer, horders, hshipping⟩ := hrouted.answers_orders o
      constructor
      · rw [hstreams .orders, horders, List.append_nil, hstreams .payments, hself]
        exact h.payments.pass hraw hanswer
      · rw [hstreams .shipping, hshipping, List.append_nil, hstreams .payments, hfun (by decide)]
        exact h.shipping.append_source _
      · rw [hstreams, horders, List.append_nil, hsum, h.created]
    | payments =>
      obtain ⟨hanswer, hpayments, horders⟩ := hrouted.answers_payments o
      constructor
      · rw [hstreams .payments, hpayments, List.append_nil, hstreams .orders, hfun (by decide)]
        exact h.payments.append_source _
      · rw [hstreams .payments, hpayments, List.append_nil, hstreams .shipping, hself]
        exact h.shipping.pass hraw hanswer
      · rw [hstreams, List.countP_append, horders, Nat.add_zero, hsum, h.created]
    | shipping =>
      obtain rfl := hrouted.answers_shipping
      have hsame (t : Stream) : w'.streams t = w.streams t := by
        rw [hstreams, added, List.append_nil]
      constructor
      · rw [hsame, hsame, hfun (by decide)]
        exact h.payments
      · rw [hsame, hsame, hfun (by decide)]
        exact h.shipping
      · rw [hsame, hsum, h.created]

end World
end Saga
