import MessageBrokerPatterns.SagaServices
import MessageBrokerPatterns.ActionRun

/-!
# The saga without compensation

`place_order_without_compensation` creates, charges and ships one after the other, and it has no await: a
call runs from its start to its end or to the first error. Calls come in any order, for new order objects and
for ones that have been tried before, while the payment and the shipping service change their minds about
whom they refuse. `int(order.amount * 100)` is the parameter `cents`.

The books of the two services are the calls, one entry each; a call that shipping has refused stands in the
ledger and nowhere else, for ever.
-/

namespace Saga.Naive
open PyText PyDict ActionRun

structure PaymentService where
  declineFor : List String := []
  ledger : List (String × ℤ) := []

structure ShippingService where
  rejectFor : List String := []
  shipments : List String := []

def paymentDeclinedError (orderId : String) : PyExc :=
  ⟨"PaymentDeclinedError", "card declined for " ++ orderId⟩

def shippingUnavailableError (orderId : String) : PyExc :=
  ⟨"ShippingUnavailableError", "no stock for " ++ orderId⟩

/-- `charge`, with the transaction id that `uuid4` gives. -/
def PaymentService.charge (p : PaymentService) (orderId : String) (amountCents : ℤ)
    (transactionId : String) : Except PyExc (String × PaymentService) :=
  if orderId ∈ p.declineFor then .error (paymentDeclinedError orderId)
  else .ok (transactionId, { p with ledger := p.ledger ++ [(orderId, amountCents)] })

def PaymentService.netCents (p : PaymentService) (orderId : String) : ℤ :=
  ((p.ledger.filter fun e => e.1 = orderId).map Prod.snd).sum

/-- `ship`, with the tracking number that `uuid4` gives. -/
def ShippingService.ship (s : ShippingService) (orderId trackingNumber : String) :
    Except PyExc (String × ShippingService) :=
  if orderId ∈ s.rejectFor then .error (shippingUnavailableError orderId)
  else .ok (trackingNumber, { s with shipments := s.shipments ++ [orderId] })

/-- How a call ends, with what it has charged. -/
inductive Outcome where
  | invalid (e : PyExc)
  | declined (e : PyExc)
  | stranded (cents : ℤ) (e : PyExc)
  | completed (cents : ℤ) (trackingNumber : String)

@[simp] def Outcome.status : Outcome → SagaStatus
  | .invalid _ => .paymentProcessing
  | .declined _ => .paymentProcessing
  | .stranded _ _ => .paid
  | .completed _ _ => .completed

@[simp] def Outcome.charged : Outcome → Option ℤ
  | .invalid _ => none
  | .declined _ => none
  | .stranded cents _ => some cents
  | .completed cents _ => some cents

@[simp] def Outcome.shipped : Outcome → Bool
  | .completed _ _ => true
  | _ => false

@[simp] def Outcome.isStranded : Outcome → Bool
  | .stranded _ _ => true
  | _ => false

/-- A call, by the order object that it was given. -/
structure Call (ρ : Type) where
  order : ρ
  orderId : String
  outcome : Outcome

structure World (ρ F : Type) where
  memory : Memory ρ F
  payment : PaymentService := {}
  shipping : ShippingService := {}
  calls : List (Call ρ) := []

inductive Action (ρ : Type)
  | place (order : ρ) (transactionId trackingNumber : String)
  | declines (orderIds : List String)
  | rejects (orderIds : List String)

variable {ρ F : Type} [DecidableEq ρ] (cents : F → Except PyExc ℤ)

/-- `NaiveOrderService.get_order`. -/
def World.getOrder (w : World ρ F) (orderId : String) : Option ρ :=
  OrderService.getOrder 0 w.memory orderId

/-- `place_order_without_compensation`. -/
def World.placeOrder (w : World ρ F) (r : ρ) (transactionId trackingNumber : String) :
    Outcome × World ρ F :=
  let orderId := (w.memory.orders r).orderId
  let memory := (OrderService.createOrder 0 w.memory r).setStatus r .paymentProcessing
  match cents (w.memory.orders r).amount with
  | .error e => (.invalid e, { w with memory })
  | .ok amountCents =>
      match w.payment.charge orderId amountCents transactionId with
      | .error e => (.declined e, { w with memory })
      | .ok (_, payment) =>
          let memory := memory.setStatus r .paid
          match w.shipping.ship orderId trackingNumber with
          | .error e => (.stranded amountCents e, { w with memory, payment })
          | .ok (tracking, shipping) =>
              let memory := memory.setStatus r .completed
              (.completed amountCents tracking, { w with memory, payment, shipping })

def step (w : World ρ F) : Action ρ → Option (World ρ F)
  | .place r transactionId trackingNumber =>
      let placed := w.placeOrder cents r transactionId trackingNumber
      some { placed.2 with calls := w.calls ++ [⟨r, (w.memory.orders r).orderId, placed.1⟩] }
  | .declines orderIds => some { w with payment.declineFor := orderIds }
  | .rejects orderIds => some { w with shipping.rejectFor := orderIds }

def start (orders : ρ → Order F) : World ρ F where
  memory := { orders }

variable {cents}

/-- What a call leaves behind, whichever way it ends. -/
structure Placed (w : World ρ F) (r : ρ) (o : Outcome) (v : World ρ F) : Prop where
  table : v.memory.tables 0 = assign (w.memory.tables 0) (w.memory.orders r).orderId r
  orderId : ∀ q, (v.memory.orders q).orderId = (w.memory.orders q).orderId
  status : ∀ q, (v.memory.orders q).status = if q = r then o.status else (w.memory.orders q).status
  ledger : v.payment.ledger =
    w.payment.ledger ++ (o.charged.map fun c => ((w.memory.orders r).orderId, c)).toList
  shipments : v.shipping.shipments =
    w.shipping.shipments ++ if o.shipped then [(w.memory.orders r).orderId] else []

theorem placed (w : World ρ F) (r : ρ) (transactionId trackingNumber : String) :
    Placed w r (w.placeOrder cents r transactionId trackingNumber).1
      (w.placeOrder cents r transactionId trackingNumber).2 := by
  have htable (m : Memory ρ F) : (OrderService.createOrder 0 m r).tables 0 =
      assign (m.tables 0) (m.orders r).orderId r := by
    simp [OrderService.createOrder]
  have horders (m : Memory ρ F) : (OrderService.createOrder 0 m r).orders = m.orders := rfl
  unfold World.placeOrder
  cases cents (w.memory.orders r).amount with
  | error e => constructor <;> simp [htable, horders, Memory.setStatus_status]
  | ok amountCents =>
    simp only [PaymentService.charge]
    split_ifs with hdecline
    · constructor <;> simp [htable, horders, Memory.setStatus_status]
    · simp only [ShippingService.ship]
      split_ifs with hreject
      · constructor <;> simp [htable, horders, Memory.setStatus_status]
        intro q
        split_ifs <;> rfl
      · constructor <;> simp [htable, horders, Memory.setStatus_status]
        intro q
        split_ifs <;> rfl

def World.lastCall (w : World ρ F) (orderId : String) : Option (Call ρ) :=
  (w.calls.filter fun c => c.orderId = orderId).getLast?

/-- The calls for an order id that shipping has refused. -/
def World.stranded (w : World ρ F) (orderId : String) : ℕ :=
  w.calls.countP fun c => c.orderId = orderId ∧ c.outcome.isStranded

def Call.entry (c : Call ρ) : Option (String × ℤ) := c.outcome.charged.map fun cents => (c.orderId, cents)

def Call.shipment (c : Call ρ) : Option String := if c.outcome.shipped then some c.orderId else none

structure Books (w : World ρ F) : Prop where
  ledger : w.payment.ledger = w.calls.filterMap Call.entry
  shipments : w.shipping.shipments = w.calls.filterMap Call.shipment
  rows : ∀ orderId, w.getOrder orderId = (w.lastCall orderId).map Call.order
  last : ∀ orderId c, w.lastCall orderId = some c →
    (w.memory.orders c.order).orderId = orderId ∧ (w.memory.orders c.order).status = c.outcome.status

omit [DecidableEq ρ] in
theorem lastCall_append (calls : List (Call ρ)) (c : Call ρ) (orderId : String) :
    ((calls ++ [c]).filter fun d => d.orderId = orderId).getLast? =
      if c.orderId = orderId then some c else (calls.filter fun d => d.orderId = orderId).getLast? := by
  rw [List.filter_append]
  by_cases h : c.orderId = orderId
  · rw [if_pos h, List.filter_cons_of_pos (by simpa using h), List.filter_nil, List.getLast?_concat]
  · rw [if_neg h, List.filter_cons_of_neg (by simpa using h), List.filter_nil, List.append_nil]

theorem Books.place {w v : World ρ F} {r : ρ} {o : Outcome} (h : Books w) (hp : Placed w r o v) :
    Books { v with calls := w.calls ++ [⟨r, (w.memory.orders r).orderId, o⟩] } where
  ledger := by
    change v.payment.ledger = (w.calls ++ [_]).filterMap Call.entry
    rw [hp.ledger, h.ledger, List.filterMap_append]
    cases o <;> simp [Call.entry]
  shipments := by
    change v.shipping.shipments = (w.calls ++ [_]).filterMap Call.shipment
    rw [hp.shipments, h.shipments, List.filterMap_append]
    cases o <;> simp [Call.shipment]
  rows orderId := by
    change get? (v.memory.tables 0) orderId = Option.map _ (List.getLast? _)
    rw [hp.table, get?_assign, lastCall_append]
    by_cases hid : (w.memory.orders r).orderId = orderId
    · rw [if_pos hid, if_pos hid]
      rfl
    · rw [if_neg hid, if_neg hid]
      exact h.rows orderId
  last orderId c hc := by
    replace hc : ((w.calls ++ [_]).filter fun d : Call ρ => d.orderId = orderId).getLast? = some c := hc
    rw [lastCall_append] at hc
    rw [hp.orderId, hp.status]
    split_ifs at hc with hid
    · obtain rfl := Option.some.inj hc
      exact ⟨hid, if_pos rfl⟩
    · obtain ⟨hown, hstatus⟩ := h.last orderId c hc
      -- the row of another order is another object
      have hne : c.order ≠ r := fun heq => hid (heq ▸ hown)
      exact ⟨hown, (if_neg hne).trans hstatus⟩

theorem books_step (w : World ρ F) (a : Action ρ) (w' : World ρ F) (h : Books w)
    (hw : step cents w a = some w') : Books w' := by
  cases a with
  | place r transactionId trackingNumber =>
    cases hw
    exact h.place (placed w r transactionId trackingNumber)
  | declines orderIds =>
    cases hw
    exact ⟨h.ledger, h.shipments, h.rows, h.last⟩
  | rejects orderIds =>
    cases hw
    exact ⟨h.ledger, h.shipments, h.rows, h.last⟩

omit [DecidableEq ρ] in
theorem books_start (orders : ρ → Order F) : Books (start orders) :=
  ⟨rfl, rfl, fun _ => rfl, fun _ c hc => (by cases hc)⟩

theorem calls_step (w : World ρ F) (a : Action ρ) (w' : World ρ F) (calls : List (Call ρ))
    (h : calls <+: w.calls) (hw : step cents w a = some w') : calls <+: w'.calls := by
  cases a with
  | place r transactionId trackingNumber =>
    cases hw
    exact h.trans (List.prefix_append _ _)
  | declines orderIds => cases hw; exact h
  | rejects orderIds => cases hw; exact h

omit [DecidableEq ρ] in
theorem charges_of_order (calls : List (Call ρ)) (orderId : String) :
    ((calls.filterMap Call.entry).filter fun e => e.1 = orderId).map Prod.snd =
      (calls.filter fun c => c.orderId = orderId).filterMap fun c => c.outcome.charged := by
  induction calls with
  | nil => rfl
  | cons c calls ih =>
    obtain ⟨r, id, o⟩ := c
    cases o <;> by_cases hid : id = orderId <;>
      simp_all [List.filterMap_cons, Call.entry]

omit [DecidableEq ρ] in
/-- Every charge is shipped or stranded. -/
theorem count_entries (calls : List (Call ρ)) (orderId : String) :
    ((calls.filterMap Call.entry).countP fun e => e.1 = orderId) =
      (calls.filterMap Call.shipment).count orderId +
        calls.countP fun c => c.orderId = orderId ∧ c.outcome.isStranded := by
  induction calls with
  | nil => rfl
  | cons c calls ih =>
    rw [List.countP_cons]
    obtain ⟨r, id, o⟩ := c
    cases o <;> by_cases hid : id = orderId <;>
      simp [List.filterMap_cons, Call.entry, Call.shipment, hid, ih] <;>
      omega

/-- In every run the row of an order shows how its last call has ended, and never that it is cancelled. The
money held for an order is what its calls have charged, one shipment stands against each charge except those
that shipping has refused, and nothing that comes later takes a charge back or settles a refused one. -/
theorem charges_stranded (orders : ρ → Order F) (acts : List (Action ρ)) (w : World ρ F)
    (hrun : run (step cents) (start orders) acts = some w) :
    (∀ orderId, (w.getOrder orderId).map (fun r => (w.memory.orders r).status) =
      (w.lastCall orderId).map fun c => c.outcome.status) ∧
    (∀ orderId r, w.getOrder orderId = some r → (w.memory.orders r).status ≠ .cancelled) ∧
    (∀ orderId, w.payment.netCents orderId =
      ((w.calls.filter fun c => c.orderId = orderId).filterMap fun c => c.outcome.charged).sum) ∧
    (∀ orderId, (w.payment.ledger.countP fun e => e.1 = orderId) =
      w.shipping.shipments.count orderId + w.stranded orderId) ∧
    ∀ more v, run (step cents) w more = some v →
      w.payment.ledger <+: v.payment.ledger ∧ ∀ orderId, w.stranded orderId ≤ v.stranded orderId := by
  have h : Books w := run_invariant_of_step books_step (books_start orders) hrun
  have hstatus (orderId : String) : (w.getOrder orderId).map (fun r => (w.memory.orders r).status) =
      (w.lastCall orderId).map fun c => c.outcome.status := by
    rw [h.rows, Option.map_map]
    cases hc : w.lastCall orderId with
    | none => rfl
    | some c => exact congrArg some (h.last orderId c hc).2
  refine ⟨hstatus, fun orderId r hr hcancelled => ?_, fun orderId => ?_, fun orderId => ?_,
    fun more v hmore => ?_⟩
  · have hlast := hstatus orderId
    rw [hr, Option.map_some, hcancelled] at hlast
    obtain ⟨c, -, hc⟩ := Option.map_eq_some_iff.mp hlast.symm
    cases hout : c.outcome <;> rw [hout] at hc <;> cases hc
  · rw [PaymentService.netCents, h.ledger, charges_of_order]
  · rw [h.ledger, h.shipments]
    exact count_entries w.calls orderId
  · have hv : Books v := run_invariant_of_step books_step h hmore
    obtain ⟨rest, hrest⟩ : w.calls <+: v.calls :=
      run_invariant_of_step (I := fun u : World ρ F => w.calls <+: u.calls)
        (fun u a u' hu hs => calls_step u a u' w.calls hu hs) List.prefix_rfl hmore
    refine ⟨?_, fun orderId => ?_⟩
    · rw [h.ledger, hv.ledger, ← hrest, List.filterMap_append]
      exact List.prefix_append _ _
    · rw [World.stranded, World.stranded, ← hrest, List.countP_append]
      exact Nat.le_add_right _ _

def amounts (n : ℕ) : Order ℤ where
  orderId := if n = 0 then "o-1" else "o-2"
  customerId := "c-1"
  amount := if n = 0 then 50 else 80

/-- Shipping refuses the second order once, and ships it when the customer tries again. -/
def triedAgain : List (Action ℕ) :=
  [.place 0 "tx-1" "track-1", .rejects ["o-2"], .place 1 "tx-2" "track-2", .rejects [],
    .place 1 "tx-3" "track-3"]

def exactCents (amount : ℤ) : Except PyExc ℤ := .ok (amount * 100)

theorem triedAgain_stranded : ∃ w, run (step exactCents) (start amounts) triedAgain = some w ∧
    w.payment.netCents "o-2" = 16000 ∧ w.shipping.shipments.count "o-2" = 1 ∧ w.stranded "o-2" = 1 ∧
    (w.payment.ledger.countP fun e => e.1 = "o-2") =
      w.shipping.shipments.count "o-2" + w.stranded "o-2" ∧
    ∀ more v, run (step exactCents) w more = some v →
      w.payment.ledger <+: v.payment.ledger ∧ ∀ orderId, w.stranded orderId ≤ v.stranded orderId := by
  obtain ⟨w, hw, hnet, hshipped, hstranded⟩ : ∃ w,
      run (step exactCents) (start amounts) triedAgain = some w ∧ w.payment.netCents "o-2" = 16000 ∧
      w.shipping.shipments.count "o-2" = 1 ∧ w.stranded "o-2" = 1 :=
    ⟨_, rfl, by decide +kernel, by decide +kernel, by decide +kernel⟩
  obtain ⟨-, -, -, hcount, hlater⟩ := charges_stranded amounts triedAgain w hw
  exact ⟨w, hw, hnet, hshipped, hstranded, hcount "o-2", hlater⟩

end Saga.Naive
