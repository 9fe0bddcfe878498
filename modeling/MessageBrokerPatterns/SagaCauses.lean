import MessageBrokerPatterns.SagaDelivery

/-!
# Every saga event has its cause

However often events are handled, and by however many runs and services, a service publishes only
what an event on the streams asks for. A shipment follows a processed payment and a cancellation
follows a failed one, for the same order id, and a payment is processed or failed by the amount of an
`OrderCreated`. The cause is there before its effect is waited for, so it is there before the effect
is published. As long as the runs for one order id agree on its amount, no order is both shipped and
cancelled.
-/

namespace Saga
open PyText PyDict RedisStream ActionRun
variable {ρ F : Type}

/-- An `OrderCreated` for the order, whose amount is positive or not. -/
def CreatedWith (F : Type) [PyFloat F] (nonpos : Bool) (o : String) (raw : Fields) : Prop :=
  Names "OrderCreated" o raw ∧ ∃ (text : String) (amount : F),
    get? raw (utf8Encode "amount") = some (utf8Encode text) ∧ PyFloat.float text = .ok amount ∧
      PyFloat.nonpos amount = nonpos

/-- What an entry of a stream comes from: an order object, or an entry of another stream. -/
inductive Cause [PyFloat F] (orders : ρ → Order F) (streams : Stream → List Fields) (raw : Fields)
    (o : String) : Stream → String → Prop where
  | created (q : ρ) (ho : (orders q).orderId = o)
      (ha : get? raw (utf8Encode "amount") = some (utf8Encode (PyFloat.str (orders q).amount))) :
      Cause orders streams raw o .orders "OrderCreated"
  | processed (cause : Fields) (hmem : cause ∈ streams .orders) (h : CreatedWith F false o cause) :
      Cause orders streams raw o .payments "PaymentProcessed"
  | failed (cause : Fields) (hmem : cause ∈ streams .orders) (h : CreatedWith F true o cause) :
      Cause orders streams raw o .payments "PaymentFailed"
  | shipped (cause : Fields) (hmem : cause ∈ streams .payments)
      (h : Names "PaymentProcessed" o cause) : Cause orders streams raw o .shipping "OrderShipped"
  | cancelled (cause : Fields) (hmem : cause ∈ streams .payments)
      (h : Names "PaymentFailed" o cause) : Cause orders streams raw o .orders "OrderCancelled"

/-- Whatever event the entry is, it has the cause of such an event. -/
def Grounded [PyFloat F] (orders : ρ → Order F) (streams : Stream → List Fields) (s : Stream)
    (raw : Fields) : Prop :=
  ∀ kind o, Names kind o raw → Cause orders streams raw o s kind

namespace World
variable {w w' : World ρ F}

def On (w : World ρ F) (s : Stream) (kind o : String) : Prop := ∃ raw ∈ w.streams s, Names kind o raw

theorem On.grow {s : Stream} {kind o : String} (h : w.On s kind o)
    (hgrow : ∀ s, w.streams s <+: w'.streams s) : w'.On s kind o := by
  obtain ⟨raw, hraw, hn⟩ := h
  exact ⟨raw, (hgrow s).subset hraw, hn⟩

end World

variable [PyFloat F]

section Cause
variable {orders : ρ → Order F} {streams streams' : Stream → List Fields} {raw : Fields}
  {o : String} {s : Stream}

theorem Cause.order (h : Cause orders streams raw o .orders "OrderCreated") :
    ∃ q, (orders q).orderId = o ∧
      get? raw (utf8Encode "amount") = some (utf8Encode (PyFloat.str (orders q).amount)) := by
  generalize hkind : "OrderCreated" = kind at h
  cases h with
  | created q ho ha => exact ⟨q, ho, ha⟩
  | cancelled cause hmem hc => exact absurd hkind (by decide)

theorem Cause.creation {nonpos : Bool} (h : Cause orders streams raw o .payments
    (if nonpos then "PaymentFailed" else "PaymentProcessed")) :
    ∃ cause ∈ streams .orders, CreatedWith F nonpos o cause := by
  generalize hkind : (if nonpos then "PaymentFailed" else "PaymentProcessed") = kind at h
  cases h with
  | processed cause hmem hc =>
    cases nonpos with
    | false => exact ⟨cause, hmem, hc⟩
    | true => exact absurd hkind (by decide)
  | failed cause hmem hc =>
    cases nonpos with
    | false => exact absurd hkind (by decide)
    | true => exact ⟨cause, hmem, hc⟩

theorem Cause.payment {kind : String} (h : Cause orders streams raw o .shipping kind) :
    ∃ cause ∈ streams .payments, Names "PaymentProcessed" o cause := by
  cases h with
  | shipped cause hmem hc => exact ⟨cause, hmem, hc⟩

theorem Cause.failure (h : Cause orders streams raw o .orders "OrderCancelled") :
    ∃ cause ∈ streams .payments, Names "PaymentFailed" o cause := by
  generalize hkind : "OrderCancelled" = kind at h
  cases h with
  | created q ho ha => exact absurd hkind (by decide)
  | cancelled cause hmem hc => exact ⟨cause, hmem, hc⟩

theorem Grounded.grow (h : Grounded orders streams s raw)
    (hgrow : ∀ s, streams s <+: streams' s) : Grounded orders streams' s raw := by
  intro kind o hn
  cases h kind o hn with
  | created q ho ha => exact .created q ho ha
  | processed cause hmem hc => exact .processed cause ((hgrow _).subset hmem) hc
  | failed cause hmem hc => exact .failed cause ((hgrow _).subset hmem) hc
  | shipped cause hmem hc => exact .shipped cause ((hgrow _).subset hmem) hc
  | cancelled cause hmem hc => exact .cancelled cause ((hgrow _).subset hmem) hc

theorem Cause.grounded {kind : String} (h : Cause orders streams raw o s kind)
    (hnames : ∀ k o', Names k o' raw ↔ kind = k ∧ o = o') : Grounded orders streams s raw := by
  intro k o' hn
  obtain ⟨rfl, rfl⟩ := (hnames k o').mp hn
  exact h

end Cause

variable [DecidableEq ρ]

theorem Routed.grounded {svc : ℕ} {uuid : String} {m m' : Memory ρ F} {raw : Fields} {s : Stream}
    {out : Option Publish} (h : Routed svc uuid m raw s m' out) {orders : ρ → Order F}
    {streams : Stream → List Fields} (hraw : raw ∈ streams s)
    (hkeyed : ∀ key q, get? (m.tables svc) key = some q → (m.orders q).orderId = key)
    {p : Publish} (hp : out = some p) : Grounded orders streams p.stream p.fields := by
  cases h with
  | ignored s hkind => cases hp
  | created data event p' hdata hevent hnames hok =>
    cases hp
    obtain ⟨hstream, amount, hamount, hpub⟩ := PaymentService.handleOrderCreated_ok hok
    have hcause : CreatedWith F (PyFloat.nonpos amount) event.orderId raw := by
      refine ⟨hnames, event.amount, amount, ?_, hamount, rfl⟩
      rw [hdata, get?_encodeFields, OrderCreated.get?_amount hevent, Option.map_some]
    rw [hstream]
    cases hpos : PyFloat.nonpos amount with
    | true =>
      rw [hpos] at hpub hcause
      exact (Cause.failed raw hraw hcause).grounded hpub
    | false =>
      rw [hpos] at hpub hcause
      exact (Cause.processed raw hraw hcause).grounded hpub
  | processed event hnames =>
    cases hp
    exact (Cause.shipped raw hraw hnames).grounded
      (ShippingService.names_handlePaymentProcessed event uuid)
  | failed event hnames =>
    obtain ⟨q, hq, hstream, hpub⟩ := OrderService.names_handlePaymentFailed hp
    rw [hkeyed _ q hq] at hpub
    rw [hstream]
    exact (Cause.cancelled raw hraw hnames).grounded hpub
  | shipped event hnames => cases hp

theorem OrderService.grounded_publishCreated (m : Memory ρ F) (r : ρ) {orders : ρ → Order F}
    (hid : (m.orders r).orderId = (orders r).orderId)
    (hamount : (m.orders r).amount = (orders r).amount) (streams : Stream → List Fields) :
    Grounded orders streams .orders (publishCreated m r).2.fields := by
  apply Cause.grounded (o := (m.orders r).orderId)
  · apply Cause.created r hid.symm
    rw [amount_publishCreated, hamount]
  · exact names_publishCreated m r

namespace World
variable {w w' : World ρ F} {a : Action ρ}

/-- A run that waits for an `XADD` has waited for it before, or has started, or has handled an entry
of a stream. -/
theorem Substep.outgoing_cases (hplaced : ∀ q, Placed ρ F w.streams (w.runners q))
    (h : Substep w a w') {q : ρ} {p : Publish} (hp : (w'.runners q).phase.outgoing = some p) :
    (w.runners q).phase.outgoing = some p ∨
    p = (OrderService.publishCreated
      (OrderService.createOrder (w.runners q).orderSvc w.memory q) q).2 ∨
    ∃ (svc : ℕ) (uuid : String) (raw : Fields) (s : Stream) (m' : Memory ρ F),
      raw ∈ w.streams s ∧ Routed svc uuid w.memory raw s m' (some p) := by
  rcases h.phase_cases q with hsame | ⟨-, hcreating⟩ | ⟨-, -, hturned⟩
  · exact Or.inl (hsame ▸ hp)
  · rw [hcreating] at hp
    exact Or.inr (Or.inl (Option.some.inj hp).symm)
  · rcases hturned with hnone | ⟨svc, uuid, s, id, raw, rest, m, p', hphase, hpublish, hroute⟩
    · rw [hnone] at hp
      cases hp
    · rw [hpublish] at hp
      cases hp
      obtain ⟨-, hraw, -⟩ := ((hplaced q).paging s _ hphase).head
      exact Or.inr (Or.inr ⟨svc, uuid, raw, s, m, List.mem_of_getElem? hraw, hroute⟩)

/-- The streams grow by the `XADD` that a run waits for, or not at all. -/
theorem Substep.streams_cases (h : Substep w a w') :
    w'.streams = w.streams ∨ ∃ r p, a = .serve r ∧ (w.runners r).phase.outgoing = some p ∧
      ∀ s, w'.streams s = w.streams s ++ added (some p) s := by
  cases h with
  | created r p hphase => exact Or.inr ⟨r, p, rfl, by rw [hphase]; rfl, streams_xadd p⟩
  | published r s rest p hphase => exact Or.inr ⟨r, p, rfl, by rw [hphase]; rfl, streams_xadd p⟩
  | start r hphase => exact Or.inl rfl
  | consumed r s hphase => exact Or.inl rfl
  | leave r uuid hphase hstop => exact Or.inl rfl
  | enter r uuid hphase hstop => exact Or.inl rfl
  | raised r uuid s id raw rest e hphase => exact Or.inl rfl
  | passed r uuid s id raw rest m hphase hroute => exact Or.inl rfl
  | issued r uuid s id raw rest m p hphase hroute => exact Or.inl rfl
  | nextStream r uuid s t hphase => exact Or.inl rfl
  | sleep r uuid s hphase => exact Or.inl rfl
  | finish r uuid hterminal => exact Or.inl rfl
  | stop r => exact Or.inl rfl
  | fail r e => exact Or.inl rfl
  | crash r hphase => exact Or.inl rfl

/-- What is on the streams and what is about to be has its cause, and so has a terminal status. -/
structure CauseInv (orders : ρ → Order F) (w : World ρ F) : Prop where
  placed : ∀ q, Placed ρ F w.streams (w.runners q)
  keyed : Keyed w
  same : ∀ q, (w.memory.orders q).orderId = (orders q).orderId ∧
    (w.memory.orders q).amount = (orders q).amount
  entries : ∀ s, ∀ raw ∈ w.streams s, Grounded orders w.streams s raw
  outgoing : ∀ q p, (w.runners q).phase.outgoing = some p →
    Grounded orders w.streams p.stream p.fields
  completed : ∀ q, (w.runners q).phase ≠ .unstarted → (w.memory.orders q).status = .completed →
    w.On .shipping "OrderShipped" (orders q).orderId
  cancelled : ∀ q, (w.runners q).phase ≠ .unstarted → (w.memory.orders q).status = .cancelled →
    w.On .payments "PaymentFailed" (orders q).orderId

theorem causeInv_fresh (orders : ρ → Order F) (orderSvc : ρ → ℕ) :
    CauseInv orders (fresh orders orderSvc) where
  placed q := placed_fresh orders orderSvc q
  keyed svc key q hkey := by cases hkey
  same q := ⟨rfl, rfl⟩
  entries s raw hraw := by cases hraw
  outgoing q p hp := by cases hp
  completed q hq := absurd rfl hq
  cancelled q hq := absurd rfl hq

theorem Substep.on_of_status {orders : ρ → Order F} (hi : CauseInv orders w)
    (h : Substep w a w') {q : ρ} (hq : (w'.runners q).phase ≠ .unstarted) {s : Stream}
    {status : SagaStatus} {kind : String} (hstatus : (w'.memory.orders q).status = status)
    (hne : status ≠ .paymentProcessing)
    (hdecides : ∀ t key raw, Decides t key raw status → t = s ∧ Names kind key raw)
    (hold : (w.runners q).phase ≠ .unstarted → (w.memory.orders q).status = status →
      w.On s kind (orders q).orderId) : w.On s kind (orders q).orderId := by
  rcases h.status_cases hi.placed q with
    ⟨hstart, hsame⟩ | ⟨-, hstarted⟩ | ⟨svc, key, t, raw, hkey, hraw, hdec⟩
  · rcases h.started_or hq with hq | ha
    · exact hold hq (hsame.symm.trans hstatus)
    · exact absurd rfl (hstart q ha)
  · exact absurd (hstatus.symm.trans hstarted) hne
  · rw [hstatus] at hdec
    obtain ⟨rfl, hn⟩ := hdecides t key raw hdec
    refine ⟨raw, hraw, ?_⟩
    rw [← (hi.same q).1, (hi.keyed svc key q hkey).1]
    exact hn

theorem CauseInv.substep {orders : ρ → Order F} (hi : CauseInv orders w) (h : Substep w a w') :
    CauseInv orders w' := by
  have hgrow := (h.progress hi.placed).grow
  constructor
  · exact h.placed hi.placed
  · exact hi.keyed.substep hi.placed h
  · intro q
    have he := h.order_eq hi.placed q
    exact ⟨he.1.trans (hi.same q).1, he.2.trans (hi.same q).2⟩
  · intro s raw hraw
    rcases h.streams_cases with hsame | ⟨r, p, -, hp, hadd⟩
    · rw [hsame] at hraw
      exact (hi.entries s raw hraw).grow hgrow
    · rw [hadd] at hraw
      rcases List.mem_append.mp hraw with hraw | hraw
      · exact (hi.entries s raw hraw).grow hgrow
      · obtain ⟨rfl, rfl⟩ := mem_added.mp hraw
        exact (hi.outgoing r p hp).grow hgrow
  · intro q p hp
    rcases h.outgoing_cases hi.placed hp with hold | rfl | ⟨svc, uuid, raw, s, m', hraw, hrouted⟩
    · exact (hi.outgoing q p hold).grow hgrow
    · exact OrderService.grounded_publishCreated _ q (hi.same q).1 (hi.same q).2 _
    · exact (hrouted.grounded hraw (fun key q hkey => (hi.keyed svc key q hkey).1) rfl).grow hgrow
  · intro q hq hstatus
    refine On.grow (h.on_of_status hi hq hstatus (by decide) ?_ (hi.completed q)) hgrow
    exact fun t key raw hd => hd
  · intro q hq hstatus
    refine On.grow (h.on_of_status hi hq hstatus (by decide) ?_ (hi.cancelled q)) hgrow
    exact fun t key raw hd => hd

/-- What an action appends has its cause on the streams before it. -/
theorem CauseInv.appends {orders : ρ → Order F} (hi : CauseInv orders w)
    (h : World.step w a = some w') (s : Stream) :
    ∃ more, w'.streams s = w.streams s ++ more ∧ ∀ raw ∈ more, Grounded orders w.streams s raw := by
  have hquiet (ha : ∀ r, a ≠ .serve r) : w'.streams = w.streams := by
    apply step_invariant (I := fun u => u.streams = w.streams) ?_ rfl h
    intro u v hu hsub
    rcases hsub.streams_cases with hsame | ⟨r, -, hr, -⟩
    · exact hsame.trans hu
    · exact absurd hr (ha r)
  have hnothing (hsame : w'.streams = w.streams) :
      ∃ more, w'.streams s = w.streams s ++ more ∧
        ∀ raw ∈ more, Grounded orders w.streams s raw :=
    ⟨[], by rw [hsame, List.append_nil], fun raw hraw => by cases hraw⟩
  cases a with
  | serve r =>
    simp only [World.step] at h
    split_ifs at h
    have hsub : Substep w (.serve r) w' := Substep.of_serve h
    rcases hsub.streams_cases with hsame | ⟨q, p, -, hp, hadd⟩
    · exact hnothing hsame
    · refine ⟨_, hadd s, fun raw hraw => ?_⟩
      obtain ⟨rfl, rfl⟩ := mem_added.mp hraw
      exact hi.outgoing q p hp
  | start r => exact hnothing (hquiet (by simp))
  | resume r uuid => exact hnothing (hquiet (by simp))
  | stop r => exact hnothing (hquiet (by simp))
  | fail r e => exact hnothing (hquiet (by simp))
  | crash r => exact hnothing (hquiet (by simp))

theorem CauseInv.amount {orders : ρ → Order F} (hi : CauseInv orders w) (nonpos : Bool) {o : String}
    (h : w.On .payments (if nonpos then "PaymentFailed" else "PaymentProcessed") o) :
    ∃ q, (orders q).orderId = o ∧ PyFloat.nonpos (orders q).amount = nonpos := by
  obtain ⟨raw, hraw, hn⟩ := h
  obtain ⟨cause, hmem, hcreated, text, amount, htext, hamount, hpos⟩ :=
    (hi.entries .payments raw hraw _ _ hn).creation
  obtain ⟨q, hq, hget⟩ := (hi.entries .orders cause hmem _ _ hcreated).order
  obtain rfl : PyFloat.str (orders q).amount = text := by
    rw [hget, Option.some.injEq, utf8Encode_inj] at htext
    exact htext
  rw [PyFloat.float_str, Except.ok.injEq] at hamount
  exact ⟨q, hq, hamount ▸ hpos⟩

/-- With one amount for each order id, no order has both payment outcomes. -/
theorem CauseInv.not_both {orders : ρ → Order F} (hi : CauseInv orders w)
    (hamount : ∀ p q, (orders p).orderId = (orders q).orderId →
      (orders p).amount = (orders q).amount) {o : String}
    (hprocessed : w.On .payments "PaymentProcessed" o) (hfailed : w.On .payments "PaymentFailed" o) :
    False := by
  obtain ⟨p, hp, hpos⟩ := hi.amount false hprocessed
  obtain ⟨q, hq, hnonpos⟩ := hi.amount true hfailed
  rw [hamount p q (hp.trans hq.symm), hnonpos] at hpos
  cases hpos

theorem CauseInv.paid_of_shipped {orders : ρ → Order F} (hi : CauseInv orders w) {o : String}
    (h : w.On .shipping "OrderShipped" o) : w.On .payments "PaymentProcessed" o := by
  obtain ⟨raw, hraw, hn⟩ := h
  exact (hi.entries .shipping raw hraw _ _ hn).payment

theorem CauseInv.failed_of_cancelled {orders : ρ → Order F} (hi : CauseInv orders w) {o : String}
    (h : w.On .orders "OrderCancelled" o) : w.On .payments "PaymentFailed" o := by
  obtain ⟨raw, hraw, hn⟩ := h
  exact (hi.entries .orders raw hraw _ _ hn).failure

/-- Runs that agree on the amount of an order id share the streams: whatever an action appends has its
cause on the streams already, an order is completed only behind its shipment, and no order is both
shipped and cancelled, on the streams or in the order objects. -/
theorem never_shipped_and_cancelled (orders : ρ → Order F) (orderSvc : ρ → ℕ)
    (hamount : ∀ p q, (orders p).orderId = (orders q).orderId →
      (orders p).amount = (orders q).amount) (acts : List (Action ρ))
    (hrun : run World.step (fresh orders orderSvc) acts = some w) :
    (∀ a w', World.step w a = some w' → ∀ s, ∃ more, w'.streams s = w.streams s ++ more ∧
      ∀ raw ∈ more, Grounded orders w.streams s raw) ∧
    (∀ q, (w.runners q).phase ≠ .unstarted → (w.memory.orders q).status = .completed →
      w.On .shipping "OrderShipped" (orders q).orderId) ∧
    (∀ o, ¬ (w.On .shipping "OrderShipped" o ∧ w.On .orders "OrderCancelled" o)) ∧
    ∀ p q, (w.runners p).phase ≠ .unstarted → (w.runners q).phase ≠ .unstarted →
      (orders p).orderId = (orders q).orderId → (w.memory.orders p).status = .completed →
        (w.memory.orders q).status ≠ .cancelled := by
  have hi : CauseInv orders w :=
    run_invariant_of_substep (fun _ _ _ h hsub => h.substep hsub) (causeInv_fresh orders orderSvc)
      hrun
  refine ⟨fun a w' h s => hi.appends h s, hi.completed, ?_, ?_⟩
  · rintro o ⟨hshipped, hcancelled⟩
    exact hi.not_both hamount (hi.paid_of_shipped hshipped) (hi.failed_of_cancelled hcancelled)
  · intro p q hp hq hid hcompleted hcancelled
    have hshipped := hi.completed p hp hcompleted
    rw [hid] at hshipped
    exact hi.not_both hamount (hi.paid_of_shipped hshipped) (hi.cancelled q hq hcancelled)

end World

/-- An order is driven by a run that crashes and by a second run with a copy of the order. -/
def copyOf (_ : Fin 2) : Order Whole := orderOf (0 : Fin 1)

def restarted {ρ : Type} (p q : ρ) : List (Action ρ) := alone p 3 ++ [.crash p] ++ alone q 9

theorem restarted_not_cancelled :
    ∃ w, run World.step (World.fresh copyOf fun q => q.val) (restarted 0 1) = some w ∧
      (w.runners 0).ending = some .crashed ∧ (w.memory.orders 1).status = .completed ∧
      w.On .shipping "OrderShipped" "ord-0" ∧ ¬ w.On .orders "OrderCancelled" "ord-0" := by
  obtain ⟨w, hw, hcrash, hstatus, hstarted⟩ : ∃ w,
      run World.step (World.fresh copyOf fun q => q.val) (restarted 0 1) = some w ∧
      (w.runners 0).ending = some .crashed ∧ (w.memory.orders 1).status = .completed ∧
      w.isUnstarted 1 = false := ⟨_, rfl, rfl, rfl, rfl⟩
  obtain ⟨-, hcompleted, hnever, -⟩ :=
    World.never_shipped_and_cancelled copyOf (fun q => q.val) (fun _ _ _ => rfl) (restarted 0 1) hw
  have hshipped : w.On .shipping "OrderShipped" "ord-0" :=
    hcompleted 1 (World.phase_ne_unstarted hstarted) hstatus
  exact ⟨w, hw, hcrash, hstatus, hshipped, fun hcancelled => hnever _ ⟨hshipped, hcancelled⟩⟩

end Saga
