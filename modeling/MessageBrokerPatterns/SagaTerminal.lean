import MessageBrokerPatterns.SagaCauses

/-!
# How a terminal status is left

The handlers of `OrderService` overwrite the status of the order that they find, whatever it is. A
cancelled order has a failed payment, so no event that would lead elsewhere exists for it, and it
stays cancelled. A completed order has a processed payment; when another run reads that event, the
handler takes the order back to `PAID`, and nothing else happens to it.
-/

namespace Saga
open PyText PyDict RedisStream ActionRun
variable {ρ F : Type} [DecidableEq ρ] [PyFloat F]

namespace World
variable {w w' : World ρ F} {a : Action ρ}

theorem Substep.unstarted_of_start {r : ρ} (h : Substep w (.start r) w') :
    (w.runners r).phase = .unstarted := by
  cases h with
  | start r hphase => exact hphase

/-- All runs use one order service, whose table names the order of each started run. -/
structure Registered (svc : ℕ) (w : World ρ F) : Prop where
  one : ∀ q, (w.runners q).orderSvc = svc
  named : ∀ q, (w.runners q).phase ≠ .unstarted →
    get? (w.memory.tables svc) (w.memory.orders q).orderId = some q

theorem Registered.substep {svc : ℕ} (hi : Registered svc w)
    (hids : Function.Injective fun q => (w.memory.orders q).orderId)
    (hplaced : ∀ q, Placed ρ F w.streams (w.runners q)) (h : Substep w a w') :
    Registered svc w' where
  one q := (h.orderSvc q).trans (hi.one q)
  named q hq := by
    rw [h.orderId hplaced]
    rcases h.memory_cases hplaced with
      ⟨r, rfl, hm⟩ | ⟨hne, hm | ⟨svc', uuid, raw, s, out, -, hrouted⟩⟩
    · rw [hm, get?_tables_started_eq (hi.one r)]
      by_cases hqr : q = r
      · rw [hqr, if_pos rfl]
      · rw [if_neg fun he => hqr (hids he).symm]
        rcases h.started_or hq with hq | ha
        · exact hi.named q hq
        · exact absurd (Action.start.inj ha).symm hqr
    · rw [hm]
      exact hi.named q ((h.started_or hq).resolve_right (hne q))
    · rw [hrouted.tables_eq]
      exact hi.named q ((h.started_or hq).resolve_right (hne q))

/-- Runs with distinct orders share the streams and one order service. -/
structure SharedInv (orders : ρ → Order F) (svc : ℕ) (w : World ρ F) : Prop where
  causes : CauseInv orders w
  registered : Registered svc w

variable {orders : ρ → Order F} {svc : ℕ}

theorem sharedInv_fresh (orders : ρ → Order F) (svc : ℕ) :
    SharedInv orders svc (fresh orders fun _ => svc) where
  causes := causeInv_fresh orders fun _ => svc
  registered := ⟨fun _ => rfl, fun _ hq => absurd rfl hq⟩

theorem SharedInv.substep (hi : SharedInv orders svc w)
    (hids : Function.Injective fun q => (orders q).orderId) (h : Substep w a w') :
    SharedInv orders svc w' where
  causes := hi.causes.substep h
  registered := by
    refine hi.registered.substep (fun p q hpq => hids ?_) hi.causes.placed h
    simpa only [(hi.causes.same _).1] using hpq

/-- With distinct orders, no order has both payment outcomes. -/
theorem CauseInv.not_both_of_injective (hi : CauseInv orders w)
    (hids : Function.Injective fun q => (orders q).orderId) {o : String}
    (hprocessed : w.On .payments "PaymentProcessed" o) (hfailed : w.On .payments "PaymentFailed" o) :
    False :=
  hi.not_both (fun p q hpq => by rw [hids hpq]) hprocessed hfailed

/-- Handling an event of the streams leaves a cancelled order cancelled, and takes a completed one
back to `PAID` exactly when the event is a processed payment for it. -/
theorem SharedInv.delivered (hi : SharedInv orders svc w)
    (hids : Function.Injective fun q => (orders q).orderId) {uuid : String} {s : Stream}
    {raw : Fields} {m' : Memory ρ F} {out : Option Publish} (hraw : raw ∈ w.streams s)
    (h : Routed svc uuid w.memory raw s m' out) {q : ρ} (hq : (w.runners q).phase ≠ .unstarted) :
    ((w.memory.orders q).status = .cancelled → (m'.orders q).status = .cancelled) ∧
    ((w.memory.orders q).status = .completed → (m'.orders q).status =
      if s = .payments ∧ isKind "PaymentProcessed" (orders q).orderId raw then .paid
      else .completed) := by
  have hnamed : get? (w.memory.tables svc) (orders q).orderId = some q := by
    rw [← (hi.causes.same q).1]
    exact hi.registered.named q hq
  have hfound := Memory.status_found (fun key r hr => (hi.causes.keyed svc key r hr).1) hnamed
  have hpaid (hstatus : (w.memory.orders q).status = .completed) :
      w.On .payments "PaymentProcessed" (orders q).orderId :=
    hi.causes.paid_of_shipped (hi.causes.completed q hq hstatus)
  have hfailed (hstatus : (w.memory.orders q).status = .cancelled) :
      w.On .payments "PaymentFailed" (orders q).orderId := hi.causes.cancelled q hq hstatus
  have hnever {o : String} (hp : w.On .payments "PaymentProcessed" o)
      (hf : w.On .payments "PaymentFailed" o) : False :=
    hi.causes.not_both_of_injective hids hp hf
  cases h with
  | ignored s hkind =>
    refine ⟨id, fun hstatus => ?_⟩
    rw [hstatus, if_neg]
    rintro ⟨rfl, hn⟩
    exact hkind "PaymentProcessed" (by simp [Stream.kinds]) _ (of_decide_eq_true hn)
  | created data event p hdata hevent hnames hp =>
    refine ⟨id, fun hstatus => ?_⟩
    rw [hstatus, if_neg]
    rintro ⟨hs, -⟩
    cases hs
  | processed event hnames =>
    have hstatus' := hfound event.orderId .paid
    have hiff : isKind "PaymentProcessed" (orders q).orderId raw = true ↔
        event.orderId = (orders q).orderId := by
      rw [isKind, decide_eq_true_iff]
      exact ⟨fun hn => hnames.orderId_eq hn, fun ho => ho ▸ hnames⟩
    refine ⟨fun hstatus => hstatus'.trans ?_, fun hstatus => hstatus'.trans ?_⟩
    · rw [if_neg, hstatus]
      intro ho
      exact hnever ⟨raw, hraw, ho ▸ hnames⟩ (hfailed hstatus)
    · simp only [hiff, hstatus, true_and]
  | failed event hnames =>
    have hstatus' : ((OrderService.handlePaymentFailed svc w.memory event).1.orders q).status =
        if event.orderId = (orders q).orderId then .cancelled
          else (w.memory.orders q).status := by
      rw [← hfound event.orderId .cancelled, OrderService.handlePaymentFailed]
      cases OrderService.getOrder svc w.memory event.orderId with
      | none => rfl
      | some r => rfl
    refine ⟨fun hstatus => hstatus'.trans ?_, fun hstatus => hstatus'.trans ?_⟩
    · rw [hstatus, ite_self]
    · rw [if_neg, if_neg, hstatus]
      · rintro ⟨-, hn⟩
        exact absurd (hnames.kind_eq (of_decide_eq_true hn)) (by decide)
      · intro ho
        exact hnever (hpaid hstatus) ⟨raw, hraw, ho ▸ hnames⟩
  | shipped event hnames =>
    have hstatus' := hfound event.orderId .completed
    refine ⟨fun hstatus => hstatus'.trans ?_, fun hstatus => hstatus'.trans ?_⟩
    · rw [if_neg, hstatus]
      intro ho
      exact hnever (hi.causes.paid_of_shipped ⟨raw, hraw, ho ▸ hnames⟩) (hfailed hstatus)
    · rw [hstatus, ite_self, if_neg]
      rintro ⟨hs, -⟩
      cases hs

theorem CauseInv.next_status (hi : CauseInv orders w) (h : Substep w a w') {q : ρ}
    (hq : (w.runners q).phase ≠ .unstarted) :
    (w'.memory.orders q).status = (w.memory.orders q).status ∨
    ((w'.memory.orders q).status = .paid ∧
      w.On .payments "PaymentProcessed" (orders q).orderId) ∨
    ((w'.memory.orders q).status = .cancelled ∧
      w.On .payments "PaymentFailed" (orders q).orderId) ∨
    ((w'.memory.orders q).status = .completed ∧
      w.On .shipping "OrderShipped" (orders q).orderId) := by
  rcases h.status_cases hi.placed q with
    ⟨-, hsame⟩ | ⟨rfl, -⟩ | ⟨svc', key, s, raw, hkey, hraw, hdecides⟩
  · exact Or.inl hsame
  · exact absurd h.unstarted_of_start hq
  · obtain rfl : (orders q).orderId = key := (hi.same q).1.symm.trans (hi.keyed svc' key q hkey).1
    generalize (w'.memory.orders q).status = status at hdecides
    cases status with
    | paid =>
      obtain ⟨rfl, hn⟩ := hdecides
      exact Or.inr (Or.inl ⟨rfl, raw, hraw, hn⟩)
    | cancelled =>
      obtain ⟨rfl, hn⟩ := hdecides
      exact Or.inr (Or.inr (Or.inl ⟨rfl, raw, hraw, hn⟩))
    | completed =>
      obtain ⟨rfl, hn⟩ := hdecides
      exact Or.inr (Or.inr (Or.inr ⟨rfl, raw, hraw, hn⟩))
    | pending => cases hdecides
    | paymentProcessing => cases hdecides
    | shipped => cases hdecides

theorem cancelled_substep (hi : CauseInv orders w)
    (hids : Function.Injective fun q => (orders q).orderId) (h : Substep w a w') {q : ρ}
    (hq : (w.runners q).phase ≠ .unstarted) (hstatus : (w.memory.orders q).status = .cancelled) :
    (w'.memory.orders q).status = .cancelled := by
  have hfailed := hi.cancelled q hq hstatus
  rcases hi.next_status h hq with hsame | ⟨-, hp⟩ | ⟨hc, -⟩ | ⟨-, hs⟩
  · rw [hsame, hstatus]
  · exact absurd hfailed fun hf => hi.not_both_of_injective hids hp hf
  · exact hc
  · exact absurd hfailed fun hf => hi.not_both_of_injective hids (hi.paid_of_shipped hs) hf

theorem completed_substep (hi : CauseInv orders w)
    (hids : Function.Injective fun q => (orders q).orderId) (h : Substep w a w') {q : ρ}
    (hq : (w.runners q).phase ≠ .unstarted)
    (hpaid : w.On .payments "PaymentProcessed" (orders q).orderId)
    (hstatus : (w.memory.orders q).status = .completed ∨ (w.memory.orders q).status = .paid) :
    (w'.memory.orders q).status = .completed ∨ (w'.memory.orders q).status = .paid := by
  rcases hi.next_status h hq with hsame | ⟨hp, -⟩ | ⟨-, hf⟩ | ⟨hc, -⟩
  · rw [hsame]
    exact hstatus
  · exact Or.inr hp
  · exact absurd hf fun hf => hi.not_both_of_injective hids hpaid hf
  · exact Or.inl hc

/-- Runs with distinct orders share the streams and one order service. From a state with a terminal
order, no event of the streams and no further run takes a cancelled order out of `CANCELLED`; a
completed order goes to `PAID` exactly when a processed payment for it is handled, and whatever else
happens it is `COMPLETED` or `PAID` from then on. -/
theorem terminal_left_for_paid_only (orders : ρ → Order F) (svc : ℕ)
    (hids : Function.Injective fun q => (orders q).orderId) (acts : List (Action ρ))
    (hrun : run World.step (fresh orders fun _ => svc) acts = some w) (q : ρ)
    (hq : (w.runners q).phase ≠ .unstarted) :
    ((w.memory.orders q).status = .cancelled →
      (∀ uuid s, ∀ raw ∈ w.streams s, ∀ m' out, route svc uuid w.memory s raw = .ok (m', out) →
        (m'.orders q).status = .cancelled) ∧
      ∀ more w', run World.step w more = some w' → (w'.memory.orders q).status = .cancelled) ∧
    ((w.memory.orders q).status = .completed →
      (∀ uuid s, ∀ raw ∈ w.streams s, ∀ m' out, route svc uuid w.memory s raw = .ok (m', out) →
        (m'.orders q).status =
          if s = .payments ∧ isKind "PaymentProcessed" (orders q).orderId raw then .paid
          else .completed) ∧
      ∀ more w', run World.step w more = some w' →
        (w'.memory.orders q).status = .completed ∨ (w'.memory.orders q).status = .paid) := by
  have hi : SharedInv orders svc w :=
    run_invariant_of_substep (fun _ _ _ h hsub => h.substep hids hsub) (sharedInv_fresh orders svc)
      hrun
  constructor
  · intro hstatus
    constructor
    · intro uuid s raw hraw m' out hroute
      exact (hi.delivered hids hraw (.of_route hroute) hq).1 hstatus
    · intro more w' hmore
      have hall : CauseInv orders w' ∧ (w'.runners q).phase ≠ .unstarted ∧
          (w'.memory.orders q).status = .cancelled := by
        apply run_invariant_of_substep (I := fun u => CauseInv orders u ∧
          (u.runners q).phase ≠ .unstarted ∧ (u.memory.orders q).status = .cancelled) ?_
          ⟨hi.causes, hq, hstatus⟩ hmore
        rintro x a y ⟨hx, hxq, hxs⟩ hsub
        exact ⟨hx.substep hsub, hsub.started_mono hxq, cancelled_substep hx hids hsub hxq hxs⟩
      exact hall.2.2
  · intro hstatus
    constructor
    · intro uuid s raw hraw m' out hroute
      exact (hi.delivered hids hraw (.of_route hroute) hq).2 hstatus
    · intro more w' hmore
      have hpaid := hi.causes.paid_of_shipped (hi.causes.completed q hq hstatus)
      have hall : CauseInv orders w' ∧ (w'.runners q).phase ≠ .unstarted ∧
          w'.On .payments "PaymentProcessed" (orders q).orderId ∧
          ((w'.memory.orders q).status = .completed ∨ (w'.memory.orders q).status = .paid) := by
        apply run_invariant_of_substep (I := fun u => CauseInv orders u ∧
          (u.runners q).phase ≠ .unstarted ∧
          u.On .payments "PaymentProcessed" (orders q).orderId ∧
          ((u.memory.orders q).status = .completed ∨ (u.memory.orders q).status = .paid)) ?_
          ⟨hi.causes, hq, hpaid, Or.inl hstatus⟩ hmore
        rintro x a y ⟨hx, hxq, hxp, hxs⟩ hsub
        exact ⟨hx.substep hsub, hsub.started_mono hxq, hxp.grow (hsub.progress hx.placed).grow,
          completed_substep hx hids hsub hxq hxp hxs⟩
      exact hall.2.2.2

end World

/-- The second of two runs with one order service re-reads the payment of the first order. -/
theorem completed_then_paid :
    ∃ w w', run World.step (World.fresh orderOf fun _ => 0) (alone (0 : Fin 2) 6) = some w ∧
      (w.runners 0).ending = some .returned ∧ (w.memory.orders 0).status = .completed ∧
      run World.step w (alone 1 5) = some w' ∧ (w'.memory.orders 0).status = .paid :=
  ⟨_, _, rfl, rfl, rfl, rfl, rfl⟩

theorem completed_then_completed_or_paid :
    ∃ w w', run World.step (World.fresh orderOf fun _ => 0) (alone (0 : Fin 2) 6) = some w ∧
      (w.memory.orders 0).status = .completed ∧ run World.step w (alone 1 9) = some w' ∧
      ((w'.memory.orders 0).status = .completed ∨ (w'.memory.orders 0).status = .paid) := by
  obtain ⟨w, w', hw, hstatus, hstarted, hw'⟩ : ∃ w w',
      run World.step (World.fresh orderOf fun _ => 0) (alone (0 : Fin 2) 6) = some w ∧
      (w.memory.orders 0).status = .completed ∧ w.isUnstarted 0 = false ∧
      run World.step w (alone 1 9) = some w' := ⟨_, _, rfl, rfl, rfl, rfl⟩
  have h := World.terminal_left_for_paid_only orderOf 0 (by decide) _ hw 0
    (World.phase_ne_unstarted hstarted)
  exact ⟨w, w', hw, hstatus, hw', (h.2 hstatus).2 _ w' hw'⟩

end Saga
