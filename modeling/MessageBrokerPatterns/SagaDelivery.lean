import MessageBrokerPatterns.SagaLedger
import MessageBrokerPatterns.SagaMemory

/-!
# How often an order is paid and shipped

An order object becomes terminal only behind a payment outcome for its order id, and a run that
nobody stops from outside returns only behind a terminal order. Together with the ledger of the
streams this bounds the payment outcomes of an order from both sides: at least one once its run has
returned, and exactly one for each run that has handled its `OrderCreated`. With a single run on the
streams that is one payment and at most one shipment; with several it is not.
-/

namespace Saga
open PyText PyDict RedisStream ActionRun ReactionLedger
open scoped BigOperators
variable {ρ F : Type}

namespace World

def outcomes (w : World ρ F) (o : String) : ℕ := (w.streams .payments).countP (isOutcome o)

def shipments (w : World ρ F) (o : String) : ℕ :=
  (w.streams .shipping).countP (isKind "OrderShipped" o)

variable {w : World ρ F} {o : String} {raw : Fields}

theorem outcomes_pos_of_failed (hraw : raw ∈ w.streams .payments)
    (hnames : Names "PaymentFailed" o raw) : 0 < w.outcomes o :=
  List.countP_pos_iff.mpr ⟨raw, hraw, decide_eq_true (Or.inr hnames)⟩

/-- A shipment has been paid for. -/
theorem Ledger.outcomes_pos_of_shipped [Fintype ρ] (h : Ledger w o)
    (hraw : raw ∈ w.streams .shipping) (hnames : Names "OrderShipped" o raw) :
    0 < w.outcomes o := by
  have hpos := h.shipping.asked_of_answered
    (List.countP_pos_iff.mpr ⟨raw, hraw, decide_eq_true hnames⟩)
  obtain ⟨raw', hraw', hnames'⟩ := List.countP_pos_iff.mp hpos
  exact List.countP_pos_iff.mpr ⟨raw', hraw', decide_eq_true (Or.inl (of_decide_eq_true hnames'))⟩

end World

variable [DecidableEq ρ] [PyFloat F]

namespace World
variable {w w' : World ρ F} {a : Action ρ}

theorem Progress.outcomes_le (h : Progress w w') (o : String) : w.outcomes o ≤ w'.outcomes o :=
  (h.grow .payments).sublist.countP_le

theorem Substep.creating (hplaced : ∀ q, Placed ρ F w.streams (w.runners q)) (h : Substep w a w')
    (hcreating : Creating w) : Creating w' := by
  intro q p hphase
  rw [h.orderId hplaced]
  rcases h.phase_cases q with hsame | ⟨-, hp⟩ | hturned
  · exact hcreating q p (hsame ▸ hphase)
  · obtain rfl := Phase.creating.inj (hp.symm.trans hphase)
    exact ⟨rfl, fun kind o => OrderService.names_publishCreated _ _ _ _⟩
  · exact absurd hphase (hturned.not_creating p)

/-- The tables lead to started runs' orders, and a terminal order has a payment outcome. -/
structure Settled (w : World ρ F) : Prop where
  keyed : ∀ svc key q, get? (w.memory.tables svc) key = some q →
    (w.memory.orders q).orderId = key ∧ (w.runners q).phase ≠ .unstarted
  settled : ∀ q, (w.runners q).phase ≠ .unstarted → (w.memory.orders q).status.terminal = true →
    0 < w.outcomes (w.memory.orders q).orderId

theorem Settled.settled_substep [Fintype ρ] (h : Settled w) (hledger : ∀ o, Ledger w o)
    (hplaced : ∀ q, Placed ρ F w.streams (w.runners q)) (hsub : Substep w a w') {q : ρ}
    (hq : (w'.runners q).phase ≠ .unstarted)
    (hterminal : (w'.memory.orders q).status.terminal = true) :
    0 < w.outcomes (w.memory.orders q).orderId := by
  rcases hsub.status_cases hplaced q with
    ⟨hne, hstatus⟩ | ⟨-, hstatus⟩ | ⟨svc, key, s, raw, hkey, hraw, hdecides⟩
  · rw [hstatus] at hterminal
    rcases hsub.started_or hq with hq | hstart
    · exact h.settled q hq hterminal
    · exact absurd rfl (hne q hstart)
  · rw [hstatus] at hterminal
    cases hterminal
  · rw [(h.keyed svc key q hkey).1]
    generalize (w'.memory.orders q).status = status at hterminal hdecides
    cases status with
    | cancelled =>
      obtain ⟨rfl, hnames⟩ := hdecides
      exact outcomes_pos_of_failed hraw hnames
    | completed =>
      obtain ⟨rfl, hnames⟩ := hdecides
      exact (hledger key).outcomes_pos_of_shipped hraw hnames
    | pending => cases hterminal
    | paymentProcessing => cases hterminal
    | paid => cases hterminal
    | shipped => cases hterminal

theorem Settled.substep [Fintype ρ] (h : Settled w) (hledger : ∀ o, Ledger w o)
    (hplaced : ∀ q, Placed ρ F w.streams (w.runners q)) (hsub : Substep w a w') : Settled w' := by
  constructor
  · exact Keyed.substep h.keyed hplaced hsub
  · intro q hq hterminal
    rw [hsub.orderId hplaced]
    exact lt_of_lt_of_le (h.settled_substep hledger hplaced hsub hq hterminal)
      ((hsub.progress hplaced).outcomes_le _)

/-- What every run of the system keeps. -/
structure Sound [Fintype ρ] (w : World ρ F) : Prop where
  placed : ∀ q, Placed ρ F w.streams (w.runners q)
  creating : Creating w
  ledger : ∀ o, Ledger w o
  settled : Settled w

theorem sound_fresh [Fintype ρ] (orders : ρ → Order F) (orderSvc : ρ → ℕ) :
    Sound (fresh orders orderSvc) := by
  constructor
  · exact placed_fresh orders orderSvc
  · intro q p hphase
    cases hphase
  · intro o
    refine ⟨Answered.empty _ _, Answered.empty _ _, ?_⟩
    simp [fresh, Runner.posted]
  · refine ⟨fun svc key q hkey => ?_, fun q hq => absurd rfl hq⟩
    cases hkey

theorem Sound.substep [Fintype ρ] (h : Sound w) (hsub : Substep w a w') : Sound w' where
  placed := hsub.placed h.placed
  creating := hsub.creating h.placed h.creating
  ledger o := (h.ledger o).progress h.creating (hsub.orderId h.placed) (hsub.progress h.placed)
  settled := h.settled.substep h.ledger h.placed hsub

def Stopped (w : World ρ F) (r : ρ) : Prop :=
  w.stopEvents r = true ∨ (w.runners r).ending = some .returned

theorem Substep.stopped_cases (h : Substep w a w') {r : ρ} (hstopped : Stopped w' r) :
    Stopped w r ∨ a = .stop r ∨ w.terminal r = true := by
  have hset {u : World ρ F} {q : ρ} {k : Runner} (hstopped : Stopped u r)
      (hstops : u.stopEvents r = w.stopEvents r) (hu : u.runners = (w.setRunner q k).runners)
      (hk : k.ending = some .returned → Stopped w q) :
      Stopped w r ∨ a = .stop r ∨ w.terminal r = true := by
    refine Or.inl ?_
    rw [Stopped, hstops, hu] at hstopped
    rcases hstopped with hstop | hending
    · exact Or.inl hstop
    · by_cases hq : r = q
      · subst hq
        rw [setRunner_self] at hending
        exact hk hending
      · rw [setRunner_of_ne hq] at hending
        exact Or.inr hending
  cases h with
  | start r hphase => exact hset hstopped rfl rfl Or.inr
  | created r p hphase => exact hset hstopped rfl rfl Or.inr
  | consumed r s hphase => exact hset hstopped rfl rfl Or.inr
  | published r s rest p hphase => exact hset hstopped rfl rfl Or.inr
  | leave r uuid hphase hstop => exact hset hstopped rfl rfl fun _ => Or.inl hstop
  | enter r uuid hphase hstop => exact hset hstopped rfl rfl Or.inr
  | raised r uuid s id raw rest e hphase =>
    exact hset hstopped rfl (runners_endRun_routed _ _ _ _) fun h => by cases h
  | passed r uuid s id raw rest m hphase hroute => exact hset hstopped rfl rfl Or.inr
  | issued r uuid s id raw rest m p hphase hroute => exact hset hstopped rfl rfl Or.inr
  | nextStream r uuid s t hphase => exact hset hstopped rfl rfl Or.inr
  | sleep r uuid s hphase => exact hset hstopped rfl rfl Or.inr
  | finish q uuid hterminal =>
    by_cases hq : r = q
    · subst hq
      exact Or.inr (Or.inr hterminal)
    · refine Or.inl (hstopped.imp (fun hstop => ?_) fun hending => ?_)
      · simpa [endRun, setRunner, setStop, hq] using hstop
      · rwa [endRun, setRunner_of_ne hq] at hending
  | stop q =>
    by_cases hq : r = q
    · subst hq
      exact Or.inr (Or.inl rfl)
    · exact Or.inl (hstopped.imp_left fun hstop => by simpa [setStop, hq] using hstop)
  | fail r e => exact hset hstopped rfl rfl fun h => by cases h
  | crash r hphase => exact hset hstopped rfl rfl fun h => by cases h

theorem Sound.outcomes_pos_of_terminal [Fintype ρ] (h : Sound w) {r : ρ}
    (hterminal : w.terminal r = true) : 0 < w.outcomes (w.memory.orders r).orderId := by
  unfold terminal at hterminal
  split at hterminal
  · rename_i q hq
    obtain ⟨hkey, hstarted⟩ := h.settled.keyed _ _ q hq
    rw [← hkey]
    exact h.settled.settled q hstarted hterminal
  · cases hterminal

theorem outcomes_pos_of_stopped [Fintype ρ] {acts : List (Action ρ)} (hs : Sound w) {r : ρ}
    (hr : run World.step w acts = some w') (hstop : Action.stop r ∉ acts) (hw : ¬ Stopped w r)
    (hstopped : Stopped w' r) : 0 < w'.outcomes (w'.memory.orders r).orderId := by
  have halong : Along World.step (fun _ a => a ≠ .stop r) w acts :=
    along_of_forall (C := fun (_ : World ρ F) a => a ≠ Action.stop r)
      (fun a ha _ heq => hstop (heq ▸ ha)) w
  have hinv : Sound w' ∧ (Stopped w' r → 0 < w'.outcomes (w'.memory.orders r).orderId) := by
    refine run_invariant (C := fun _ a => a ≠ .stop r)
      (I := fun u => Sound u ∧ (Stopped u r → 0 < u.outcomes (u.memory.orders r).orderId))
      (fun u a v hu ha hv => ?_) ⟨hs, fun h => absurd h hw⟩
      halong hr
    refine step_invariant
      (I := fun u => Sound u ∧ (Stopped u r → 0 < u.outcomes (u.memory.orders r).orderId))
      (fun x y hx hsub => ⟨hx.1.substep hsub, fun hstopped => ?_⟩) hu hv
    rw [hsub.orderId hx.1.placed]
    refine lt_of_lt_of_le ?_ ((hsub.progress hx.1.placed).outcomes_le _)
    rcases hsub.stopped_cases hstopped with hold | rfl | hterminal
    · exact hx.2 hold
    · exact absurd rfl ha
    · exact hx.1.outcomes_pos_of_terminal hterminal
  exact hinv.2 hstopped

theorem run_sound [Fintype ρ] {acts : List (Action ρ)} (hs : Sound w)
    (hr : run World.step w acts = some w') : Sound w' :=
  run_invariant_of_substep (fun _ _ _ h hsub => h.substep hsub) hs hr

theorem run_orderId [Fintype ρ] {acts : List (Action ρ)} (hs : Sound w)
    (hr : run World.step w acts = some w') (q : ρ) :
    (w'.memory.orders q).orderId = (w.memory.orders q).orderId := by
  have hinv : Sound w' ∧ (w'.memory.orders q).orderId = (w.memory.orders q).orderId := by
    refine run_invariant_of_substep (I := fun u =>
      Sound u ∧ (u.memory.orders q).orderId = (w.memory.orders q).orderId)
      (fun x _ y hx hsub => ?_) ⟨hs, rfl⟩ hr
    exact ⟨hx.1.substep hsub, (hsub.orderId hx.1.placed q).trans hx.2⟩
  exact hinv.2

/-- With distinct order ids no order is created twice. -/
theorem Sound.countP_created_le_one [Fintype ρ] (h : Sound w)
    (hids : Function.Injective fun q => (w.memory.orders q).orderId) (o : String) :
    (w.streams .orders).countP (isKind "OrderCreated" o) ≤ 1 := by
  rw [(h.ledger o).created, ← Finset.card_filter, Finset.card_le_one]
  intro p hp q hq
  simp only [Finset.mem_filter, Finset.mem_univ, true_and] at hp hq
  exact hids (hp.2.trans hq.2.symm)

/-- The run has handled the `OrderCreated` of an order. -/
def HandledCreated (w : World ρ F) (o : String) (q : ρ) : Prop :=
  ∃ raw ∈ (w.streams .orders).take ((w.runners q).handled .orders), isKind "OrderCreated" o raw

instance (w : World ρ F) (o : String) : DecidablePred (HandledCreated w o) :=
  fun _ => inferInstanceAs (Decidable (∃ raw ∈ _, _))

/-- How many `PaymentProcessed` events of an order the run has handled. -/
def processedHandled (w : World ρ F) (o : String) (q : ρ) : ℕ :=
  ((w.streams .payments).take ((w.runners q).handled .payments)).countP
    (isKind "PaymentProcessed" o)

/-- Orders with distinct ids, each driven by one run on the shared streams: an order has one payment
outcome for each run that has handled its `OrderCreated`, at most one for each run and at least one
once its own run has returned, and one shipment for each run and each `PaymentProcessed` of the order
that the run has handled. -/
theorem outcomes_one_per_run [Fintype ρ] (orders : ρ → Order F) (orderSvc : ρ → ℕ)
    (hids : Function.Injective fun q => (orders q).orderId) {acts : List (Action ρ)}
    (hr : run World.step (fresh orders orderSvc) acts = some w) (r : ρ) :
    w.outcomes (orders r).orderId =
        (Finset.univ.filter (w.HandledCreated (orders r).orderId)).card ∧
      w.outcomes (orders r).orderId ≤ Fintype.card ρ ∧
      w.shipments (orders r).orderId = ∑ q, w.processedHandled (orders r).orderId q ∧
      w.shipments (orders r).orderId ≤ Fintype.card ρ * w.outcomes (orders r).orderId ∧
      (Action.stop r ∉ acts → (w.runners r).ending = some .returned →
        1 ≤ w.outcomes (orders r).orderId) := by
  have hsound := run_sound (sound_fresh orders orderSvc) hr
  have horderId := run_orderId (sound_fresh orders orderSvc) hr
  have hledger := hsound.ledger (orders r).orderId
  have hcreated : (w.streams .orders).countP (isKind "OrderCreated" (orders r).orderId) ≤ 1 := by
    refine hsound.countP_created_le_one (fun p q hpq => hids ?_) _
    simpa only [horderId, fresh] using hpq
  have hone := hledger.payments.eq_card_of_countP_le_one hcreated
  refine ⟨hone, ?_, hledger.shipping.balance, ?_, fun hstop hreturned => ?_⟩
  · rw [outcomes, hone]
    exact Finset.card_le_univ _
  · refine hledger.shipping.le_card_mul.trans (Nat.mul_le_mul_left _ ?_)
    exact List.countP_mono_left fun raw _ hraw =>
      decide_eq_true (Or.inl (of_decide_eq_true hraw))
  · have hpos := outcomes_pos_of_stopped (sound_fresh orders orderSvc) hr hstop
      (by simp [Stopped, fresh]) (Or.inr hreturned)
    rwa [horderId] at hpos

end World
/-- Nobody stops a run from outside, no run crashes and the broker does not fail. -/
def Action.undisturbed {ρ : Type} : Action ρ → Bool
  | .stop _ => false
  | .fail _ _ => false
  | .crash _ => false
  | _ => true

/-- Whole numbers as amounts, with the text that Python gives a `float` of that value. -/
structure Whole where
  value : ℤ
  deriving DecidableEq

def Whole.float (s : String) : Except PyExc Whole :=
  match s.toList.reverse with
  | '0' :: '.' :: cs => (pyInt (String.ofList cs.reverse)).map Whole.mk
  | _ => .error (valueError ("could not convert string to float: '" ++ s ++ "'"))

instance : PyFloat Whole where
  str x := pyStr x.value ++ ".0"
  float := Whole.float
  nonpos x := x.value ≤ 0
  float_str x := by
    have hreverse : (pyStr x.value ++ ".0").toList.reverse =
        '0' :: '.' :: (pyStr x.value).toList.reverse := by
      rw [String.toList_append, List.reverse_append]
      rfl
    simp only [Whole.float, hreverse, List.reverse_reverse, String.ofList_toList, pyInt_pyStr]
    rfl

def orderOf {n : ℕ} (r : Fin n) : Order Whole where
  orderId := "ord-" ++ toString r.val
  customerId := "c-1"
  amount := ⟨42⟩

/-- A run without a pause: it starts, and each of its `n` commands is executed at once. -/
def alone {ρ : Type} (r : ρ) (n : ℕ) : List (Action ρ) :=
  .start r :: (List.replicate n [Action.serve r, .resume r "uuid"]).flatten

def consecutive : List (Action (Fin 2)) := alone 0 6 ++ alone 1 9

/-- Two runs one after the other, with one order service and nothing going wrong: the second run
reads the streams from their beginning and has the first order paid again and shipped twice more. -/
theorem consecutive_paid_again :
    ∃ w, run World.step (World.fresh orderOf fun _ => 0) consecutive = some w ∧
      (∀ a ∈ consecutive, a.undisturbed = true) ∧
      (∀ r, (w.runners r).ending = some .returned) ∧
      w.outcomes "ord-0" = 2 ∧ w.shipments "ord-0" = 3 := by
  refine ⟨_, rfl, by decide, ?_, rfl, rfl⟩
  decide

/-- A run that has the streams to itself pays its order once and ships it at most once. -/
theorem alone_paid_once :
    ∃ w, run World.step (World.fresh (orderOf (n := 1)) fun _ => 0) (alone 0 6) = some w ∧
      (w.runners 0).ending = some .returned ∧ w.outcomes "ord-0" = 1 ∧ w.shipments "ord-0" ≤ 1 := by
  refine ⟨_, rfl, rfl, ?_⟩
  have h := World.outcomes_one_per_run (orderOf (n := 1)) (fun _ => 0) (by decide)
    (show run World.step _ (alone 0 6) = some _ from rfl) 0
  have hone := le_antisymm h.2.1 (h.2.2.2.2 (by decide) rfl)
  have hshipped := h.2.2.2.1
  rw [hone] at hshipped
  exact ⟨hone, hshipped⟩

end Saga
