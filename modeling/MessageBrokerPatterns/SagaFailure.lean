import MessageBrokerPatterns.SagaTerminal

/-!
# The status of an order when a publish fails

Each status of an order stands for an event. `PAID` and `COMPLETED` are set by the handling of an
event that is on its stream already. `PAYMENT_PROCESSING` and `CANCELLED` are set before the event is
published, so between the two the order is ahead of the streams, and it stays ahead when the `XADD`
fails. As long as no `XADD` fails whose event the orders stream still lacks, an order is ahead only
while the run that publishes the event is inside its service method.
-/

namespace Saga
open PyText PyDict RedisStream ActionRun
variable {ρ F : Type}

/-- The event that a status stands for, and its stream. -/
def SagaStatus.evidence : SagaStatus → Option (Stream × String)
  | .paymentProcessing => some (.orders, "OrderCreated")
  | .paid => some (.payments, "PaymentProcessed")
  | .completed => some (.shipping, "OrderShipped")
  | .cancelled => some (.orders, "OrderCancelled")
  | _ => none

namespace World

/-- No service method is running. -/
def Quiet (w : World ρ F) : Prop :=
  ∀ r, (w.runners r).ending = none → (w.runners r).phase.outgoing = none

/-- An order in an order service has the event on the streams that its status stands for. -/
def Backed (w : World ρ F) : Prop :=
  ∀ svc key q, get? (w.memory.tables svc) key = some q →
    ∀ s kind, (w.memory.orders q).status.evidence = some (s, kind) →
      w.On s kind (w.memory.orders q).orderId

/-- A run is inside a service method that is about to add the event to the orders stream. -/
def Awaited (w : World ρ F) (kind o : String) : Prop :=
  ∃ r p, (w.runners r).ending = none ∧ (w.runners r).phase.outgoing = some p ∧
    p.stream = .orders ∧ Names kind o p.fields

/-- What the run waits to add to the orders stream, if anything, is there for its order already. -/
def Repeats (w : World ρ F) (r : ρ) : Prop :=
  ∀ p, (w.runners r).phase.outgoing = some p → p.stream = .orders →
    ∀ kind o, Names kind o p.fields → w.On .orders kind o

/-- The action breaks off no `XADD` to the orders stream whose event is not there yet. -/
def Spared (w : World ρ F) : Action ρ → Prop
  | .fail r _ => w.Repeats r
  | .crash r => w.Repeats r
  | _ => True

variable {w : World ρ F}

theorem waits_of_outgoing {r : ρ} {p : Publish} (hp : (w.runners r).phase.outgoing = some p) :
    w.waits r = true := by
  unfold waits
  cases hphase : (w.runners r).phase <;> simp_all [Phase.outgoing]

end World

variable [DecidableEq ρ] [PyFloat F]

/-- A status that the handling of a message sets stands for that message, or for the event that the
service is about to publish. -/
theorem Routed.evidence {svc : ℕ} {uuid : String} {m m' : Memory ρ F} {raw : Fields} {s t : Stream}
    {out : Option Publish} (h : Routed svc uuid m raw s m' out)
    (hkeyed : ∀ key q, get? (m.tables svc) key = some q → (m.orders q).orderId = key) {q : ρ}
    {kind : String} (hstatus : (m'.orders q).status.evidence = some (t, kind)) :
    (m'.orders q).status = (m.orders q).status ∨
    (t = s ∧ Names kind (m.orders q).orderId raw) ∨
    t = .orders ∧ ∃ p, out = some p ∧ p.stream = .orders ∧
      Names kind (m.orders q).orderId p.fields := by
  have hset {r : ρ} {status : SagaStatus} {P : Prop}
      (he : ((m.setStatus r status).orders q).status.evidence = some (t, kind))
      (hself : q = r → status.evidence = some (t, kind) → P) :
      ((m.setStatus r status).orders q).status = (m.orders q).status ∨ P := by
    rw [Memory.setStatus_status] at he ⊢
    by_cases hq : q = r
    · rw [if_pos hq] at he
      exact Or.inr (hself hq he)
    · rw [if_neg hq]
      exact Or.inl rfl
  cases h with
  | ignored s hkind => exact Or.inl rfl
  | created data event p hdata hevent hraw hp => exact Or.inl rfl
  | processed event hraw =>
    unfold OrderService.handlePaymentProcessed at hstatus ⊢
    split at hstatus
    · exact Or.inl rfl
    · rename_i r hr
      refine hset hstatus fun hq he => Or.inl ?_
      cases he
      rw [hq, hkeyed _ r hr]
      exact ⟨rfl, hraw⟩
  | failed event hraw =>
    unfold OrderService.handlePaymentFailed at hstatus ⊢
    split at hstatus
    · exact Or.inl rfl
    · rename_i r hr
      refine hset hstatus fun hq he => Or.inr ?_
      cases he
      rw [hq]
      exact ⟨rfl, _, rfl, rfl, (names_publish (by simp)).mpr ⟨rfl, rfl⟩⟩
  | shipped event hraw =>
    unfold OrderService.handleOrderShipped at hstatus ⊢
    split at hstatus
    · exact Or.inl rfl
    · rename_i r hr
      refine hset hstatus fun hq he => Or.inl ?_
      cases he
      rw [hq, hkeyed _ r hr]
      exact ⟨rfl, hraw⟩

theorem Routed.ahead {svc : ℕ} {uuid : String} {m m' : Memory ρ F} {raw : Fields} {s : Stream}
    {p : Publish} (h : Routed svc uuid m raw s m' (some p)) (hstream : p.stream = .orders)
    {kind o : String} (hn : Names kind o p.fields)
    (hkeyed : ∀ key q, get? (m.tables svc) key = some q → (m.orders q).orderId = key) :
    ∃ q, get? (m'.tables svc) o = some q ∧
      (m'.orders q).status.evidence = some (.orders, kind) := by
  generalize hout : some p = out at h
  cases h with
  | ignored s hkind => cases hout
  | created data event p' hdata hevent hraw hp =>
    cases hout
    rw [(PaymentService.handleOrderCreated_ok hp).1] at hstream
    cases hstream
  | processed event hraw =>
    cases hout
    cases hstream
  | failed event hraw =>
    unfold OrderService.handlePaymentFailed at hout ⊢
    split at hout
    · cases hout
    · rename_i q hq
      cases hout
      obtain ⟨rfl, rfl⟩ := (names_publish (by simp)).mp hn
      refine ⟨q, ?_, ?_⟩
      · rw [Memory.setStatus_tables, hkeyed _ q hq]
        exact hq
      · rw [Memory.setStatus_status, if_pos rfl]
        rfl
  | shipped event hraw => cases hout

namespace World
variable {w w' : World ρ F} {a : Action ρ} {orders : ρ → Order F}

theorem Substep.grow (h : Substep w a w') (s : Stream) : w.streams s <+: w'.streams s := by
  rcases h.streams_cases with hsame | ⟨r, p, -, -, hadd⟩
  · rw [hsame]
  · rw [hadd]
    exact List.prefix_append _ _

/-- An event that a run is about to publish gets on its stream, unless its `XADD` is broken off. -/
theorem Substep.awaited (hpoised : w.Poised a) (hspared : w.Spared a) (h : Substep w a w')
    {kind o : String} (hw : w.Awaited kind o) : w'.On .orders kind o ∨ w'.Awaited kind o := by
  obtain ⟨r, p, hend, hp, hstream, hn⟩ := hw
  have hadd (phase : Phase) : ((w.xadd p).setPhase r phase).On .orders kind o := by
    refine ⟨p.fields, ?_, hn⟩
    change p.fields ∈ (w.xadd p).streams .orders
    rw [streams_xadd, if_pos hstream.symm]
    exact List.mem_append_right _ (List.mem_singleton_self _)
  by_cases hr : a.runner = some r
  · left
    cases a with
    | start r' =>
      obtain rfl : r' = r := Option.some.inj hr
      rw [h.unstarted_of_start] at hp
      cases hp
    | serve r' =>
      obtain rfl : r' = r := Option.some.inj hr
      cases h with
      | created r p' hphase =>
        rw [hphase] at hp
        cases hp
        exact hadd _
      | consumed r s hphase =>
        rw [hphase] at hp
        cases hp
      | published r s rest p' hphase =>
        rw [hphase] at hp
        cases hp
        exact hadd _
    | resume r' uuid =>
      obtain rfl : r' = r := Option.some.inj hr
      exact absurd (waits_of_outgoing hp) (by simp [hpoised.2])
    | stop r' => cases hr
    | fail r' e =>
      obtain rfl : r' = r := Option.some.inj hr
      exact (hspared p hp hstream kind o hn).grow (h.grow)
    | crash r' =>
      obtain rfl : r' = r := Option.some.inj hr
      exact (hspared p hp hstream kind o hn).grow (h.grow)
  · right
    refine ⟨r, p, ?_, ?_, hstream, hn⟩
    · rw [h.runners_of_ne hr, hend]
    · rw [h.runners_of_ne hr, hp]

/-- What a single step does to the order objects and to the `XADD`s that the runs wait for: a run
starts, or handles a message, or no order object changes and no `XADD` is issued. -/
inductive Deed (w w' : World ρ F) (a : Action ρ) : Prop where
  | start (r : ρ) (ha : a = .start r) (hself : w' = w.started r)
  | handle (r : ρ) (uuid : String) (svc : ℕ) (raw : Fields) (s : Stream) (out : Option Publish)
      (ha : a = .resume r uuid) (hraw : raw ∈ w.streams s)
      (hrouted : Routed svc uuid w.memory raw s w'.memory out)
      (hout : (w'.runners r).phase.outgoing = out)
      (hend : (w'.runners r).ending = (w.runners r).ending)
      (hother : ∀ q, q ≠ r → w'.runners q = w.runners q)
  | other (ha : ∀ r, a ≠ .start r) (hmemory : w'.memory = w.memory)
      (hout : ∀ q p, (w'.runners q).phase.outgoing = some p →
        (w.runners q).phase.outgoing = some p)

theorem Substep.deed (hplaced : ∀ q, Placed ρ F w.streams (w.runners q)) (h : Substep w a w') :
    Deed w w' a := by
  have hset {u : World ρ F} {r : ρ} {k : Runner} (ha : ∀ r, a ≠ .start r)
      (hmemory : u.memory = w.memory) (hu : u.runners = (w.setRunner r k).runners)
      (hk : ∀ p, k.phase.outgoing = some p → (w.runners r).phase.outgoing = some p) :
      Deed w u a := by
    refine .other ha hmemory fun q p hp => ?_
    rw [hu] at hp
    by_cases hq : q = r
    · subst hq
      rw [setRunner_self] at hp
      exact hk p hp
    · rwa [setRunner_of_ne hq] at hp
  cases h with
  | start r hphase => exact .start r rfl rfl
  | created r p hphase => exact hset (by simp) rfl rfl (by simp [Phase.outgoing])
  | consumed r s hphase => exact hset (by simp) rfl rfl (by simp [Phase.outgoing])
  | published r s rest p hphase => exact hset (by simp) rfl rfl (by simp [Phase.outgoing])
  | leave r uuid hphase hstop => exact hset (by simp) rfl rfl fun _ => id
  | enter r uuid hphase hstop => exact hset (by simp) rfl rfl (by simp [Phase.outgoing])
  | raised r uuid s id raw rest e hphase =>
    exact hset (by simp) rfl (runners_endRun_routed _ _ _ _) (by simp [Phase.outgoing])
  | passed r uuid s id raw rest m hphase hroute =>
    obtain ⟨-, hraw, -⟩ := ((hplaced r).paging s _ hphase).head
    refine .handle r uuid _ raw s none rfl (List.mem_of_getElem? hraw) hroute ?_ ?_ fun q hq =>
      setRunner_of_ne hq _
    · rw [routed, setRunner_self]
      rfl
    · rw [routed, setRunner_self]
  | issued r uuid s id raw rest m p hphase hroute =>
    obtain ⟨-, hraw, -⟩ := ((hplaced r).paging s _ hphase).head
    refine .handle r uuid _ raw s (some p) rfl (List.mem_of_getElem? hraw) hroute ?_ ?_ fun q hq =>
      setRunner_of_ne hq _
    · rw [routed, setRunner_self]
      rfl
    · rw [routed, setRunner_self]
  | nextStream r uuid s t hphase => exact hset (by simp) rfl rfl (by simp [Phase.outgoing])
  | sleep r uuid s hphase => exact hset (by simp) rfl rfl (by simp [Phase.outgoing])
  | finish r uuid hterminal => exact hset (by simp) rfl rfl fun _ => id
  | stop r => exact .other (by simp) rfl fun _ _ => id
  | fail r e => exact hset (by simp) rfl rfl fun _ => id
  | crash r hphase => exact hset (by simp) rfl rfl fun _ => id

/-- The event that a status stands for is on its stream, or a run is about to publish it. -/
structure EvidenceInv (orders : ρ → Order F) (w : World ρ F) : Prop where
  causes : CauseInv orders w
  evident : ∀ q, (w.runners q).phase ≠ .unstarted →
    ∀ s kind, (w.memory.orders q).status.evidence = some (s, kind) →
      w.On s kind (orders q).orderId ∨ s = .orders ∧ w.Awaited kind (orders q).orderId

theorem evidenceInv_fresh (orders : ρ → Order F) (orderSvc : ρ → ℕ) :
    EvidenceInv orders (fresh orders orderSvc) where
  causes := causeInv_fresh orders orderSvc
  evident _ hq := absurd rfl hq

/-- A run that starts is about to publish its `OrderCreated`. -/
theorem awaited_started {r : ρ} (hend : (w.runners r).ending = none) :
    (w.started r).Awaited "OrderCreated" (w.memory.orders r).orderId := by
  refine ⟨r, _, ?_, ?_, rfl, (OrderService.names_publishCreated
    (OrderService.createOrder (w.runners r).orderSvc w.memory r) r _ _).mpr ⟨rfl, rfl⟩⟩
  · rw [started, setPhase, setRunner_self]
    exact hend
  · rw [started, setPhase, setRunner_self]
    rfl

theorem status_started (r q : ρ) : ((w.started r).memory.orders q).status =
    if q = r then .paymentProcessing else (w.memory.orders q).status :=
  Memory.setStatus_status _ _ _ _

theorem EvidenceInv.substep (hi : EvidenceInv orders w) (hpoised : w.Poised a)
    (hspared : w.Spared a) (h : Substep w a w') : EvidenceInv orders w' where
  causes := hi.causes.substep h
  evident q hq s kind hstatus := by
    have hkept (hq : (w.runners q).phase ≠ .unstarted)
        (hsame : (w'.memory.orders q).status = (w.memory.orders q).status) :
        w'.On s kind (orders q).orderId ∨ s = .orders ∧ w'.Awaited kind (orders q).orderId := by
      rw [hsame] at hstatus
      rcases hi.evident q hq s kind hstatus with hon | ⟨rfl, hawaited⟩
      · exact Or.inl (hon.grow h.grow)
      · exact (h.awaited hpoised hspared hawaited).imp_right fun h => ⟨rfl, h⟩
    cases h.deed hi.causes.placed with
    | start r ha hself =>
      subst ha hself
      rw [status_started] at hstatus
      by_cases hqr : q = r
      · rw [if_pos hqr] at hstatus
        cases hstatus
        rw [hqr, ← (hi.causes.same r).1]
        exact Or.inr ⟨rfl, awaited_started hpoised⟩
      · refine hkept ((h.started_or hq).resolve_right fun ha => ?_) ?_
        · exact hqr (Action.start.inj ha).symm
        · rw [status_started, if_neg hqr]
    | handle r uuid svc raw t out ha hraw hrouted hout hend =>
      subst ha
      have hq := (h.started_or hq).resolve_right (by simp)
      rcases hrouted.evidence (fun key q hkey => (hi.causes.keyed svc key q hkey).1) hstatus with
        hsame | ⟨rfl, hn⟩ | ⟨rfl, p, rfl, hstream, hn⟩
      · exact hkept hq hsame
      · rw [(hi.causes.same q).1] at hn
        exact Or.inl ⟨raw, (h.grow _).subset hraw, hn⟩
      · rw [(hi.causes.same q).1] at hn
        exact Or.inr ⟨rfl, r, p, hend.trans hpoised.1, hout, hstream, hn⟩
    | other ha hmemory =>
      exact hkept ((h.started_or hq).resolve_right (ha q)) (by rw [hmemory])

theorem EvidenceInv.step (hi : EvidenceInv orders w) (hspared : w.Spared a)
    (h : World.step w a = some w') : EvidenceInv orders w' := by
  have hsteps (ha : ∀ u : World ρ F, u.Spared a) : EvidenceInv orders w' :=
    step_invariant_of_poised (fun u v hu hpoised hsub => hu.substep hpoised (ha u) hsub) hi h
  cases a with
  | start r => exact hsteps fun _ => trivial
  | serve r => exact hsteps fun _ => trivial
  | resume r uuid => exact hsteps fun _ => trivial
  | stop r => exact hsteps fun _ => trivial
  | fail r e =>
    simp only [World.step] at h
    split_ifs at h with hc
    cases h
    have hpoised : w.Poised (.fail r e) := hc.1
    exact hi.substep hpoised hspared (.fail r e)
  | crash r =>
    simp only [World.step] at h
    split_ifs at h with hc
    cases h
    have hpoised : w.Poised (.crash r) := hc.1
    exact hi.substep hpoised hspared
      (.crash r fun hphase => hc.2 (isUnstarted_eq_true.mpr hphase))

theorem EvidenceInv.backed (hi : EvidenceInv orders w) (hquiet : w.Quiet) : w.Backed := by
  intro svc key q hkey s kind hstatus
  rw [(hi.causes.same q).1]
  rcases hi.evident q (hi.causes.keyed svc key q hkey).2 s kind hstatus with
    hon | ⟨-, r, p, hend, hp, -⟩
  · exact hon
  · rw [hquiet r hend] at hp
    cases hp

theorem CauseInv.created_of_outcome (hi : CauseInv orders w) (nonpos : Bool) {o : String}
    (h : w.On .payments (if nonpos then "PaymentFailed" else "PaymentProcessed") o) :
    w.On .orders "OrderCreated" o := by
  obtain ⟨raw, hraw, hn⟩ := h
  obtain ⟨cause, hmem, hcreated⟩ := (hi.entries .payments raw hraw _ _ hn).creation
  exact ⟨cause, hmem, hcreated.1⟩

/-- An order leaves `PAYMENT_PROCESSING` only behind its `OrderCreated`, and never `CANCELLED`. -/
theorem CauseInv.ahead_kept (hi : CauseInv orders w)
    (hids : Function.Injective fun q => (orders q).orderId) (h : Substep w a w') {q : ρ}
    (hq : (w.runners q).phase ≠ .unstarted) {kind : String}
    (hstatus : (w.memory.orders q).status.evidence = some (.orders, kind)) :
    w.On .orders kind (orders q).orderId ∨
      (w'.memory.orders q).status.evidence = some (.orders, kind) := by
  generalize hold : (w.memory.orders q).status = status at hstatus
  cases status with
  | paymentProcessing =>
    cases hstatus
    rcases hi.next_status h hq with hsame | ⟨-, hp⟩ | ⟨-, hf⟩ | ⟨-, hs⟩
    · rw [hsame, hold]
      exact Or.inr rfl
    · exact Or.inl (hi.created_of_outcome false hp)
    · exact Or.inl (hi.created_of_outcome true hf)
    · exact Or.inl (hi.created_of_outcome false (hi.paid_of_shipped hs))
  | cancelled =>
    rw [cancelled_substep hi hids h hq hold]
    exact Or.inr hstatus
  | pending => cases hstatus
  | paid => cases hstatus
  | shipped => cases hstatus
  | completed => cases hstatus

theorem Keyed.get?_started (hkeyed : Keyed w)
    (hids : Function.Injective fun q => (w.memory.orders q).orderId) {r q : ρ}
    (hphase : (w.runners r).phase = .unstarted) {svc : ℕ} {key : String}
    (hq : get? (w.memory.tables svc) key = some q) :
    get? ((w.started r).memory.tables svc) key = some q := by
  have hne : (w.memory.orders r).orderId ≠ key := by
    intro he
    obtain ⟨hkey, hstarted⟩ := hkeyed svc key q hq
    obtain rfl : q = r := hids (hkey.trans he.symm)
    exact hstarted hphase
  by_cases hsvc : (w.runners r).orderSvc = svc
  · rw [get?_tables_started_eq hsvc, if_neg hne, hq]
  · change get? (Function.update w.memory.tables _ _ svc) key = some q
    rw [Function.update_of_ne (Ne.symm hsvc), hq]

/-- While a run waits to add an event to the orders stream, the event is there, or the order in the
service has the status that stands for it. -/
structure AheadInv (orders : ρ → Order F) (w : World ρ F) : Prop where
  causes : CauseInv orders w
  ahead : ∀ r p, (w.runners r).phase.outgoing = some p → p.stream = .orders →
    ∀ kind o, Names kind o p.fields → w.On .orders kind o ∨
      ∃ svc q, get? (w.memory.tables svc) o = some q ∧
        (w.memory.orders q).status.evidence = some (.orders, kind)

theorem aheadInv_fresh (orders : ρ → Order F) (orderSvc : ρ → ℕ) :
    AheadInv orders (fresh orders orderSvc) where
  causes := causeInv_fresh orders orderSvc
  ahead r p hp := by cases hp

theorem AheadInv.substep (hi : AheadInv orders w)
    (hids : Function.Injective fun q => (orders q).orderId) (h : Substep w a w') :
    AheadInv orders w' where
  causes := hi.causes.substep h
  ahead r p hp hstream kind o hn := by
    have hkept (hp : (w.runners r).phase.outgoing = some p)
        (htables : ∀ svc q, get? (w.memory.tables svc) o = some q →
          get? (w'.memory.tables svc) o = some q) :
        w'.On .orders kind o ∨ ∃ svc q, get? (w'.memory.tables svc) o = some q ∧
          (w'.memory.orders q).status.evidence = some (.orders, kind) := by
      rcases hi.ahead r p hp hstream kind o hn with hon | ⟨svc, q, hq, hstatus⟩
      · exact Or.inl (hon.grow h.grow)
      · obtain ⟨hkey, hstarted⟩ := hi.causes.keyed svc o q hq
        rw [(hi.causes.same q).1] at hkey
        rcases hi.causes.ahead_kept hids h hstarted hstatus with hon | hstatus
        · rw [hkey] at hon
          exact Or.inl (hon.grow h.grow)
        · exact Or.inr ⟨svc, q, htables svc q hq, hstatus⟩
    cases h.deed hi.causes.placed with
    | start r' ha hself =>
      subst ha hself
      by_cases hr : r = r'
      · subst hr
        rw [started, setPhase, setRunner_self] at hp
        cases hp
        obtain ⟨rfl, rfl⟩ := (OrderService.names_publishCreated _ r kind o).mp hn
        refine Or.inr ⟨(w.runners r).orderSvc, r, ?_, ?_⟩
        · rw [get?_tables_started_eq rfl]
          exact if_pos rfl
        · rw [status_started, if_pos rfl]
          rfl
      · rw [started, setPhase, setRunner_of_ne hr] at hp
        refine hkept hp fun svc q hq => hi.causes.keyed.get?_started ?_ h.unstarted_of_start hq
        exact fun p q hpq => hids (by simpa only [(hi.causes.same _).1] using hpq)
    | handle r' uuid svc raw t out ha hraw hrouted hout hend hother =>
      by_cases hr : r = r'
      · subst hr
        obtain rfl := hout.symm.trans hp
        obtain ⟨q, hq, hstatus⟩ := hrouted.ahead hstream hn fun key q hkey =>
          (hi.causes.keyed svc key q hkey).1
        exact Or.inr ⟨svc, q, hq, hstatus⟩
      · rw [hother r hr] at hp
        refine hkept hp fun svc q hq => ?_
        rw [hrouted.tables_eq, hq]
    | other ha hmemory hout =>
      refine hkept (hout r p hp) fun svc q hq => ?_
      rw [hmemory, hq]

/-- An `XADD` that is broken off leaves the order ahead of the orders stream. -/
theorem AheadInv.not_backed (hi : AheadInv orders w) (hspared : ¬ w.Spared a)
    (h : World.step w a = some w') : ¬ w'.Backed := by
  have hleft {r : ρ} (ending : Ending) (hr : ¬ w.Repeats r) : ¬ (w.endRun r ending).Backed := by
    intro hbacked
    apply hr
    intro p hp hstream kind o hn
    rcases hi.ahead r p hp hstream kind o hn with hon | ⟨svc, q, hq, hstatus⟩
    · exact hon
    · have hon := hbacked svc o q hq .orders kind hstatus
      rw [← (hi.causes.keyed svc o q hq).1]
      exact hon
  cases a with
  | start r => exact absurd trivial hspared
  | serve r => exact absurd trivial hspared
  | resume r uuid => exact absurd trivial hspared
  | stop r => exact absurd trivial hspared
  | fail r e =>
    simp only [World.step] at h
    split_ifs at h
    cases h
    exact hleft _ hspared
  | crash r =>
    simp only [World.step] at h
    split_ifs at h
    cases h
    exact hleft _ hspared

/-- Any number of runs share the streams, and what they wait for may fail. As long as no `XADD` to the
orders stream is broken off whose event is not there yet, the status of an order is backed by the
streams whenever no service method is running. With distinct order ids, the first action that does
break one off leaves a status that is not. -/
theorem status_backed (orders : ρ → Order F) (orderSvc : ρ → ℕ) (acts : List (Action ρ))
    (hrun : run World.step (fresh orders orderSvc) acts = some w)
    (hspared : Along World.step Spared (fresh orders orderSvc) acts) :
    (w.Quiet → w.Backed) ∧
      (Function.Injective (fun q => (orders q).orderId) → ∀ a w', World.step w a = some w' →
        w'.Quiet → (w'.Backed ↔ w.Spared a)) := by
  have hi : EvidenceInv orders w :=
    run_invariant (fun _ _ _ hu hs h => hu.step hs h) (evidenceInv_fresh orders orderSvc) hspared hrun
  refine ⟨hi.backed, fun hids a w' h hquiet => ⟨fun hbacked => ?_, fun hs => ?_⟩⟩
  · have hahead : AheadInv orders w :=
      run_invariant_of_substep (fun _ _ _ h hsub => h.substep hids hsub)
        (aheadInv_fresh orders orderSvc) hrun
    by_contra hs
    exact hahead.not_backed hs h hbacked
  · exact (hi.step hs h).backed hquiet

end World

def connectionError : PyExc := ⟨"ConnectionError", "Connection closed by server."⟩

def unpaid (_ : Fin 1) : Order Whole where
  orderId := "ord-0"
  customerId := "c-1"
  amount := ⟨0⟩

/-- A failed `publish_created` leaves an order in `PAYMENT_PROCESSING` of which no stream knows, and
a failed compensation a cancelled order without its `OrderCancelled`. -/
theorem status_ahead_of_streams :
    (∃ w, run World.step (World.fresh (orderOf (n := 1)) fun _ => 0)
        [.start 0, .fail 0 connectionError] = some w ∧ w.Quiet ∧
      OrderService.getOrder 0 w.memory "ord-0" = some 0 ∧
      (w.memory.orders 0).status = .paymentProcessing ∧ ¬ w.On .orders "OrderCreated" "ord-0") ∧
    ∃ w, run World.step (World.fresh unpaid fun _ => 0)
        (alone 0 4 ++ [.fail 0 connectionError]) = some w ∧ w.Quiet ∧
      OrderService.getOrder 0 w.memory "ord-0" = some 0 ∧
      (w.memory.orders 0).status = .cancelled ∧ ¬ w.On .orders "OrderCancelled" "ord-0" := by
  refine ⟨⟨_, rfl, fun r hend => ?_, rfl, rfl, ?_⟩, _, rfl, fun r hend => ?_, rfl, rfl, ?_⟩
  · obtain rfl : r = 0 := Subsingleton.elim r 0
    cases hend
  · rintro ⟨raw, hraw, -⟩
    cases hraw
  · obtain rfl : r = 0 := Subsingleton.elim r 0
    cases hend
  · rintro ⟨raw, hraw, hn⟩
    obtain rfl := List.mem_singleton.mp hraw
    revert hn
    decide

/-- A failed `XADD` to the payments stream aborts the run and leaves its order backed. -/
theorem payment_fails_backed :
    ∃ w, run World.step (World.fresh (orderOf (n := 1)) fun _ => 0)
        (alone 0 2 ++ [.fail 0 connectionError]) = some w ∧
      (w.runners 0).ending = some (.brokerError connectionError) ∧ w.Backed := by
  obtain ⟨u, w, hu, hout, hw, hrun, hend⟩ : ∃ u w,
      run World.step (World.fresh (orderOf (n := 1)) fun _ => 0) (alone 0 2) = some u ∧
      ((u.runners 0).phase.outgoing.map Publish.stream) = some .payments ∧
      World.step u (.fail 0 connectionError) = some w ∧
      run World.step (World.fresh (orderOf (n := 1)) fun _ => 0)
        (alone 0 2 ++ [.fail 0 connectionError]) = some w ∧
      (w.runners 0).ending = some (.brokerError connectionError) := ⟨_, _, rfl, rfl, rfl, rfl, rfl⟩
  refine ⟨w, hrun, hend, (World.status_backed orderOf (fun _ => 0) _ hrun ?_).1 fun r hr => ?_⟩
  · rw [along_append]
    refine ⟨along_of_forall (fun a ha v => ?_) _, fun v hv => ?_⟩
    · simp only [alone, List.mem_cons, List.mem_flatten, List.mem_replicate] at ha
      rcases ha with rfl | ⟨l, ⟨-, rfl⟩, hal⟩
      · trivial
      · simp only [List.mem_cons, List.not_mem_nil, or_false] at hal
        rcases hal with rfl | rfl
        · trivial
        · trivial
    · obtain rfl : u = v := Option.some.inj (hu.symm.trans hv)
      refine ⟨fun p hp hstream => ?_, fun _ _ => trivial⟩
      rw [hp, Option.map_some, hstream] at hout
      cases hout
  · obtain rfl : r = 0 := Subsingleton.elim r 0
    rw [hend] at hr
    cases hr

end Saga
