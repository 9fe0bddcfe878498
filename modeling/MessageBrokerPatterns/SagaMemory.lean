import MessageBrokerPatterns.SagaProgress

/-!
# What a step of a saga run does to the order objects

Handling a message changes the status of one order object at most: the one that the table of the
order service names for the order id of the event. A run that starts enters its own object into the
table of its service and sets its status. Nothing else about an order object ever changes.
-/

namespace Saga
open PyText PyDict RedisStream ActionRun
variable {ρ F : Type} [DecidableEq ρ]

theorem Memory.status_found {m : Memory ρ F} {svc : ℕ} {q : ρ} {o : String}
    (hkeyed : ∀ key r, get? (m.tables svc) key = some r → (m.orders r).orderId = key)
    (hq : get? (m.tables svc) o = some q) (key : String) (status : SagaStatus) :
    ((match OrderService.getOrder svc m key with
      | none => m
      | some r => m.setStatus r status).orders q).status =
      if key = o then status else (m.orders q).status := by
  by_cases hkey : key = o
  · subst hkey
    rw [OrderService.getOrder, hq, if_pos rfl, Memory.setStatus_status, if_pos rfl]
  · rw [if_neg hkey]
    split
    · rfl
    · rename_i r hr
      have hne : q ≠ r := by
        rintro rfl
        exact hkey ((hkeyed key q hr).symm.trans (hkeyed o q hq))
      rw [Memory.setStatus_status, if_neg hne]

variable [PyFloat F]

/-- The event that sets a status, and the stream on which it is handled. -/
def Decides (s : Stream) (key : String) (raw : Fields) : SagaStatus → Prop
  | .paid => s = .payments ∧ Names "PaymentProcessed" key raw
  | .cancelled => s = .payments ∧ Names "PaymentFailed" key raw
  | .completed => s = .shipping ∧ Names "OrderShipped" key raw
  | _ => False

theorem Routed.memory_cases {svc : ℕ} {uuid : String} {m m' : Memory ρ F} {raw : Fields}
    {s : Stream} {out : Option Publish} (h : Routed svc uuid m raw s m' out) :
    m' = m ∨ ∃ q key status, get? (m.tables svc) key = some q ∧ m' = m.setStatus q status ∧
      Decides s key raw status := by
  cases h with
  | ignored s hkind => exact Or.inl rfl
  | created data event p hdata hevent hraw hp => exact Or.inl rfl
  | processed event hraw =>
    unfold OrderService.handlePaymentProcessed
    split
    · exact Or.inl rfl
    · rename_i q hq
      exact Or.inr ⟨q, _, .paid, hq, rfl, rfl, hraw⟩
  | failed event hraw =>
    unfold OrderService.handlePaymentFailed
    split
    · exact Or.inl rfl
    · rename_i q hq
      exact Or.inr ⟨q, _, .cancelled, hq, rfl, rfl, hraw⟩
  | shipped event hraw =>
    unfold OrderService.handleOrderShipped
    split
    · exact Or.inl rfl
    · rename_i q hq
      exact Or.inr ⟨q, _, .completed, hq, rfl, rfl, hraw⟩

theorem Routed.tables_eq {svc : ℕ} {uuid : String} {m m' : Memory ρ F} {raw : Fields} {s : Stream}
    {out : Option Publish} (h : Routed svc uuid m raw s m' out) : m'.tables = m.tables := by
  rcases h.memory_cases with hm | ⟨q, key, status, -, hm, -⟩
  · rw [hm]
  · rw [hm, Memory.setStatus_tables]

namespace World
variable {w w' : World ρ F} {a : Action ρ}

/-- What a single step does to the order objects: a run starts with its own, or the handling of an
entry changes them, or they stay as they are. -/
theorem Substep.memory_cases (hplaced : ∀ q, Placed ρ F w.streams (w.runners q))
    (h : Substep w a w') :
    (∃ r, a = .start r ∧ w'.memory = (w.started r).memory) ∨ (∀ r, a ≠ .start r) ∧
      (w'.memory = w.memory ∨ ∃ (svc : ℕ) (uuid : String) (raw : Fields) (s : Stream)
        (out : Option Publish), raw ∈ w.streams s ∧
          Routed svc uuid w.memory raw s w'.memory out) := by
  cases h with
  | start r hphase => exact Or.inl ⟨r, rfl, rfl⟩
  | passed r uuid s id raw rest m hphase hroute =>
    obtain ⟨-, hraw, -⟩ := ((hplaced r).paging s _ hphase).head
    exact Or.inr ⟨by simp, Or.inr ⟨_, _, raw, s, _, List.mem_of_getElem? hraw, hroute⟩⟩
  | issued r uuid s id raw rest m p hphase hroute =>
    obtain ⟨-, hraw, -⟩ := ((hplaced r).paging s _ hphase).head
    exact Or.inr ⟨by simp, Or.inr ⟨_, _, raw, s, _, List.mem_of_getElem? hraw, hroute⟩⟩
  | created r p hphase => exact Or.inr ⟨by simp, Or.inl rfl⟩
  | consumed r s hphase => exact Or.inr ⟨by simp, Or.inl rfl⟩
  | published r s rest p hphase => exact Or.inr ⟨by simp, Or.inl rfl⟩
  | leave r uuid hphase hstop => exact Or.inr ⟨by simp, Or.inl rfl⟩
  | enter r uuid hphase hstop => exact Or.inr ⟨by simp, Or.inl rfl⟩
  | raised r uuid s id raw rest e hphase => exact Or.inr ⟨by simp, Or.inl rfl⟩
  | nextStream r uuid s t hphase => exact Or.inr ⟨by simp, Or.inl rfl⟩
  | sleep r uuid s hphase => exact Or.inr ⟨by simp, Or.inl rfl⟩
  | finish r uuid hterminal => exact Or.inr ⟨by simp, Or.inl rfl⟩
  | stop r => exact Or.inr ⟨by simp, Or.inl rfl⟩
  | fail r e => exact Or.inr ⟨by simp, Or.inl rfl⟩
  | crash r hphase => exact Or.inr ⟨by simp, Or.inl rfl⟩

theorem Substep.order_eq (hplaced : ∀ q, Placed ρ F w.streams (w.runners q))
    (h : Substep w a w') (q : ρ) :
    (w'.memory.orders q).orderId = (w.memory.orders q).orderId ∧
      (w'.memory.orders q).amount = (w.memory.orders q).amount := by
  rcases h.memory_cases hplaced with
    ⟨r, -, hm⟩ | ⟨-, hm | ⟨svc, uuid, raw, s, out, -, hrouted⟩⟩
  · rw [hm]
    exact ⟨Memory.setStatus_orderId _ _ _ _, Memory.setStatus_amount _ _ _ _⟩
  · rw [hm]
    exact ⟨rfl, rfl⟩
  · rcases hrouted.memory_cases with hm | ⟨p, key, status, -, hm, -⟩
    · rw [hm]
      exact ⟨rfl, rfl⟩
    · rw [hm]
      exact ⟨Memory.setStatus_orderId _ _ _ _, Memory.setStatus_amount _ _ _ _⟩

theorem Substep.orderId (hplaced : ∀ q, Placed ρ F w.streams (w.runners q))
    (h : Substep w a w') (q : ρ) :
    (w'.memory.orders q).orderId = (w.memory.orders q).orderId := (h.order_eq hplaced q).1

/-- The status of an order object changes when its run starts, and when an event for its id is
handled. -/
theorem Substep.status_cases (hplaced : ∀ q, Placed ρ F w.streams (w.runners q))
    (h : Substep w a w') (q : ρ) :
    ((∀ r, a = .start r → r ≠ q) ∧ (w'.memory.orders q).status = (w.memory.orders q).status) ∨
    (a = .start q ∧ (w'.memory.orders q).status = .paymentProcessing) ∨
    ∃ svc key s raw, get? (w.memory.tables svc) key = some q ∧ raw ∈ w.streams s ∧
      Decides s key raw (w'.memory.orders q).status := by
  rcases h.memory_cases hplaced with
    ⟨r, rfl, hm⟩ | ⟨hne, hm | ⟨svc, uuid, raw, s, out, hraw, hrouted⟩⟩
  · have hstatus : (w'.memory.orders q).status =
        if q = r then .paymentProcessing else (w.memory.orders q).status := by
      rw [hm]
      exact Memory.setStatus_status _ _ _ _
    by_cases hq : q = r
    · subst hq
      rw [if_pos rfl] at hstatus
      exact Or.inr (Or.inl ⟨rfl, hstatus⟩)
    · rw [if_neg hq] at hstatus
      refine Or.inl ⟨fun r' hr' => ?_, hstatus⟩
      rw [← Action.start.inj hr']
      exact Ne.symm hq
  · rw [hm]
    exact Or.inl ⟨fun r hr => absurd hr (hne r), rfl⟩
  · rcases hrouted.memory_cases with hm | ⟨p, key, status, hkey, hm, hdecides⟩
    · rw [hm]
      exact Or.inl ⟨fun r hr => absurd hr (hne r), rfl⟩
    · rw [hm, Memory.setStatus_status]
      by_cases hq : q = p
      · subst hq
        rw [if_pos rfl]
        exact Or.inr (Or.inr ⟨svc, key, s, raw, hkey, hraw, hdecides⟩)
      · rw [if_neg hq]
        exact Or.inl ⟨fun r hr => absurd hr (hne r), rfl⟩

/-- What a step can make of the phase of a started run: one that waits for no `XADD`, or the wait for
the answer to the message at the head of its page. -/
def Turned (w : World ρ F) (phase phase' : Phase) : Prop :=
  phase ≠ .unstarted ∧ phase' ≠ .unstarted ∧ (phase'.outgoing = none ∨
    ∃ (svc : ℕ) (uuid : String) (s : Stream) (id : ℕ) (raw : Fields) (rest : List (ℕ × Fields))
      (m : Memory ρ F) (p : Publish), phase = .paging s ((id, raw) :: rest) ∧
        phase' = .publishing s rest p ∧ Routed svc uuid w.memory raw s m (some p))

theorem Turned.not_creating {phase phase' : Phase} (h : Turned w phase phase') (p : Publish) :
    phase' ≠ .creating p := by
  rintro rfl
  rcases h.2.2 with hnone | ⟨svc, uuid, s, id, raw, rest, m, p', -, hp, -⟩
  · cases hnone
  · cases hp

theorem Substep.phase_cases (h : Substep w a w') (q : ρ) :
    (w'.runners q).phase = (w.runners q).phase ∨
    (a = .start q ∧ (w'.runners q).phase = .creating (OrderService.publishCreated
      (OrderService.createOrder (w.runners q).orderSvc w.memory q) q).2) ∨
    Turned w (w.runners q).phase (w'.runners q).phase := by
  have hset {u : World ρ F} {r : ρ} {k : Runner} (hu : u.runners = (w.setRunner r k).runners)
      (hk : k.phase = (w.runners r).phase ∨ Turned w (w.runners r).phase k.phase) :
      (u.runners q).phase = (w.runners q).phase ∨
      (a = .start q ∧ (u.runners q).phase = .creating (OrderService.publishCreated
        (OrderService.createOrder (w.runners q).orderSvc w.memory q) q).2) ∨
      Turned w (w.runners q).phase (u.runners q).phase := by
    rw [hu]
    by_cases hq : q = r
    · rw [hq, setRunner_self]
      exact hk.imp_right Or.inr
    · rw [setRunner_of_ne hq]
      exact Or.inl rfl
  cases h with
  | start r hphase =>
    by_cases hq : q = r
    · subst hq
      refine Or.inr (Or.inl ⟨rfl, ?_⟩)
      rw [started, setPhase, setRunner_self]
    · rw [started, setPhase, setRunner_of_ne hq]
      exact Or.inl rfl
  | created r p hphase => exact hset rfl (Or.inr (by simp [Turned, hphase, Phase.outgoing]))
  | consumed r s hphase => exact hset rfl (Or.inr (by simp [Turned, hphase, Phase.outgoing]))
  | published r s rest p hphase => exact hset rfl (Or.inr (by simp [Turned, hphase, Phase.outgoing]))
  | leave r uuid hphase hstop => exact hset rfl (Or.inl rfl)
  | enter r uuid hphase hstop => exact hset rfl (Or.inr (by simp [Turned, hphase, Phase.outgoing]))
  | raised r uuid s id raw rest e hphase =>
    exact hset (runners_endRun_routed _ _ _ _)
      (Or.inr (by simp [Turned, hphase, Phase.outgoing]))
  | passed r uuid s id raw rest m hphase hroute =>
    exact hset rfl (Or.inr (by simp [Turned, hphase, Phase.outgoing]))
  | issued r uuid s id raw rest m p hphase hroute =>
    refine hset rfl (Or.inr ⟨by simp [hphase], by simp, Or.inr ?_⟩)
    exact ⟨_, uuid, s, id, raw, rest, m, p, hphase, rfl, hroute⟩
  | nextStream r uuid s t hphase => exact hset rfl (Or.inr (by simp [Turned, hphase, Phase.outgoing]))
  | sleep r uuid s hphase => exact hset rfl (Or.inr (by simp [Turned, hphase, Phase.outgoing]))
  | finish r uuid hterminal => exact hset rfl (Or.inl rfl)
  | stop r => exact Or.inl rfl
  | fail r e => exact hset rfl (Or.inl rfl)
  | crash r hphase => exact hset rfl (Or.inl rfl)

theorem Substep.started_mono (h : Substep w a w') {q : ρ}
    (hq : (w.runners q).phase ≠ .unstarted) : (w'.runners q).phase ≠ .unstarted := by
  rcases h.phase_cases q with hsame | ⟨-, hcreating⟩ | hturned
  · rwa [hsame]
  · simp [hcreating]
  · exact hturned.2.1

theorem Substep.started_self {r : ρ} (h : Substep w (.start r) w') :
    (w'.runners r).phase ≠ .unstarted := by
  cases h with
  | start r hphase => simp [started, setPhase, setRunner_self]

theorem Substep.started_or (h : Substep w a w') {q : ρ}
    (hq : (w'.runners q).phase ≠ .unstarted) :
    (w.runners q).phase ≠ .unstarted ∨ a = .start q := by
  rcases h.phase_cases q with hsame | ⟨ha, -⟩ | hturned
  · exact Or.inl (hsame ▸ hq)
  · exact Or.inr ha
  · exact Or.inl hturned.1

/-- The table of the order service of a run after `create_order`. -/
theorem get?_tables_started_eq {svc : ℕ} {r : ρ} (hsvc : (w.runners r).orderSvc = svc)
    (key : String) : get? ((w.started r).memory.tables svc) key =
      if (w.memory.orders r).orderId = key then some r else get? (w.memory.tables svc) key := by
  subst hsvc
  change get? (Function.update w.memory.tables (w.runners r).orderSvc
    (assign (w.memory.tables (w.runners r).orderSvc) (w.memory.orders r).orderId r)
    (w.runners r).orderSvc) key = _
  rw [Function.update_self, get?_assign]

theorem get?_tables_started {svc : ℕ} {key : String} {q r : ρ}
    (h : get? ((w.started r).memory.tables svc) key = some q) :
    get? (w.memory.tables svc) key = some q ∨ (w.memory.orders r).orderId = key ∧ q = r := by
  by_cases hsvc : (w.runners r).orderSvc = svc
  · rw [get?_tables_started_eq hsvc] at h
    split_ifs at h with hkey
    · exact Or.inr ⟨hkey, (Option.some.inj h).symm⟩
    · exact Or.inl h
  · change get? (Function.update w.memory.tables (w.runners r).orderSvc
      (assign (w.memory.tables (w.runners r).orderSvc) (w.memory.orders r).orderId r) svc) key =
        some q at h
    rw [Function.update_of_ne (Ne.symm hsvc)] at h
    exact Or.inl h

/-- The tables lead to the orders of started runs, each under its order id. -/
def Keyed (w : World ρ F) : Prop :=
  ∀ svc key q, get? (w.memory.tables svc) key = some q →
    (w.memory.orders q).orderId = key ∧ (w.runners q).phase ≠ .unstarted

theorem Keyed.substep (h : Keyed w) (hplaced : ∀ q, Placed ρ F w.streams (w.runners q))
    (hsub : Substep w a w') : Keyed w' := by
  intro svc key q hkey
  rw [hsub.orderId hplaced]
  have hold (hkey : get? (w.memory.tables svc) key = some q) :
      (w.memory.orders q).orderId = key ∧ (w'.runners q).phase ≠ .unstarted :=
    (h svc key q hkey).imp_right hsub.started_mono
  rcases hsub.memory_cases hplaced with
    ⟨r, rfl, hm⟩ | ⟨-, hm | ⟨svc', uuid, raw, s, out, -, hrouted⟩⟩
  · rw [hm] at hkey
    rcases get?_tables_started hkey with hkey | ⟨hkey, rfl⟩
    · exact hold hkey
    · exact ⟨hkey, hsub.started_self⟩
  · rw [hm] at hkey
    exact hold hkey
  · rw [hrouted.tables_eq] at hkey
    exact hold hkey

end World
end Saga
