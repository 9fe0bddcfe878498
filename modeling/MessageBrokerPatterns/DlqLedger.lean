import MessageBrokerPatterns.DlqSolo
import MessageBrokerPatterns.DlqCharging

/-!
# The books of a single consumer

Every entry of the main stream has a status that is read off the server and the program counter of
the only consumer: it waits, it is pending, the handler has returned for it, its budget is
exhausted, it is being moved, or it is settled. The ledger fixes for each status how often the
handler has run on the entry, how that relates to the attempts counter, and how many of the
outcomes processed, skipped and dead-lettered the entry has had.
-/

namespace Dlq
open PyText PyDict RedisStream ActionRun

inductive Status where
  | waiting
  | pending
  | charged
  | exhausted (attempt : ℕ)
  | moving (attempt : ℕ)
  | settled

def Status.Row (st : Status) (budget spent handled settled : ℕ) : Prop :=
  match st with
  | .waiting => spent = 0 ∧ handled = 0 ∧ settled = 0
  | .pending => spent < budget ∧ handled = spent ∧ settled = 0
  | .charged => spent < budget ∧ handled = spent + 1 ∧ settled = 0
  | .exhausted attempt => attempt = budget ∧ handled = attempt ∧ settled = 0
  | .moving attempt => attempt = budget ∧ handled = attempt ∧ settled = 0
  | .settled => handled ≤ budget ∧ settled = 1

def Server.status (s : Server) (id : ℕ) : Status :=
  if s.main.delivered < id then .waiting
  else if (s.main.owner? id).isSome then .pending
  else .settled

/-- The status of the entry in hand, given what the server says of it. -/
def Stage.status (st : Status) : Stage → Status
  | .mark => .charged
  | .ack => .charged
  | .dlqAck _ attempt => .exhausted attempt
  | .dlqAdd _ attempt => .moving attempt
  | _ => st

def Consumer.status (k : Consumer) (s : Server) (id : ℕ) : Status :=
  match k.pc with
  | .busy m stage => if m.id = id then stage.status (s.status id) else s.status id
  | _ => s.status id

def Event.id : Event → ℕ
  | .handled _ id _ _ => id
  | .processed _ id _ => id
  | .skipped _ id _ => id
  | .deadLettered _ id _ _ _ => id
  | .lost _ id _ => id

def Event.payment : Event → Payment
  | .handled _ _ p _ => p
  | .processed _ _ p => p
  | .skipped _ _ p => p
  | .deadLettered _ _ p _ _ => p
  | .lost _ _ p => p

def Event.handles (id : ℕ) : Event → Bool
  | .handled _ i _ _ => i = id
  | _ => false

def Event.settles (id : ℕ) : Event → Bool
  | .processed _ i _ => i = id
  | .skipped _ i _ => i = id
  | .deadLettered _ i _ _ _ => i = id
  | _ => false

/-- The books of one entry: its counts, and the attempt count on its dead letter. -/
structure Ledger (k : Consumer) (s : Server) (tr : List Event) (id : ℕ) : Prop where
  row : (k.status s id).Row k.budget (k.spent id) (tr.countP (Event.handles id))
    (tr.countP (Event.settles id))
  dead : ∀ c p reason attempt, Event.deadLettered c id p reason attempt ∈ tr →
    attempt = k.budget ∧ tr.countP (Event.handles id) = attempt

namespace Consumer

theorem status_of_ne {k : Consumer} {s : Server} {id : ℕ}
    (h : ∀ m stage, k.pc = .busy m stage → m.id ≠ id) : k.status s id = s.status id := by
  unfold status
  split
  · rename_i m stage hpc
    rw [if_neg (h m stage hpc)]
  · rfl

theorem status_busy {k : Consumer} {m : Held} {stage : Stage} (hpc : k.pc = .busy m stage)
    (s : Server) : k.status s m.id = stage.status (s.status m.id) := by
  simp only [status, hpc, if_pos]

theorem status_forBatch (k : Consumer) (s : Server) (batch : List (ℕ × Fields)) (id : ℕ) :
    (k.forBatch batch).status s id = s.status id := by
  cases batch with
  | nil => rfl
  | cons e rest =>
    simp only [forBatch]
    split
    · simp [status, Stage.status]
    · rfl

end Consumer

theorem Server.status_congr {s s' : Server} {id : ℕ} (hd : s'.main.delivered = s.main.delivered)
    (ho : s'.main.owner? id = s.main.owner? id) : s'.status id = s.status id := by
  rw [status, status, hd, ho]

theorem Server.status_pending {s : Server} {id : ℕ} {c : String} (h : s.main.owner? id = some c) :
    s.status id = .pending := by
  have := (GroupStream.owner?_some_range h).2
  rw [status, if_neg (by omega), h]
  rfl

theorem Server.status_settled {s : Server} {id : ℕ} (hd : id ≤ s.main.delivered)
    (h : s.main.owner? id = none) : s.status id = .settled := by
  rw [status, if_neg (by omega), h]
  rfl

namespace Ledger
variable {k k' : Consumer} {s s' : Server} {tr evs : List Event} {id : ℕ}

theorem append (h : Ledger k s tr id) (hb : k'.budget = k.budget)
    (hrow : (k'.status s' id).Row k.budget (k'.spent id)
      (tr.countP (Event.handles id) + evs.countP (Event.handles id))
      (tr.countP (Event.settles id) + evs.countP (Event.settles id)))
    (hold : evs.countP (Event.handles id) = 0 ∨ tr.countP (Event.settles id) = 0)
    (hnew : ∀ c p reason attempt, Event.deadLettered c id p reason attempt ∈ evs →
      attempt = k.budget ∧ tr.countP (Event.handles id) + evs.countP (Event.handles id) = attempt) :
    Ledger k' s' (tr ++ evs) id := by
  refine ⟨by rwa [hb, List.countP_append, List.countP_append], ?_⟩
  intro c p reason attempt hmem
  rw [hb, List.countP_append]
  rcases List.mem_append.mp hmem with hmem | hmem
  · have hd := h.dead c p reason attempt hmem
    rcases hold with hz | hz
    · rw [hz]
      exact hd
    · exact absurd (by simp [Event.settles]) (List.countP_eq_zero.mp hz _ hmem)
  · exact hnew c p reason attempt hmem

theorem frame (h : Ledger k s tr id) (hb : k'.budget = k.budget)
    (hst : k'.status s' id = k.status s id) (hsp : k'.spent id = k.spent id)
    (hev : ∀ e ∈ evs, e.id ≠ id) : Ledger k' s' (tr ++ evs) id := by
  have hh : evs.countP (Event.handles id) = 0 := by
    rw [List.countP_eq_zero]
    intro e he
    have := hev e he
    cases e <;> simp_all [Event.handles, Event.id]
  have hs : evs.countP (Event.settles id) = 0 := by
    rw [List.countP_eq_zero]
    intro e he
    have := hev e he
    cases e <;> simp_all [Event.settles, Event.id]
  refine h.append hb ?_ (Or.inl hh) fun c p reason attempt hmem => absurd rfl (hev _ hmem)
  rw [hst, hsp, hh, hs]
  exact h.row

end Ledger

theorem Consumer.budget_pos (k : Consumer) : 0 < k.budget := by
  simp only [budget]
  omega

theorem Move.budget_eq {c : String} {k k' : Consumer} {s s' : Server} {evs : List Event}
    (h : Move c k s k' s' evs) : k'.budget = k.budget := by
  cases h <;> first
    | rfl
    | exact Consumer.budget_forBatch _ _

theorem Move.ledger_read {c : String} {k k' : Consumer} {s : Server} {tr : List Event} {n id : ℕ}
    (h : Ledger k s tr id) (hidle : ∀ m stage, k.pc ≠ .busy m stage)
    (hst : k'.status (s.readNew c n).2 id = (s.readNew c n).2.status id)
    (hsp : k'.spent id = k.spent id) (hb : k'.budget = k.budget) :
    Ledger k' (s.readNew c n).2 (tr ++ []) id := by
  have hold : k.status s id = s.status id :=
    Consumer.status_of_ne fun m stage hpc => absurd hpc (hidle m stage)
  have hd : (s.readNew c n).2.main.delivered = s.main.delivered + s.main.newCount n := rfl
  have ho : (s.readNew c n).2.main.owner? id =
      if s.main.delivered < id ∧ id ≤ s.main.delivered + s.main.newCount n then some c
      else s.main.owner? id := GroupStream.owner?_readNew c () n id
  by_cases hnew : s.main.delivered < id ∧ id ≤ s.main.delivered + s.main.newCount n
  · have hpend : k'.status (s.readNew c n).2 id = .pending := by
      rw [hst]
      exact Server.status_pending (ho.trans (if_pos hnew))
    have hrow := h.row
    rw [hold, Server.status, if_pos hnew.1] at hrow
    obtain ⟨hspent, hh, hs⟩ := hrow
    refine h.append hb ?_ (Or.inl rfl) (by simp)
    rw [hpend, hsp, hspent, hh, hs]
    exact ⟨k.budget_pos, rfl, rfl⟩
  · refine h.frame hb ?_ hsp (by simp)
    rw [hst, hold, Server.status, Server.status, hd, ho, if_neg hnew]
    by_cases hw : s.main.delivered < id
    · rw [if_pos hw, if_pos (by omega)]
    · rw [if_neg hw, if_neg (by omega)]

theorem Move.frame {c : String} {k k' : Consumer} {s s' : Server} {evs : List Event}
    (hm : Move c k s k' s' evs) {m : Held} {stage : Stage} (hpc : k.pc = .busy m stage) {id : ℕ}
    (hid : id ≠ m.id) :
    k'.status s' id = k.status s id ∧ k'.spent id = k.spent id ∧ ∀ e ∈ evs, e.id ≠ id := by
  have hbusy {l : Consumer} {stage' : Stage} {t : Server} (hl : l.pc = .busy m stage') :
      l.status t id = t.status id := by
    refine Consumer.status_of_ne fun n st hn => ?_
    obtain ⟨rfl, -⟩ := Pc.busy.inj (hl.symm.trans hn)
    exact hid.symm
  have hack : (s.ack m.id).status id = s.status id :=
    Server.status_congr rfl ((GroupStream.owner?_xack m.id id).trans (if_neg hid))
  rw [hbusy hpc]
  cases hm with
  | readNew hpc' _ => cases hpc.symm.trans hpc'
  | noNew hpc' _ => cases hpc.symm.trans hpc'
  | readPending hpc' _ => cases hpc.symm.trans hpc'
  | noPending hpc' _ => cases hpc.symm.trans hpc'
  | wake hpc' => cases hpc.symm.trans hpc'
  | hit n hpc' _ =>
    cases hpc.symm.trans hpc'
    exact ⟨hbusy rfl, rfl, by simp⟩
  | miss n hpc' _ =>
    cases hpc.symm.trans hpc'
    exact ⟨hbusy rfl, rfl, by simp⟩
  | skip n hpc' =>
    cases hpc.symm.trans hpc'
    exact ⟨(k.status_forBatch _ _ id).trans hack, k.spent_forBatch _ id,
      by simpa [Event.id] using hid.symm⟩
  | returns n hpc' =>
    cases hpc.symm.trans hpc'
    exact ⟨hbusy rfl, rfl, by simpa [Event.id] using hid.symm⟩
  | retry n exc hpc' _ =>
    cases hpc.symm.trans hpc'
    refine ⟨Consumer.status_forBatch _ _ _ id, ?_, by simpa [Event.id] using hid.symm⟩
    rw [Consumer.spent_forBatch, Consumer.spent_bump, if_neg hid]
  | exhaust n exc hpc' _ =>
    cases hpc.symm.trans hpc'
    refine ⟨hbusy rfl, ?_, by simpa [Event.id] using hid.symm⟩
    change (k.bump m.id).spent id = k.spent id
    rw [Consumer.spent_bump, if_neg hid]
  | mark n hpc' =>
    cases hpc.symm.trans hpc'
    exact ⟨hbusy rfl, rfl, by simp⟩
  | ack n hpc' =>
    cases hpc.symm.trans hpc'
    refine ⟨(Consumer.status_forBatch _ _ _ id).trans hack, ?_, by simpa [Event.id] using hid.symm⟩
    rw [Consumer.spent_forBatch]
    change (k.dropAttempts m.id).spent id = k.spent id
    rw [Consumer.spent_dropAttempts, if_neg hid]
  | dlqAck n reason attempt hpc' =>
    cases hpc.symm.trans hpc'
    exact ⟨(hbusy rfl).trans hack, rfl, by simp⟩
  | dlqAdd n reason attempt hpc' =>
    cases hpc.symm.trans hpc'
    refine ⟨Consumer.status_forBatch _ _ _ id, ?_, by simpa [Event.id] using hid.symm⟩
    rw [Consumer.spent_forBatch, Consumer.spent_dropAttempts, if_neg hid]

theorem Move.ledger_self {c : String} {k k' : Consumer} {s s' : Server} {evs : List Event}
    (hm : Move c k s k' s' evs) {m : Held} {stage : Stage} (hpc : k.pc = .busy m stage)
    (ho : m.Owned c s stage) {tr : List Event} (h : Ledger k s tr m.id) :
    Ledger k' s' (tr ++ evs) m.id := by
  have hrow := h.row
  rw [Consumer.status_busy hpc] at hrow
  have hpend (hst : stage.moving = false) : s.status m.id = .pending := by
    refine Server.status_pending (c := c) ?_
    rw [ho.owner, hst]
    rfl
  have hacked : (s.ack m.id).status m.id = .settled :=
    Server.status_settled ho.delivered ((GroupStream.owner?_xack m.id m.id).trans (if_pos rfl))
  have hnext {l : Consumer} {stage' : Stage} {t : Server} (hl : l.pc = .busy m stage')
      (ht : t.status m.id = .pending) : l.status t m.id = stage'.status .pending := by
    rw [Consumer.status_busy hl, ht]
  have hb := hm.budget_eq
  cases hm with
  | readNew hpc' _ => cases hpc.symm.trans hpc'
  | noNew hpc' _ => cases hpc.symm.trans hpc'
  | readPending hpc' _ => cases hpc.symm.trans hpc'
  | noPending hpc' _ => cases hpc.symm.trans hpc'
  | wake hpc' => cases hpc.symm.trans hpc'
  | hit n hpc' _ =>
    cases hpc.symm.trans hpc'
    rw [hpend rfl] at hrow
    refine h.append hb ?_ (Or.inl rfl) (by simp)
    rw [hnext rfl (hpend rfl)]
    exact hrow
  | miss n hpc' _ =>
    cases hpc.symm.trans hpc'
    rw [hpend rfl] at hrow
    refine h.append hb ?_ (Or.inl rfl) (by simp)
    rw [hnext rfl (hpend rfl)]
    exact hrow
  | skip n hpc' =>
    cases hpc.symm.trans hpc'
    rw [hpend rfl] at hrow
    obtain ⟨hspent, hhandled, hsettled⟩ := hrow
    refine h.append hb ?_ (Or.inr hsettled) (by simp)
    rw [Consumer.status_forBatch]
    change ((s.ack m.id).status m.id).Row _ _ _ _
    rw [hacked, hsettled]
    simp [Status.Row, Event.handles, Event.settles]
    omega
  | returns n hpc' =>
    cases hpc.symm.trans hpc'
    rw [hpend rfl] at hrow
    obtain ⟨hspent, hhandled, hsettled⟩ := hrow
    refine h.append hb ?_ (Or.inr hsettled) (by simp)
    have hone : [Event.handled c m.id m.payment none].countP (Event.handles m.id) = 1 := by
      simp [Event.handles]
    rw [hnext rfl (hpend rfl), hsettled, hhandled, hone]
    exact ⟨hspent, rfl, rfl⟩
  | retry n exc hpc' hlt =>
    cases hpc.symm.trans hpc'
    rw [hpend rfl] at hrow
    obtain ⟨hspent, hhandled, hsettled⟩ := hrow
    refine h.append hb ?_ (Or.inr hsettled) (by simp)
    have hlt' : k.spent m.id + 1 < k.budget := by
      simp only [Consumer.budget]
      omega
    rw [Consumer.status_forBatch, hpend rfl, Consumer.spent_forBatch, Consumer.spent_bump,
      if_pos rfl, hsettled, hhandled]
    simpa [Status.Row, Event.handles, Event.settles] using hlt'
  | exhaust n exc hpc' hge =>
    cases hpc.symm.trans hpc'
    rw [hpend rfl] at hrow
    obtain ⟨hspent, hhandled, hsettled⟩ := hrow
    refine h.append hb ?_ (Or.inr hsettled) (by simp)
    have heq : k.spent m.id + 1 = k.budget := by
      simp only [Consumer.budget] at hspent ⊢
      omega
    rw [hnext rfl (hpend rfl), hsettled, hhandled]
    simpa [Status.Row, Stage.status, Event.handles, Event.settles] using heq
  | mark n hpc' =>
    cases hpc.symm.trans hpc'
    refine h.append hb ?_ (Or.inl rfl) (by simp)
    rw [Consumer.status_busy rfl]
    exact hrow
  | ack n hpc' =>
    cases hpc.symm.trans hpc'
    obtain ⟨hspent, hhandled, hsettled⟩ := hrow
    refine h.append hb ?_ (Or.inr hsettled) (by simp)
    rw [Consumer.status_forBatch]
    change ((s.ack m.id).status m.id).Row _ _ _ _
    rw [hacked, hsettled]
    simp [Status.Row, Event.handles, Event.settles]
    omega
  | dlqAck n reason attempt hpc' =>
    cases hpc.symm.trans hpc'
    refine h.append hb ?_ (Or.inl rfl) (by simp)
    rw [Consumer.status_busy rfl]
    exact hrow
  | dlqAdd n reason attempt hpc' =>
    cases hpc.symm.trans hpc'
    obtain ⟨hattempt, hhandled, hsettled⟩ := hrow
    have hnone : (s.moveToDlqAdd m.payment reason attempt).status m.id = .settled :=
      Server.status_settled ho.delivered ho.owner
    refine h.append hb ?_ (Or.inr hsettled) ?_
    · rw [Consumer.status_forBatch, hnone, hsettled]
      simp [Status.Row, Event.handles, Event.settles]
      omega
    · intro c' p r a hmem
      cases List.mem_singleton.mp hmem
      exact ⟨hattempt, hhandled⟩

/-- Every step of a consumer keeps the books of every entry. -/
theorem Move.ledger {c : String} {k k' : Consumer} {s s' : Server} {evs : List Event}
    (hm : Move c k s k' s' evs) {tr : List Event} (hh : k.Holds c s) {id : ℕ}
    (h : Ledger k s tr id) : Ledger k' s' (tr ++ evs) id := by
  by_cases hbusy : ∃ m stage, k.pc = .busy m stage
  · obtain ⟨m, stage, hpc⟩ := hbusy
    by_cases hid : id = m.id
    · subst hid
      exact hm.ledger_self hpc (hh m stage hpc) h
    · obtain ⟨hst, hsp, hev⟩ := hm.frame hpc hid
      exact h.frame hm.budget_eq hst hsp hev
  · have hidle : ∀ m stage, k.pc ≠ .busy m stage := fun m stage hpc => hbusy ⟨m, stage, hpc⟩
    have hold : k.status s id = s.status id :=
      Consumer.status_of_ne fun m stage hpc => absurd hpc (hidle m stage)
    have hb := hm.budget_eq
    cases hm with
    | readNew hpc hne =>
      exact Move.ledger_read h hidle (k.status_forBatch _ _ id) (k.spent_forBatch _ id) hb
    | noNew hpc hnil => exact Move.ledger_read h hidle rfl rfl hb
    | readPending hpc hne =>
      refine h.frame hb ?_ (k.spent_forBatch _ id) (by simp)
      rw [Consumer.status_forBatch, hold]
      exact Server.status_congr rfl (GroupStream.owner?_readPending ..)
    | noPending hpc hnil =>
      refine h.frame hb ?_ rfl (by simp)
      rw [hold]
      exact Server.status_congr rfl (GroupStream.owner?_readPending ..)
    | wake hpc => exact h.frame hb hold.symm rfl (by simp)
    | hit m hpc _ => exact absurd hpc (hidle m _)
    | miss m hpc _ => exact absurd hpc (hidle m _)
    | skip m hpc => exact absurd hpc (hidle m _)
    | returns m hpc => exact absurd hpc (hidle m _)
    | retry m exc hpc _ => exact absurd hpc (hidle m _)
    | exhaust m exc hpc _ => exact absurd hpc (hidle m _)
    | mark m hpc => exact absurd hpc (hidle m _)
    | ack m hpc => exact absurd hpc (hidle m _)
    | dlqAck m _ _ hpc => exact absurd hpc (hidle m _)
    | dlqAdd m _ _ hpc => exact absurd hpc (hidle m _)

end Dlq
