import MessageBrokerPatterns.DlqAccounting
import Mathlib.Algebra.Order.BigOperators.Group.Finset
import Mathlib.Order.Interval.Finset.Nat

/-!
# One consumer works off the stream

A consumer that alone owns the pending list and whose handler is answered by an arbitrary oracle
reaches an idle iteration with nothing undelivered and nothing pending, provided that no entry
makes it raise. Every entry has potential: more than the whole budget while it is undelivered, what
is left of the budget while it is pending, nothing after that. A step lowers the total potential,
or keeps it and comes closer to the next step that does.
-/

namespace Dlq
open PyText PyDict RedisStream ActionRun

/-- The stage between the two commands of `move_to_dlq`. -/
def Stage.moving : Stage → Bool
  | .dlqAdd _ _ => true
  | _ => false

def Stage.rank : Stage → ℕ
  | .check => 8
  | .skipAck => 7
  | .handler => 7
  | .mark => 6
  | .ack => 5
  | .dlqAck _ _ => 6
  | .dlqAdd _ _ => 11

/-- The ids in hand are distinct and pending for `c`, except one that is just being moved. -/
structure Held.Owned (m : Held) (c : String) (s : Server) (stage : Stage) : Prop where
  nodup : (m.id :: m.rest.map Prod.fst).Nodup
  delivered : m.id ≤ s.main.delivered
  owner : s.main.owner? m.id = if stage.moving then none else some c
  rest : ∀ e ∈ m.rest, s.main.owner? e.1 = some c

def Consumer.Holds (c : String) (k : Consumer) (s : Server) : Prop :=
  ∀ m stage, k.pc = .busy m stage → m.Owned c s stage

/-- Everything on the pending list belongs to `c`. -/
def Server.OwnedBy (c : String) (s : Server) : Prop := ∀ id d, s.main.owner? id = some d → d = c

theorem Held.Owned.rest_ne {m : Held} {c : String} {s : Server} {stage : Stage}
    (h : m.Owned c s stage) {e : ℕ × Fields} (he : e ∈ m.rest) : e.1 ≠ m.id := by
  intro hid
  exact (List.nodup_cons.mp h.nodup).1 (List.mem_map.mpr ⟨e, he, hid⟩)

theorem Consumer.holds_forBatch (k : Consumer) {c : String} {s : Server} {batch : List (ℕ × Fields)}
    (hn : (batch.map Prod.fst).Nodup) (hb : ∀ e ∈ batch, s.main.owner? e.1 = some c) :
    (k.forBatch batch).Holds c s := by
  intro m stage hpc
  cases batch with
  | nil => cases hpc
  | cons e rest =>
    obtain ⟨id, f⟩ := e
    simp only [forBatch] at hpc
    split at hpc
    · cases hpc
      have hown := hb _ List.mem_cons_self
      exact ⟨hn, (GroupStream.owner?_some_range hown).2, hown,
        fun e he => hb e (List.mem_cons_of_mem _ he)⟩
    · cases hpc

theorem Consumer.Holds.stay {c : String} {k k' : Consumer} {s s' : Server} {m : Held}
    {stage stage' : Stage} (h : k.Holds c s) (hpc : k.pc = .busy m stage)
    (hpc' : k'.pc = .busy m stage') (hst : stage'.moving = stage.moving) (hs : s'.main = s.main) :
    k'.Holds c s' := by
  intro n st hn
  obtain ⟨rfl, rfl⟩ := Pc.busy.inj (hpc'.symm.trans hn)
  have ho := h m stage hpc
  exact ⟨ho.nodup, hs ▸ ho.delivered, by rw [hs, hst]; exact ho.owner, hs ▸ ho.rest⟩

theorem Consumer.Holds.rest_xack {c : String} {k : Consumer} {s : Server} {m : Held} {stage : Stage}
    (h : k.Holds c s) (hpc : k.pc = .busy m stage) :
    ∀ e ∈ m.rest, (s.main.xack m.id).owner? e.1 = some c := by
  intro e he
  have ho := h m stage hpc
  rw [GroupStream.owner?_xack, if_neg (ho.rest_ne he)]
  exact ho.rest e he

theorem Consumer.holds_idle {c : String} {k : Consumer} {s : Server}
    (h : ∀ m stage, k.pc ≠ .busy m stage) : k.Holds c s :=
  fun m stage hpc => absurd hpc (h m stage)

theorem Move.holds {c : String} {k k' : Consumer} {s s' : Server} {evs : List Event}
    (h : Move c k s k' s' evs) (hf : k.Holds c s) : k'.Holds c s' := by
  have hrest {m : Held} {stage : Stage} (hpc : k.pc = .busy m stage) :
      (m.rest.map Prod.fst).Nodup := (List.nodup_cons.mp (hf m stage hpc).nodup).2
  cases h with
  | readNew hpc hne =>
    refine k.holds_forBatch (GroupStream.nodup_newBatch _) fun e he => ?_
    change (s.main.readNew c () k.count).owner? e.1 = some c
    rw [GroupStream.owner?_readNew, if_pos (GroupStream.mem_newBatch.mp he).1]
  | noNew hpc hnil => exact Consumer.holds_idle (by simp)
  | readPending hpc hne =>
    have hn : ((s.main.pendingBatch c k.count).map Prod.fst).Nodup := by
      rw [GroupStream.map_fst_pendingBatch]
      exact GroupStream.nodup_ownIds c _
    refine k.holds_forBatch hn fun e he => ?_
    change (s.main.readPending c () k.count).owner? e.1 = some c
    rw [GroupStream.owner?_readPending]
    exact GroupStream.owner?_of_mem_ownIds (GroupStream.mem_pendingBatch.mp he).1
  | noPending hpc hnil => exact Consumer.holds_idle (by simp)
  | wake hpc => exact Consumer.holds_idle (by simp)
  | hit m hpc hp => exact hf.stay hpc rfl rfl rfl
  | miss m hpc hp => exact hf.stay hpc rfl rfl rfl
  | skip m hpc => exact k.holds_forBatch (hrest hpc) (hf.rest_xack hpc)
  | returns m hpc => exact hf.stay hpc rfl rfl rfl
  | retry m exc hpc hlt => exact Consumer.holds_forBatch _ (hrest hpc) (hf m _ hpc).rest
  | exhaust m exc hpc hge => exact hf.stay hpc rfl rfl rfl
  | mark m hpc => exact hf.stay hpc rfl rfl rfl
  | ack m hpc => exact Consumer.holds_forBatch _ (hrest hpc) (hf.rest_xack hpc)
  | dlqAck m reason attempt hpc =>
    intro n st hn
    obtain ⟨rfl, rfl⟩ := Pc.busy.inj hn
    have ho := hf m _ hpc
    refine ⟨ho.nodup, ho.delivered, ?_, hf.rest_xack hpc⟩
    change (s.main.xack m.id).owner? m.id = none
    rw [GroupStream.owner?_xack, if_pos rfl]
  | dlqAdd m reason attempt hpc =>
    exact Consumer.holds_forBatch _ (hrest hpc) (hf m _ hpc).rest

theorem Move.ownedBy {c : String} {k k' : Consumer} {s s' : Server} {evs : List Event}
    (h : Move c k s k' s' evs) (hown : s.OwnedBy c) : s'.OwnedBy c := by
  have hread (n : ℕ) : (s.readNew c n).2.OwnedBy c := by
    intro id d hd
    change (s.main.readNew c () n).owner? id = some d at hd
    rw [GroupStream.owner?_readNew] at hd
    split_ifs at hd
    · exact (Option.some.inj hd).symm
    · exact hown id d hd
  have hpend (n : ℕ) : (s.readPending c n).2.OwnedBy c := by
    intro id d hd
    change (s.main.readPending c () n).owner? id = some d at hd
    rw [GroupStream.owner?_readPending] at hd
    exact hown id d hd
  have hack (i : ℕ) : (s.ack i).OwnedBy c := by
    intro id d hd
    change (s.main.xack i).owner? id = some d at hd
    rw [GroupStream.owner?_xack] at hd
    split_ifs at hd
    exact hown id d hd
  cases h with
  | readNew hpc hne => exact hread _
  | noNew hpc hnil => exact hread _
  | readPending hpc hne => exact hpend _
  | noPending hpc hnil => exact hpend _
  | skip m hpc => exact hack m.id
  | ack m hpc => exact hack m.id
  | dlqAck m reason attempt hpc => exact hack m.id
  | _ => exact hown

namespace Consumer

/-- `max(1, max_attempts)`, the number of times a message may be handled. -/
def budget (k : Consumer) : ℕ := (max 1 k.maxAttempts).toNat

def remaining (k : Consumer) (s : Server) (id : ℕ) : ℕ :=
  if s.main.delivered < id then k.budget + 2
  else if (s.main.owner? id).isSome then k.budget - k.spent id + 1
  else 0

def work (k : Consumer) (s : Server) : ℕ :=
  ∑ id ∈ Finset.Icc 1 s.main.entries.length, k.remaining s id

/-- How many steps at most lie before the next one that lowers the work. -/
def rank (k : Consumer) (s : Server) : ℕ :=
  match k.pc with
  | .readPending => if s.main.delivered < s.main.entries.length then 12 else 9
  | .sleep => 11
  | .readNew => 10
  | .busy _ stage => stage.rank
  | .returned => 0
  | .raised _ => 0

def measure (k : Consumer) (s : Server) : ℕ := 13 * k.work s + k.rank s

theorem rank_le (k : Consumer) (s : Server) : k.rank s ≤ 12 := by
  have hst (stage : Stage) : stage.rank ≤ 12 := by cases stage <;> simp [Stage.rank]
  unfold rank
  split
  · split_ifs <;> omega
  all_goals first
    | exact hst _
    | omega

theorem rank_busy {k : Consumer} {m : Held} {stage : Stage} (hpc : k.pc = .busy m stage)
    (s : Server) : k.rank s = stage.rank := by
  simp only [rank, hpc]

theorem rank_forBatch_lt (k : Consumer) (s : Server) {batch : List (ℕ × Fields)}
    (h : batch ≠ []) : (k.forBatch batch).rank s < 9 := by
  cases batch with
  | nil => exact absurd rfl h
  | cons e rest =>
    simp only [forBatch]
    split
    · exact (by decide : 8 < 9)
    · exact Nat.zero_lt_succ _

theorem rank_forBatch_le (k : Consumer) (s : Server) (batch : List (ℕ × Fields)) :
    (k.forBatch batch).rank s ≤ 10 := by
  by_cases h : batch = []
  · subst h
    exact le_rfl
  · have := k.rank_forBatch_lt s h
    omega

@[simp] theorem spent_forBatch (k : Consumer) (batch : List (ℕ × Fields)) (id : ℕ) :
    (k.forBatch batch).spent id = k.spent id := by
  cases batch with
  | nil => rfl
  | cons e rest =>
    simp only [forBatch]
    split <;> rfl

@[simp] theorem budget_forBatch (k : Consumer) (batch : List (ℕ × Fields)) :
    (k.forBatch batch).budget = k.budget := by
  cases batch with
  | nil => rfl
  | cons e rest =>
    simp only [forBatch]
    split <;> rfl

theorem spent_bump (k : Consumer) (i id : ℕ) :
    (k.bump i).spent id = if id = i then k.spent i + 1 else k.spent id := by
  by_cases h : id = i
  · subst h
    simp [bump, spent]
  · simp [bump, spent, h]

theorem spent_dropAttempts (k : Consumer) (i id : ℕ) :
    (k.dropAttempts i).spent id = if id = i then 0 else k.spent id := by
  by_cases h : id = i
  · subst h
    simp [dropAttempts, spent]
  · simp [dropAttempts, spent, h]

theorem remaining_readNew (k : Consumer) (c : String) (s : Server) (n id : ℕ) :
    k.remaining (s.readNew c n).2 id =
      if s.main.delivered < id ∧ id ≤ s.main.delivered + s.main.newCount n then
        k.budget - k.spent id + 1
      else k.remaining s id := by
  simp only [remaining, Server.readNew, GroupStream.delivered_readNew, GroupStream.owner?_readNew]
  by_cases hid : s.main.delivered < id ∧ id ≤ s.main.delivered + s.main.newCount n
  · rw [if_neg (by omega), if_pos hid, if_pos hid]
    rfl
  · rw [if_neg hid, if_neg hid]
    by_cases hd : s.main.delivered < id
    · rw [if_pos (by omega), if_pos hd]
    · rw [if_neg (by omega), if_neg hd]

theorem remaining_le {k k' : Consumer} {s s' : Server} {id : ℕ} (hb : k'.budget = k.budget)
    (hd : s'.main.delivered = s.main.delivered)
    (ho : s'.main.owner? id = s.main.owner? id)
    (hs : s.main.owner? id ≠ none → k.spent id ≤ k'.spent id) :
    k'.remaining s' id ≤ k.remaining s id := by
  simp only [remaining, hb, hd, ho]
  split_ifs with h₁ h₂
  · exact le_rfl
  · have := hs (Option.isSome_iff_ne_none.mp h₂)
    omega
  · exact le_rfl

theorem work_le {k k' : Consumer} {s s' : Server} (he : s'.main.entries = s.main.entries)
    (h : ∀ id, k'.remaining s' id ≤ k.remaining s id) : k'.work s' ≤ k.work s := by
  rw [work, work, he]
  exact Finset.sum_le_sum fun id _ => h id

theorem work_lt {k k' : Consumer} {s s' : Server} {i : ℕ} (he : s'.main.entries = s.main.entries)
    (h : ∀ id, k'.remaining s' id ≤ k.remaining s id) (hi : 1 ≤ i ∧ i ≤ s.main.entries.length)
    (hlt : k'.remaining s' i < k.remaining s i) : k'.work s' < k.work s := by
  rw [work, work, he]
  exact Finset.sum_lt_sum (fun id _ => h id) ⟨i, Finset.mem_Icc.mpr hi, hlt⟩

theorem work_lt_of_xack {k k' : Consumer} {s s' : Server} {i : ℕ} {c : String}
    (hm : s'.main = s.main.xack i) (hown : s.main.owner? i = some c)
    (hb : k'.budget = k.budget) (hs : ∀ id, id ≠ i → k'.spent id = k.spent id) :
    k'.work s' < k.work s := by
  have hr := GroupStream.owner?_some_range hown
  have hnd : ¬ s.main.delivered < i := by omega
  have hzero : k'.remaining s' i = 0 := by
    rw [remaining, hm, GroupStream.delivered_xack, if_neg hnd, GroupStream.owner?_xack, if_pos rfl]
    rfl
  have hpos : 0 < k.remaining s i := by
    rw [remaining, if_neg hnd, hown]
    exact Nat.succ_pos _
  refine work_lt (by rw [hm]; rfl) (fun id => ?_) ⟨hr.1, hr.2.trans s.main.delivered_le⟩
    (hzero ▸ hpos)
  by_cases hid : id = i
  · subst hid
    exact hzero ▸ hpos.le
  · refine remaining_le hb (by rw [hm]; rfl) ?_ fun _ => (hs id hid).ge
    rw [hm, GroupStream.owner?_xack, if_neg hid]

theorem measure_lt_of_work {k k' : Consumer} {s s' : Server} (h : k'.work s' < k.work s) :
    k'.measure s' < k.measure s := by
  have := k'.rank_le s'
  simp only [measure]
  omega

theorem measure_lt_of_rank {k k' : Consumer} {s s' : Server} (h : k'.work s' ≤ k.work s)
    (hr : k'.rank s' < k.rank s) : k'.measure s' < k.measure s := by
  simp only [measure]
  omega

end Consumer

def Server.Drained (s : Server) : Prop :=
  s.main.delivered = s.main.entries.length ∧ ∀ id, s.main.owner? id = none

theorem Consumer.measure_readNew_lt {k : Consumer} {s : Server} (c : String)
    (hne : s.main.newBatch k.count ≠ []) :
    (k.forBatch (s.main.newBatch k.count)).measure (s.readNew c k.count).2 < k.measure s := by
  have hpos : 0 < s.main.newCount k.count := by
    rw [Ne, GroupStream.newBatch_eq_nil] at hne
    omega
  have hlen : s.main.newCount k.count ≤ s.main.entries.length - s.main.delivered :=
    Nat.min_le_right _ _
  have hnew (id : ℕ) : (k.forBatch (s.main.newBatch k.count)).remaining (s.readNew c k.count).2 id =
      if s.main.delivered < id ∧ id ≤ s.main.delivered + s.main.newCount k.count then
        k.budget - k.spent id + 1
      else k.remaining s id := by
    rw [Consumer.remaining_readNew, Consumer.budget_forBatch, Consumer.spent_forBatch]
    simp only [Consumer.remaining, Consumer.budget_forBatch, Consumer.spent_forBatch]
  have hold {id : ℕ} (hid : s.main.delivered < id) : k.remaining s id = k.budget + 2 := by
    rw [Consumer.remaining, if_pos hid]
  refine Consumer.measure_lt_of_work (Consumer.work_lt (i := s.main.delivered + 1) rfl
    (fun id => ?_) (by omega) ?_)
  · rw [hnew]
    split_ifs with hid
    · rw [hold hid.1]
      omega
    · exact le_rfl
  · rw [hnew, if_pos (by omega), hold (by omega)]
    omega

theorem Consumer.measure_noPending_lt {c : String} {k : Consumer} {s : Server}
    (hown : s.OwnedBy c) (hcount : 1 ≤ k.count) (hpc : k.pc = .readPending)
    (hnil : s.main.pendingBatch c k.count = [])
    (hgoal : ¬ (s.readPending c k.count).2.Drained) :
    ({ k with pc := .sleep } : Consumer).measure (s.readPending c k.count).2 < k.measure s := by
  rw [← List.map_eq_nil_iff, GroupStream.map_fst_pendingBatch,
    GroupStream.ownIds_eq_nil hcount] at hnil
  refine Consumer.measure_lt_of_rank (Consumer.work_le rfl fun id => ?_) ?_
  · exact Consumer.remaining_le rfl rfl (GroupStream.owner?_readPending ..) fun _ => le_rfl
  · have hlt : s.main.delivered < s.main.entries.length := by
      refine lt_of_le_of_ne s.main.delivered_le fun hd => hgoal ⟨hd, fun id => ?_⟩
      change (s.main.readPending c () k.count).owner? id = none
      rw [GroupStream.owner?_readPending]
      cases ho : s.main.owner? id with
      | none => rfl
      | some d => exact absurd (hown id d ho ▸ ho) (hnil id)
    simp only [Consumer.rank, hpc, if_pos hlt]
    decide

theorem Consumer.measure_retry_lt {c : String} {k : Consumer} {s : Server} {m : Held}
    (ho : m.Owned c s .handler) (hlt : ((k.spent m.id + 1 : ℕ) : ℤ) < k.maxAttempts) :
    ((k.bump m.id).forBatch m.rest).measure s < k.measure s := by
  have hr := GroupStream.owner?_some_range ho.owner
  have hb : k.spent m.id + 1 < k.budget := by
    simp only [Consumer.budget]
    omega
  have hnext (id : ℕ) : ((k.bump m.id).forBatch m.rest).spent id =
      if id = m.id then k.spent m.id + 1 else k.spent id := by
    rw [Consumer.spent_forBatch, Consumer.spent_bump]
  have hbud : ((k.bump m.id).forBatch m.rest).budget = k.budget := Consumer.budget_forBatch _ _
  refine Consumer.measure_lt_of_work (Consumer.work_lt (i := m.id) rfl (fun id => ?_)
    ⟨hr.1, hr.2.trans s.main.delivered_le⟩ ?_)
  · refine Consumer.remaining_le hbud rfl rfl fun _ => ?_
    rw [hnext]
    split_ifs with hid
    · rw [hid]
      omega
    · exact le_rfl
  · simp only [Consumer.remaining, hbud, hnext, ho.owner, if_neg (not_lt.mpr ho.delivered)]
    simp only [Stage.moving, Bool.false_eq_true, if_false, if_true, Option.isSome_some]
    omega

/-- A step of a consumer that alone owns the pending list lowers the measure, unless it falls
asleep with everything drained. -/
theorem Move.measure_lt {c : String} {k k' : Consumer} {s s' : Server} {evs : List Event}
    (h : Move c k s k' s' evs) (hh : k.Holds c s) (hown : s.OwnedBy c) (hcount : 1 ≤ k.count)
    (hgoal : ¬ (k'.pc = .sleep ∧ s'.Drained)) : k'.measure s' < k.measure s := by
  have hstay {k' : Consumer} {s' : Server} (hb : k'.budget = k.budget)
      (hs : ∀ id, s.main.owner? id ≠ none → k.spent id ≤ k'.spent id) (hm : s'.main = s.main) :
      k'.work s' ≤ k.work s :=
    Consumer.work_le (by rw [hm]) fun id => Consumer.remaining_le hb (by rw [hm]) (by rw [hm]) (hs id)
  have hrank {k' : Consumer} {s' : Server} {m : Held} {stage stage' : Stage}
      (hpc : k.pc = .busy m stage) (hpc' : k'.pc = .busy m stage')
      (hlt : stage'.rank < stage.rank) : k'.rank s' < k.rank s := by
    rwa [Consumer.rank_busy hpc, Consumer.rank_busy hpc']
  cases h with
  | readNew hpc hne => exact Consumer.measure_readNew_lt c hne
  | noNew hpc hnil =>
    rw [GroupStream.newBatch_eq_nil] at hnil
    have hall : s.main.entries.length ≤ s.main.delivered := by
      simp only [GroupStream.newCount] at hnil
      omega
    refine Consumer.measure_lt_of_rank (Consumer.work_le rfl fun id => ?_) ?_
    · change k.remaining (s.readNew c k.count).2 id ≤ _
      rw [Consumer.remaining_readNew, if_neg (by omega)]
    · simp only [Consumer.rank, hpc]
      rw [if_neg]
      · decide
      · change ¬ s.main.delivered + s.main.newCount k.count < s.main.entries.length
        omega
  | readPending hpc hne =>
    refine Consumer.measure_lt_of_rank (Consumer.work_le rfl fun id => ?_) ?_
    · exact Consumer.remaining_le (k.budget_forBatch _) rfl (GroupStream.owner?_readPending ..)
        fun _ => (k.spent_forBatch _ _).ge
    · have hle : 9 ≤ k.rank s := by
        simp only [Consumer.rank, hpc]
        split_ifs <;> omega
      exact (Consumer.rank_forBatch_lt _ _ hne).trans_le hle
  | noPending hpc hnil =>
    exact Consumer.measure_noPending_lt hown hcount hpc hnil fun hd => hgoal ⟨rfl, hd⟩
  | wake hpc =>
    refine Consumer.measure_lt_of_rank le_rfl ?_
    simp only [Consumer.rank, hpc]
    decide
  | hit m hpc hp => exact Consumer.measure_lt_of_rank le_rfl (hrank hpc rfl (by decide))
  | miss m hpc hp => exact Consumer.measure_lt_of_rank le_rfl (hrank hpc rfl (by decide))
  | skip m hpc =>
    exact Consumer.measure_lt_of_work (Consumer.work_lt_of_xack rfl (hh m _ hpc).owner
      (k.budget_forBatch _) fun id _ => k.spent_forBatch _ id)
  | returns m hpc => exact Consumer.measure_lt_of_rank le_rfl (hrank hpc rfl (by decide))
  | retry m exc hpc hlt => exact Consumer.measure_retry_lt (hh m _ hpc) hlt
  | exhaust m exc hpc hge =>
    refine Consumer.measure_lt_of_rank (hstay rfl (fun id _ => ?_) rfl)
      (hrank hpc rfl (by simp [Stage.rank]))
    change k.spent id ≤ (k.bump m.id).spent id
    rw [Consumer.spent_bump]
    split_ifs with hid
    · rw [hid]
      omega
    · exact le_rfl
  | mark m hpc => exact Consumer.measure_lt_of_rank le_rfl (hrank hpc rfl (by decide))
  | ack m hpc =>
    refine Consumer.measure_lt_of_work (Consumer.work_lt_of_xack rfl (hh m _ hpc).owner
      (Consumer.budget_forBatch _ _) fun id hid => ?_)
    rw [Consumer.spent_forBatch]
    change (k.dropAttempts m.id).spent id = _
    rw [Consumer.spent_dropAttempts, if_neg hid]
  | dlqAck m reason attempt hpc =>
    exact Consumer.measure_lt_of_work (Consumer.work_lt_of_xack rfl (hh m _ hpc).owner rfl
      fun _ _ => rfl)
  | dlqAdd m reason attempt hpc =>
    refine Consumer.measure_lt_of_rank (hstay (Consumer.budget_forBatch _ _) (fun id hid => ?_) rfl) ?_
    · rw [Consumer.spent_forBatch, Consumer.spent_dropAttempts, if_neg]
      rintro rfl
      exact hid (hh m _ hpc).owner
    · rw [Consumer.rank_busy hpc]
      exact (Consumer.rank_forBatch_le _ _ _).trans_lt (by simp [Stage.rank])

namespace Consumer

@[simp] theorem count_forBatch (k : Consumer) (batch : List (ℕ × Fields)) :
    (k.forBatch batch).count = k.count := by
  cases batch with
  | nil => rfl
  | cons e rest =>
    simp only [forBatch]
    split <;> rfl

theorem ended_forBatch (k : Consumer) {batch : List (ℕ × Fields)}
    (h : ∀ e ∈ batch, ∃ p, Payment.fromFields e.2 = .ok p) : (k.forBatch batch).ended = false := by
  cases batch with
  | nil => rfl
  | cons e rest =>
    obtain ⟨p, hp⟩ := h e List.mem_cons_self
    simp only [forBatch, hp]
    rfl

end Consumer

def Server.WellFormed (s : Server) : Prop :=
  ∀ id f, entryAt s.main.entries id = some f → ∃ p, Payment.fromFields f = .ok p

theorem Move.count_eq {c : String} {k k' : Consumer} {s s' : Server} {evs : List Event}
    (h : Move c k s k' s' evs) : k'.count = k.count := by
  cases h <;> simp [Consumer.bump, Consumer.dropAttempts]

theorem Move.entries_eq {c : String} {k k' : Consumer} {s s' : Server} {evs : List Event}
    (h : Move c k s k' s' evs) : s'.main.entries = s.main.entries := by
  cases h <;> rfl

theorem Move.not_ended {c : String} {k k' : Consumer} {s s' : Server} {evs : List Event}
    (h : Move c k s k' s' evs) (hf : k.Faithful s) (hdec : s.WellFormed) : k'.ended = false := by
  have hrest {m : Held} {stage : Stage} (hpc : k.pc = .busy m stage) :
      ∀ e ∈ m.rest, ∃ p, Payment.fromFields e.2 = .ok p :=
    fun e he => hdec _ _ ((hf.busy hpc).2.1 e he)
  cases h with
  | readNew hpc hne =>
    exact k.ended_forBatch fun e he => hdec _ _ (GroupStream.mem_newBatch.mp he).2
  | readPending hpc hne =>
    exact k.ended_forBatch fun e he => hdec _ _ (GroupStream.mem_pendingBatch.mp he).2
  | skip m hpc => exact Consumer.ended_forBatch _ (hrest hpc)
  | retry m exc hpc hlt => exact Consumer.ended_forBatch _ (hrest hpc)
  | ack m hpc => exact Consumer.ended_forBatch _ (hrest hpc)
  | dlqAdd m reason attempt hpc => exact Consumer.ended_forBatch _ (hrest hpc)
  | _ => rfl

namespace World

/-- What the consumer `c` does next, its handler being answered by the oracle. -/
def solo (c : String) (oracle : World → Option PyExc) (w : World) : Action :=
  match (w.consumers c).map (·.pc) with
  | some (Pc.busy _ .handler) => .handler c (oracle w)
  | _ => .run c

theorem step_solo {w w' : World} {c : String} {k : Consumer} {oracle : World → Option PyExc}
    (hk : w.consumers c = some k) (h : step w (solo c oracle w) = some w') :
    ∃ k' s' evs, Move c k w.server k' s' evs ∧ w' = w.moved c k' s' evs := by
  have hact : solo c oracle w = .run c ∨ solo c oracle w = .handler c (oracle w) := by
    unfold solo
    split
    · exact Or.inr rfl
    · exact Or.inl rfl
  have heff := Effect.of_step h
  rcases hact with ha | ha <;> rw [ha] at heff
  · cases heff with
    | move _ c' l k' s' evs ha' hl hm =>
      obtain rfl : c = c' := by simpa using ha'
      obtain rfl := Option.some.inj (hk.symm.trans hl)
      exact ⟨k', s', evs, hm, rfl⟩
  · cases heff with
    | move _ c' l k' s' evs ha' hl hm =>
      obtain ⟨rfl, -⟩ : c = c' ∧ ∃ m, l.pc = .busy m .handler := by simpa using ha'
      obtain rfl := Option.some.inj (hk.symm.trans hl)
      exact ⟨k', s', evs, hm, rfl⟩

theorem step_solo_isSome {w : World} {c : String} {k : Consumer} (oracle : World → Option PyExc)
    (hk : w.consumers c = some k) (hend : k.ended = false) :
    ∃ w', step w (solo c oracle w) = some w' := by
  by_cases hh : ∃ m, k.pc = .busy m .handler
  · obtain ⟨m, hpc⟩ := hh
    obtain ⟨r, hr⟩ := Consumer.handlerEnds_isSome hpc c (oracle w)
    have ha : solo c oracle w = .handler c (oracle w) := by
      simp only [solo, hk, Option.map_some, hpc]
    rw [ha]
    simp only [step, hk, hr]
    exact ⟨_, rfl⟩
  · obtain ⟨r, hr⟩ := Consumer.command_isSome hend (not_exists.mp hh) c w.server
    have ha : solo c oracle w = .run c := by
      unfold solo
      split
      · rename_i m hpc
        rw [hk, Option.map_some, Option.some.injEq] at hpc
        exact absurd ⟨m, hpc⟩ hh
      · rfl
    rw [ha]
    simp only [step, hk, hr]
    exact ⟨_, rfl⟩

/-- The consumer `c` has found nothing new and nothing pending. -/
def Idle (c : String) (w : World) : Prop :=
  (∃ k, w.consumers c = some k ∧ k.pc = .sleep) ∧ w.server.Drained

/-- The consumer `c` is at work on well-formed entries and owns everything that is pending. -/
structure Working (c : String) (w : World) (k : Consumer) : Prop where
  self : w.consumers c = some k
  count : 1 ≤ k.count
  ended : k.ended = false
  holds : k.Holds c w.server
  faithful : k.Faithful w.server
  owned : w.server.OwnedBy c
  wellFormed : w.server.WellFormed

theorem Working.moved {c : String} {w : World} {k k' : Consumer} {s' : Server} {evs : List Event}
    (h : Working c w k) (hm : Move c k w.server k' s' evs) :
    Working c (w.moved c k' s' evs) k' where
  self := w.setConsumer_self c _
  count := by rw [hm.count_eq]; exact h.count
  ended := hm.not_ended h.faithful h.wellFormed
  holds := hm.holds h.holds
  faithful := hm.faithful h.faithful
  owned := hm.ownedBy h.owned
  wellFormed := by
    intro id f hf
    have he := hm.entries_eq
    change entryAt s'.main.entries id = some f at hf
    exact h.wellFormed id f (he ▸ hf)

/-- Whatever the handler does, a consumer at work on well-formed entries becomes idle. -/
theorem Working.reaches_idle {c : String} {w : World} {k : Consumer} (h : Working c w k)
    (oracle : World → Option PyExc) :
    ∃ n w', drive step (solo c oracle) n w = some w' ∧ Idle c w' := by
  let μ (w : World) : ℕ := ((w.consumers c).map fun k => k.measure w.server).getD 0
  have hμ {w : World} {k : Consumer} (hk : w.consumers c = some k) :
      μ w = k.measure w.server := by simp only [μ, hk, Option.map_some, Option.getD_some]
  have hstep (w : World) (hw : ∃ k, Working c w k) : ∃ w', step w (solo c oracle w) = some w' ∧
      (∃ k, Working c w' k) ∧ (Idle c w' ∨ μ w' < μ w) := by
    obtain ⟨k, h⟩ := hw
    obtain ⟨w', hw'⟩ := step_solo_isSome oracle h.self h.ended
    obtain ⟨k', s', evs, hm, rfl⟩ := step_solo h.self hw'
    have h' := h.moved hm
    refine ⟨_, hw', ⟨k', h'⟩, ?_⟩
    by_cases hgoal : k'.pc = .sleep ∧ s'.Drained
    · exact Or.inl ⟨⟨k', h'.self, hgoal.1⟩, hgoal.2⟩
    · rw [hμ h.self, hμ h'.self]
      exact Or.inr (hm.measure_lt h.holds h.owned h.count hgoal)
  exact drive_reaches μ hstep ⟨k, h⟩

end World
end Dlq
