import MessageBrokerPatterns.DlqDrain
import MessageBrokerPatterns.DlqStranded

/-!
# Many consumers, each with its own name

A crew of consumers shares the group, every consumer started once under a name of its own, and no
crash occurs. A history beside the world records which consumer was handed an entry first and
which acknowledgements were sent. Every entry then lives in the books of its first reader alone,
and the counters of the registry add up over the crew.
-/

namespace Dlq
open PyText PyDict RedisStream ActionRun

def Event.consumer : Event → String
  | .handled c _ _ _ => c
  | .processed c _ _ => c
  | .skipped c _ _ => c
  | .deadLettered c _ _ _ _ => c
  | .lost c _ _ => c

def Event.isSkipped : Event → Bool
  | .skipped _ _ _ => true
  | _ => false

def Event.isDeadLettered : Event → Bool
  | .deadLettered _ _ _ _ _ => true
  | _ => false

def Event.isOutcome (e : Event) : Bool := e.isProcessed || e.isSkipped || e.isDeadLettered

/-- The entry that the next command of the consumer acknowledges. -/
def Consumer.acking (k : Consumer) : Option ℕ :=
  match k.pc with
  | .busy m .skipAck => some m.id
  | .busy m .ack => some m.id
  | .busy m (.dlqAck _ _) => some m.id
  | _ => none

/-- Who was handed an entry first, and the acknowledgements sent so far. -/
structure History where
  reader : ℕ → Option String := fun _ => none
  acks : List (String × ℕ) := []

def Action.runner : Action → Option String
  | .run c => some c
  | _ => none

/-- The history after a move of the consumer from one state of the server to the next. -/
def History.move (h : History) (c : String) (k : Consumer) (s s' : Server) : History where
  reader id := if s.main.delivered < id ∧ id ≤ s'.main.delivered then some c else h.reader id
  acks := h.acks ++ k.acking.toList.map fun id => (c, id)

theorem History.move_reader {h : History} {c : String} {k : Consumer} {s s' : Server} {id : ℕ}
    (hid : id ≤ s.main.delivered) : (h.move c k s s').reader id = h.reader id :=
  if_neg (by omega)

theorem History.count_move_acks {h : History} {c : String} {k : Consumer} {s s' : Server}
    {id : ℕ} : ((h.move c k s s').acks.map Prod.snd).count id =
      (h.acks.map Prod.snd).count id + if k.acking = some id then 1 else 0 := by
  rw [History.move, List.map_append, List.count_append, List.map_map]
  cases k.acking with
  | none => simp
  | some i =>
    by_cases hi : i = id
    · simp [hi]
    · simp [hi]

theorem Consumer.acking_of_idle {k : Consumer} (h : ∀ m stage, k.pc ≠ .busy m stage) :
    k.acking = none := by
  unfold acking
  split
  · rename_i m hpc
    exact absurd hpc (h m _)
  · rename_i m hpc
    exact absurd hpc (h m _)
  · rename_i m reason attempt hpc
    exact absurd hpc (h m _)
  · rfl

theorem Move.owner?_eq {c : String} {k k' : Consumer} {s s' : Server} {evs : List Event}
    (h : Move c k s k' s' evs) (id : ℕ) : s'.main.owner? id =
      if s.main.delivered < id ∧ id ≤ s'.main.delivered then some c
      else if k.acking = some id then none else s.main.owner? id := by
  have hidle {l : Consumer} {pc : Pc} (hl : l.pc = pc) (hpc : ∀ m stage, pc ≠ .busy m stage) :
      l.acking = none := Consumer.acking_of_idle fun m stage hm => hpc m stage (hl.symm.trans hm)
  have hstay (hk : k.acking = none) : s.main.owner? id =
      if s.main.delivered < id ∧ id ≤ s.main.delivered then some c
      else if k.acking = some id then none else s.main.owner? id := by
    rw [hk, if_neg (by omega), if_neg (by simp)]
  have hack {i : ℕ} (hk : k.acking = some i) : (s.ack i).main.owner? id =
      if s.main.delivered < id ∧ id ≤ s.main.delivered then some c
      else if k.acking = some id then none else s.main.owner? id := by
    rw [if_neg (by omega), hk]
    simp only [Option.some.injEq, eq_comm (a := i)]
    exact GroupStream.owner?_xack i id
  have hread (hk : k.acking = none) (n : ℕ) : (s.readNew c n).2.main.owner? id =
      if s.main.delivered < id ∧ id ≤ (s.readNew c n).2.main.delivered then some c
      else if k.acking = some id then none else s.main.owner? id := by
    rw [hk, if_neg (by simp : ¬ (none : Option ℕ) = some id)]
    exact GroupStream.owner?_readNew c () n id
  have hpend (n : ℕ) : (s.readPending c n).2.main.owner? id = s.main.owner? id :=
    GroupStream.owner?_readPending c () n id
  cases h with
  | readNew hpc hne => exact hread (hidle hpc (by simp)) _
  | noNew hpc hnil => exact hread (hidle hpc (by simp)) _
  | readPending hpc hne => exact (hpend _).trans (hstay (hidle hpc (by simp)))
  | noPending hpc hnil => exact (hpend _).trans (hstay (hidle hpc (by simp)))
  | wake hpc => exact hstay (hidle hpc (by simp))
  | skip m hpc => exact hack (by simp only [Consumer.acking, hpc])
  | ack m hpc => exact hack (by simp only [Consumer.acking, hpc])
  | dlqAck m reason attempt hpc => exact hack (by simp only [Consumer.acking, hpc])
  | hit m hpc hp => exact hstay (by simp only [Consumer.acking, hpc])
  | miss m hpc hp => exact hstay (by simp only [Consumer.acking, hpc])
  | returns m hpc => exact hstay (by simp only [Consumer.acking, hpc])
  | retry m exc hpc hlt => exact hstay (by simp only [Consumer.acking, hpc])
  | exhaust m exc hpc hge => exact hstay (by simp only [Consumer.acking, hpc])
  | mark m hpc => exact hstay (by simp only [Consumer.acking, hpc])
  | dlqAdd m reason attempt hpc => exact hstay (by simp only [Consumer.acking, hpc])

theorem Consumer.Holds.acking {k : Consumer} {c : String} {s : Server} (h : k.Holds c s) {id : ℕ}
    (hk : k.acking = some id) :
    (∃ m stage, k.pc = .busy m stage ∧ m.id = id) ∧ s.main.owner? id = some c := by
  unfold Consumer.acking at hk
  split at hk
  · rename_i m hpc
    obtain rfl := Option.some.inj hk
    exact ⟨⟨m, _, hpc, rfl⟩, (h m _ hpc).owner⟩
  · rename_i m hpc
    obtain rfl := Option.some.inj hk
    exact ⟨⟨m, _, hpc, rfl⟩, (h m _ hpc).owner⟩
  · rename_i m reason attempt hpc
    obtain rfl := Option.some.inj hk
    exact ⟨⟨m, _, hpc, rfl⟩, (h m _ hpc).owner⟩
  · cases hk

theorem Consumer.busy_of_moving {k : Consumer} {id : ℕ} (h : k.moving = some id) :
    ∃ m stage, k.pc = .busy m stage ∧ m.id = id := by
  unfold moving at h
  split at h
  · rename_i m reason attempt hpc
    exact ⟨m, _, hpc, Option.some.inj h⟩
  · cases h

theorem Move.consumer_of_event {c : String} {k k' : Consumer} {s s' : Server} {evs : List Event}
    (h : Move c k s k' s' evs) : ∀ e ∈ evs, e.consumer = c := by
  intro e he
  cases h with
  | skip m hpc => rw [List.mem_singleton.mp he, Event.consumer]
  | returns m hpc => rw [List.mem_singleton.mp he, Event.consumer]
  | retry m exc hpc hlt => rw [List.mem_singleton.mp he, Event.consumer]
  | exhaust m exc hpc hge => rw [List.mem_singleton.mp he, Event.consumer]
  | ack m hpc => rw [List.mem_singleton.mp he, Event.consumer]
  | dlqAdd m reason attempt hpc => rw [List.mem_singleton.mp he, Event.consumer]
  | _ => cases he

theorem Move.registry_eq {c : String} {k k' : Consumer} {s s' : Server} {evs : List Event}
    (h : Move c k s k' s' evs) : s'.registry.paymentsPublished = s.registry.paymentsPublished ∧
      s'.registry.paymentsProcessed = s.registry.paymentsProcessed + evs.countP Event.isProcessed ∧
      s'.registry.skippedDuplicate = s.registry.skippedDuplicate + evs.countP Event.isSkipped ∧
      s'.registry.movedToDlq = s.registry.movedToDlq + evs.countP Event.isDeadLettered := by
  cases h <;> exact ⟨rfl, rfl, rfl, rfl⟩

theorem Status.Row.handled_le {st : Status} {budget spent handled settled : ℕ}
    (h : st.Row budget spent handled settled) : handled ≤ budget := by
  cases st with
  | waiting => exact h.2.1.le.trans (Nat.zero_le _)
  | pending => exact h.2.1.le.trans h.1.le
  | charged =>
    obtain ⟨hlt, rfl, -⟩ := h
    exact hlt
  | exhausted attempt => exact (h.2.1.trans h.1).le
  | moving attempt => exact (h.2.1.trans h.1).le
  | settled => exact h.1

namespace World

def acking (w : World) (a : Action) : List (String × ℕ) :=
  match a.runner with
  | some c => ((w.consumers c).bind Consumer.acking).toList.map fun id => (c, id)
  | none => []

/-- The history goes on with the step from one world to the next. -/
def note (h : History) (w w' : World) (a : Action) : History where
  reader id :=
    if w.server.main.delivered < id ∧ id ≤ w'.server.main.delivered then a.runner else h.reader id
  acks := h.acks ++ w.acking a

def stepNoted (x : World × History) (a : Action) : Option (World × History) :=
  (step x.1 a).map fun w' => (w', note x.2 x.1 w' a)

def Crew (x : World × History) : Action → Prop
  | .publish _ => True
  | .xadd _ => False
  | .start c _ _ => x.1.consumers c = none
  | .stop _ => True
  | .run _ => True
  | .handler _ _ => True
  | .crash _ => False

def NoneBusy (w : World) : Prop :=
  ∀ c k m stage, w.consumers c = some k → k.pc ≠ .busy m stage

/-- The history follows the run and does not disturb it. -/
theorem run_stepNoted (w : World) (h : History) (actions : List Action) :
    (run stepNoted (w, h) actions).map Prod.fst = run step w actions := by
  induction actions generalizing w h with
  | nil => rfl
  | cons a as ih =>
    rw [run_cons, run_cons, stepNoted]
    cases step w a with
    | none => rfl
    | some w' => exact ih w' _

/-- The books of an entry that nobody has been handed. -/
structure Unread (w : World) (id : ℕ) : Prop where
  handled : w.trace.countP (Event.handles id) = 0
  settled : w.trace.countP (Event.settles id) = 0
  spent : ∀ d k, w.consumers d = some k → k.spent id = 0

/-- The books of an entry are those of the consumer that was handed it. -/
structure ReadBy (w : World) (h : History) (id : ℕ) (c : String) (k : Consumer) : Prop where
  self : w.consumers c = some k
  ledger : Ledger k w.server w.trace id
  acks : (h.acks.map Prod.snd).count id = if (w.server.main.owner? id).isSome then 0 else 1

structure CrewInv (x : World × History) : Prop where
  fate : FateInv x.1
  unread : ∀ id, 1 ≤ id → x.1.server.main.delivered < id →
    Unread x.1 id ∧ id ∉ x.2.acks.map Prod.snd
  read : ∀ id, 1 ≤ id → id ≤ x.1.server.main.delivered →
    ∃ c k, x.2.reader id = some c ∧ ReadBy x.1 x.2 id c k
  owner : ∀ id d, x.1.server.main.owner? id = some d → x.2.reader id = some d
  inHand : ∀ d k m stage, x.1.consumers d = some k → k.pc = .busy m stage →
    x.2.reader m.id = some d
  acked : ∀ a ∈ x.2.acks, 1 ≤ a.2 ∧ x.2.reader a.2 = some a.1
  traced : ∀ e ∈ x.1.trace, 1 ≤ e.id ∧ e.id ≤ x.1.server.main.delivered ∧
    x.2.reader e.id = some e.consumer

theorem crewInv_init : CrewInv ({}, {}) where
  fate := fateInv_init
  unread id _ _ := ⟨⟨rfl, rfl, fun d k hk => by cases hk⟩, by simp⟩
  read id h₁ h₂ := absurd h₂ (by
    change ¬ id ≤ 0
    omega)
  owner id d h := by cases h
  inHand d k m stage hk := by cases hk
  acked a ha := by cases ha
  traced e he := by cases he

theorem CrewInv.acked_delivered {w : World} {h : History} (hi : CrewInv (w, h)) {a : String × ℕ}
    (ha : a ∈ h.acks) : a.2 ≤ w.server.main.delivered := by
  by_contra hnew
  exact (hi.unread a.2 (hi.acked a ha).1 (not_le.mp hnew)).2 (List.mem_map_of_mem ha)

theorem Unread.ledger {w : World} {id : ℕ} (h : Unread w id) {c : String} {k : Consumer}
    (hk : w.consumers c = some k) (hh : k.Holds c w.server) (hid : w.server.main.delivered < id) :
    Ledger k w.server w.trace id := by
  have hst : k.status w.server id = .waiting := by
    rw [Consumer.status_of_ne, Server.status, if_pos hid]
    intro m stage hpc
    have := (hh m stage hpc).delivered
    omega
  refine ⟨?_, fun d p reason attempt hmem => ?_⟩
  · rw [hst]
    exact ⟨h.spent c k hk, h.handled, h.settled⟩
  · exact absurd (by simp [Event.settles]) (List.countP_eq_zero.mp h.settled _ hmem)

theorem blank_of_ledger {k : Consumer} {c : String} {s : Server} {tr : List Event} {id : ℕ}
    (h : Ledger k s tr id) (hh : k.Holds c s) (hid : s.main.delivered < id) :
    k.spent id = 0 ∧ tr.countP (Event.handles id) = 0 ∧ tr.countP (Event.settles id) = 0 := by
  have hrow := h.row
  rw [Consumer.status_of_ne, Server.status, if_pos hid] at hrow
  · exact hrow
  · intro m stage hpc
    have := (hh m stage hpc).delivered
    omega

theorem ReadBy.other {w : World} {h h' : History} {id : ℕ} {c d : String} {k k' l : Consumer}
    {s' : Server} {evs : List Event} (hr : ReadBy w h id d l) (hd : d ≠ c)
    (hid : id ≤ w.server.main.delivered) (hm : Move c k w.server k' s' evs)
    (ho : s'.main.owner? id = w.server.main.owner? id) (hev : ∀ e ∈ evs, e.id ≠ id)
    (hacks : (h'.acks.map Prod.snd).count id = (h.acks.map Prod.snd).count id) :
    ReadBy (w.moved c k' s' evs) h' id d l := by
  have hle := hm.delivered_le
  have hserver : s'.status id = w.server.status id := by
    have hnow : ¬ w.server.main.delivered < id := by omega
    have hthen : ¬ s'.main.delivered < id := by omega
    simp only [Server.status, hnow, hthen, if_false, ho]
  have hstatus : l.status s' id = l.status w.server id := by
    unfold Consumer.status
    split
    · split_ifs
      · rw [hserver]
      · exact hserver
    · exact hserver
  refine ⟨(w.setConsumer_of_ne hd _).trans hr.self, hr.ledger.frame rfl hstatus rfl hev, ?_⟩
  rw [hacks, hr.acks]
  change _ = if (s'.main.owner? id).isSome then 0 else 1
  rw [ho]

theorem note_move {w : World} {h : History} {a : Action} {c : String} {k k' : Consumer}
    {s' : Server} {evs : List Event} (hk : w.consumers c = some k)
    (ha : a = .run c ∨ ∃ failure m, a = .handler c failure ∧ k.pc = .busy m .handler)
    (hm : Move c k w.server k' s' evs) :
    note h w (w.moved c k' s' evs) a = h.move c k w.server s' := by
  rcases ha with rfl | ⟨failure, m, rfl, hpc⟩
  · simp only [note, acking, Action.runner, hk, Option.bind_some]
    rfl
  · have hd : s'.main.delivered = w.server.main.delivered := by
      cases hm <;> simp_all
    have hnone : k.acking = none := by simp only [Consumer.acking, hpc]
    simp only [note, acking, History.move, Action.runner, hnone, Option.toList_none, List.map_nil]
    congr 1
    funext id
    have hno : ¬ (w.server.main.delivered < id ∧ id ≤ s'.main.delivered) := by omega
    rw [if_neg hno]
    exact if_neg hno

section Moved

variable {w : World} {h : History} {c : String} {k k' : Consumer} {s' : Server} {evs : List Event}

theorem CrewInv.of_event (hi : CrewInv (w, h)) (hk : w.consumers c = some k)
    (hm : Move c k w.server k' s' evs) {e : Event} (he : e ∈ evs) :
    1 ≤ e.id ∧ e.id ≤ w.server.main.delivered ∧ h.reader e.id = some c := by
  obtain ⟨m, stage, hpc, hid, -⟩ := hm.events_in_hand e he
  obtain ⟨⟨f, hf, -⟩, -⟩ := (hi.fate.faithful c k hk).busy hpc
  have hown := hi.fate.holds c k hk m stage hpc
  rw [hid]
  exact ⟨(entryAt_some_le hf).1, hown.delivered, hi.inHand c k m stage hk hpc⟩

theorem CrewInv.of_acking (hi : CrewInv (w, h)) (hk : w.consumers c = some k) {id : ℕ}
    (hid : k.acking = some id) :
    1 ≤ id ∧ id ≤ w.server.main.delivered ∧ h.reader id = some c := by
  obtain ⟨-, ho⟩ := (hi.fate.holds c k hk).acking hid
  have hr := GroupStream.owner?_some_range ho
  exact ⟨hr.1, hr.2, hi.owner id c ho⟩

theorem CrewInv.owner_moved (hi : CrewInv (w, h)) (hm : Move c k w.server k' s' evs) {id : ℕ}
    {d : String} (ho : s'.main.owner? id = some d) :
    (h.move c k w.server s').reader id = some d := by
  rw [hm.owner?_eq] at ho
  unfold History.move
  dsimp only
  split_ifs at ho ⊢ with hnew hack
  · exact ho
  · exact hi.owner id d ho

theorem CrewInv.unread_moved (hi : CrewInv (w, h)) (hk : w.consumers c = some k)
    (hm : Move c k w.server k' s' evs) {id : ℕ} (h₁ : 1 ≤ id) (hid : s'.main.delivered < id) :
    Unread (w.moved c k' s' evs) id ∧ id ∉ (h.move c k w.server s').acks.map Prod.snd := by
  have hh := hi.fate.holds c k hk
  have hnew : w.server.main.delivered < id := hm.delivered_le.trans_lt hid
  obtain ⟨hun, hacks⟩ := hi.unread id h₁ hnew
  have hledger := hm.ledger hh (hun.ledger hk hh hnew)
  obtain ⟨hspent, hhandled, hsettled⟩ := blank_of_ledger hledger (hm.holds hh) hid
  refine ⟨⟨hhandled, hsettled, fun d l hl => ?_⟩, ?_⟩
  · by_cases hd : d = c
    · subst hd
      cases (w.setConsumer_self d _).symm.trans hl
      exact hspent
    · exact hun.spent d l ((w.setConsumer_of_ne hd _).symm.trans hl)
  · rw [← List.count_eq_zero, History.count_move_acks, List.count_eq_zero.mpr hacks, if_neg]
    intro hack
    have := (hi.of_acking hk hack).2.1
    omega

theorem CrewInv.newly_read (hi : CrewInv (w, h)) (hk : w.consumers c = some k)
    (hm : Move c k w.server k' s' evs) {id : ℕ} (h₁ : 1 ≤ id)
    (hnew : w.server.main.delivered < id) (hid : id ≤ s'.main.delivered) :
    ReadBy (w.moved c k' s' evs) (h.move c k w.server s') id c k' := by
  have hh := hi.fate.holds c k hk
  obtain ⟨hun, hacks⟩ := hi.unread id h₁ hnew
  have ho : s'.main.owner? id = some c := by
    rw [hm.owner?_eq, if_pos ⟨hnew, hid⟩]
  refine ⟨w.setConsumer_self c _, hm.ledger hh (hun.ledger hk hh hnew), ?_⟩
  rw [History.count_move_acks, List.count_eq_zero.mpr hacks, if_neg]
  · change 0 + 0 = if (s'.main.owner? id).isSome then 0 else 1
    rw [ho]
    rfl
  · intro hack
    have := (hi.of_acking hk hack).2.1
    omega

theorem ReadBy.self_moved {id : ℕ} (hr : ReadBy w h id c k) (hh : k.Holds c w.server)
    (hm : Move c k w.server k' s' evs) (hold : id ≤ w.server.main.delivered) :
    ReadBy (w.moved c k' s' evs) (h.move c k w.server s') id c k' := by
  refine ⟨w.setConsumer_self c _, hm.ledger hh hr.ledger, ?_⟩
  have ho := hm.owner?_eq id
  rw [if_neg (by omega)] at ho
  rw [History.count_move_acks, hr.acks]
  change _ = if (s'.main.owner? id).isSome then 0 else 1
  rw [ho]
  by_cases hack : k.acking = some id
  · rw [if_pos hack, if_pos hack, (hh.acking hack).2]
    rfl
  · rw [if_neg hack, if_neg hack, Nat.add_zero]

theorem CrewInv.other_moved (hi : CrewInv (w, h)) (hk : w.consumers c = some k)
    (hm : Move c k w.server k' s' evs) {id : ℕ} {d : String} {l : Consumer}
    (hr : h.reader id = some d) (hread : ReadBy w h id d l) (hd : d ≠ c)
    (hold : id ≤ w.server.main.delivered) :
    ReadBy (w.moved c k' s' evs) (h.move c k w.server s') id d l := by
  have hmine (hc : h.reader id = some c) : False := by
    rw [hr] at hc
    exact hd (Option.some.inj hc)
  have hack : k.acking ≠ some id := fun hack => hmine (hi.of_acking hk hack).2.2
  have ho := hm.owner?_eq id
  rw [if_neg (by omega), if_neg hack] at ho
  refine hread.other hd hold hm ho (fun e he hid => ?_) ?_
  · exact hmine (hid ▸ (hi.of_event hk hm he).2.2)
  · rw [History.count_move_acks, if_neg hack, Nat.add_zero]

theorem CrewInv.read_moved (hi : CrewInv (w, h)) (hk : w.consumers c = some k)
    (hm : Move c k w.server k' s' evs) {id : ℕ} (h₁ : 1 ≤ id) (hid : id ≤ s'.main.delivered) :
    ∃ d l, (h.move c k w.server s').reader id = some d ∧
      ReadBy (w.moved c k' s' evs) (h.move c k w.server s') id d l := by
  by_cases hnew : w.server.main.delivered < id
  · exact ⟨c, k', if_pos ⟨hnew, hid⟩, hi.newly_read hk hm h₁ hnew hid⟩
  · have hold : id ≤ w.server.main.delivered := not_lt.mp hnew
    obtain ⟨d, l, hr, hread⟩ : ∃ d l, h.reader id = some d ∧ ReadBy w h id d l :=
      hi.read id h₁ hold
    by_cases hd : d = c
    · subst hd
      obtain rfl := Option.some.inj (hk.symm.trans hread.self)
      exact ⟨d, k', (History.move_reader hold).trans hr,
        hread.self_moved (hi.fate.holds d k hk) hm hold⟩
    · exact ⟨d, l, (History.move_reader hold).trans hr, hi.other_moved hk hm hr hread hd hold⟩

/-- A message in hand is pending on the consumer, or on its way to the dead letters: then the
consumer held it before. -/
theorem CrewInv.inHand_moved (hi : CrewInv (w, h)) (hk : w.consumers c = some k)
    (hm : Move c k w.server k' s' evs) {m : Held} {stage : Stage}
    (hpc : k'.pc = .busy m stage) : (h.move c k w.server s').reader m.id = some c := by
  have hh := hi.fate.holds c k hk
  have hown := hm.holds hh m stage hpc
  by_cases hst : stage.moving = true
  · have hmoving : k'.moving = some m.id := by
      cases stage <;> simp_all [Consumer.moving, Stage.moving]
    have hbefore : k.moving = some m.id ∨ w.server.main.owner? m.id = some c := by
      cases hm.course hh m.id with
      | keeps _ hmov _ => exact hmov hmoving
      | finishes _ hnot _ => exact absurd (Or.inr hmoving) hnot
    rcases hbefore with hmov | ho
    · obtain ⟨m', stage', hpc', hid⟩ := Consumer.busy_of_moving hmov
      have hdel := (hi.fate.of_moving hk hmov).1
      exact (History.move_reader hdel).trans (hid ▸ hi.inHand c k m' stage' hk hpc')
    · have hdel := (GroupStream.owner?_some_range ho).2
      exact (History.move_reader hdel).trans (hi.owner m.id c ho)
  · apply hi.owner_moved hm
    rw [hown.owner, if_neg hst]

theorem CrewInv.moved (hi : CrewInv (w, h)) (hk : w.consumers c = some k)
    (hm : Move c k w.server k' s' evs) :
    CrewInv (w.moved c k' s' evs, h.move c k w.server s') where
  fate := hi.fate.moved hk hm
  unread _ h₁ hid := hi.unread_moved hk hm h₁ hid
  read _ h₁ hid := hi.read_moved hk hm h₁ hid
  owner _ _ ho := hi.owner_moved hm ho
  inHand d l m stage hl hpc := by
    by_cases hd : d = c
    · subst hd
      cases (w.setConsumer_self d _).symm.trans hl
      exact hi.inHand_moved hk hm hpc
    · replace hl : w.consumers d = some l := (w.setConsumer_of_ne hd _).symm.trans hl
      have hdel := (hi.fate.holds d l hl m stage hpc).delivered
      exact (History.move_reader hdel).trans (hi.inHand d l m stage hl hpc)
  acked a ha := by
    rcases List.mem_append.mp ha with ha | ha
    · have hold := hi.acked_delivered ha
      exact ⟨(hi.acked a ha).1, (History.move_reader hold).trans (hi.acked a ha).2⟩
    · obtain ⟨id, hid, rfl⟩ := List.mem_map.mp ha
      obtain ⟨hone, hdel, hr⟩ := hi.of_acking hk (Option.mem_toList.mp hid)
      exact ⟨hone, (History.move_reader hdel).trans hr⟩
  traced e he := by
    rcases List.mem_append.mp he with he | he
    · obtain ⟨hone, hdel, hr⟩ := hi.traced e he
      exact ⟨hone, hdel.trans hm.delivered_le, (History.move_reader hdel).trans hr⟩
    · obtain ⟨hone, hdel, hr⟩ := hi.of_event hk hm he
      rw [hm.consumer_of_event e he]
      exact ⟨hone, hdel.trans hm.delivered_le, (History.move_reader hdel).trans hr⟩

end Moved

/-- The consumers before a step go on with their books, and a new one starts with blank books. -/
structure Carries (w w' : World) : Prop where
  kept : ∀ d k, w.consumers d = some k → ∃ k', w'.consumers d = some k' ∧ k'.budget = k.budget ∧
    ∀ id, k'.spent id = k.spent id ∧ k'.status w'.server id = k.status w.server id
  came : ∀ d k', w'.consumers d = some k' →
    ((∀ id, k'.spent id = 0) ∧ ∀ m stage, k'.pc ≠ .busy m stage) ∨
    ∃ k, w.consumers d = some k ∧ (∀ id, k'.spent id = k.spent id) ∧
      ∀ m stage, k'.pc = .busy m stage → k.pc = .busy m stage

theorem note_of_quiet (h : History) {w w' : World} {a : Action} (ha : a.runner = none)
    (hd : w'.server.main.delivered = w.server.main.delivered) : note h w w' a = h := by
  obtain ⟨reader, acks⟩ := h
  simp only [note, acking, ha, List.append_nil, History.mk.injEq, and_true]
  funext id
  exact if_neg (by omega)

theorem CrewInv.frame {w w' : World} {h : History} {a : Action} (hi : CrewInv (w, h))
    (ha : a.runner = none) (hfate : FateInv w')
    (hd : w'.server.main.delivered = w.server.main.delivered)
    (ho : ∀ id, w'.server.main.owner? id = w.server.main.owner? id) (ht : w'.trace = w.trace)
    (hc : Carries w w') : CrewInv (w', note h w w' a) := by
  rw [note_of_quiet h ha hd]
  constructor
  · exact hfate
  · intro id h₁ hid
    change w'.server.main.delivered < id at hid
    rw [hd] at hid
    have hun := hi.unread id h₁ hid
    refine ⟨⟨ht ▸ hun.1.handled, ht ▸ hun.1.settled, fun d k' hk' => ?_⟩, hun.2⟩
    rcases hc.came d k' hk' with ⟨hz, -⟩ | ⟨k, hk, hs, -⟩
    · exact hz id
    · exact (hs id).trans (hun.1.spent d k hk)
  · intro id h₁ hid
    change id ≤ w'.server.main.delivered at hid
    rw [hd] at hid
    obtain ⟨c, k, hr, hread⟩ := hi.read id h₁ hid
    obtain ⟨k', hk', hb, hs⟩ := hc.kept c k hread.self
    have hledger : Ledger k' w'.server (w.trace ++ []) id :=
      hread.ledger.frame hb (hs id).2 (hs id).1 (by simp)
    rw [List.append_nil] at hledger
    refine ⟨c, k', hr, hk', ?_, ?_⟩
    · change Ledger k' w'.server w'.trace id
      rw [ht]
      exact hledger
    · rw [ho]
      exact hread.acks
  · intro id d hid
    exact hi.owner id d ((ho id).symm.trans hid)
  · intro d k' m stage hk' hpc
    rcases hc.came d k' hk' with ⟨-, hidle⟩ | ⟨k, hk, -, hb⟩
    · exact absurd hpc (hidle m stage)
    · exact hi.inHand d k m stage hk (hb m stage hpc)
  · exact hi.acked
  · intro e he
    change e ∈ w'.trace at he
    rw [ht] at he
    rw [hd]
    exact hi.traced e he

theorem crewInv_step (x : World × History) (a : Action) (y : World × History) (hi : CrewInv x)
    (ha : Crew x a) (hy : stepNoted x a = some y) : CrewInv y := by
  obtain ⟨w, h⟩ := x
  obtain ⟨w', hw, rfl⟩ := Option.map_eq_some_iff.mp hy
  replace hw : step w a = some w' := hw
  change CrewInv (w', note h w w' a)
  have hfate := fateInv_step w a w' hi.fate hw
  cases Effect.of_step hw with
  | publish p =>
    apply hi.frame rfl hfate rfl (fun _ => rfl) rfl
    exact ⟨fun d k hk => ⟨k, hk, rfl, fun id => ⟨rfl, rfl⟩⟩,
      fun d k hk => Or.inr ⟨k, hk, fun _ => rfl, fun _ _ h => h⟩⟩
  | xadd f => exact absurd ha id
  | start c maxAttempts count hend =>
    have hnone : w.consumers c = none := ha
    apply hi.frame rfl hfate rfl (fun _ => rfl) rfl
    constructor
    · intro d k hk
      have hd : d ≠ c := by
        rintro rfl
        rw [hnone] at hk
        cases hk
      exact ⟨k, (w.setConsumer_of_ne hd _).trans hk, rfl, fun id => ⟨rfl, rfl⟩⟩
    · intro d k hk
      by_cases hd : d = c
      · subst hd
        cases (w.setConsumer_self d _).symm.trans hk
        exact Or.inl ⟨fun _ => rfl, fun m stage hpc => by cases hpc⟩
      · exact Or.inr ⟨k, (w.setConsumer_of_ne hd _).symm.trans hk, fun _ => rfl, fun _ _ h => h⟩
  | stop c k hk hpc =>
    have hstatus (id : ℕ) : ({ k with pc := .returned } : Consumer).status w.server id =
        k.status w.server id := by
      simp only [Consumer.status, hpc]
    apply hi.frame rfl hfate rfl (fun _ => rfl) rfl
    constructor
    · intro d l hl
      by_cases hd : d = c
      · subst hd
        obtain rfl := Option.some.inj (hk.symm.trans hl)
        exact ⟨_, w.setConsumer_self d _, rfl, fun id => ⟨rfl, hstatus id⟩⟩
      · exact ⟨l, (w.setConsumer_of_ne hd _).trans hl, rfl, fun id => ⟨rfl, rfl⟩⟩
    · intro d l hl
      by_cases hd : d = c
      · subst hd
        cases (w.setConsumer_self d _).symm.trans hl
        exact Or.inr ⟨k, hk, fun _ => rfl, fun m stage h => by cases h⟩
      · exact Or.inr ⟨l, (w.setConsumer_of_ne hd _).symm.trans hl, fun _ => rfl, fun _ _ h => h⟩
  | move _ c k k' s' evs hact hk hm =>
    rw [note_move hk hact hm]
    exact hi.moved hk hm
  | crash c k hk hend => exact absurd ha id

/-- The registry counts what the trace tells, and nothing is lost. -/
structure Tally (w : World) : Prop where
  published : w.server.registry.paymentsPublished = w.server.main.entries.length
  processed : w.server.registry.paymentsProcessed = w.trace.countP Event.isProcessed
  skipped : w.server.registry.skippedDuplicate = w.trace.countP Event.isSkipped
  moved : w.server.registry.movedToDlq = w.trace.countP Event.isDeadLettered
  lost : ∀ d id p, Event.lost d id p ∉ w.trace

theorem tally_init : Tally {} := ⟨rfl, rfl, rfl, rfl, fun _ _ _ h => by cases h⟩

theorem tally_step {x : World × History} {w : World} {a : Action} (h : Tally x.1) (ha : Crew x a)
    (hw : step x.1 a = some w) : Tally w := by
  cases Effect.of_step hw with
  | publish p =>
    refine ⟨?_, h.processed, h.skipped, h.moved, h.lost⟩
    change x.1.server.registry.paymentsPublished + 1 = (x.1.server.main.entries ++ [_]).length
    rw [List.length_append, h.published, List.length_singleton]
  | xadd f => exact absurd ha id
  | start c maxAttempts count hend => exact ⟨h.published, h.processed, h.skipped, h.moved, h.lost⟩
  | stop c k hk hpc => exact ⟨h.published, h.processed, h.skipped, h.moved, h.lost⟩
  | move _ c k k' s' evs hact hk hm =>
    have hreg := hm.registry_eq
    refine ⟨?_, ?_, ?_, ?_, fun d id p hmem => ?_⟩
    · change s'.registry.paymentsPublished = s'.main.entries.length
      rw [hm.entries_eq, hreg.1]
      exact h.published
    · change s'.registry.paymentsProcessed = (x.1.trace ++ evs).countP _
      rw [List.countP_append, hreg.2.1, h.processed]
    · change s'.registry.skippedDuplicate = (x.1.trace ++ evs).countP _
      rw [List.countP_append, hreg.2.2.1, h.skipped]
    · change s'.registry.movedToDlq = (x.1.trace ++ evs).countP _
      rw [List.countP_append, hreg.2.2.2, h.moved]
    · rcases List.mem_append.mp hmem with hmem | hmem
      · exact h.lost d id p hmem
      · exact hm.no_lost hmem
  | crash c k hk hend => exact absurd ha id

theorem countP_isOutcome (tr : List Event) : tr.countP Event.isOutcome =
    tr.countP Event.isProcessed + tr.countP Event.isSkipped + tr.countP Event.isDeadLettered := by
  induction tr with
  | nil => rfl
  | cons e tr ih =>
    simp only [List.countP_cons, ih]
    cases e <;> simp [Event.isOutcome, Event.isProcessed, Event.isSkipped, Event.isDeadLettered] <;>
      omega

/-- The ids of the entries that have had an outcome, once for every outcome. -/
def outcomeIds (w : World) : List ℕ := (w.trace.filter Event.isOutcome).map Event.id

theorem count_outcomeIds (w : World) (id : ℕ) :
    w.outcomeIds.count id = w.trace.countP (Event.settles id) := by
  rw [outcomeIds, List.count, List.countP_map, List.countP_filter]
  apply List.countP_congr
  intro e _
  cases e <;> simp [Event.isOutcome, Event.isProcessed, Event.isSkipped, Event.isDeadLettered,
    Event.settles, Event.id]

theorem count_pel (s : Server) (id : ℕ) :
    (s.main.pel.map (·.id)).count id = if (s.main.owner? id).isSome then 1 else 0 := by
  rw [GroupStream.nodup_pel.count]
  congr 1
  rw [List.mem_map, Option.isSome_iff_exists]
  simp only [GroupStream.owner?_eq_some, eq_iff_iff]
  constructor
  · rintro ⟨p, hp, hid⟩
    exact ⟨p.owner, p, hp, hid, rfl⟩
  · rintro ⟨c, p, hp, hid, -⟩
    exact ⟨p, hp, hid⟩

/-- While nobody is busy every delivered entry is pending or has had its one outcome. -/
theorem CrewInv.settled_or_pending {w : World} {h : History} (hi : CrewInv (w, h)) (ht : Tally w)
    (hidle : w.NoneBusy) (id : ℕ) : w.trace.countP (Event.settles id) +
      (if (w.server.main.owner? id).isSome then 1 else 0) =
        if 1 ≤ id ∧ id ≤ w.server.main.delivered then 1 else 0 := by
  have hfin : w.finished id = w.trace.countP (Event.settles id) := by
    have hloses : w.trace.countP (Event.loses id) = 0 := by
      rw [List.countP_eq_zero]
      intro e he hl
      cases e with
      | lost d i p => exact ht.lost d i p he
      | handled _ _ _ _ => cases hl
      | processed _ _ _ => cases hl
      | skipped _ _ _ => cases hl
      | deadLettered _ _ _ _ _ => cases hl
    rw [finished, countP_finishes, hloses, Nat.add_zero]
  have hrange (ho : (w.server.main.owner? id).isSome) :
      1 ≤ id ∧ id ≤ w.server.main.delivered := by
    obtain ⟨d, hd⟩ := Option.isSome_iff_exists.mp ho
    exact GroupStream.owner?_some_range hd
  rw [← hfin]
  by_cases hid : 1 ≤ id ∧ id ≤ w.server.main.delivered
  · rw [if_pos hid]
    by_cases ho : (w.server.main.owner? id).isSome = true
    · rw [if_pos ho, hi.fate.opened id (Or.inl (Or.inr ho))]
    · rw [if_neg ho, hi.fate.closed id hid.1]
      rintro ((hnew | hpend) | ⟨d, k, hk, hmov⟩)
      · exact absurd hid.2 (not_le.mpr hnew)
      · exact ho hpend
      · obtain ⟨m, stage, hpc, -⟩ := Consumer.busy_of_moving hmov
        exact hidle d k m stage hk hpc
  · rw [if_neg hid, if_neg fun ho => hid (hrange ho), hfin, List.countP_eq_zero.mpr]
    intro e he hset
    have htr := hi.traced e he
    have heid : e.id = id := by
      cases e <;> simp_all [Event.settles, Event.id]
    rw [heid] at htr
    exact hid ⟨htr.1, htr.2.1⟩

theorem CrewInv.conserved {w : World} {h : History} (hi : CrewInv (w, h)) (ht : Tally w)
    (hidle : w.NoneBusy) : w.server.main.delivered = w.server.main.pel.length +
      (w.trace.countP Event.isProcessed + w.trace.countP Event.isSkipped +
        w.trace.countP Event.isDeadLettered) := by
  have hperm : (w.outcomeIds ++ w.server.main.pel.map (·.id)).Perm
      (List.range' 1 w.server.main.delivered) := by
    have hnodup : (List.range' 1 w.server.main.delivered).Nodup := List.nodup_range'
    rw [List.perm_iff_count]
    intro id
    rw [List.count_append, count_outcomeIds, count_pel, hi.settled_or_pending ht hidle,
      hnodup.count]
    congr 1
    rw [List.mem_range'_1, eq_iff_iff]
    omega
  have hlen := hperm.length_eq
  rw [List.length_append, List.length_map, List.length_range', outcomeIds, List.length_map,
    ← List.countP_eq_length_filter, countP_isOutcome] at hlen
  omega

/-- What a crew guarantees: one owner, one budget and one acknowledgement for every entry, also
counting the handler that is running, and counters that account for all entries whenever nobody is
busy. -/
structure CrewReport (w : World) (h : History) : Prop where
  owned : ∀ id, 1 ≤ id → id ≤ w.server.main.delivered →
    ∃ c k, h.reader id = some c ∧ w.consumers c = some k ∧
      (w.server.main.owner? id = some c ∨ (c, id) ∈ h.acks) ∧
      (∀ d, w.server.main.owner? id = some d ∨ (d, id) ∈ h.acks → d = c) ∧
      (w.trace.countP (Event.handles id) : ℤ) ≤ max 1 k.maxAttempts ∧
      (∀ d l m, w.consumers d = some l → l.pc = .busy m .handler → m.id = id →
        (w.trace.countP (Event.handles id) : ℤ) + 1 ≤ max 1 k.maxAttempts) ∧
      (∀ e ∈ w.trace, e.id = id → e.consumer = c)
  acked : (h.acks.map Prod.snd).Nodup
  conserved : w.NoneBusy →
    w.server.registry.paymentsPublished = w.server.main.entries.length ∧
    w.server.main.entries.length =
      (w.server.main.entries.length - w.server.main.delivered) + w.server.main.pel.length +
        w.server.registry.paymentsProcessed + w.server.registry.skippedDuplicate +
        w.server.registry.movedToDlq

theorem CrewInv.report {w : World} {h : History} (hi : CrewInv (w, h)) (ht : Tally w) :
    CrewReport w h := by
  constructor
  · intro id h₁ h₂
    obtain ⟨c, k, hr, hread⟩ : ∃ c k, h.reader id = some c ∧ ReadBy w h id c k :=
      hi.read id h₁ h₂
    have hmine {d : String} (hd : w.server.main.owner? id = some d ∨ (d, id) ∈ h.acks) : d = c := by
      have hd' : h.reader id = some d := by
        rcases hd with hd | hd
        · exact hi.owner id d hd
        · exact (hi.acked _ hd).2
      exact Option.some.inj (hd'.symm.trans hr)
    refine ⟨c, k, hr, hread.self, ?_, fun d hd => hmine hd, ?_, fun d l m hl hpc hid => ?_,
      fun e he hid => ?_⟩
    · cases ho : w.server.main.owner? id with
      | some d => exact Or.inl (by rw [hmine (Or.inl ho)])
      | none =>
        have hone := hread.acks
        rw [ho, Option.isSome_none, if_neg Bool.false_ne_true] at hone
        have hmem : id ∈ h.acks.map Prod.snd :=
          List.count_pos_iff.mp (Nat.one_pos.trans_eq hone.symm)
        obtain ⟨a, ha, rfl⟩ := List.mem_map.mp hmem
        right
        rw [← hmine (Or.inr ha)]
        exact ha
    · have hle := hread.ledger.row.handled_le
      simp only [Consumer.budget] at hle
      omega
    · have hd : d = c := by
        have hin := hi.inHand d l m _ hl hpc
        rw [hid, hr] at hin
        exact (Option.some.inj hin).symm
      subst hd
      obtain rfl := Option.some.inj (hl.symm.trans hread.self)
      have hown := (hi.fate.holds d l hl m _ hpc).owner
      have hrow := hread.ledger.row
      rw [← hid, Consumer.status_busy hpc] at hrow
      have hst : w.server.status m.id = .pending := Server.status_pending hown
      have hpending := hst ▸ hrow
      obtain ⟨hspent, hhandled, -⟩ := hpending
      rw [hid] at hhandled hspent
      simp only [Consumer.budget] at hspent
      omega
    · have htr := (hi.traced e he).2.2
      rw [hid, hr] at htr
      exact (Option.some.inj htr).symm
  · rw [List.nodup_iff_count_le_one]
    intro id
    by_cases hmem : id ∈ h.acks.map Prod.snd
    · obtain ⟨a, ha, rfl⟩ := List.mem_map.mp hmem
      obtain ⟨c, k, -, hread⟩ := hi.read a.2 (hi.acked a ha).1 (hi.acked_delivered ha)
      rw [hread.acks]
      split_ifs
      · exact Nat.zero_le 1
      · exact le_rfl
    · rw [List.count_eq_zero.mpr hmem]
      exact Nat.zero_le 1
  · intro hidle
    have hcons := hi.conserved ht hidle
    have hle := w.server.main.delivered_le
    refine ⟨ht.published, ?_⟩
    rw [ht.processed, ht.skipped, ht.moved]
    omega

/-- In every run of a crew each entry has one owner, one budget and one outcome. -/
theorem crew_reports (actions : List Action) (w : World) (h : History)
    (hrun : run stepNoted ({}, {}) actions = some (w, h))
    (hcrew : Along stepNoted Crew ({}, {}) actions) : CrewReport w h := by
  have hinv : CrewInv (w, h) ∧ Tally w := run_invariant (I := fun x => CrewInv x ∧ Tally x.1)
    (fun x a y hx ha hy => by
      obtain ⟨w', hw, rfl⟩ := Option.map_eq_some_iff.mp hy
      exact ⟨crewInv_step x a _ hx.1 ha hy, tally_step hx.2 ha hw⟩)
    ⟨crewInv_init, tally_init⟩ hcrew hrun
  exact hinv.1.report hinv.2

/-- Two workers, the second's payment fails once and is then charged. -/
def twoWorkers : List Action :=
  [.start "a" 3 1, .start "b" 3 1, .publish rent, .publish rent, .run "a", .run "b", .run "b",
    .handler "b" (some ⟨"PaymentError", "declined"⟩), .run "a", .run "b", .handler "a" none,
    .run "a", .run "a", .run "b", .run "b", .run "b"]

theorem twoWorkers_reported :
    ∃ w h, run stepNoted ({}, {}) twoWorkers = some (w, h) ∧ w.server.main.pel = [] ∧
      h.acks = [("a", 1), ("b", 2)] ∧ CrewReport w h := by
  obtain ⟨w, h, hrun, hpel, hacks⟩ : ∃ w h, run stepNoted ({}, {}) twoWorkers = some (w, h) ∧
      w.server.main.pel = [] ∧ h.acks = [("a", 1), ("b", 2)] := ⟨_, _, rfl, rfl, rfl⟩
  refine ⟨w, h, hrun, hpel, hacks, crew_reports twoWorkers w h hrun ?_⟩
  apply (along_cons rfl).mpr
  refine ⟨rfl, (along_cons rfl).mpr ⟨rfl, along_of_forall ?_ _⟩⟩
  simp [Crew]

end World
end Dlq
