import MessageBrokerPatterns.DlqLetters

/-!
# Inspectors at the dead-letter stream

`read_dlq` and `ack_dlq` read and acknowledge the dead-letter stream through a consumer group of its
own, while the pipeline goes on. The broker has no other way to read that stream: nothing reads an
inspector's pending letters again, and nothing takes them over.

Over any run, what the inspectors have been handed, one after the other and followed by what nobody
has read, is the dead-letter stream: each letter is handed out once, to one inspector, and stays with
that inspector until it is acknowledged.
-/

namespace Dlq
open PyText PyDict RedisStream ActionRun

/-- The pipeline with the group on its dead-letter stream, the letters handed out so far with the
inspector they went to, and the ids that `ack_dlq` has acknowledged. -/
structure Station where
  world : World := {}
  desk : GroupStream Fields String Unit := .empty
  handed : List (String × ℕ × Fields) := []
  acked : List ℕ := []

inductive DeskAction
  | pipeline (a : Action)
  | readDlq (inspector : String) (count : ℕ)
  | ackDlq (id : ℕ)

namespace Station
variable (s : Station)

/-- The letters that the pipeline has added reach the group. -/
def deliver (letters : List Fields) : GroupStream Fields String Unit :=
  letters.foldl (fun desk f => desk.xadd f) s.desk

def readDlq (inspector : String) (count : ℕ) : List (ℕ × Fields) × Station :=
  (s.desk.newBatch count, { s with
    desk := s.desk.readNew inspector () count
    handed := s.handed ++ (s.desk.newBatch count).map fun e => (inspector, e) })

/-- `ack_dlq` returns how many entries the `XACK` has removed from the pending list. -/
def ackDlq (id : ℕ) : ℕ × Station :=
  match s.desk.owner? id with
  | some _ => (1, { s with desk := s.desk.xack id, acked := s.acked ++ [id] })
  | none => (0, { s with desk := s.desk.xack id })

def step (s : Station) : DeskAction → Option Station
  | .pipeline a =>
      match s.world.step a with
      | some w => some { s with
          world := w
          desk := s.deliver (w.server.dlq.drop s.world.server.dlq.length) }
      | none => none
  | .readDlq inspector count => some (s.readDlq inspector count).2
  | .ackDlq id => some (s.ackDlq id).2

end Station

def Event.failsFor (c : String) (id : ℕ) : Event → Bool
  | .handled d i _ (some _) => d = c ∧ i = id
  | _ => false

namespace World

/-- The consumer has seen its handler fail on the entry that often at least, once with the reason. -/
def Failed (w : World) (c : String) (id : ℕ) (p : Payment) (reason : String) (attempt : ℕ) : Prop :=
  1 ≤ attempt ∧ attempt ≤ w.trace.countP (Event.failsFor c id) ∧
    ∃ exc, .handled c id p (some exc) ∈ w.trace ∧ exc.className = reason

theorem Failed.append {w w' : World} {evs : List Event} (ht : w'.trace = w.trace ++ evs) {c : String}
    {id : ℕ} {p : Payment} {reason : String} {attempt : ℕ} (h : w.Failed c id p reason attempt) :
    w'.Failed c id p reason attempt := by
  obtain ⟨hpos, hle, exc, hmem, hreason⟩ := h
  refine ⟨hpos, ?_, exc, ?_, hreason⟩
  · rw [ht, List.countP_append]
    omega
  · rw [ht]
    exact List.mem_append_left _ hmem

/-- A run counts failures that have happened; the calls of earlier runs are not among them. -/
structure FailInv (w : World) : Prop where
  spent : ∀ c k, w.consumers c = some k → ∀ id, k.spent id ≤ w.trace.countP (Event.failsFor c id)
  leaving : ∀ c k, w.consumers c = some k → ∀ m reason attempt,
    k.pc = .busy m (.dlqAck reason attempt) ∨ k.pc = .busy m (.dlqAdd reason attempt) →
      w.Failed c m.id m.payment reason attempt
  letters : ∀ c id p reason attempt, .deadLettered c id p reason attempt ∈ w.trace →
    w.Failed c id p reason attempt

/-- A step that tells of no letter, when each consumer left counts what it has counted and is not about
to write a letter that it was not about to write before. -/
theorem FailInv.keep {w w' : World} {evs : List Event} (h : FailInv w)
    (ht : w'.trace = w.trace ++ evs) (hevs : ∀ e ∈ evs, e.deadLetter = none)
    (hk : ∀ c k', w'.consumers c = some k' → w.consumers c = some k' ∨
      (∀ id, k'.spent id = 0) ∧ (∀ m stage, k'.pc ≠ .busy m stage) ∨
      ∃ k, w.consumers c = some k ∧ k'.attempts = k.attempts ∧ ∀ m stage, k'.pc ≠ .busy m stage) :
    FailInv w' where
  spent c k' hk' id := by
    have hle : w.trace.countP (Event.failsFor c id) ≤ w'.trace.countP (Event.failsFor c id) := by
      rw [ht, List.countP_append]
      exact Nat.le_add_right _ _
    rcases hk c k' hk' with hsame | ⟨hzero, -⟩ | ⟨k, hold, hatt, -⟩
    · exact (h.spent c k' hsame id).trans hle
    · rw [hzero]
      exact Nat.zero_le _
    · rw [Consumer.spent, hatt]
      exact (h.spent c k hold id).trans hle
  leaving c k' hk' m reason attempt hpc := by
    rcases hk c k' hk' with hsame | ⟨-, hne⟩ | ⟨k, -, -, hne⟩
    · exact (h.leaving c k' hsame m reason attempt hpc).append ht
    · rcases hpc with hpc | hpc <;> exact absurd hpc (hne m _)
    · rcases hpc with hpc | hpc <;> exact absurd hpc (hne m _)
  letters c id p reason attempt hmem := by
    rw [ht] at hmem
    rcases List.mem_append.mp hmem with hmem | hmem
    · exact (h.letters c id p reason attempt hmem).append ht
    · cases hevs _ hmem

theorem spent_le_of_move {c : String} {k k' : Consumer} {s s' : Server} {evs : List Event}
    (hm : Move c k s k' s' evs) (id : ℕ) :
    k'.spent id ≤ k.spent id + evs.countP (Event.failsFor c id) := by
  cases hm with
  | retry m exc hpc hlt =>
    rw [Consumer.spent_forBatch, Consumer.spent_bump]
    split_ifs with hid
    · simp [Event.failsFor, hid]
    · exact Nat.le_add_right _ _
  | exhaust m exc hpc hge =>
    change (k.bump m.id).spent id ≤ _
    rw [Consumer.spent_bump]
    split_ifs with hid
    · simp [Event.failsFor, hid]
    · exact Nat.le_add_right _ _
  | ack m hpc =>
    rw [Consumer.spent_forBatch]
    change (k.dropAttempts m.id).spent id ≤ _
    rw [Consumer.spent_dropAttempts]
    split_ifs <;> omega
  | dlqAdd m reason attempt hpc =>
    rw [Consumer.spent_forBatch, Consumer.spent_dropAttempts]
    split_ifs <;> omega
  | readNew hpc hne => exact (k.spent_forBatch _ id).le.trans (Nat.le_add_right _ _)
  | readPending hpc hne => exact (k.spent_forBatch _ id).le.trans (Nat.le_add_right _ _)
  | skip m hpc => exact (k.spent_forBatch _ id).le.trans (Nat.le_add_right _ _)
  | _ => exact Nat.le_add_right _ _

theorem leaving_of_move {c : String} {k k' : Consumer} {s s' : Server} {evs : List Event}
    (hm : Move c k s k' s' evs) {m : Held} {reason : String} {attempt : ℕ}
    (hpc' : k'.pc = .busy m (.dlqAck reason attempt) ∨ k'.pc = .busy m (.dlqAdd reason attempt)) :
    k.pc = .busy m (.dlqAck reason attempt) ∨ attempt = k.spent m.id + 1 ∧
      ∃ exc : PyExc, evs = [.handled c m.id m.payment (some exc)] ∧ exc.className = reason := by
  have hbatch (l : Consumer) (batch : List (ℕ × Fields)) :
      ¬ ((l.forBatch batch).pc = .busy m (.dlqAck reason attempt) ∨
        (l.forBatch batch).pc = .busy m (.dlqAdd reason attempt)) := by
    cases batch with
    | nil => simp [Consumer.forBatch]
    | cons e rest =>
      simp only [Consumer.forBatch]
      split <;> simp
  cases hm with
  | exhaust n exc hpc hge =>
    simp only [Pc.busy.injEq, Stage.dlqAck.injEq, reduceCtorEq, and_false, or_false] at hpc'
    obtain ⟨rfl, rfl, rfl⟩ := hpc'
    exact Or.inr ⟨rfl, exc, rfl, rfl⟩
  | dlqAck n reason' attempt' hpc =>
    simp only [Pc.busy.injEq, Stage.dlqAdd.injEq, reduceCtorEq, and_false, false_or] at hpc'
    obtain ⟨rfl, rfl, rfl⟩ := hpc'
    exact Or.inl hpc
  | readNew hpc hne => exact absurd hpc' (hbatch _ _)
  | readPending hpc hne => exact absurd hpc' (hbatch _ _)
  | skip n hpc => exact absurd hpc' (hbatch _ _)
  | retry n exc hpc hlt => exact absurd hpc' (hbatch _ _)
  | ack n hpc => exact absurd hpc' (hbatch _ _)
  | dlqAdd n reason' attempt' hpc => exact absurd hpc' (hbatch _ _)
  | _ => simp at hpc'

theorem letter_of_move {c : String} {k k' : Consumer} {s s' : Server} {evs : List Event}
    (hm : Move c k s k' s' evs) {d : String} {id : ℕ} {p : Payment} {reason : String} {attempt : ℕ}
    (hmem : .deadLettered d id p reason attempt ∈ evs) :
    d = c ∧ ∃ m, k.pc = .busy m (.dlqAdd reason attempt) ∧ m.id = id ∧ m.payment = p := by
  cases hm with
  | dlqAdd m reason' attempt' hpc =>
    cases List.mem_singleton.mp hmem
    exact ⟨rfl, m, hpc, rfl, rfl⟩
  | _ => simp at hmem

theorem FailInv.moved {w : World} {c : String} {k k' : Consumer} {s' : Server} {evs : List Event}
    (h : FailInv w) (hk : w.consumers c = some k) (hm : Move c k w.server k' s' evs) :
    FailInv (w.moved c k' s' evs) := by
  have ht : (w.moved c k' s' evs).trace = w.trace ++ evs := rfl
  have hother {d : String} {l : Consumer} (hl : (w.moved c k' s' evs).consumers d = some l)
      (hd : d ≠ c) : w.consumers d = some l := (w.setConsumer_of_ne hd _).symm.trans hl
  have hself {l : Consumer} (hl : (w.moved c k' s' evs).consumers c = some l) : l = k' :=
    Option.some.inj (hl.symm.trans (w.setConsumer_self c _))
  constructor
  · intro d l hl id
    rw [ht, List.countP_append]
    by_cases hd : d = c
    · subst hd
      rw [hself hl]
      exact (spent_le_of_move hm id).trans (Nat.add_le_add_right (h.spent d k hk id) _)
    · exact (h.spent d l (hother hl hd) id).trans (Nat.le_add_right _ _)
  · intro d l hl m reason attempt hpc
    by_cases hd : d = c
    · subst hd
      rw [hself hl] at hpc
      rcases leaving_of_move hm hpc with hold | ⟨rfl, exc, rfl, hreason⟩
      · exact (h.leaving d k hk m reason attempt (Or.inl hold)).append ht
      · refine ⟨Nat.le_add_left 1 _, ?_, exc, ?_, hreason⟩
        · rw [ht, List.countP_append]
          have := h.spent d k hk m.id
          have hone : [Event.handled d m.id m.payment (some exc)].countP
              (Event.failsFor d m.id) = 1 := by simp [Event.failsFor]
          omega
        · exact List.mem_append_right _ (List.mem_singleton_self _)
    · exact (h.leaving d l (hother hl hd) m reason attempt hpc).append ht
  · intro d id p reason attempt hmem
    rcases List.mem_append.mp hmem with hmem | hmem
    · exact (h.letters d id p reason attempt hmem).append ht
    · obtain ⟨rfl, m, hpc, rfl, rfl⟩ := letter_of_move hm hmem
      exact (h.leaving d k hk m reason attempt (Or.inr hpc)).append ht

end World

namespace Station

end Station
end Dlq
