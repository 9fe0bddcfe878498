import MessageBrokerPatterns.CompetingSafety
import Mathlib.Algebra.Order.BigOperators.Group.Finset

/-!
# A lone survivor finishes everybody's work

Whatever has happened before, one run goes on alone with a handler that always succeeds, and any
amount of time passes before each of its turns. It works off the batch in hand; from the top of its
loop on, every entry in its hands is pending, so that how often an entry has been handled, plus
whether it is still due, stays what it was.

What is not acknowledged falls with every message that is acknowledged and every new message that is
claimed. When nothing is undelivered and nothing is stale, the loop goes round idly and leaves the
pending list alone, until the clock has made its first entry stale.
-/

namespace CompetingConsumers
open PyText PyDict RedisStream ActionRun
open scoped BigOperators

def Server.Outstanding (s : Server) (id : ℕ) : Prop :=
  (s.stream.delivered < id ∧ id ≤ s.stream.entries.length) ∨ (s.stream.owner? id).isSome

instance (s : Server) (id : ℕ) : Decidable (s.Outstanding id) :=
  inferInstanceAs (Decidable (_ ∨ _))

/-- No entry is undelivered or pending. -/
def Server.Drained (s : Server) : Prop :=
  s.stream.delivered = s.stream.entries.length ∧ s.stream.pel = []

/-- An undelivered entry has to be delivered and acknowledged, a pending one to be acknowledged. -/
def Server.unacked (s : Server) : ℕ :=
  2 * (s.stream.entries.length - s.stream.delivered) + s.stream.pel.length

theorem Server.drained_iff {s : Server} : s.Drained ↔ s.unacked = 0 := by
  have hle := s.stream.delivered_le
  rw [Drained, unacked, ← List.length_eq_zero_iff]
  omega

namespace Consumer

def hand (k : Consumer) : List ℕ :=
  match k.pc with
  | .handler m => m.id :: m.rest.map Prod.fst
  | .ack m => m.id :: m.rest.map Prod.fst
  | _ => []

/-- The entry that has been handled and waits for its `XACK`. -/
def acking (k : Consumer) : Option ℕ :=
  match k.pc with
  | .ack m => some m.id
  | _ => none

def phaseRank (k : Consumer) : Phase → ℕ
  | .reclaimed => 2 * k.count + 2
  | .new => 0

def rank (k : Consumer) : ℕ :=
  match k.pc with
  | .sleep => 1
  | .readNew _ => 2 * k.count + 2
  | .handler m => k.phaseRank m.phase + 2 * (m.rest.length + 1)
  | .ack m => k.phaseRank m.phase + (2 * m.rest.length + 1)
  | _ => 0

/-- Whether the handler of the run has yet to complete for an entry that is not acknowledged. -/
def due (k : Consumer) (s : Server) (id : ℕ) : ℕ :=
  if s.Outstanding id ∧ k.acking ≠ some id then 1 else 0

/-- The run has not ended, and it works on the entries of a stream of tasks. -/
structure Working (k : Consumer) (s : Server) : Prop where
  alive : k.ended = false
  faithful : k.Faithful s
  wellFormed : s.WellFormed

/-- What the run has in hand is pending. -/
structure Holding (k : Consumer) (s : Server) : Prop where
  pending : ∀ id ∈ k.hand, (s.stream.owner? id).isSome
  nodup : k.hand.Nodup

theorem Holding.le_delivered {k : Consumer} {s : Server} (hh : k.Holding s) {m : Held}
    (hpc : k.pc = .ack m) : m.id ≤ s.stream.delivered := by
  have hid : m.id ∈ k.hand := by
    simp only [hand, hpc, List.mem_cons, true_or]
  obtain ⟨c, hc⟩ := Option.isSome_iff_exists.mp (hh.pending m.id hid)
  exact (GroupStream.owner?_some_range hc).2

theorem holding_of_hand_eq_nil {k : Consumer} {s : Server} (h : k.hand = []) : k.Holding s where
  pending id hid := by
    rw [h] at hid
    cases hid
  nodup := by
    rw [h]
    exact List.nodup_nil

theorem handleBatch_hand (k : Consumer) {s : Server} (hwf : s.WellFormed) (phase : Phase)
    (handled : ℕ) (batch : List (ℕ × Fields))
    (hb : ∀ e ∈ batch, entryAt s.stream.entries e.1 = some e.2) :
    (k.handleBatch phase handled batch).hand = batch.map Prod.fst ∧
      (k.handleBatch phase handled batch).acking = none ∧
      (k.handleBatch phase handled batch).rank = k.phaseRank phase + 2 * batch.length ∧
      (k.handleBatch phase handled batch).count = k.count ∧
      (k.handleBatch phase handled batch).reclaimMinIdleMs = k.reclaimMinIdleMs := by
  cases batch with
  | nil =>
    cases phase with
    | reclaimed => exact ⟨rfl, rfl, rfl, rfl, rfl⟩
    | new => exact ⟨rfl, rfl, rfl, rfl, rfl⟩
  | cons e rest =>
    obtain ⟨id, f⟩ := e
    obtain ⟨t, ht⟩ := hwf id f (hb _ List.mem_cons_self)
    simp only [handleBatch, ht]
    exact ⟨rfl, rfl, rfl, trivial, trivial⟩

end Consumer

namespace Move
variable {k k' : Consumer} {now : ℕ} {s s' : Server}

theorem working (hm : Move k now s k' s') (hw : k.Working s) : k'.Working s' := by
  obtain ⟨-, halive, hf, -, hent, -⟩ := hm.claim_change hw.wellFormed hw.faithful
  refine ⟨halive, hf, ?_⟩
  intro id f h
  rw [hent] at h
  exact hw.wellFormed id f h

theorem same_settings (hm : Move k now s k' s') (hw : k.Working s) :
    k'.count = k.count ∧ k'.reclaimMinIdleMs = k.reclaimMinIdleMs := by
  cases hm with
  | sweep hpc hne => exact (k.handleBatch_hand hw.wellFormed .reclaimed 0
      (s.stream.staleBatch now k.reclaimMinIdleMs k.count) GroupStream.entryAt_of_mem_staleBatch).2.2.2
  | nothingStale hpc hnil => exact ⟨rfl, rfl⟩
  | readNew didWork hpc hne => exact (k.handleBatch_hand hw.wellFormed .new 0 (s.stream.newBatch k.count)
      GroupStream.entryAt_of_mem_newBatch).2.2.2
  | nothingNew didWork hpc hnil => exact ⟨rfl, rfl⟩
  | wake hpc => exact ⟨rfl, rfl⟩
  | ack m hpc =>
    have hrest := (hw.faithful m (Or.inr hpc)).2
    exact (k.handleBatch_hand hw.wellFormed m.phase (m.handled + 1) m.rest hrest).2.2.2

theorem rank_lt (hm : Move k now s k' s') (hw : k.Working s) (htop : k.pc ≠ .top) :
    k'.rank < k.rank := by
  cases hm with
  | sweep hpc hne => exact absurd hpc htop
  | nothingStale hpc hnil => exact absurd hpc htop
  | readNew didWork hpc hne =>
    have hrank := (k.handleBatch_hand hw.wellFormed .new 0 (s.stream.newBatch k.count)
      GroupStream.entryAt_of_mem_newBatch).2.2.1
    have hlen : (s.stream.newBatch k.count).length ≤ k.count := by
      rw [GroupStream.newBatch, length_xread]
      exact min_le_left _ _
    rw [hrank, Consumer.rank, hpc]
    simp only [Consumer.phaseRank]
    omega
  | nothingNew didWork hpc hnil =>
    rw [Consumer.rank.eq_def k, hpc]
    cases didWork with
    | true =>
      simp only [Consumer.rank, if_true]
      omega
    | false =>
      simp only [Consumer.rank, Bool.false_eq_true, if_false]
      omega
  | wake hpc =>
    rw [Consumer.rank.eq_def k, hpc]
    simp only [Consumer.rank]
    omega
  | ack m hpc =>
    have hrest := (hw.faithful m (Or.inr hpc)).2
    have hrank := (k.handleBatch_hand hw.wellFormed m.phase (m.handled + 1) m.rest hrest).2.2.1
    rw [hrank, Consumer.rank, hpc]
    simp only
    omega

/-- A sweep and a read put pending entries into the hands of the run, and nothing else leaves the
pending list than the acknowledged message. -/
theorem holding (hm : Move k now s k' s') (hw : k.Working s) (hh : k.Holding s) :
    k'.Holding s' := by
  cases hm with
  | sweep hpc hne =>
    have hhand := (k.handleBatch_hand hw.wellFormed .reclaimed 0
      (s.stream.staleBatch now k.reclaimMinIdleMs k.count) GroupStream.entryAt_of_mem_staleBatch).1
    rw [GroupStream.map_fst_staleBatch] at hhand
    constructor
    · intro id hid
      rw [hhand] at hid
      obtain ⟨c, hc⟩ := GroupStream.owner?_of_mem_staleIds hid
      change ((s.stream.redeliver _ k.consumerId now).owner? id).isSome
      rw [GroupStream.owner?_redeliver, if_pos hid, hc]
      rfl
    · rw [hhand]
      exact GroupStream.nodup_staleIds _ _ _ _
  | nothingStale hpc hnil => exact Consumer.holding_of_hand_eq_nil rfl
  | readNew didWork hpc hne =>
    have hhand := (k.handleBatch_hand hw.wellFormed .new 0 (s.stream.newBatch k.count)
      GroupStream.entryAt_of_mem_newBatch).1
    constructor
    · intro id hid
      rw [hhand] at hid
      obtain ⟨e, he, rfl⟩ := List.mem_map.mp hid
      change ((s.stream.readNew k.consumerId now k.count).owner? e.1).isSome
      rw [GroupStream.owner?_readNew, if_pos (GroupStream.mem_newBatch.mp he).1]
      rfl
    · rw [hhand]
      exact GroupStream.nodup_newBatch k.count
  | nothingNew didWork hpc hnil =>
    cases didWork with
    | true => exact Consumer.holding_of_hand_eq_nil rfl
    | false => exact Consumer.holding_of_hand_eq_nil rfl
  | wake hpc => exact Consumer.holding_of_hand_eq_nil rfl
  | ack m hpc =>
    have hrest := (hw.faithful m (Or.inr hpc)).2
    have hhand := (k.handleBatch_hand hw.wellFormed m.phase (m.handled + 1) m.rest hrest).1
    have hk : k.hand = m.id :: m.rest.map Prod.fst := by
      simp only [Consumer.hand, hpc]
    have hnodup := hh.nodup
    rw [hk, List.nodup_cons] at hnodup
    constructor
    · intro id hid
      rw [hhand] at hid
      have hne : id ≠ m.id := by
        rintro rfl
        exact hnodup.1 hid
      change ((s.stream.xack m.id).owner? id).isSome
      rw [GroupStream.owner?_xack, if_neg hne]
      exact hh.pending id (hk ▸ List.mem_cons_of_mem _ hid)
    · rw [hhand]
      exact hnodup.2

theorem outstanding_autoclaim (s : Server) (c : String) (now minIdle count id : ℕ) :
    (s.reclaimStale c now minIdle count).2.Outstanding id ↔ s.Outstanding id := by
  change _ ∨ ((s.stream.redeliver _ c now).owner? id).isSome ↔ _
  rw [GroupStream.owner?_redeliver]
  split_ifs with hid
  · rw [Option.isSome_map]
    rfl
  · rfl

theorem outstanding_readNew (s : Server) (c : String) (now count id : ℕ) :
    (s.readNew c now count).2.Outstanding id ↔ s.Outstanding id := by
  have hle : s.stream.newCount count ≤ s.stream.entries.length - s.stream.delivered :=
    min_le_right _ _
  change (s.stream.delivered + s.stream.newCount count < id ∧ id ≤ s.stream.entries.length) ∨
    ((s.stream.readNew c now count).owner? id).isSome ↔ _
  rw [GroupStream.owner?_readNew, Server.Outstanding]
  split_ifs with hid
  · simp only [Option.isSome_some, or_true, true_iff]
    omega
  · constructor
    · rintro (h | h)
      · exact Or.inl (by omega)
      · exact Or.inr h
    · rintro (h | h)
      · exact Or.inl (by omega)
      · exact Or.inr h

theorem due_eq (hm : Move k now s k' s') (hw : k.Working s) (hh : k.Holding s) (id : ℕ) :
    k'.due s' id = k.due s id := by
  cases hm with
  | sweep hpc hne =>
    have hack := (k.handleBatch_hand hw.wellFormed .reclaimed 0
      (s.stream.staleBatch now k.reclaimMinIdleMs k.count) GroupStream.entryAt_of_mem_staleBatch).2.1
    have hack' : k.acking = none := by simp only [Consumer.acking, hpc]
    simp only [Consumer.due, hack, hack', outstanding_autoclaim]
  | nothingStale hpc hnil =>
    have hack : k.acking = none := by simp only [Consumer.acking, hpc]
    simp only [Consumer.due, hack, outstanding_autoclaim]
    rfl
  | readNew didWork hpc hne =>
    have hack := (k.handleBatch_hand hw.wellFormed .new 0 (s.stream.newBatch k.count)
      GroupStream.entryAt_of_mem_newBatch).2.1
    have hack' : k.acking = none := by simp only [Consumer.acking, hpc]
    simp only [Consumer.due, hack, hack', outstanding_readNew]
  | nothingNew didWork hpc hnil =>
    have hack : k.acking = none := by simp only [Consumer.acking, hpc]
    simp only [Consumer.due, hack, outstanding_readNew]
    cases didWork with
    | true => rfl
    | false => rfl
  | wake hpc =>
    have hack : k.acking = none := by simp only [Consumer.acking, hpc]
    simp only [Consumer.due, hack]
    rfl
  | ack m hpc =>
    have hrest := (hw.faithful m (Or.inr hpc)).2
    have hack := (k.handleBatch_hand hw.wellFormed m.phase (m.handled + 1) m.rest hrest).2.1
    have hack' : k.acking = some m.id := by simp only [Consumer.acking, hpc]
    have hdel := hh.le_delivered hpc
    have hout : ({ s.ack m.id with registry.messagesConsumed := s.registry.messagesConsumed + 1 } :
        Server).Outstanding id ↔ s.Outstanding id ∧ m.id ≠ id := by
      change (s.stream.delivered < id ∧ id ≤ s.stream.entries.length) ∨
        ((s.stream.xack m.id).owner? id).isSome ↔ _
      rw [GroupStream.owner?_xack, Server.Outstanding]
      by_cases hid : id = m.id
      · subst hid
        simp only [if_true, Option.isSome_none, Bool.false_eq_true, or_false, ne_eq, not_true,
          and_false, iff_false]
        omega
      · simp only [if_neg hid, ne_eq, Ne.symm hid, not_false_eq_true, and_true]
    simp only [Consumer.due, hack, hack', hout, ne_eq, Option.some.injEq, reduceCtorEq,
      not_false_eq_true, and_true]

theorem unacked_autoclaim (s : Server) (c : String) (now minIdle count : ℕ) :
    (s.reclaimStale c now minIdle count).2.unacked = s.unacked := by
  change 2 * (s.stream.entries.length - s.stream.delivered) +
    (s.stream.pel.map fun p => _).length = _
  rw [List.length_map, Server.unacked]

theorem unacked_readNew (s : Server) (c : String) (now count : ℕ) :
    (s.readNew c now count).2.unacked + s.stream.newCount count = s.unacked := by
  have hle : s.stream.newCount count ≤ s.stream.entries.length - s.stream.delivered :=
    min_le_right _ _
  change 2 * (s.stream.entries.length - (s.stream.delivered + s.stream.newCount count)) +
    (s.stream.pel ++ _).length + _ = _
  rw [List.length_append, List.length_map, List.length_range', Server.unacked]
  omega

theorem unacked_ack {s : Server} {id : ℕ} (h : (s.stream.owner? id).isSome) :
    (s.ack id).unacked < s.unacked := by
  obtain ⟨c, hc⟩ := Option.isSome_iff_exists.mp h
  obtain ⟨p, hp, hid, -⟩ := GroupStream.owner?_eq_some.mp hc
  have hlt : (s.stream.pel.filter fun q => q.id ≠ id).length < s.stream.pel.length := by
    apply List.length_filter_lt_length_iff_exists.mpr
    exact ⟨p, hp, by simpa using hid⟩
  change 2 * (s.stream.entries.length - s.stream.delivered) + _ < _
  rw [Server.unacked]
  exact Nat.add_lt_add_left hlt _

/-- What is not acknowledged never grows, and falls with an `XACK`. -/
theorem unacked_le (hm : Move k now s k' s') (hh : k.Holding s) :
    s'.unacked ≤ s.unacked ∧ (k.acking ≠ none → s'.unacked < s.unacked) := by
  cases hm with
  | sweep hpc hne =>
    refine ⟨(unacked_autoclaim s _ _ _ _).le, fun h => absurd ?_ h⟩
    simp only [Consumer.acking, hpc]
  | nothingStale hpc hnil =>
    refine ⟨(unacked_autoclaim s _ _ _ _).le, fun h => absurd ?_ h⟩
    simp only [Consumer.acking, hpc]
  | readNew didWork hpc hne =>
    have h := unacked_readNew s k.consumerId now k.count
    refine ⟨by omega, fun h => absurd ?_ h⟩
    simp only [Consumer.acking, hpc]
  | nothingNew didWork hpc hnil =>
    have h := unacked_readNew s k.consumerId now k.count
    refine ⟨by omega, fun h => absurd ?_ h⟩
    simp only [Consumer.acking, hpc]
  | wake hpc =>
    refine ⟨le_rfl, fun h => absurd ?_ h⟩
    simp only [Consumer.acking, hpc]
  | ack m hpc =>
    have hid : m.id ∈ k.hand := by
      simp only [Consumer.hand, hpc, List.mem_cons, true_or]
    have h := unacked_ack (hh.pending m.id hid)
    exact ⟨h.le, fun _ => h⟩

end Move

namespace Move
variable {k k' : Consumer} {now : ℕ} {s s' : Server}

theorem of_top (hm : Move k now s k' s') (hw : k.Working s) (hpc : k.pc = .top) :
    (k'.hand ≠ [] ∧ s'.unacked = s.unacked) ∨
      (s.stream.staleIds now k.reclaimMinIdleMs k.count = [] ∧ s' = s ∧
        k' = { k with pc := .readNew false }) := by
  cases hm with
  | sweep hpc' hne =>
    apply Or.inl
    refine ⟨?_, unacked_autoclaim s _ _ _ _⟩
    rw [(k.handleBatch_hand hw.wellFormed .reclaimed 0
      (s.stream.staleBatch now k.reclaimMinIdleMs k.count) GroupStream.entryAt_of_mem_staleBatch).1]
    exact mt List.map_eq_nil_iff.mp hne
  | nothingStale hpc' hnil =>
    have hnone : (s.reclaimStale k.consumerId now k.reclaimMinIdleMs k.count).1 = [] := hnil
    exact Or.inr ⟨(Server.reclaimStale_eq_nil_iff_staleIds _).mp hnone,
      Server.reclaimStale_snd_of_nil hnone, rfl⟩
  | readNew didWork hpc' hne => simp [hpc'] at hpc
  | nothingNew didWork hpc' hnil => simp [hpc'] at hpc
  | wake hpc' => simp [hpc'] at hpc
  | ack m hpc' => simp [hpc'] at hpc

theorem of_readNew (hm : Move k now s k' s') {didWork : Bool} (hpc : k.pc = .readNew didWork) :
    (0 < s.stream.newCount k.count ∧ s'.unacked < s.unacked) ∨
      (s.stream.newCount k.count = 0 ∧ s' = s ∧
        k' = { k with pc := if didWork then .top else .sleep }) := by
  cases hm with
  | sweep hpc' hne => simp [hpc'] at hpc
  | nothingStale hpc' hnil => simp [hpc'] at hpc
  | readNew didWork' hpc' hne =>
    apply Or.inl
    have hpos := Nat.pos_of_ne_zero (mt GroupStream.newBatch_eq_nil.mpr hne)
    have h := unacked_readNew s k.consumerId now k.count
    exact ⟨hpos, by omega⟩
  | nothingNew didWork' hpc' hnil =>
    apply Or.inr
    obtain rfl : didWork' = didWork := by simpa [hpc'] using hpc
    have hzero := GroupStream.newBatch_eq_nil.mp hnil
    refine ⟨hzero, ?_, rfl⟩
    change { s with stream := s.stream.readNew k.consumerId now k.count } = s
    rw [GroupStream.readNew_eq_self hzero]
  | wake hpc' => simp [hpc'] at hpc
  | ack m hpc' => simp [hpc'] at hpc

theorem of_sleep (hm : Move k now s k' s') (hpc : k.pc = .sleep) :
    s' = s ∧ k' = { k with pc := .top } := by
  cases hm with
  | sweep hpc' hne => simp [hpc'] at hpc
  | nothingStale hpc' hnil => simp [hpc'] at hpc
  | readNew didWork hpc' hne => simp [hpc'] at hpc
  | nothingNew didWork hpc' hnil => simp [hpc'] at hpc
  | wake hpc' => exact ⟨rfl, rfl⟩
  | ack m hpc' => simp [hpc'] at hpc

end Move

theorem Consumer.command_isSome {k : Consumer} (now : ℕ) (s : Server) (hend : k.ended = false)
    (hh : ∀ m, k.pc ≠ .handler m) : ∃ k' s', k.command now s = some (k', s') := by
  cases hpc : k.pc with
  | top =>
    simp only [Consumer.command, hpc]
    split
    · exact ⟨_, _, rfl⟩
    · exact ⟨_, _, rfl⟩
  | readNew didWork =>
    simp only [Consumer.command, hpc]
    split
    · exact ⟨_, _, rfl⟩
    · exact ⟨_, _, rfl⟩
  | sleep =>
    simp only [Consumer.command, hpc]
    exact ⟨_, _, rfl⟩
  | handler m => exact absurd hpc (hh m)
  | ack m =>
    simp only [Consumer.command, hpc]
    exact ⟨_, _, rfl⟩
  | returned => simp [Consumer.ended, hpc] at hend
  | raised e claims => simp [Consumer.ended, hpc] at hend
  | crashed claims => simp [Consumer.ended, hpc] at hend

namespace World

/-- What the run does next when its handler always succeeds. -/
def act (w : World) (i : ℕ) : Action :=
  match w.runs i with
  | some k =>
      match k.pc with
      | .handler _ => .handler i none
      | _ => .run i
  | none => .run i

/-- Some time passes, and then the run does one thing. -/
def turn (i ms : ℕ) (w : World) : Option World := run step w [.tick ms, w.act i]

/-- The run `i` goes on alone for `n` turns, before each of which time passes. -/
def alone (w : World) (i : ℕ) (σ : ℕ → ℕ) : ℕ → Option World
  | 0 => some w
  | n + 1 => (w.alone i σ n).bind (turn i (σ n))

/-- A turn is a command at a later time, or the handler completes. -/
inductive Turned (w : World) (i ms : ℕ) (k : Consumer) : World → Consumer → Prop where
  | moved (k' : Consumer) (s' : Server) (hm : Move k (w.now + ms) w.server k' s') :
      Turned w i ms k ({ w with now := w.now + ms }.moved i k' s') k'
  | completed (m : Held) (hpc : k.pc = .handler m) :
      Turned w i ms k ({ w with now := w.now + ms }.completed i k m) { k with pc := .ack m }

theorem turn_isSome {w : World} {i : ℕ} {k : Consumer} (ms : ℕ) (hk : w.runs i = some k)
    (hend : k.ended = false) : ∃ w' k', turn i ms w = some w' ∧ Turned w i ms k w' k' := by
  by_cases hh : ∃ m, k.pc = .handler m
  · obtain ⟨m, hpc⟩ := hh
    refine ⟨_, _, ?_, .completed m hpc⟩
    simp only [turn, act, run, step, hk, hpc, Option.bind_some]
  · obtain ⟨k', s', hr⟩ := Consumer.command_isSome (w.now + ms) w.server hend (not_exists.mp hh)
    have hact : w.act i = .run i := by
      simp only [act, hk]
      split
      · rename_i m hpc
        exact absurd ⟨m, hpc⟩ hh
      · rfl
    refine ⟨_, _, ?_, .moved k' s' (.of_command hr)⟩
    simp only [turn, hact, run, step, hk, hr, Option.bind_some, Option.map_some]

/-- The run is alive and everything in its hands is pending. -/
structure OnDuty (w : World) (i : ℕ) (k : Consumer) : Prop where
  run : w.runs i = some k
  working : k.Working w.server
  holding : k.Holding w.server
  count_pos : 1 ≤ k.count

namespace Turned
variable {w w' : World} {i ms : ℕ} {k k' : Consumer}

theorem now_eq (h : Turned w i ms k w' k') : w'.now = w.now + ms := by
  cases h with
  | moved k' s' hm => rfl
  | completed m hpc => rfl

theorem run_eq (h : Turned w i ms k w' k') : w'.runs i = some k' := by
  cases h with
  | moved k' s' hm => exact setRun_self _ _ _
  | completed m hpc => exact setRun_self _ _ _

theorem working (h : Turned w i ms k w' k') (hw : k.Working w.server) :
    k'.Working w'.server ∧ k'.count = k.count ∧ k'.reclaimMinIdleMs = k.reclaimMinIdleMs := by
  cases h with
  | moved k' s' hm => exact ⟨hm.working hw, hm.same_settings hw⟩
  | completed m hpc =>
    refine ⟨⟨rfl, ?_, hw.wellFormed⟩, rfl, rfl⟩
    intro n hn
    obtain rfl : m = n := by simpa using hn
    exact hw.faithful m (Or.inl hpc)

theorem entries_eq (h : Turned w i ms k w' k') (hw : k.Working w.server) :
    w'.server.stream.entries = w.server.stream.entries := by
  cases h with
  | moved k' s' hm => exact (hm.faithful hw.faithful).2
  | completed m hpc => rfl

theorem rank_lt (h : Turned w i ms k w' k') (hw : k.Working w.server) (htop : k.pc ≠ .top) :
    k'.rank < k.rank := by
  cases h with
  | moved k' s' hm => exact hm.rank_lt hw htop
  | completed m hpc =>
    rw [Consumer.rank.eq_def k, hpc]
    simp only [Consumer.rank, Consumer.phaseRank]
    omega

theorem hand_completed {m : Held} (hpc : k.pc = .handler m) :
    ({ k with pc := .ack m } : Consumer).hand = k.hand := by
  simp only [Consumer.hand, hpc]

theorem onDuty (h : Turned w i ms k w' k') (hd : OnDuty w i k) : OnDuty w' i k' := by
  obtain ⟨hw, hcount, -⟩ := h.working hd.working
  refine ⟨h.run_eq, hw, ?_, hcount ▸ hd.count_pos⟩
  cases h with
  | moved k' s' hm => exact hm.holding hd.working hd.holding
  | completed m hpc =>
    constructor
    · rw [hand_completed hpc]
      exact hd.holding.pending
    · rw [hand_completed hpc]
      exact hd.holding.nodup

theorem unacked_le (h : Turned w i ms k w' k') (hd : OnDuty w i k) :
    w'.server.unacked ≤ w.server.unacked ∧
      (k.acking ≠ none → w'.server.unacked < w.server.unacked) := by
  cases h with
  | moved k' s' hm => exact hm.unacked_le hd.holding
  | completed m hpc =>
    refine ⟨le_rfl, fun h => absurd ?_ h⟩
    simp only [Consumer.acking, hpc]

theorem trace_eq (h : Turned w i ms k w' k') :
    ∃ more, w'.trace = w.trace ++ more ∧ ∀ e ∈ more, e.run = i := by
  cases h with
  | moved k' s' hm => exact ⟨[], (List.append_nil _).symm, fun e he => by cases he⟩
  | completed m hpc =>
    refine ⟨[⟨i, m.id, m.task⟩], rfl, ?_⟩
    intro e he
    rw [List.mem_singleton.mp he]

theorem handledCount_add_due (h : Turned w i ms k w' k') (hd : OnDuty w i k) (id : ℕ) :
    w'.handledCount id + k'.due w'.server id = w.handledCount id + k.due w.server id := by
  cases h with
  | moved k' s' hm =>
    have hdue := hm.due_eq hd.working hd.holding id
    change w.handledCount id + k'.due s' id = _
    rw [hdue]
  | completed m hpc =>
    have hcount := handledCount_completed (w := { w with now := w.now + ms }) (i := i) (k := k)
      (m := m) id
    have hhand : m.id ∈ k.hand := by
      simp only [Consumer.hand, hpc, List.mem_cons, true_or]
    have hout : w.server.Outstanding m.id := Or.inr (hd.holding.pending m.id hhand)
    have hbefore : k.due w.server id = if w.server.Outstanding id then 1 else 0 := by
      simp only [Consumer.due, Consumer.acking, hpc, ne_eq, reduceCtorEq, not_false_eq_true, and_true]
    have hafter : ({ k with pc := .ack m } : Consumer).due w.server id =
        if w.server.Outstanding id ∧ m.id ≠ id then 1 else 0 := by
      simp only [Consumer.due, Consumer.acking, ne_eq, Option.some.injEq]
    rw [hcount, hbefore]
    change w.handledCount id + _ + ({ k with pc := .ack m } : Consumer).due w.server id = _
    rw [hafter]
    by_cases hid : id = m.id
    · subst hid
      rw [if_pos rfl, if_neg fun h => h.2 rfl, if_pos hout]
    · simp only [if_neg hid, ne_eq, Ne.symm hid, not_false_eq_true, and_true, Nat.add_zero]

theorem move (h : Turned w i ms k w' k') (hh : ∀ m, k.pc ≠ .handler m) :
    Move k (w.now + ms) w.server k' w'.server := by
  cases h with
  | moved k' s' hm => exact hm
  | completed m hpc => exact absurd hpc (hh m)

end Turned

section
variable {w : World} {i : ℕ} {σ : ℕ → ℕ}

theorem alone_succ {n : ℕ} {v : World} {k : Consumer} (hv : w.alone i σ n = some v)
    (hk : v.runs i = some k) (hend : k.ended = false) :
    ∃ v' k', w.alone i σ (n + 1) = some v' ∧ Turned v i (σ n) k v' k' := by
  obtain ⟨v', k', hturn, hturned⟩ := turn_isSome (σ n) hk hend
  refine ⟨v', k', ?_, hturned⟩
  simp only [alone, hv, Option.bind_some, hturn]

theorem alone_working {k : Consumer} (hk : w.runs i = some k) (hw : k.Working w.server) (n : ℕ) :
    ∃ v l, w.alone i σ n = some v ∧ v.runs i = some l ∧ l.Working v.server ∧ l.count = k.count ∧
      v.now = w.now + ∑ m ∈ Finset.range n, σ m ∧
      v.server.stream.entries = w.server.stream.entries := by
  induction n with
  | zero => exact ⟨w, k, rfl, hk, hw, rfl, by simp, rfl⟩
  | succ n ih =>
    obtain ⟨v, l, hv, hl, hlw, hcount, hnow, hent⟩ := ih
    obtain ⟨v', l', hv', ht⟩ := alone_succ hv hl hlw.alive
    obtain ⟨hlw', hcount', -⟩ := ht.working hlw
    refine ⟨v', l', hv', ht.run_eq, hlw', hcount'.trans hcount, ?_, (ht.entries_eq hlw).trans hent⟩
    rw [ht.now_eq, hnow, Finset.sum_range_succ, Nat.add_assoc]

theorem now_alone {k : Consumer} (hk : w.runs i = some k) (hw : k.Working w.server) {n : ℕ}
    {v : World} (hv : w.alone i σ n = some v) : v.now = w.now + ∑ m ∈ Finset.range n, σ m := by
  obtain ⟨u, -, hu, -, -, -, hnow, -⟩ := alone_working (σ := σ) hk hw n
  obtain rfl := Option.some.inj (hv.symm.trans hu)
  exact hnow

theorem alone_top {n : ℕ} {v : World} {k : Consumer} (hv : w.alone i σ n = some v)
    (hk : v.runs i = some k) (hw : k.Working v.server) :
    ∃ m u l, n ≤ m ∧ w.alone i σ m = some u ∧ u.runs i = some l ∧ l.pc = .top ∧
      l.Working u.server := by
  induction hr : k.rank using Nat.strong_induction_on generalizing n v k with
  | _ r ih =>
    by_cases hpc : k.pc = .top
    · exact ⟨n, v, k, le_rfl, hv, hk, hpc, hw⟩
    · obtain ⟨v', k', hv', ht⟩ := alone_succ hv hk hw.alive
      have hlt := ht.rank_lt hw hpc
      obtain ⟨m, u, l, hle, hu, hl, htop, hlw⟩ := ih _ (hr ▸ hlt) hv' ht.run_eq (ht.working hw).1 rfl
      exact ⟨m, u, l, by omega, hu, hl, htop, hlw⟩

/-- From the top of the loop on, what is not acknowledged never grows, and each handling of an entry
is paid for by an entry that stops being due. -/
theorem alone_onDuty {n m : ℕ} {v : World} {k : Consumer} (hv : w.alone i σ n = some v)
    (hd : OnDuty v i k) (hle : n ≤ m) :
    ∃ u l, w.alone i σ m = some u ∧ OnDuty u i l ∧ u.server.unacked ≤ v.server.unacked ∧
      (∃ more, u.trace = v.trace ++ more ∧ ∀ e ∈ more, e.run = i) ∧
      ∀ id, u.handledCount id + l.due u.server id = v.handledCount id + k.due v.server id := by
  induction m, hle using Nat.le_induction with
  | base => exact ⟨v, k, hv, hd, le_rfl, ⟨[], by simp, fun e he => by cases he⟩, fun _ => rfl⟩
  | succ m hle ih =>
    obtain ⟨u, l, hu, hdu, hun, ⟨more, htrace, hmine⟩, hdue⟩ := ih
    obtain ⟨u', l', hu', ht⟩ := alone_succ hu hdu.run hdu.working.alive
    obtain ⟨last, htrace', hmine'⟩ := ht.trace_eq
    refine ⟨u', l', hu', ht.onDuty hdu, (ht.unacked_le hdu).1.trans hun, ⟨more ++ last, ?_, ?_⟩, ?_⟩
    · rw [htrace', htrace, List.append_assoc]
    · intro e he
      rcases List.mem_append.mp he with he | he
      · exact hmine e he
      · exact hmine' e he
    · intro id
      exact (ht.handledCount_add_due hdu id).trans (hdue id)

/-- Later on the run is on duty and less is left to acknowledge than in `v`. -/
def Advances (w : World) (i : ℕ) (σ : ℕ → ℕ) (n : ℕ) (v : World) : Prop :=
  ∃ m u l, n ≤ m ∧ w.alone i σ m = some u ∧ OnDuty u i l ∧ u.server.unacked < v.server.unacked

theorem advances_of_hand {n : ℕ} {v : World} {k : Consumer} (hv : w.alone i σ n = some v)
    (hd : OnDuty v i k) (hne : k.hand ≠ []) : Advances w i σ n v := by
  obtain ⟨v', k', hv', ht⟩ := alone_succ hv hd.run hd.working.alive
  have hd' := ht.onDuty hd
  by_cases hack : k.acking = none
  · cases ht with
    | moved k' s' hm =>
      exfalso
      cases hm with
      | ack m hpc => simp [Consumer.acking, hpc] at hack
      | sweep hpc _ => simp [Consumer.hand, hpc] at hne
      | nothingStale hpc _ => simp [Consumer.hand, hpc] at hne
      | readNew _ hpc _ => simp [Consumer.hand, hpc] at hne
      | nothingNew _ hpc _ => simp [Consumer.hand, hpc] at hne
      | wake hpc => simp [Consumer.hand, hpc] at hne
    | completed m hpc =>
      obtain ⟨u, l, hu, ht'⟩ := alone_succ hv' hd'.run hd'.working.alive
      have hlt := (ht'.unacked_le hd').2 (by simp [Consumer.acking])
      exact ⟨n + 1 + 1, u, l, by omega, hu, ht'.onDuty hd', hlt⟩
  · exact ⟨n + 1, v', k', by omega, hv', hd', (ht.unacked_le hd).2 hack⟩

theorem Advances.of_later {n m : ℕ} {v u : World} (h : Advances w i σ m u) (hle : n ≤ m)
    (hun : u.server.unacked ≤ v.server.unacked) : Advances w i σ n v := by
  obtain ⟨j, x, l, hmj, hx, hdx, hlt⟩ := h
  exact ⟨j, x, l, by omega, hx, hdx, by omega⟩

theorem advances_of_undelivered {n : ℕ} {v : World} {k : Consumer} (hv : w.alone i σ n = some v)
    (hd : OnDuty v i k) (hpc : k.pc = .top)
    (hlt : v.server.stream.delivered < v.server.stream.entries.length) : Advances w i σ n v := by
  obtain ⟨v', k', hv', ht⟩ := alone_succ hv hd.run hd.working.alive
  have hd' := ht.onDuty hd
  have hm := ht.move fun m => by simp [hpc]
  rcases hm.of_top hd.working hpc with ⟨hhand, hun⟩ | ⟨-, hserver, rfl⟩
  · exact (advances_of_hand hv' hd' hhand).of_later (Nat.le_succ n) hun.le
  · obtain ⟨u, l, hu, ht'⟩ := alone_succ hv' hd'.run hd'.working.alive
    have hm' := ht'.move fun m => by simp
    rw [hserver] at hm'
    have hcount := hd.count_pos
    rcases hm'.of_readNew rfl with ⟨-, hun⟩ | ⟨hzero, -⟩
    · exact ⟨n + 1 + 1, u, l, by omega, hu, ht'.onDuty hd', hun⟩
    · simp only [GroupStream.newCount] at hzero
      omega

/-- With nothing undelivered the loop goes round idly, until the clock has made the first pending
entry stale. -/
theorem advances_of_pending {T N : ℕ} (hN : ∀ n v, N ≤ n → w.alone i σ n = some v → T ≤ v.now)
    {n : ℕ} {v : World} {k : Consumer} (hv : w.alone i σ n = some v) (hd : OnDuty v i k)
    (hpc : k.pc = .top) (hdel : v.server.stream.delivered = v.server.stream.entries.length)
    {p : RedisStream.Pending String ℕ} (hp : v.server.stream.pel.head? = some p)
    (hT : p.since + k.reclaimMinIdleMs ≤ T) : Advances w i σ n v := by
  induction hr : N - n using Nat.strong_induction_on generalizing n v k with
  | _ r ih =>
    obtain ⟨v', k', hv', ht⟩ := alone_succ hv hd.run hd.working.alive
    have hd' := ht.onDuty hd
    have hm := ht.move fun m => by simp [hpc]
    rcases hm.of_top hd.working hpc with ⟨hhand, hun⟩ | ⟨hnil, hserver, rfl⟩
    · exact (advances_of_hand hv' hd' hhand).of_later (Nat.le_succ n) hun.le
    · have hcount := hd.count_pos
      have hin : p ∈ v.server.stream.pel.take (10 * k.count) := by
        obtain ⟨ps, hps⟩ := List.head?_eq_some_iff.mp hp
        obtain ⟨c, hc⟩ := Nat.exists_eq_add_of_le' hcount
        rw [hps, hc, Nat.mul_succ, List.take_succ_cons]
        exact List.mem_cons_self
      have hfresh := GroupStream.staleIds_eq_nil.mp hnil p hin
      have hearly : ¬ N ≤ n + 1 := by
        intro hle
        have := hN (n + 1) v' hle hv'
        rw [ht.now_eq] at this
        omega
      obtain ⟨u, l, hu, ht'⟩ := alone_succ hv' hd'.run hd'.working.alive
      have hd'' := ht'.onDuty hd'
      have hm' := ht'.move fun m => by simp
      rw [hserver] at hm'
      rcases hm'.of_readNew rfl with ⟨hpos, -⟩ | ⟨-, hserver', rfl⟩
      · simp only [GroupStream.newCount] at hpos
        omega
      · obtain ⟨x, l, hx, ht''⟩ := alone_succ hu hd''.run hd''.working.alive
        have hm'' := ht''.move fun m => by simp
        obtain ⟨hserver'', rfl⟩ := hm''.of_sleep rfl
        rw [hserver'] at hserver''
        apply (ih (N - (n + 1 + 1 + 1)) (by omega) hx (ht''.onDuty hd'') rfl (hserver'' ▸ hdel)
          (hserver'' ▸ hp) hT rfl).of_later (by omega)
        rw [hserver'']

/-- As long as the clock keeps advancing, the run on duty drains the group. -/
theorem drains (hσ : ∀ t, ∃ n, t ≤ ∑ m ∈ Finset.range n, σ m) {k₀ : Consumer}
    (hk₀ : w.runs i = some k₀) (hw₀ : k₀.Working w.server) {n : ℕ} {v : World} {k : Consumer}
    (hv : w.alone i σ n = some v) (hd : OnDuty v i k) :
    ∃ m u, n ≤ m ∧ w.alone i σ m = some u ∧ u.server.unacked = 0 := by
  induction hr : v.server.unacked using Nat.strong_induction_on generalizing n v k with
  | _ r ih =>
    have hadv (h : Advances w i σ n v) :
        ∃ m u, n ≤ m ∧ w.alone i σ m = some u ∧ u.server.unacked = 0 := by
      obtain ⟨m, u, l, hle, hu, hdu, hlt⟩ := h
      obtain ⟨j, x, hmj, hx, hzero⟩ := ih _ (hr ▸ hlt) hu hdu rfl
      exact ⟨j, x, by omega, hx, hzero⟩
    obtain ⟨m, u, l, hle, hu, hl, htop, -⟩ := alone_top hv hd.run hd.working
    obtain ⟨u', l', hu', hdu, hun, -⟩ := alone_onDuty hv hd hle
    obtain rfl := Option.some.inj (hu.symm.trans hu')
    obtain rfl := Option.some.inj (hl.symm.trans hdu.run)
    have hdel := u.server.stream.delivered_le
    rcases Nat.lt_or_eq_of_le hdel with hlt | heq
    · exact hadv ((advances_of_undelivered hu hdu htop hlt).of_later hle hun)
    · cases hpel : u.server.stream.pel with
      | nil => exact ⟨m, u, hle, hu, Server.drained_iff.mp ⟨heq, hpel⟩⟩
      | cons p ps =>
        obtain ⟨N, hN⟩ := hσ (p.since + l.reclaimMinIdleMs)
        have hlate (j : ℕ) (x : World) (hj : N ≤ j) (hx : w.alone i σ j = some x) :
            p.since + l.reclaimMinIdleMs ≤ x.now := by
          have hsum : ∑ m ∈ Finset.range N, σ m ≤ ∑ m ∈ Finset.range j, σ m :=
            Finset.sum_le_sum_of_subset (Finset.range_mono hj)
          rw [now_alone hk₀ hw₀ hx]
          omega
        have hhead : u.server.stream.pel.head? = some p := by
          rw [hpel]
          rfl
        exact hadv ((advances_of_pending hlate hu hdu htop heq hhead le_rfl).of_later hle hun)

theorem safeInv_alone (hw : SafeInv w) {n : ℕ} {v : World} (hv : w.alone i σ n = some v) :
    SafeInv v := by
  induction n generalizing v with
  | zero =>
    cases hv
    exact hw
  | succ n ih =>
    obtain ⟨u, hu, hturn⟩ := Option.bind_eq_some_iff.mp hv
    exact run_invariant_of_step safeInv_step (ih hu) hturn

end

def AtTop (w : World) (i : ℕ) : Prop := ∃ k, w.runs i = some k ∧ k.pc = .top

/-- From every reachable state, when only one live run goes on and time goes on with it, the run
comes to the top of its loop. From there on its handlers complete exactly once for each entry that
was undelivered or pending, and from some turn on nothing is left and every entry has been
handled. -/
theorem survivor_finishes (acts : List Action) (w : World) (hrun : run step {} acts = some w)
    (hwf : w.server.WellFormed) (i : ℕ) (k : Consumer) (hk : w.runs i = some k)
    (hend : k.ended = false) (hcount : 1 ≤ k.count) (σ : ℕ → ℕ)
    (hσ : ∀ t, ∃ n, t ≤ ∑ m ∈ Finset.range n, σ m) :
    (∃ n v, w.alone i σ n = some v ∧ v.AtTop i) ∧
    ∀ n v, w.alone i σ n = some v → v.AtTop i →
      ∃ N, n ≤ N ∧ ∀ m, N ≤ m → ∃ u more, w.alone i σ m = some u ∧ u.server.Drained ∧
        u.server.stream.entries = w.server.stream.entries ∧
        u.trace = v.trace ++ more ∧ (∀ e ∈ more, e.run = i) ∧
        (∀ id, (more.map Handling.id).count id = if v.server.Outstanding id then 1 else 0) ∧
        ∀ id f, entryAt u.server.stream.entries id = some f → u.Handled id := by
  have hi : SafeInv w := run_invariant_of_step safeInv_step safeInv_init hrun
  have hw : k.Working w.server := ⟨hend, hi.faithful i k hk, hwf⟩
  constructor
  · obtain ⟨m, u, l, -, hu, hl, htop, -⟩ := alone_top (σ := σ) (n := 0) rfl hk hw
    exact ⟨m, u, hu, l, hl, htop⟩
  · rintro n v hv ⟨l, hl, htop⟩
    obtain ⟨v', l', hv', hl', hlw, hcount', -⟩ := alone_working (σ := σ) hk hw n
    obtain rfl := Option.some.inj (hv.symm.trans hv')
    obtain rfl := Option.some.inj (hl.symm.trans hl')
    have hhand : l.hand = [] := by simp only [Consumer.hand, htop]
    have hd : OnDuty v i l := ⟨hl, hlw, Consumer.holding_of_hand_eq_nil hhand, hcount' ▸ hcount⟩
    obtain ⟨N, x, hle, hx, hzero⟩ := drains hσ hk hw hv hd
    refine ⟨N, hle, ?_⟩
    intro m hm
    obtain ⟨x', lx, hx', hdx, -⟩ := alone_onDuty hv hd hle
    obtain rfl := Option.some.inj (hx.symm.trans hx')
    obtain ⟨u, lu, hu, -, hun, -⟩ := alone_onDuty hx hdx hm
    obtain ⟨u', lu', hu', -, -, ⟨more, htrace, hmine⟩, hdue⟩ := alone_onDuty hv hd (hle.trans hm)
    obtain rfl := Option.some.inj (hu.symm.trans hu')
    obtain ⟨u', -, hu', -, -, -, -, hent⟩ := alone_working (σ := σ) hk hw m
    obtain rfl := Option.some.inj (hu.symm.trans hu')
    have hdrained : u.server.Drained := Server.drained_iff.mpr (by omega)
    have hnone (id : ℕ) : ¬ u.server.Outstanding id := by
      rintro (h | h)
      · have := hdrained.1
        omega
      · have howner : u.server.stream.owner? id = none := by
          rw [GroupStream.owner?_eq_none, hdrained.2]
          intro p hp
          cases hp
        rw [howner] at h
        cases h
    refine ⟨u, more, hu, hdrained, hent, htrace, hmine, ?_, ?_⟩
    · intro id
      have hcounts := hdue id
      have hv0 : l.due v.server id = if v.server.Outstanding id then 1 else 0 := by
        simp only [Consumer.due, Consumer.acking, htop, ne_eq, reduceCtorEq, not_false_eq_true,
          and_true]
      have hu0 : lu'.due u.server id = 0 := if_neg fun h => hnone id h.1
      rw [hv0, hu0, handledCount, htrace, List.map_append, List.count_append, handledCount]
        at hcounts
      omega
    · intro id f hf
      have hrange := entryAt_some_le hf
      rcases (safeInv_alone hi hu).covered id ⟨hrange.1, hdrained.1 ▸ hrange.2⟩ with ⟨c, hc⟩ | h
      · exact absurd (Or.inr (Option.isSome_iff_exists.mpr ⟨c, hc⟩)) (hnone id)
      · exact h

/-- One consumer dies with a message in hand and another message is undelivered. -/
def deadSibling : List Action :=
  [.publish resize.toFields, .start 0 "worker-0" 1 5000, .run 0, .run 0, .crash 0,
    .publish resize.toFields, .start 1 "worker-1" 10 5000]

/-- The other consumer handles both, however slowly the clock goes on. -/
theorem deadSibling_finishes :
    ∃ w, run step {} deadSibling = some w ∧ ∃ N u, w.alone 1 (fun _ => 1) N = some u ∧
      u.server.Drained ∧ u.Handled 1 ∧ u.Handled 2 := by
  obtain ⟨w, k, hw, hent, hk, hend, hcount, htop⟩ : ∃ w k, run step {} deadSibling = some w ∧
      w.server.stream.entries = [encodeFields resize.toFields, encodeFields resize.toFields] ∧
      w.runs 1 = some k ∧ k.ended = false ∧ k.count = 10 ∧ k.pc = .top :=
    ⟨_, _, rfl, rfl, rfl, rfl, rfl, rfl⟩
  have hall (id : ℕ) (f : Fields) (hf : entryAt w.server.stream.entries id = some f) :
      f = encodeFields resize.toFields := by
    rw [hent] at hf
    match id with
    | 1 => exact (Option.some.inj hf).symm
    | 2 => exact (Option.some.inj hf).symm
  have hwf : w.server.WellFormed := by
    intro id f hf
    rw [hall id f hf]
    exact ⟨resize, Task.fromFields_toFields resize⟩
  have hσ (t : ℕ) : ∃ n, t ≤ ∑ m ∈ Finset.range n, (fun _ => 1) m := ⟨t, by simp⟩
  obtain ⟨-, h⟩ := survivor_finishes deadSibling w hw hwf 1 k hk hend (by omega) (fun _ => 1) hσ
  obtain ⟨N, -, hN⟩ := h 0 w rfl ⟨k, hk, htop⟩
  obtain ⟨u, -, hu, hdrained, hentu, -, -, -, hhandled⟩ := hN N le_rfl
  rw [hentu, hent] at hhandled
  exact ⟨w, hw, N, u, hu, hdrained, hhandled 1 _ rfl, hhandled 2 _ rfl⟩

end World
end CompetingConsumers
