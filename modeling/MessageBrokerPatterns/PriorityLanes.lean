import MessageBrokerPatterns.PriorityDelivery
import Mathlib.Algebra.BigOperators.Group.Finset.Basic

/-!
# Lanes, and every ticket once

Dedicated and scanning consumers with names of their own compete for the three streams. As long as
nobody crashes and no handler fails, an entry is passed to one handler at most, as the ticket that
was published, and only by a consumer that scans its tier: what is pending is in the hands of some
run, and what the runs have counted is what their handlers have completed. When consumers of all
tiers find nothing more to claim, every ticket has been handled exactly once.
-/

namespace PriorityQueue
open PyText PyDict RedisStream ActionRun

def Event.key : Event → Priority × ℕ
  | .handled _ p id _ => (p, id)

def Consumer.handling (k : Consumer) : Option (Priority × ℕ) :=
  match k.pc with
  | .handler m => some (m.priority, m.id)
  | _ => none

/-- The tickets that the run has claimed and not acknowledged. -/
def Consumer.unacked (k : Consumer) : List (Priority × ℕ) :=
  match k.pc with
  | .handler m => (m.priority, m.id) :: claimsOf m.priority m.rest
  | .ack m => (m.priority, m.id) :: claimsOf m.priority m.rest
  | _ => []

/-- What the run has counted, together with the completed handler that it has yet to count. -/
def Consumer.credited (k : Consumer) : ℕ :=
  match k.pc with
  | .ack _ => k.totalHandled + 1
  | _ => k.totalHandled

/-- The run asks for something, and only from the tiers of its scan order. -/
structure Consumer.InLane (k : Consumer) : Prop where
  asks : 1 ≤ k.count
  holds : ∀ m, k.pc = .handler m ∨ k.pc = .ack m → m.priority ∈ k.scanOrder
  scans : ∀ tiers, k.polls = some tiers → ∀ p ∈ tiers, p ∈ k.scanOrder

def Server.Pending (s : Server) (e : Priority × ℕ) : Prop :=
  ∃ c, (s.streams e.1).owner? e.2 = some c

theorem Consumer.inLane_of_top {k : Consumer} (hpc : k.pc = .top) (hcount : 1 ≤ k.count) :
    k.InLane where
  asks := hcount
  holds m hm := by simp [hpc] at hm
  scans tiers h := by
    rw [polls, hpc] at h
    obtain rfl := Option.some.inj h
    exact fun p hp => hp

/-- What the `for` loop over a batch leaves as it is. -/
theorem Consumer.forBatch_lane (k : Consumer) {s : Server} (hwf : s.WellFormed) {p : Priority}
    (hp : p ∈ k.scanOrder) (hcount : 1 ≤ k.count) {batch : List (ℕ × Fields)}
    (hb : ∀ e ∈ batch, entryAt (s.entries p) e.1 = some e.2) :
    (k.forBatch p batch).consumerId = k.consumerId ∧
      (k.forBatch p batch).scanOrder = k.scanOrder ∧ (k.forBatch p batch).InLane ∧
      (k.forBatch p batch).unacked = claimsOf p batch ∧
      (k.forBatch p batch).credited = k.totalHandled := by
  cases batch with
  | nil => exact ⟨rfl, rfl, inLane_of_top rfl hcount, rfl, rfl⟩
  | cons e rest =>
    obtain ⟨id, f⟩ := e
    obtain ⟨t, ht⟩ := hwf p id f (hb _ List.mem_cons_self)
    have heq : k.forBatch p ((id, f) :: rest) = { k with pc := .handler ⟨p, id, t, rest⟩ } := by
      simp only [forBatch, ht]
    rw [heq]
    refine ⟨rfl, rfl, ⟨hcount, fun m hm => ?_, fun tiers h => ?_⟩, rfl, rfl⟩
    · rcases hm with hm | hm
      · cases hm
        exact hp
      · cases hm
    · cases h

theorem Consumer.unacked_of_polls {k : Consumer} {tiers : List Priority}
    (h : k.polls = some tiers) : k.unacked = [] ∧ k.credited = k.totalHandled := by
  unfold polls at h
  split at h
  · rename_i hpc
    simp only [unacked, credited, hpc, and_self]
  · rename_i left hpc
    simp only [unacked, credited, hpc, and_self]
  · cases h

namespace Server
variable {s : Server}

theorem pending_publish (t : SupportTicket) (e : Priority × ℕ) :
    (s.publish t).Pending e ↔ s.Pending e := by
  by_cases h : e.1 = t.priority
  · rw [Pending, Pending, h]
    simp [publish]
  · simp [Pending, publish, h]

theorem pending_ack (p : Priority) (id : ℕ) (e : Priority × ℕ) :
    (s.ack p id).Pending e ↔ s.Pending e ∧ e ≠ (p, id) := by
  obtain ⟨q, n⟩ := e
  by_cases h : q = p
  · subst h
    by_cases hn : n = id
    · simp [Pending, ack, GroupStream.owner?_xack, hn]
    · simp [Pending, ack, GroupStream.owner?_xack, hn]
  · simp [Pending, ack, h]

theorem pending_readNew (p : Priority) (c : String) (count : ℕ) {e : Priority × ℕ}
    (h : (s.readNew p c count).2.Pending e) :
    s.Pending e ∨ e ∈ claimsOf p ((s.streams p).newBatch count) := by
  obtain ⟨q, n⟩ := e
  obtain ⟨d, hd⟩ := h
  by_cases hq : q = p
  · subst hq
    simp only [readNew, Function.update_self, GroupStream.owner?_readNew] at hd
    split_ifs at hd with hn
    · rw [claims_newBatch]
      exact Or.inr (List.mem_map.mpr ⟨n, List.mem_range'_1.mpr (by omega), rfl⟩)
    · exact Or.inl ⟨d, hd⟩
  · simp only [readNew, Function.update_of_ne hq] at hd
    exact Or.inl ⟨d, hd⟩

end Server

/-- A command keeps the run in its lane and its credit, and it leaves pending what the run holds
and what was pending in other hands. -/
theorem Move.lane {k k' : Consumer} {s s' : Server} (hm : Move k s k' s') (hwf : s.WellFormed)
    (hf : k.Faithful s) (hl : k.InLane) :
    k'.consumerId = k.consumerId ∧ k'.scanOrder = k.scanOrder ∧ k'.InLane ∧
      k'.credited = k.credited ∧
      ∀ e, s'.Pending e → (s.Pending e ∧ e ∉ k.unacked) ∨ e ∈ k'.unacked := by
  cases hm with
  | claim p left hpc hne =>
    obtain ⟨hid, hscan, hlane, hun, hcr⟩ := k.forBatch_lane hwf
      (hl.scans _ hpc p List.mem_cons_self) hl.asks GroupStream.entryAt_of_mem_newBatch
    obtain ⟨hnone, hk⟩ := Consumer.unacked_of_polls hpc
    refine ⟨hid, hscan, hlane, hcr.trans hk.symm, fun e he => ?_⟩
    rw [hun, hnone]
    exact (Server.pending_readNew p k.consumerId k.count he).imp_left fun h => ⟨h, List.not_mem_nil⟩
  | empty p left hpc hnil =>
    obtain ⟨hnone, hk⟩ := Consumer.unacked_of_polls hpc
    refine ⟨rfl, rfl, ⟨hl.asks, ?_, ?_⟩, ?_, fun e he => ?_⟩
    · intro m hm
      by_cases h : left = [] <;> simp [h] at hm
    · intro tiers h q hq
      by_cases hleft : left = []
      · simp [Consumer.polls, hleft] at h
      · simp only [Consumer.polls, hleft, if_false] at h
        obtain rfl := Option.some.inj h
        exact hl.scans _ hpc q (List.mem_cons_of_mem _ hq)
    · rw [hk]
      by_cases h : left = [] <;> simp [Consumer.credited, h]
    · rcases Server.pending_readNew p k.consumerId k.count he with h | h
      · exact Or.inl ⟨h, hnone ▸ List.not_mem_nil⟩
      · rw [hnil] at h
        cases h
  | noTier hpc =>
    obtain ⟨hnone, hk⟩ := Consumer.unacked_of_polls hpc
    exact ⟨rfl, rfl, ⟨hl.asks, fun m hm => by simp at hm, fun tiers h => by cases h⟩, hk.symm,
      fun e he => Or.inl ⟨he, hnone ▸ List.not_mem_nil⟩⟩
  | wake hpc =>
    exact ⟨rfl, rfl, Consumer.inLane_of_top rfl hl.asks, by simp [Consumer.credited, hpc],
      fun e he => Or.inl ⟨he, by simp [Consumer.unacked, hpc]⟩⟩
  | ack m hpc =>
    obtain ⟨hid, hscan, hlane, hun, hcr⟩ :=
      Consumer.forBatch_lane { k with totalHandled := k.totalHandled + 1 } hwf
        (hl.holds m (Or.inr hpc)) hl.asks (hf m (Or.inr hpc)).2
    refine ⟨hid, hscan, hlane, ?_, fun e he => ?_⟩
    · rw [hcr]
      simp only [Consumer.credited, hpc]
    · obtain ⟨hp, hne⟩ := (Server.pending_ack m.priority m.id e).mp he
      rw [hun]
      by_cases hin : e ∈ claimsOf m.priority m.rest
      · exact Or.inr hin
      · simp only [Consumer.unacked, hpc, List.mem_cons, not_or]
        exact Or.inl ⟨hp, hne, hin⟩

namespace World

def NewName (w : World) (consumerId : String) : Prop :=
  ∀ i k, w.runs i = some k → k.consumerId ≠ consumerId

/-- What a run is made of in which consumers with names of their own ask for something and neither
crash nor have a failing handler. -/
def Calm (w : World) : Action → Prop
  | .runConsumer _ _ consumerId count => w.NewName consumerId ∧ 1 ≤ count
  | .runStrictPriorityConsumer _ consumerId _ count => w.NewName consumerId ∧ 1 ≤ count
  | .handler _ (some _) => False
  | .crash _ => False
  | _ => True

/-- All that a calm action can do. -/
inductive CalmStep (w : World) : World → Prop where
  | publish (t : SupportTicket) : CalmStep w { w with server := w.server.publish t }
  | start (i : ℕ) (k : Consumer) (hnone : w.runs i = none) (hname : w.NewName k.consumerId)
      (hlane : k.InLane) (hpc : k.pc = .top) (htotal : k.totalHandled = 0) :
      CalmStep w (w.setRun i k)
  | stop (i : ℕ) (k : Consumer) (hk : w.runs i = some k) (hpc : k.pc = .top) :
      CalmStep w (w.moved i { k with pc := .returned } w.server [])
  | run (i : ℕ) (k k' : Consumer) (s' : Server) (hk : w.runs i = some k)
      (hm : Move k w.server k' s') : CalmStep w (w.moved i k' s' [])
  | returns (i : ℕ) (k : Consumer) (m : Held) (hk : w.runs i = some k) (hpc : k.pc = .handler m) :
      CalmStep w (w.moved i { k with pc := .ack m } w.server
        [.handled k.consumerId m.priority m.id m.ticket])

theorem CalmStep.of_start {w w' : World} {i : ℕ} {k : Consumer} (h : w.startRun i k = some w')
    (hname : w.NewName k.consumerId) (hcount : 1 ≤ k.count) (hpc : k.pc = .top)
    (htotal : k.totalHandled = 0) : CalmStep w w' := by
  unfold startRun at h
  split at h
  · rename_i hnone
    cases h
    exact .start i k hnone hname (Consumer.inLane_of_top hpc hcount) hpc htotal
  · cases h

theorem CalmStep.of_step {w w' : World} {a : Action} (h : step w a = some w') (hc : w.Calm a) :
    CalmStep w w' := by
  cases a with
  | runConsumer i priority consumerId count => exact .of_start h hc.1 hc.2 rfl rfl
  | runStrictPriorityConsumer i consumerId priorities count => exact .of_start h hc.1 hc.2 rfl rfl
  | crash i => exact hc.elim
  | publish t =>
    cases h
    exact .publish t
  | stop i =>
    cases Effect.of_step h with
    | start _ _ _ ha _ _ => exact ha.elim
    | stop _ k hk hpc =>
      have heq : w.moved i { k with pc := .returned } w.server [] =
          w.setRun i { k with pc := .returned } := by
        simp [moved, setRun]
      exact heq ▸ .stop i k hk hpc
  | run i =>
    cases Effect.of_step h with
    | start _ _ _ ha _ _ => exact ha.elim
    | run _ k k' s' hk hm => exact .run i k k' s' hk hm
  | handler i failure =>
    cases Effect.of_step h with
    | start _ _ _ ha _ _ => exact ha.elim
    | returns _ k m hk hpc => exact .returns i k m hk hpc
    | raises _ _ _ _ _ _ => exact hc.elim

/-- What the run with the number `i` is credited with. -/
def credit (w : World) (i : ℕ) : ℕ :=
  match w.runs i with
  | some k => k.credited
  | none => 0

/-- The finite set has the numbers of all runs. -/
def Covers (w : World) (S : Finset ℕ) : Prop := ∀ i, w.runs i ≠ none → i ∈ S

structure LaneInv (w : World) : Prop where
  work : ClaimInv w
  once : (w.trace.map Event.key).Nodup
  names : ∀ i j k l, w.runs i = some k → w.runs j = some l → k.consumerId = l.consumerId → i = j
  lane : ∀ i k, w.runs i = some k → k.InLane
  handler : ∀ c p id t, Event.handled c p id t ∈ w.trace →
    ∃ i k, w.runs i = some k ∧ k.consumerId = c ∧ p ∈ k.scanOrder
  pending : ∀ e, w.server.Pending e → ∃ i k, w.runs i = some k ∧ e ∈ k.unacked
  credited : ∀ S, w.Covers S → ∑ i ∈ S, w.credit i = w.trace.length

theorem sum_credit_setRun {w : World} {i : ℕ} {k : Consumer} {S : Finset ℕ} (hi : i ∈ S) :
    ∑ j ∈ S, (w.setRun i k).credit j + w.credit i = ∑ j ∈ S, w.credit j + k.credited :=
  Slots.sum_update (fun ko : Option Consumer => match ko with
    | some l => l.credited
    | none => 0) hi

theorem covers_setRun {w : World} {i : ℕ} {k : Consumer} {S : Finset ℕ}
    (h : (w.setRun i k).Covers S) : i ∈ S ∧ w.Covers S := by
  have hi : i ∈ S := h i (by simp [setRun_self])
  refine ⟨hi, fun j hj => ?_⟩
  by_cases hji : j = i
  · rwa [hji]
  · exact h j (by rwa [w.setRun_of_ne hji])

theorem credit_eq {w : World} {i : ℕ} {k : Consumer} (hk : w.runs i = some k) :
    w.credit i = k.credited := by
  simp only [credit, hk]

/-- A step of a run that keeps it in its lane, leaves pending only what some run holds and adds
fresh handlings to the trace. -/
theorem laneInv_moved {w : World} (hi : LaneInv w) {i : ℕ} {k k' : Consumer} {s' : Server}
    {evs : List Event} (hk : w.runs i = some k) (hwork : ClaimInv (w.moved i k' s' evs))
    (hid : k'.consumerId = k.consumerId) (hscan : k'.scanOrder = k.scanOrder) (hlane : k'.InLane)
    (hpend : ∀ e, s'.Pending e → (w.server.Pending e ∧ e ∉ k.unacked) ∨ e ∈ k'.unacked)
    (hfresh : ∀ ev ∈ evs, ev.key ∉ w.trace.map Event.key) (hnodup : (evs.map Event.key).Nodup)
    (hown : ∀ c p id t, Event.handled c p id t ∈ evs → k.consumerId = c ∧ p ∈ k.scanOrder)
    (hcredit : k'.credited = k.credited + evs.length) : LaneInv (w.moved i k' s' evs) := by
  have hown' {l : Consumer} (hl : w.runs i = some l) : k = l := Option.some.inj (hk.symm.trans hl)
  refine ⟨hwork, ?_, ?_, Slots.forall_update hi.lane hlane, fun c p id t ht => ?_, fun e he => ?_,
    fun S hS => ?_⟩
  · change ((w.trace ++ evs).map Event.key).Nodup
    rw [List.map_append, List.nodup_append]
    refine ⟨hi.once, hnodup, ?_⟩
    rintro a ha b hb rfl
    obtain ⟨ev, hev, rfl⟩ := List.mem_map.mp hb
    exact hfresh ev hev ha
  · refine Slots.injective_update Consumer.consumerId hi.names fun j l hj hl heq => ?_
    exact hj (hi.names i j k l hk hl (hid.symm.trans heq)).symm
  · rcases List.mem_append.mp ht with ht | ht
    · refine Slots.exists_update (hi.handler c p id t ht) ?_
      rintro l hl ⟨hc, hp⟩
      obtain rfl := hown' hl
      exact ⟨hid.trans hc, hscan.symm ▸ hp⟩
    · obtain ⟨hc, hp⟩ := hown c p id t ht
      exact ⟨i, k', w.setRun_self i k', hid.trans hc, hscan.symm ▸ hp⟩
  · rcases hpend e he with ⟨hp, hnot⟩ | hin
    · refine Slots.exists_update (hi.pending e hp) fun l hl hel => ?_
      obtain rfl := hown' hl
      exact absurd hel hnot
    · exact ⟨i, k', w.setRun_self i k', hin⟩
  · obtain ⟨hiS, hcov⟩ := covers_setRun hS
    have hsum := sum_credit_setRun (w := w) (k := k') hiS
    rw [hi.credited S hcov, credit_eq hk, hcredit] at hsum
    change ∑ j ∈ S, (w.setRun i k').credit j = (w.trace ++ evs).length
    rw [List.length_append]
    omega

theorem laneInv_init : LaneInv {} where
  work := claimInv_init
  once := List.nodup_nil
  names i j k l hk := by cases hk
  lane i k hk := by cases hk
  handler c p id t h := by cases h
  pending e h := by
    obtain ⟨c, hc⟩ := h
    cases hc
  credited S _ := Finset.sum_eq_zero fun i _ => rfl

theorem laneInv_start {w : World} (hi : LaneInv w) {i : ℕ} {k : Consumer}
    (hwork : ClaimInv (w.setRun i k)) (hnone : w.runs i = none)
    (hname : w.NewName k.consumerId) (hlane : k.InLane) (hpc : k.pc = .top)
    (htotal : k.totalHandled = 0) : LaneInv (w.setRun i k) := by
  have hno (l : Consumer) (hl : w.runs i = some l) : False := by
    rw [hnone] at hl
    cases hl
  refine ⟨hwork, hi.once,
    Slots.injective_update Consumer.consumerId hi.names
      fun j l _ hl heq => hname j l hl heq.symm,
    Slots.forall_update hi.lane hlane, fun c p id t ht => ?_, fun e he => ?_, fun S hS => ?_⟩
  · exact Slots.exists_update (hi.handler c p id t ht) fun l hl => (hno l hl).elim
  · exact Slots.exists_update (hi.pending e he) fun l hl => (hno l hl).elim
  · obtain ⟨hiS, hcov⟩ := covers_setRun hS
    have hsum := sum_credit_setRun (w := w) (k := k) hiS
    have hzero : w.credit i = 0 := by simp only [credit, hnone]
    have hk : k.credited = 0 := by simp only [Consumer.credited, hpc, htotal]
    rw [hi.credited S hcov, hzero, hk] at hsum
    exact hsum

theorem laneInv_step (w : World) (a : Action) (w' : World) (hi : LaneInv w) (hc : w.Calm a)
    (h : step w a = some w') : LaneInv w' := by
  have hwork := claimInv_step w a w' hi.work h
  cases CalmStep.of_step h hc with
  | publish t =>
    exact ⟨hwork, hi.once, hi.names, hi.lane, hi.handler,
      fun e he => hi.pending e ((Server.pending_publish t e).mp he), hi.credited⟩
  | start i k hnone hname hlane hpc htotal =>
    exact laneInv_start hi hwork hnone hname hlane hpc htotal
  | stop i k hk hpc =>
    have hl := hi.lane i k hk
    exact laneInv_moved hi hk hwork rfl rfl
      ⟨hl.asks, fun m hm => by simp at hm, fun tiers ht => by cases ht⟩
      (fun e he => Or.inl ⟨he, by simp [Consumer.unacked, hpc]⟩) (by simp) List.nodup_nil
      (fun c p id t ht => by cases ht) (by simp [Consumer.credited, hpc])
  | run i k k' s' hk hm =>
    obtain ⟨hid, hscan, hlane, hcr, hpend⟩ :=
      hm.lane hi.work.wellFormed (hi.work.faithful i k hk) (hi.lane i k hk)
    exact laneInv_moved hi hk hwork hid hscan hlane hpend (by simp) List.nodup_nil
      (fun c p id t ht => by cases ht) hcr
  | returns i k m hk hpc =>
    have hl := hi.lane i k hk
    have hclaim : (m.priority, m.id) ∈ w.claims i := by
      rw [claims_eq hk, Consumer.claims, hpc]
      exact List.mem_cons_self
    refine laneInv_moved hi hk hwork rfl rfl ⟨hl.asks, fun n hn => ?_, fun tiers ht => by cases ht⟩
      (fun e he => ?_) (fun ev hev hin => ?_) (by simp) (fun c p id t ht => ?_)
      (by simp [Consumer.credited, hpc])
    · obtain rfl : m = n := by simpa using hn
      exact hl.holds m (Or.inl hpc)
    · by_cases hin : e ∈ k.unacked
      · exact Or.inr (by simpa [Consumer.unacked, hpc] using hin)
      · exact Or.inl ⟨he, hin⟩
    · obtain rfl := List.mem_singleton.mp hev
      obtain ⟨ev, hev, hkey⟩ := List.mem_map.mp hin
      obtain ⟨c, p, id, t⟩ := ev
      obtain ⟨rfl, rfl⟩ := Prod.mk.inj hkey
      exact (hi.work.claimed.held i _ hclaim).2 ⟨c, t, hev⟩
    · cases List.mem_singleton.mp ht
      exact ⟨rfl, hl.holds m (Or.inl hpc)⟩

/-- The entry that the handler of the run with the number `i` is working on. -/
def handling (w : World) (i : ℕ) : Option (Priority × ℕ) := (w.runs i).bind Consumer.handling

/-- How many handler calls there have been for an entry: those that have completed and those that
the runs with numbers in `S` are in. -/
def calls (w : World) (S : Finset ℕ) (e : Priority × ℕ) : ℕ :=
  (w.trace.map Event.key).count e + (S.filter fun i => w.handling i = some e).card

/-- The handler calls so far. -/
inductive Passed (w : World) : String → Priority → ℕ → SupportTicket → Prop where
  | completed {c : String} {p : Priority} {id : ℕ} {t : SupportTicket}
      (h : Event.handled c p id t ∈ w.trace) : Passed w c p id t
  | current {i : ℕ} {k : Consumer} {m : Held} (hk : w.runs i = some k) (hpc : k.pc = .handler m) :
      Passed w k.consumerId m.priority m.id m.ticket

theorem mem_claims_of_handling {w : World} {i : ℕ} {e : Priority × ℕ}
    (h : w.handling i = some e) : e ∈ w.claims i := by
  obtain ⟨k, hk, hh⟩ := Option.bind_eq_some_iff.mp h
  unfold Consumer.handling at hh
  split at hh
  · rename_i m hpc
    obtain rfl := Option.some.inj hh
    rw [claims_eq hk, Consumer.claims, hpc]
    exact List.mem_cons_self
  · cases hh

theorem LaneInv.calls_le_one {w : World} (hi : LaneInv w) (S : Finset ℕ) (e : Priority × ℕ) :
    w.calls S e ≤ 1 := by
  by_cases he : e ∈ w.trace.map Event.key
  · obtain ⟨⟨c, p, id, t⟩, hev, rfl⟩ := List.mem_map.mp he
    have hnone : (S.filter fun i => w.handling i = some (p, id)) = ∅ := by
      refine Finset.filter_eq_empty_iff.mpr fun i _ hh => ?_
      exact (hi.work.claimed.held i _ (mem_claims_of_handling hh)).2 ⟨c, t, hev⟩
    change (w.trace.map Event.key).count (p, id) +
      (S.filter fun i => w.handling i = some (p, id)).card ≤ 1
    rw [hnone, Finset.card_empty]
    exact List.nodup_iff_count_le_one.mp hi.once (p, id)
  · rw [calls, List.count_eq_zero_of_not_mem he, Nat.zero_add, Finset.card_le_one]
    intro i hm j hn
    exact hi.work.claimed.lone i j e (mem_claims_of_handling (Finset.mem_filter.mp hm).2)
      (mem_claims_of_handling (Finset.mem_filter.mp hn).2)

def published (acts : List Action) : List SupportTicket :=
  acts.filterMap fun a => match a with
    | .publish t => some t
    | _ => none

/-- The ticket that is published as the entry `id` of the tier `p`. -/
def ticketAt (acts : List Action) (p : Priority) (id : ℕ) : Option SupportTicket :=
  entryAt ((published acts).filter fun t => t.priority = p) id

theorem entries_step {w w' : World} {a : Action} (h : step w a = some w') (p : Priority) :
    w'.server.entries p = w.server.entries p ++
      ((published [a]).filter fun t => t.priority = p).map fun t => encodeFields t.toFields := by
  cases Effect.of_step h with
  | publish t =>
    change (w.server.publish t).entries p = _
    rw [Server.entries_publish]
    by_cases hp : p = t.priority
    · simp [published, hp]
    · simp [published, hp, Ne.symm hp]
  | start a i k ha hnone hpc =>
    cases a with
    | runConsumer _ _ _ _ => exact (List.append_nil _).symm
    | runStrictPriorityConsumer _ _ _ _ => exact (List.append_nil _).symm
    | _ => exact ha.elim
  | run i k k' s' hk hm =>
    have hent : s'.entries p = w.server.entries p := by
      cases hm with
      | claim q left _ _ => exact Server.entries_readNew q p k.consumerId k.count
      | empty q left _ _ => exact Server.entries_readNew q p k.consumerId k.count
      | noTier _ => rfl
      | wake _ => rfl
      | ack m _ => exact Server.entries_ack m.priority p m.id
    exact hent.trans (List.append_nil _).symm
  | stop i k hk hpc => exact (List.append_nil _).symm
  | returns i k m hk hpc => exact (List.append_nil _).symm
  | raises i k m e hk hpc => exact (List.append_nil _).symm
  | crash i k hk hend => exact (List.append_nil _).symm

theorem entries_run {w w' : World} {acts : List Action} (h : run step w acts = some w')
    (p : Priority) :
    w'.server.entries p = w.server.entries p ++
      ((published acts).filter fun t => t.priority = p).map fun t => encodeFields t.toFields := by
  induction acts generalizing w with
  | nil =>
    obtain rfl := Option.some.inj h
    simp [published]
  | cons a acts ih =>
    obtain ⟨v, hv, hrun⟩ := run_cons_eq_some.mp h
    have hsplit : published (a :: acts) = published [a] ++ published acts := by
      rw [published, published, published, ← List.filterMap_append, List.singleton_append]
    rw [ih hrun, entries_step hv p, hsplit, List.filter_append, List.map_append, List.append_assoc]

theorem entryAt_entries {w : World} {acts : List Action} (h : run step {} acts = some w)
    (p : Priority) (id : ℕ) :
    entryAt (w.server.entries p) id = (ticketAt acts p id).map fun t => encodeFields t.toFields := by
  rw [entries_run h p]
  cases id with
  | zero => rfl
  | succ n => exact List.getElem?_map

theorem LaneInv.ticketAt_of_passed {w : World} (hi : LaneInv w) {acts : List Action}
    (h : run step {} acts = some w) {c : String} {p : Priority} {id : ℕ} {t : SupportTicket}
    (hp : w.Passed c p id t) : ticketAt acts p id = some t := by
  obtain ⟨f, hf, hft⟩ : ∃ f, entryAt (w.server.entries p) id = some f ∧
      SupportTicket.fromFields f = .ok t := by
    cases hp with
    | completed ht => exact hi.work.traced c p id t ht
    | current hk hpc => exact (hi.work.faithful _ _ hk _ (Or.inl hpc)).1
  rw [entryAt_entries h] at hf
  obtain ⟨u, hu, rfl⟩ := Option.map_eq_some_iff.mp hf
  rw [SupportTicket.fromFields_toFields] at hft
  rw [hu, Except.ok.inj hft]

theorem LaneInv.lane_of_passed {w : World} (hi : LaneInv w) {c : String} {p : Priority} {id : ℕ}
    {t : SupportTicket} (hp : w.Passed c p id t) :
    ∃ i k, w.runs i = some k ∧ k.consumerId = c ∧ p ∈ k.scanOrder := by
  cases hp with
  | completed ht => exact hi.handler c p id t ht
  | current hk hpc => exact ⟨_, _, hk, rfl, (hi.lane _ _ hk).holds _ (Or.inl hpc)⟩

/-- No handler is being awaited, no handled ticket waits for its acknowledgement, and consumers of
all tiers would read nothing. -/
def FindsNoMoreWork (w : World) : Prop :=
  (∀ i k, w.runs i = some k → ∀ m, k.pc ≠ .handler m ∧ k.pc ≠ .ack m) ∧
    ∀ p, ∃ i k, w.runs i = some k ∧ p ∈ k.scanOrder ∧
      (w.server.readNew p k.consumerId k.count).1 = []

theorem LaneInv.quiescent {w : World} (hi : LaneInv w) (h : w.FindsNoMoreWork) : w.Quiescent := by
  refine ⟨fun p => ?_, h.1⟩
  obtain ⟨i, k, hk, -, hnil⟩ := h.2 p
  have hasks := (hi.lane i k hk).asks
  have hcount := GroupStream.newBatch_eq_nil.mp hnil
  have hle := (w.server.streams p).delivered_le
  rw [GroupStream.newCount] at hcount
  change (w.server.streams p).delivered = (w.server.streams p).entries.length
  omega

theorem calm_claimsKept (w : World) (a : Action) (h : w.Calm a) : w.ClaimsKept a := by
  cases a with
  | handler i failure =>
    cases failure with
    | none => trivial
    | some e => exact h.elim
  | crash i => exact h.elim
  | _ => trivial

def keys (w : World) : List (Priority × ℕ) :=
  [Priority.high, .normal, .low].flatMap fun p =>
    (List.range' 1 (w.server.entries p).length).map fun id => (p, id)

theorem mem_keys {w : World} {p : Priority} {id : ℕ} :
    (p, id) ∈ w.keys ↔ 1 ≤ id ∧ id ≤ (w.server.entries p).length := by
  have hp : p ∈ [Priority.high, .normal, .low] := by cases p <;> simp
  simp only [keys, List.mem_flatMap, List.mem_map, List.mem_range'_1, Prod.mk.injEq]
  constructor
  · rintro ⟨q, -, n, hn, rfl, rfl⟩
    omega
  · intro h
    exact ⟨p, hp, id, by omega, rfl, rfl⟩

theorem nodup_keys (w : World) : w.keys.Nodup := by
  rw [keys, List.nodup_flatMap]
  refine ⟨fun p _ => List.Nodup.map (fun x y hxy => (Prod.mk.inj hxy).2) List.nodup_range', ?_⟩
  have hdisj {p q : Priority} (h : p ≠ q) : Function.onFun List.Disjoint
      (fun p => (List.range' 1 (w.server.entries p).length).map fun id => (p, id)) p q := by
    intro e hp hq
    obtain ⟨_, -, rfl⟩ := List.mem_map.mp hp
    obtain ⟨_, -, heq⟩ := List.mem_map.mp hq
    exact h (Prod.mk.inj heq).1.symm
  exact .cons (by simp [hdisj]) (.cons (by simp [hdisj]) (.cons (by simp) .nil))

theorem LaneInv.keys_perm {w : World} (hi : LaneInv w) (hall : w.AllHandled) :
    (w.trace.map Event.key).Perm w.keys := by
  refine (List.perm_ext_iff_of_nodup hi.once w.nodup_keys).mpr fun ⟨p, id⟩ => ?_
  rw [mem_keys]
  constructor
  · intro h
    obtain ⟨⟨c, q, n, t⟩, hev, heq⟩ := List.mem_map.mp h
    obtain ⟨rfl, rfl⟩ := Prod.mk.inj heq
    obtain ⟨f, hf, -⟩ := hi.work.traced c q n t hev
    exact entryAt_some_le hf
  · intro h
    obtain ⟨f, hf⟩ := entryAt_isSome h.1 h.2
    obtain ⟨c, t, -, hev⟩ := hall p id f hf
    exact List.mem_map.mpr ⟨_, hev, rfl⟩

theorem length_published (tickets : List SupportTicket) :
    ([Priority.high, .normal, .low].map fun p =>
      (tickets.filter fun t => t.priority = p).length).sum = tickets.length := by
  induction tickets with
  | nil => rfl
  | cons t tickets ih =>
    simp only [List.map_cons, List.map_nil, List.sum_cons, List.sum_nil] at ih ⊢
    cases hp : t.priority <;> simp [hp] <;> omega

/-- The number of tickets that the run with the number `i` has counted, which it returns. -/
def total (w : World) (i : ℕ) : ℕ :=
  match w.runs i with
  | some k => k.totalHandled
  | none => 0

theorem LaneInv.sum_total {w : World} (hi : LaneInv w) (hq : w.Quiescent) {S : Finset ℕ}
    (hS : w.Covers S) : ∑ i ∈ S, w.total i = w.trace.length := by
  rw [← hi.credited S hS]
  refine Finset.sum_congr rfl fun i _ => ?_
  rw [total, credit]
  cases hk : w.runs i with
  | none => rfl
  | some k =>
    simp only [Consumer.credited]
    split
    · rename_i m hpc
      exact absurd hpc (hq.2 i k hk m).2
    · rfl

theorem LaneInv.pel_nil {w : World} (hi : LaneInv w) (hq : w.Quiescent) (p : Priority) :
    (w.server.streams p).pel = [] := by
  apply GroupStream.pel_eq_nil
  intro id
  cases ho : (w.server.streams p).owner? id with
  | none => rfl
  | some c =>
    obtain ⟨i, k, hk, he⟩ := hi.pending (p, id) ⟨c, ho⟩
    unfold Consumer.unacked at he
    split at he
    · rename_i m hpc
      exact absurd hpc (hq.2 i k hk m).1
    · rename_i m hpc
      exact absurd hpc (hq.2 i k hk m).2
    · cases he

theorem LaneInv.filter_key {w : World} (hi : LaneInv w) {ev : Event} (hev : ev ∈ w.trace) :
    (w.trace.filter fun x => x.key = ev.key) = [ev] := by
  have heq : ∀ x ∈ w.trace, decide (x.key = ev.key) = decide (x = ev) := by
    intro x hx
    refine decide_eq_decide.mpr ⟨fun h => List.inj_on_of_nodup_map hi.once hx hev h, ?_⟩
    rintro rfl
    rfl
  rw [List.filter_congr heq, List.filter_eq, List.count_eq_one_of_mem (.of_map _ hi.once) hev,
    List.replicate_one]

/-- What holds of the handler calls so far, after any calm actions. -/
structure LanesKept (acts : List Action) (w : World) : Prop where
  atMostOnce : ∀ S e, w.calls S e ≤ 1
  ticket : ∀ c p id t, w.Passed c p id t → ticketAt acts p id = some t ∧ t.priority = p
  lane : ∀ c p id t, w.Passed c p id t → ∃ i k, w.runs i = some k ∧ k.consumerId = c ∧
    p ∈ k.scanOrder ∧ ∀ j l, w.runs j = some l → l.consumerId = c → j = i

/-- Every ticket has been handled once, is acknowledged and has been counted. -/
structure Drained (acts : List Action) (w : World) : Prop where
  handled : ∀ p id t, ticketAt acts p id = some t →
    ∃ c, (w.trace.filter fun ev => ev.key = (p, id)) = [.handled c p id t]
  acked : ∀ p, (w.server.streams p).pel = []
  totals : ∀ S, w.Covers S → ∑ i ∈ S, w.total i = (published acts).length

theorem LaneInv.lanesKept {w : World} (hi : LaneInv w) {acts : List Action}
    (hrun : run step {} acts = some w) : LanesKept acts w := by
  refine ⟨hi.calls_le_one, fun c p id t hp => ?_, fun c p id t hp => ?_⟩
  · have ht := hi.ticketAt_of_passed hrun hp
    refine ⟨ht, ?_⟩
    cases id with
    | zero => cases ht
    | succ n => simpa using (List.mem_filter.mp (List.mem_of_getElem? ht)).2
  · obtain ⟨i, k, hk, rfl, hscan⟩ := hi.lane_of_passed hp
    exact ⟨i, k, hk, rfl, hscan, fun j l hl heq => hi.names j i l k hl hk heq⟩

theorem LaneInv.drained {w : World} (hi : LaneInv w) {acts : List Action}
    (hrun : run step {} acts = some w) (hcalm : Along step Calm {} acts)
    (hdone : w.FindsNoMoreWork) : Drained acts w := by
  have hq := hi.quiescent hdone
  have hstranded : w.NoneStranded :=
    (iff_and_along claimInv_step noneStranded_step claimInv_init hrun).mpr
      ⟨fun i k hk => (by cases hk), along_mono (fun v a u hv _ h => claimInv_step v a u hv h)
        (fun v a _ h => calm_claimsKept v a h) claimInv_init hcalm⟩
  have hall := (hi.work.allHandled_iff hq).mpr hstranded
  refine ⟨fun p id t ht => ?_, hi.pel_nil hq, fun S hS => ?_⟩
  · have hf := entryAt_entries hrun p id
    rw [ht, Option.map_some] at hf
    obtain ⟨c, u, hu, hev⟩ := hall p id _ hf
    rw [SupportTicket.fromFields_toFields] at hu
    obtain rfl := Except.ok.inj hu
    exact ⟨c, hi.filter_key hev⟩
  · have hlen (p : Priority) : (w.server.entries p).length =
        ((published acts).filter fun t => t.priority = p).length := by
      rw [entries_run hrun p, List.length_append, List.length_map]
      exact Nat.zero_add _
    rw [hi.sum_total hq hS, ← List.length_map Event.key, (hi.keys_perm hall).length_eq, keys,
      List.length_flatMap, ← length_published]
    simp only [List.length_map, List.length_range', hlen]

/-- With consumers that have names of their own, without crashes and failing handlers, an entry is
passed to at most one handler, unchanged and within the consumer's lane, and everything has been
handled once, acknowledged and counted when there is nothing more to do. -/
theorem lanes_exactly_once (acts : List Action) (w : World) (hrun : run step {} acts = some w)
    (hcalm : Along step Calm {} acts) :
    LanesKept acts w ∧ (w.FindsNoMoreWork → Drained acts w) := by
  have hi : LaneInv w := run_invariant laneInv_step laneInv_init hcalm hrun
  exact ⟨hi.lanesKept hrun, hi.drained hrun hcalm⟩

def newLogo : SupportTicket := ⟨"T-002", "New logo", .low, "C-2"⟩

/-- A consumer of the high tier and a scanning consumer share the work. -/
def twoLanes : List Action :=
  [.runConsumer 0 .high "high-agent-0" 10, .runStrictPriorityConsumer 1 "agent-1" none 10,
    .publish fraudAlert, .publish newLogo, .run 0, .run 1, .run 1, .run 1, .handler 1 none,
    .handler 0 none, .run 1, .run 0, .stop 0]

theorem twoLanes_exactly_once : ∃ w, run step {} twoLanes = some w ∧ w.FindsNoMoreWork ∧
    w.trace = [.handled "agent-1" .low 1 newLogo, .handled "high-agent-0" .high 1 fraudAlert] ∧
    LanesKept twoLanes w ∧ (w.FindsNoMoreWork → Drained twoLanes w) := by
  obtain ⟨w, hw, htrace, hdone⟩ : ∃ w, run step {} twoLanes = some w ∧
      w.trace = [.handled "agent-1" .low 1 newLogo, .handled "high-agent-0" .high 1 fraudAlert] ∧
      w.FindsNoMoreWork := by
    refine ⟨_, rfl, rfl, fun i k hk m => ?_, fun p => ⟨1, _, rfl, ?_, ?_⟩⟩
    · match i with
      | 0 =>
        cases hk
        exact ⟨nofun, nofun⟩
      | 1 =>
        cases hk
        exact ⟨nofun, nofun⟩
      | i + 2 => cases hk
    · cases p <;> decide
    · cases p <;> rfl
  refine ⟨w, hw, hdone, htrace, lanes_exactly_once twoLanes w hw ?_⟩
  refine (along_cons rfl).mpr ⟨⟨fun i k hk => (by cases hk), by decide⟩,
    (along_cons rfl).mpr ⟨⟨fun i k hk => ?_, by decide⟩, along_of_forall ?_ _⟩⟩
  · match i with
    | 0 =>
      cases hk
      decide
    | i + 1 => cases hk
  · simp [Calm]

end World
end PriorityQueue
