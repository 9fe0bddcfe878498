import MessageBrokerPatterns.CompetingConsumer
import MessageBrokerPatterns.ClaimLedger
import MessageBrokerPatterns.Slots
import Mathlib.Algebra.BigOperators.Group.Finset.Basic

/-!
# How often a task is handled

Without crashes and failing handlers, a delivered task is handled or in the claims of some run, and
what a run has counted is what its handler has completed. A sweep may transfer a task from a run
that is still working on it, after which both handle it. As long as every sweep comes before any
entry in its sight has been idle for the sweeper's threshold, claims are exclusive and every task is
handled exactly once. A single later sweep has some task handled twice.
-/

namespace CompetingConsumers
open PyText PyDict RedisStream ActionRun

/-- The message in hand and those behind it are entries of the stream. -/
def Consumer.Faithful (k : Consumer) (s : Server) : Prop :=
  ∀ m, k.pc = .handler m ∨ k.pc = .ack m →
    (∃ f, entryAt s.stream.entries m.id = some f ∧ Task.fromFields f = .ok m.task) ∧
    ∀ e ∈ m.rest, entryAt s.stream.entries e.1 = some e.2

def Consumer.credited (k : Consumer) : ℕ :=
  match k.pc with
  | .handler m => k.totalHandled + m.handled
  | .ack m => k.totalHandled + (m.handled + 1)
  | _ => k.totalHandled

def Consumer.idle (k : Consumer) : Bool :=
  match k.pc with
  | .top => true
  | .readNew _ => true
  | .sleep => true
  | .returned => true
  | _ => false

theorem Consumer.claims_of_idle {k : Consumer} (h : k.idle = true) : k.claims = [] := by
  unfold idle at h
  split at h
  case h_5 => cases h
  all_goals
    rename_i hpc
    simp only [claims, hpc]

theorem Consumer.credited_of_idle {k : Consumer} (h : k.idle = true) :
    k.credited = k.totalHandled := by
  unfold idle at h
  split at h
  case h_5 => cases h
  all_goals
    rename_i hpc
    simp only [credited, hpc]

def Server.Issued (s : Server) (id : ℕ) : Prop := 1 ≤ id ∧ id ≤ s.stream.delivered

def Server.WellFormed (s : Server) : Prop :=
  ∀ id f, entryAt s.stream.entries id = some f → ∃ t, Task.fromFields f = .ok t

theorem Consumer.Faithful.mono {k : Consumer} {s s' : Server} (h : k.Faithful s)
    (hle : ∀ id f, entryAt s.stream.entries id = some f → entryAt s'.stream.entries id = some f) :
    k.Faithful s' := by
  intro m hm
  obtain ⟨⟨f, hf, ht⟩, hrest⟩ := h m hm
  exact ⟨⟨f, hle _ _ hf, ht⟩, fun e he => hle _ _ (hrest e he)⟩

theorem Consumer.handleBatch_eq (k : Consumer) {s : Server} (hwf : s.WellFormed) (phase : Phase)
    (handled : ℕ) {batch : List (ℕ × Fields)}
    (hb : ∀ e ∈ batch, entryAt s.stream.entries e.1 = some e.2) :
    (k.handleBatch phase handled batch).claims = batch.map Prod.fst ∧
      (k.handleBatch phase handled batch).ended = false ∧
      (k.handleBatch phase handled batch).credited = k.totalHandled + handled ∧
      (k.handleBatch phase handled batch).Faithful s := by
  cases batch with
  | nil =>
    cases phase with
    | reclaimed => exact ⟨rfl, rfl, rfl, fun m hm => by simp [handleBatch] at hm⟩
    | new => exact ⟨rfl, rfl, rfl, fun m hm => by simp [handleBatch] at hm⟩
  | cons e rest =>
    obtain ⟨id, f⟩ := e
    have hf := hb _ List.mem_cons_self
    obtain ⟨t, ht⟩ := hwf id f hf
    simp only [handleBatch, ht]
    refine ⟨rfl, rfl, rfl, fun m hm => ?_⟩
    rcases hm with hm | hm
    · cases hm
      exact ⟨⟨f, hf, ht⟩, fun e he => hb e (List.mem_cons_of_mem _ he)⟩
    · cases hm

/-- What a command does to the claims of its run and to the delivered tasks. -/
inductive ClaimChange (k k' : Consumer) (now : ℕ) (s s' : Server) : Prop where
  | same (hc : k'.claims = k.claims) (hd : s'.Issued = s.Issued)
      (hnil : k.pc = .top → s.stream.staleIds now k.reclaimMinIdleMs k.count = [])
  | issue (hnone : k.claims = []) (hpc : k.pc ≠ .top) (hnodup : k'.claims.Nodup)
      (hnew : ∀ id ∈ k'.claims, ¬ s.Issued id)
      (hissued : ∀ id, s'.Issued id ↔ s.Issued id ∨ id ∈ k'.claims)
  | sweep (hnone : k.claims = []) (hpc : k.pc = .top)
      (hc : k'.claims = s.stream.staleIds now k.reclaimMinIdleMs k.count)
      (hne : s.stream.staleIds now k.reclaimMinIdleMs k.count ≠ []) (hd : s'.Issued = s.Issued)

theorem Move.claim_change {k k' : Consumer} {now : ℕ} {s s' : Server} (hm : Move k now s k' s')
    (hwf : s.WellFormed) (hf : k.Faithful s) :
    k.ended = false ∧ k'.ended = false ∧ k'.Faithful s' ∧ k'.credited = k.credited ∧
      s'.stream.entries = s.stream.entries ∧ ClaimChange k k' now s s' := by
  cases hm with
  | sweep hpc hne =>
    obtain ⟨hc, he, hcr, hff⟩ := k.handleBatch_eq hwf .reclaimed 0
      GroupStream.entryAt_of_mem_staleBatch
    rw [GroupStream.map_fst_staleBatch] at hc
    refine ⟨by simp [Consumer.ended, hpc], he, hff.mono fun _ _ h => h, ?_, rfl,
      .sweep (by simp [Consumer.claims, hpc]) hpc hc (fun hnil => hne ?_) rfl⟩
    · rw [hcr]
      simp [Consumer.credited, hpc]
    · rw [← List.map_eq_nil_iff, GroupStream.map_fst_staleBatch, hnil]
  | nothingStale hpc hnil =>
    refine ⟨by simp [Consumer.ended, hpc], rfl, fun m hm => by simp at hm,
      by simp [Consumer.credited, hpc], rfl, .same (by simp [Consumer.claims, hpc]) rfl fun _ => ?_⟩
    rw [← GroupStream.map_fst_staleBatch, hnil, List.map_nil]
  | readNew didWork hpc hne =>
    obtain ⟨hc, he, hcr, hff⟩ := k.handleBatch_eq hwf .new 0
      GroupStream.entryAt_of_mem_newBatch
    rw [GroupStream.map_fst_newBatch] at hc
    refine ⟨by simp [Consumer.ended, hpc], he, hff.mono fun _ _ h => h, ?_, rfl,
      .issue (by simp [Consumer.claims, hpc]) (by simp [hpc]) ?_ (fun id hid => ?_) fun id => ?_⟩
    · rw [hcr]
      simp [Consumer.credited, hpc]
    · rw [hc]
      exact List.nodup_range'
    · rw [hc] at hid
      have := List.mem_range'_1.mp hid
      simp only [Server.Issued]
      omega
    · rw [hc, List.mem_range'_1]
      change 1 ≤ id ∧ id ≤ s.stream.delivered + s.stream.newCount k.count ↔ _
      simp only [Server.Issued]
      omega
  | nothingNew didWork hpc hnil =>
    refine ⟨by simp [Consumer.ended, hpc], ?_, ?_, ?_, rfl, .same ?_ ?_ (by simp [hpc])⟩
    · cases didWork <;> rfl
    · intro m hm
      cases didWork <;> simp at hm
    · cases didWork <;> simp [Consumer.credited, hpc]
    · cases didWork <;> simp [Consumer.claims, hpc]
    · funext id
      change (1 ≤ id ∧ id ≤ s.stream.delivered + s.stream.newCount k.count) = _
      rw [GroupStream.newBatch_eq_nil.mp hnil]
      rfl
  | wake hpc =>
    exact ⟨by simp [Consumer.ended, hpc], rfl, fun m hm => by simp at hm,
      by simp [Consumer.credited, hpc], rfl, .same (by simp [Consumer.claims, hpc]) rfl
        (by simp [hpc])⟩
  | ack m hpc =>
    obtain ⟨hc, he, hcr, hff⟩ := k.handleBatch_eq hwf m.phase (m.handled + 1) (hf m (Or.inr hpc)).2
    refine ⟨by simp [Consumer.ended, hpc], he, hff.mono fun _ _ h => h, ?_, rfl,
      .same ?_ rfl (by simp [hpc])⟩
    · rw [hcr]
      simp [Consumer.credited, hpc]
    · rw [hc]
      simp [Consumer.claims, hpc]

namespace World

/-- The claims of the run with the number `i`. -/
def claims (w : World) (i : ℕ) : List ℕ :=
  match w.runs i with
  | some k => k.claims
  | none => []

/-- What the run with the number `i` is credited with. -/
def credit (w : World) (i : ℕ) : ℕ :=
  match w.runs i with
  | some k => k.credited
  | none => 0

def Handled (w : World) (id : ℕ) : Prop := ∃ e ∈ w.trace, e.id = id

def handledCount (w : World) (id : ℕ) : ℕ := (w.trace.map Handling.id).count id

/-- What a run without crashes and failing handlers is made of. -/
def Calm : Action → Prop
  | .publish taskFields => ∃ t : Task, taskFields = t.toFields
  | .xadd _ => False
  | .handler _ (some _) => False
  | .crash _ => False
  | _ => True

/-- A sweep comes before any pending entry that it looks at, the first ten for each entry that it
asks for, has been idle for the sweeper's threshold. -/
def SweepsEarly (w : World) : Action → Prop
  | .run i => ∀ k, w.runs i = some k → k.pc = .top →
      ∀ p ∈ w.server.stream.pel.take (10 * k.count), w.now - p.since < k.reclaimMinIdleMs
  | _ => True

structure WorkInv (w : World) : Prop where
  wellFormed : w.server.WellFormed
  faithful : ∀ i k, w.runs i = some k → k.Faithful w.server
  traced : ∀ e ∈ w.trace, ∃ f, entryAt w.server.stream.entries e.id = some f ∧
    Task.fromFields f = .ok e.task
  cover : ∀ id, w.server.Issued id → w.Handled id ∨ ∃ i, id ∈ w.claims i
  credited : ∀ i, (w.trace.map Handling.run).count i = w.credit i

/-- Claims are exclusive and nothing has been handled twice. -/
structure OnceInv (w : World) : Prop where
  claimed : Claimed w.claims w.Handled w.server.Issued
  once : ∀ id, w.handledCount id ≤ 1

theorem claims_eq {w : World} {i : ℕ} {k : Consumer} (hk : w.runs i = some k) :
    w.claims i = k.claims := by
  simp only [claims, hk]

theorem credit_eq {w : World} {i : ℕ} {k : Consumer} (hk : w.runs i = some k) :
    w.credit i = k.credited := by
  simp only [credit, hk]

theorem claims_setRun_self (w : World) (i : ℕ) (k : Consumer) :
    (w.setRun i k).claims i = k.claims := claims_eq (w.setRun_self i k)

theorem claims_setRun_of_ne (w : World) {i j : ℕ} (h : j ≠ i) (k : Consumer) :
    (w.setRun i k).claims j = w.claims j := by
  simp only [claims, w.setRun_of_ne h]

theorem credit_setRun_of_ne (w : World) {i j : ℕ} (h : j ≠ i) (k : Consumer) :
    (w.setRun i k).credit j = w.credit j := by
  simp only [credit, w.setRun_of_ne h]

theorem claims_setRun {w : World} {i : ℕ} {k : Consumer} (h : k.claims = w.claims i) :
    (w.setRun i k).claims = w.claims :=
  Slots.readout_eq ((w.claims_setRun_self i k).trans h) fun _ hj => w.claims_setRun_of_ne hj k

theorem credit_setRun {w : World} {i : ℕ} {k : Consumer} (h : k.credited = w.credit i) :
    (w.setRun i k).credit = w.credit :=
  Slots.readout_eq ((credit_eq (w.setRun_self i k)).trans h) fun _ hj => w.credit_setRun_of_ne hj k

theorem faithful_setRun {w : World} {i : ℕ} {k : Consumer} {s : Server}
    (h : ∀ j l, w.runs j = some l → l.Faithful s) (hk : k.Faithful s) :
    ∀ j l, (w.setRun i k).runs j = some l → l.Faithful s :=
  Slots.forall_update h hk

theorem handled_completed {w : World} {i : ℕ} {k : Consumer} {m : Held} (id : ℕ) :
    (w.completed i k m).Handled id ↔ w.Handled id ∨ id = m.id := by
  simp only [Handled, completed, List.mem_append, List.mem_singleton]
  constructor
  · rintro ⟨e, he | rfl, rfl⟩
    · exact Or.inl ⟨e, he, rfl⟩
    · exact Or.inr rfl
  · rintro (⟨e, he, rfl⟩ | rfl)
    · exact ⟨e, Or.inl he, rfl⟩
    · exact ⟨_, Or.inr rfl, rfl⟩

theorem workInv_init : WorkInv {} where
  wellFormed id f h := by
    cases id <;> simp [GroupStream.empty, entryAt] at h
  faithful i k hk := by cases hk
  traced e he := by cases he
  cover id h := absurd (h.1.trans h.2) (Nat.not_succ_le_zero 0)
  credited _ := rfl

theorem onceInv_init : OnceInv {} where
  claimed := by
    have hh : (({} : World).Handled) = fun _ => False := by
      funext id
      exact eq_false (by rintro ⟨e, he, _⟩; cases he)
    have hd : (({} : World).server.Issued) = fun _ => False := by
      funext id
      exact eq_false fun h => Nat.not_succ_le_zero 0 (h.1.trans h.2)
    rw [hh, hd]
    exact Claimed.empty
  once _ := Nat.zero_le 1

theorem workInv_publish {w : World} (hi : WorkInv w) (t : Task) :
    WorkInv { w with server := w.server.publish t.toFields } := by
  have hle (id : ℕ) (f : Fields) (h : entryAt w.server.stream.entries id = some f) :
      entryAt (w.server.publish t.toFields).stream.entries id = some f := by
    rw [Server.publish, GroupStream.entries_xadd, entryAt_append_of_le (entryAt_some_le h).2, h]
  refine ⟨fun id f h => ?_, fun i k hk => (hi.faithful i k hk).mono hle, fun e he => ?_, hi.cover,
    hi.credited⟩
  · by_cases hid : id ≤ w.server.stream.entries.length
    · rw [Server.publish, GroupStream.entries_xadd, entryAt_append_of_le hid] at h
      exact hi.wellFormed id f h
    · obtain rfl := eq_of_entryAt_append h hid
      exact ⟨t, t.fromFields_toFields⟩
  · obtain ⟨f, hf, hft⟩ := hi.traced e he
    exact ⟨f, hle _ _ hf, hft⟩

theorem workInv_moved {w : World} (hi : WorkInv w) {i : ℕ} {k k' : Consumer} {s' : Server}
    (hk : w.runs i = some k) (hm : Move k w.now w.server k' s') : WorkInv (w.moved i k' s') := by
  obtain ⟨-, -, hf, hcr, hent, hchange⟩ := hm.claim_change hi.wellFormed (hi.faithful i k hk)
  have hcredit : (w.moved i k' s').credit = w.credit :=
    credit_setRun (hcr.trans (credit_eq hk).symm)
  have hself : (w.moved i k' s').claims i = k'.claims := w.claims_setRun_self i k'
  have hkeep (hnone : k.claims = []) {id : ℕ} (h : w.Handled id ∨ ∃ j, id ∈ w.claims j) :
      (w.moved i k' s').Handled id ∨ ∃ j, id ∈ (w.moved i k' s').claims j := by
    refine h.imp_right fun ⟨j, hj⟩ => ⟨j, ?_⟩
    have hji : j ≠ i := by
      rintro rfl
      rw [claims_eq hk, hnone] at hj
      cases hj
    exact (w.claims_setRun_of_ne hji k').symm ▸ hj
  refine ⟨fun id f h => hi.wellFormed id f (hent ▸ h),
    faithful_setRun (fun j l hl => (hi.faithful j l hl).mono fun id f h => ?_) hf,
    fun e he => ?_, fun id hid => ?_, fun j => ?_⟩
  · change entryAt s'.stream.entries id = some f
    rwa [hent]
  · change ∃ f, entryAt s'.stream.entries e.id = some f ∧ _
    rw [hent]
    exact hi.traced e he
  · change s'.Issued id at hid
    cases hchange with
    | same hc hd _ =>
      have hcl : (w.moved i k' s').claims = w.claims := claims_setRun (hc.trans (claims_eq hk).symm)
      rw [hcl]
      exact hi.cover id (hd ▸ hid)
    | issue hnone _ _ _ hissued =>
      rcases (hissued id).mp hid with hid | hid
      · exact hkeep hnone (hi.cover id hid)
      · exact Or.inr ⟨i, hself.symm ▸ hid⟩
    | sweep hnone _ _ _ hd => exact hkeep hnone (hi.cover id (hd ▸ hid))
  · rw [hcredit]
    exact hi.credited j

theorem workInv_completed {w : World} (hi : WorkInv w) {i : ℕ} {k : Consumer} {m : Held}
    (hk : w.runs i = some k) (hpc : k.pc = .handler m) : WorkInv (w.completed i k m) := by
  have hff := hi.faithful i k hk m (Or.inl hpc)
  refine ⟨hi.wellFormed, faithful_setRun hi.faithful fun n hn => ?_, fun e he => ?_,
    fun id hid => ?_, fun j => ?_⟩
  · obtain rfl : m = n := by simpa using hn
    exact hff
  · rcases List.mem_append.mp he with he | he
    · exact hi.traced e he
    · obtain rfl := List.mem_singleton.mp he
      exact hff.1
  · rw [handled_completed]
    rcases hi.cover id hid with hh | ⟨j, hj⟩
    · exact Or.inl (Or.inl hh)
    · by_cases hji : j = i
      · subst hji
        rw [claims_eq hk, Consumer.claims, hpc] at hj
        rcases List.mem_cons.mp hj with hj | hj
        · exact Or.inl (Or.inr hj)
        · exact Or.inr ⟨j, (w.claims_setRun_self j _).symm ▸ hj⟩
      · exact Or.inr ⟨j, (w.claims_setRun_of_ne hji _).symm ▸ hj⟩
  · have hold := hi.credited j
    simp only [completed, List.map_append, List.count_append, List.map_cons, List.map_nil, hold]
    by_cases hji : j = i
    · subst hji
      rw [credit_eq hk, Consumer.credited, hpc, List.count_singleton_self]
      change _ = (w.setRun j { k with pc := .ack m }).credit j
      rw [credit_eq (w.setRun_self j _)]
      exact Nat.add_assoc _ _ _
    · rw [List.count_singleton, if_neg (by simpa using Ne.symm hji)]
      exact (w.credit_setRun_of_ne hji _).symm

theorem workInv_setRun {w : World} (hi : WorkInv w) {i : ℕ} {k : Consumer}
    (hcl : k.claims = w.claims i) (hcr : k.credited = w.credit i) (hf : k.Faithful w.server) :
    WorkInv (w.setRun i k) where
  wellFormed := hi.wellFormed
  faithful := faithful_setRun hi.faithful hf
  traced := hi.traced
  cover id hid := by
    rw [claims_setRun hcl]
    exact hi.cover id hid
  credited j := by
    rw [credit_setRun hcr]
    exact hi.credited j

theorem workInv_step (w : World) (a : Action) (w' : World) (hi : WorkInv w) (ha : Calm a)
    (h : step w a = some w') : WorkInv w' := by
  cases Effect.of_step h with
  | publish taskFields =>
    obtain ⟨t, rfl⟩ := ha
    exact workInv_publish hi t
  | xadd fields => exact absurd ha id
  | start i consumerId count reclaimMinIdleMs hnone =>
    have h := workInv_setRun (i := i) (k := { consumerId, count, reclaimMinIdleMs }) hi
      (by simp [Consumer.claims, claims, hnone]) (by simp [Consumer.credited, credit, hnone])
      fun m hm => by simp at hm
    exact ⟨h.wellFormed, h.faithful, h.traced, h.cover, h.credited⟩
  | stop i k hk hpc =>
    exact workInv_setRun hi (by simp [Consumer.claims, claims_eq hk, hpc])
      (by simp [Consumer.credited, credit_eq hk, hpc]) fun m hm => by simp at hm
  | run i k k' s' hk hm => exact workInv_moved hi hk hm
  | returns i k m hk hpc => exact workInv_completed hi hk hpc
  | raises i k m e hk hpc => exact absurd ha id
  | crash i k hk hend => exact absurd ha id
  | tick ms => exact ⟨hi.wellFormed, hi.faithful, hi.traced, hi.cover, hi.credited⟩

theorem handledCount_completed {w : World} {i : ℕ} {k : Consumer} {m : Held} (id : ℕ) :
    (w.completed i k m).handledCount id = w.handledCount id + if id = m.id then 1 else 0 := by
  simp only [handledCount, completed, List.map_append, List.count_append, List.map_cons,
    List.map_nil, List.count_singleton]
  congr 1
  by_cases h : id = m.id
  · simp [h]
  · simp [h, Ne.symm h]

theorem handledCount_pos {w : World} {id : ℕ} : 1 ≤ w.handledCount id ↔ w.Handled id := by
  rw [handledCount, Nat.one_le_iff_ne_zero, ← Nat.pos_iff_ne_zero, List.count_pos_iff, List.mem_map]
  rfl

theorem handledCount_eq_zero {w : World} {id : ℕ} (h : ¬ w.Handled id) : w.handledCount id = 0 := by
  rw [← handledCount_pos] at h
  omega

theorem onceInv_setRun {w : World} (hi : OnceInv w) {i : ℕ} {k : Consumer}
    (hcl : k.claims = w.claims i) : OnceInv (w.setRun i k) where
  claimed := by
    rw [claims_setRun hcl]
    exact hi.claimed
  once := hi.once

theorem onceInv_step (w : World) (a : Action) (w' : World) (hw : WorkInv w) (hi : OnceInv w)
    (ha : Calm a) (hearly : w.SweepsEarly a) (h : step w a = some w') : OnceInv w' := by
  cases Effect.of_step h with
  | publish taskFields => exact ⟨hi.claimed, hi.once⟩
  | xadd fields => exact absurd ha id
  | start i consumerId count reclaimMinIdleMs hnone =>
    have h := onceInv_setRun (i := i) (k := { consumerId, count, reclaimMinIdleMs }) hi
      (by simp [Consumer.claims, claims, hnone])
    exact ⟨h.claimed, h.once⟩
  | stop i k hk hpc => exact onceInv_setRun hi (by simp [Consumer.claims, claims_eq hk, hpc])
  | run i k k' s' hk hm =>
    obtain ⟨-, -, -, -, -, hchange⟩ := hm.claim_change hw.wellFormed (hw.faithful i k hk)
    refine ⟨?_, hi.once⟩
    cases hchange with
    | same hc hd _ =>
      have hcl : (w.moved i k' s').claims = w.claims := claims_setRun (hc.trans (claims_eq hk).symm)
      have hd' : (w.moved i k' s').server.Issued = w.server.Issued := hd
      rw [hcl, hd']
      exact hi.claimed
    | issue hnone _ hnodup hnew hissued =>
      exact hi.claimed.issue ((claims_eq hk).trans hnone) (fun j hj => w.claims_setRun_of_ne hj k')
        (w.claims_setRun_self i k') hnodup hnew hissued
    | sweep _ hpc _ hne _ =>
      exact absurd (GroupStream.staleIds_eq_nil.mpr (hearly k hk hpc)) hne
  | returns i k m hk hpc =>
    have hcl : w.claims i = m.id :: m.rest.map Prod.fst := by
      rw [claims_eq hk, Consumer.claims, hpc]
    refine ⟨hi.claimed.complete hcl (fun j hj => w.claims_setRun_of_ne hj _)
      (w.claims_setRun_self i _) handled_completed, fun id => ?_⟩
    rw [handledCount_completed]
    split_ifs with hid
    · have hnot := (hi.claimed.held i m.id (hcl ▸ List.mem_cons_self)).2
      rw [hid, handledCount_eq_zero hnot]
    · exact hi.once id
  | raises i k m e hk hpc => exact absurd ha id
  | crash i k hk hend => exact absurd ha id
  | tick ms => exact ⟨hi.claimed, hi.once⟩

/-- Some entry has been handled twice, or will have been when all claims are worked off. -/
def HandledTwice (w : World) : Prop := ∃ id, Overclaimed w.claims w.handledCount id

theorem handledTwice_setRun {w : World} (ht : w.HandledTwice) {i : ℕ} {k : Consumer}
    (hcl : k.claims = w.claims i) : (w.setRun i k).HandledTwice := by
  obtain ⟨id, hid⟩ := ht
  refine ⟨id, hid.mono fun j hj => ?_⟩
  rwa [claims_setRun hcl]

/-- A command takes no claim away from its run, and a late sweep claims a second time. -/
theorem handledTwice_moved {w : World} (hw : WorkInv w) {i : ℕ} {k k' : Consumer} {s' : Server}
    (hk : w.runs i = some k) (hm : Move k w.now w.server k' s')
    (ht : w.HandledTwice ∨ ¬ w.SweepsEarly (.run i)) : (w.moved i k' s').HandledTwice := by
  obtain ⟨-, -, -, -, -, hchange⟩ := hm.claim_change hw.wellFormed (hw.faithful i k hk)
  have hself : (w.moved i k' s').claims i = k'.claims := w.claims_setRun_self i k'
  have hother {j : ℕ} (hj : j ≠ i) : (w.moved i k' s').claims j = w.claims j :=
    w.claims_setRun_of_ne hj k'
  have hsub (id j : ℕ) (hj : id ∈ w.claims j) : id ∈ (w.moved i k' s').claims j := by
    by_cases hji : j = i
    · subst hji
      rw [claims_eq hk] at hj
      rw [hself]
      cases hchange with
      | same hc => rwa [hc]
      | issue hnone => exact absurd (hnone ▸ hj) List.not_mem_nil
      | sweep hnone => exact absurd (hnone ▸ hj) List.not_mem_nil
    · rwa [hother hji]
  rcases ht with ⟨id, hid⟩ | hlate
  · exact ⟨id, hid.mono (hsub id)⟩
  · have hstale : k.pc = .top ∧ w.server.stream.staleIds w.now k.reclaimMinIdleMs k.count ≠ [] := by
      by_contra hn
      apply hlate
      intro l hl hpc
      obtain rfl := Option.some.inj (hk.symm.trans hl)
      apply GroupStream.staleIds_eq_nil.mp
      exact not_not.mp fun hne => hn ⟨hpc, hne⟩
    cases hchange with
    | same _ _ hnil => exact absurd (hnil hstale.1) hstale.2
    | issue _ hpc => exact absurd hstale.1 hpc
    | sweep hnone _ hc _ _ =>
      obtain ⟨id, hid⟩ := List.exists_mem_of_ne_nil _ hstale.2
      obtain ⟨c, hown⟩ := GroupStream.owner?_of_mem_staleIds hid
      have hclaimed : id ∈ (w.moved i k' s').claims i := by
        rw [hself, hc]
        exact hid
      refine ⟨id, ?_⟩
      rcases hw.cover id (GroupStream.owner?_some_range hown) with hh | ⟨j, hj⟩
      · exact Or.inr (Or.inl ⟨handledCount_pos.mpr hh, i, hclaimed⟩)
      · refine Or.inr (Or.inr ⟨i, j, ?_, hclaimed, hsub id j hj⟩)
        rintro rfl
        rw [claims_eq hk, hnone] at hj
        cases hj

theorem handledTwice_completed {w : World} (ht : w.HandledTwice) {i : ℕ} {k : Consumer} {m : Held}
    (hk : w.runs i = some k) (hpc : k.pc = .handler m) : (w.completed i k m).HandledTwice := by
  obtain ⟨id, hid⟩ := ht
  have hcl : w.claims i = m.id :: m.rest.map Prod.fst := by
    rw [claims_eq hk, Consumer.claims, hpc]
  exact ⟨id, hid.complete hcl (fun j hj => w.claims_setRun_of_ne hj _) (w.claims_setRun_self i _)
    (handledCount_completed id)⟩

theorem handledTwice_step (w : World) (a : Action) (w' : World) (hw : WorkInv w) (ha : Calm a)
    (ht : w.HandledTwice ∨ ¬ w.SweepsEarly a) (h : step w a = some w') : w'.HandledTwice := by
  have hkeep (hearly : w.SweepsEarly a) : w.HandledTwice := ht.resolve_right (not_not_intro hearly)
  cases Effect.of_step h with
  | publish taskFields => exact hkeep trivial
  | xadd fields => exact absurd ha id
  | start i consumerId count reclaimMinIdleMs hnone =>
    exact handledTwice_setRun (k := { consumerId, count, reclaimMinIdleMs }) (hkeep trivial)
      (by simp [Consumer.claims, claims, hnone])
  | stop i k hk hpc =>
    exact handledTwice_setRun (hkeep trivial) (by simp [Consumer.claims, claims_eq hk, hpc])
  | run i k k' s' hk hm => exact handledTwice_moved hw hk hm ht
  | returns i k m hk hpc => exact handledTwice_completed (hkeep trivial) hk hpc
  | raises i k m e hk hpc => exact absurd ha id
  | crash i k hk hend => exact absurd ha id
  | tick ms => exact hkeep trivial

def Quiescent (w : World) : Prop :=
  w.server.stream.delivered = w.server.stream.entries.length ∧
    ∀ i, (w.runs i).all Consumer.idle = true

theorem Quiescent.idle {w : World} (hq : w.Quiescent) {i : ℕ} {k : Consumer}
    (hk : w.runs i = some k) : k.idle = true := by
  have h := hq.2 i
  rwa [hk] at h

/-- What the run with the number `i` returns, or would return if it were stopped now. -/
def total (w : World) (i : ℕ) : ℕ :=
  match w.runs i with
  | some k => k.totalHandled
  | none => 0

def AllHandled (w : World) : Prop :=
  ∀ id f, entryAt w.server.stream.entries id = some f →
    ∃ e ∈ w.trace, e.id = id ∧ Task.fromFields f = .ok e.task

/-- Every entry of the stream has been handled exactly once, and the totals add up. -/
def ExactlyOnce (w : World) : Prop :=
  (∀ id, 1 ≤ id → id ≤ w.server.stream.entries.length → w.handledCount id = 1) ∧
    ∀ S : Finset ℕ, (∀ i, w.runs i ≠ none → i ∈ S) →
      ∑ i ∈ S, w.total i = w.server.stream.entries.length

theorem claims_of_quiescent {w : World} (hq : w.Quiescent) (i : ℕ) : w.claims i = [] := by
  cases hk : w.runs i with
  | none => simp only [claims, hk]
  | some k => exact (claims_eq hk).trans (Consumer.claims_of_idle (hq.idle hk))

theorem WorkInv.handled {w : World} (hi : WorkInv w) (hq : w.Quiescent) {id : ℕ} (h₁ : 1 ≤ id)
    (h₂ : id ≤ w.server.stream.entries.length) : w.Handled id := by
  rcases hi.cover id ⟨h₁, hq.1 ▸ h₂⟩ with hh | ⟨i, hid⟩
  · exact hh
  · rw [claims_of_quiescent hq] at hid
    cases hid

theorem WorkInv.allHandled {w : World} (hi : WorkInv w) (hq : w.Quiescent) : w.AllHandled := by
  intro id f hf
  have hr := entryAt_some_le hf
  obtain ⟨e, he, rfl⟩ := hi.handled hq hr.1 hr.2
  obtain ⟨g, hg, hgt⟩ := hi.traced e he
  obtain rfl := Option.some.inj (hf.symm.trans hg)
  exact ⟨e, he, rfl, hgt⟩

theorem WorkInv.sum_total {w : World} (hi : WorkInv w) (hq : w.Quiescent) {S : Finset ℕ}
    (hS : ∀ i, w.runs i ≠ none → i ∈ S) : ∑ i ∈ S, w.total i = w.trace.length := by
  have htotal (i : ℕ) : w.total i = (w.trace.map Handling.run).count i := by
    rw [hi.credited i, total, credit]
    cases hk : w.runs i with
    | none => rfl
    | some k => exact (Consumer.credited_of_idle (hq.idle hk)).symm
  have hmem : ∀ i ∈ (w.trace.map Handling.run : Multiset ℕ), i ∈ S := by
    intro i hmem
    refine hS i fun hnone => ?_
    have hpos := List.count_pos_iff.mpr (Multiset.mem_coe.mp hmem)
    rw [hi.credited i, credit, hnone] at hpos
    exact absurd hpos (Nat.lt_irrefl 0)
  have hsum := Multiset.sum_count_eq_card hmem
  rw [Multiset.coe_card, List.length_map] at hsum
  rw [← hsum]
  exact Finset.sum_congr rfl fun i _ => (htotal i).trans (Multiset.coe_count i _).symm

theorem OnceInv.exactlyOnce {w : World} (hi : OnceInv w) (hw : WorkInv w) (hq : w.Quiescent) :
    w.ExactlyOnce := by
  have hone {id : ℕ} (h₁ : 1 ≤ id) (h₂ : id ≤ w.server.stream.entries.length) :
      w.handledCount id = 1 := by
    have hpos := handledCount_pos.mpr (hw.handled hq h₁ h₂)
    have := hi.once id
    omega
  refine ⟨fun id => hone, fun S hS => ?_⟩
  rw [hw.sum_total hq hS]
  have hmem : ∀ id ∈ (w.trace.map Handling.id : Multiset ℕ),
      id ∈ Finset.Icc 1 w.server.stream.entries.length := by
    intro id hid
    obtain ⟨e, he, rfl⟩ := List.mem_map.mp (Multiset.mem_coe.mp hid)
    obtain ⟨f, hf, -⟩ := hw.traced e he
    exact Finset.mem_Icc.mpr (entryAt_some_le hf)
  have hsum := Multiset.sum_count_eq_card hmem
  rw [Multiset.coe_card, List.length_map] at hsum
  calc w.trace.length
      = ∑ id ∈ Finset.Icc 1 w.server.stream.entries.length,
          (w.trace.map Handling.id : Multiset ℕ).count id := hsum.symm
    _ = ∑ _id ∈ Finset.Icc 1 w.server.stream.entries.length, 1 := by
        refine Finset.sum_congr rfl fun id hid => ?_
        obtain ⟨h₁, h₂⟩ := Finset.mem_Icc.mp hid
        rw [Multiset.coe_count]
        exact hone h₁ h₂
    _ = w.server.stream.entries.length := by simp

theorem HandledTwice.not_exactlyOnce {w : World} (ht : w.HandledTwice) (hw : WorkInv w)
    (hq : w.Quiescent) : ¬ w.ExactlyOnce := by
  intro hone
  obtain ⟨id, hid⟩ := ht
  have htwo : 2 ≤ w.handledCount id := by
    apply hid.two_le_count
    intro j
    rw [claims_of_quiescent hq]
    exact List.not_mem_nil
  obtain ⟨e, he, rfl⟩ := handledCount_pos.mp (Nat.le_of_succ_le htwo)
  obtain ⟨f, hf, -⟩ := hw.traced e he
  have hr := entryAt_some_le hf
  have := hone.1 e.id hr.1 hr.2
  omega

/-- Without crashes and failing handlers every published task is handled by the time all runs are
idle, and exactly once if and only if every sweep comes before any pending entry that it looks at
is stale for it. -/
theorem handled_exactly_once_iff_sweeps_early (acts : List Action) (hcalm : ∀ a ∈ acts, Calm a)
    (w : World) (hrun : run step {} acts = some w) (hquiet : w.Quiescent) :
    w.AllHandled ∧ (w.ExactlyOnce ↔ Along step SweepsEarly {} acts) := by
  have hcalm' : Along step (fun _ a => Calm a) {} acts :=
    along_of_forall (fun a ha _ => hcalm a ha) _
  have hw : WorkInv w := run_invariant workInv_step workInv_init hcalm' hrun
  refine ⟨hw.allHandled hquiet, fun hone => ?_, fun hearly => ?_⟩
  · have hends := reached_or_along workInv_step handledTwice_step workInv_init hcalm' hrun
    apply hends.resolve_left
    intro ht
    exact ht.not_exactlyOnce hw hquiet hone
  · have hboth : WorkInv w ∧ OnceInv w := run_invariant (I := fun u => WorkInv u ∧ OnceInv u)
      (fun u a v hi ha h => ⟨workInv_step u a v hi.1 ha.1 h,
        onceInv_step u a v hi.1 hi.2 ha.1 ha.2 h⟩)
      ⟨workInv_init, onceInv_init⟩ (along_and.mpr ⟨hcalm', hearly⟩) hrun
    exact hboth.2.exactlyOnce hw hquiet

def resize : Task := ⟨"task-0", "payload-0"⟩

/-- The handler of one run takes as long as the other run waits before it sweeps. -/
def slowHandler : List Action :=
  [.publish resize.toFields, .start 0 "worker-0" 10 5000, .start 1 "worker-1" 10 5000, .run 0,
    .run 0, .tick 5000, .run 1, .handler 0 none, .handler 1 none, .run 0, .run 1, .run 1]

theorem slowHandler_handled_twice :
    ∃ w, run step {} slowHandler = some w ∧ (∀ a ∈ slowHandler, Calm a) ∧ w.Quiescent ∧
      w.handledCount 1 = 2 ∧ w.total 0 + w.total 1 = 2 := by
  refine ⟨_, rfl, by simp [slowHandler, Calm], ⟨rfl, fun i => ?_⟩, rfl, rfl⟩
  match i with
  | 0 => rfl
  | 1 => rfl
  | i + 2 => rfl

/-- The other run sweeps while the handler is still in time. -/
def quickHandler : List Action :=
  [.publish resize.toFields, .start 0 "worker-0" 10 5000, .start 1 "worker-1" 10 5000, .run 0,
    .run 0, .tick 10, .run 1, .handler 0 none, .run 0]

theorem quickHandler_exactly_once :
    ∃ w, run step {} quickHandler = some w ∧ w.AllHandled ∧ w.ExactlyOnce := by
  refine ⟨_, rfl, ?_⟩
  have h := handled_exactly_once_iff_sweeps_early quickHandler (by simp [quickHandler, Calm]) _ rfl
    ⟨rfl, fun i => ?_⟩
  · refine ⟨h.1, h.2.mpr ?_⟩
    iterate 3 refine (along_cons rfl).mpr ⟨trivial, ?_⟩
    refine (along_cons rfl).mpr ⟨fun k hk _ p hp => ?_, ?_⟩
    · cases List.mem_of_mem_take hp
    refine (along_cons rfl).mpr ⟨fun k hk hpc => ?_, (along_cons rfl).mpr ⟨trivial, ?_⟩⟩
    · cases hk
      cases hpc
    refine (along_cons rfl).mpr ⟨fun k hk _ p hp => ?_, (along_cons rfl).mpr ⟨trivial, ?_⟩⟩
    · cases hk
      cases List.mem_singleton.mp hp
      decide
    refine (along_cons rfl).mpr ⟨fun k hk hpc => ?_, trivial⟩
    cases hk
    cases hpc
  · match i with
    | 0 => rfl
    | 1 => rfl
    | i + 2 => rfl

end World
end CompetingConsumers
