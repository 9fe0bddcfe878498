import MessageBrokerPatterns.CompetingDelivery

/-!
# No entry leaves the pending list unhandled

Whatever is published, and wherever runs crash or handlers raise, a delivered entry is pending or
some run's handler has completed for it. A run acknowledges the message in hand only after its
handler has completed, and it does so without asking who owns the entry by then.
-/

namespace CompetingConsumers
open PyText PyDict RedisStream ActionRun

namespace Server
variable {s : Server} {now minIdleMs count : ℕ}

theorem reclaimStale_eq_nil_iff_staleIds (consumer : String) :
    (s.reclaimStale consumer now minIdleMs count).1 = [] ↔
      s.stream.staleIds now minIdleMs count = [] := by
  rw [← GroupStream.map_fst_staleBatch, List.map_eq_nil_iff]
  rfl

/-- A sweep that finds nothing leaves the pending list to the next one as it was. -/
theorem reclaimStale_snd_of_nil {consumer : String}
    (h : (s.reclaimStale consumer now minIdleMs count).1 = []) :
    (s.reclaimStale consumer now minIdleMs count).2 = s := by
  rw [reclaimStale_eq_nil_iff_staleIds] at h
  simp only [reclaimStale, GroupStream.autoclaim, h, GroupStream.redeliver_nil]

end Server

theorem Consumer.faithful_handleBatch (k : Consumer) {s : Server} (phase : Phase) (handled : ℕ)
    {batch : List (ℕ × Fields)} (hb : ∀ e ∈ batch, entryAt s.stream.entries e.1 = some e.2) :
    (k.handleBatch phase handled batch).Faithful s ∧
      ∀ m, (k.handleBatch phase handled batch).pc ≠ .ack m := by
  cases batch with
  | nil =>
    cases phase with
    | reclaimed => exact ⟨fun m hm => by simp [handleBatch] at hm, fun m => by simp [handleBatch]⟩
    | new => exact ⟨fun m hm => by simp [handleBatch] at hm, fun m => by simp [handleBatch]⟩
  | cons e rest =>
    obtain ⟨id, f⟩ := e
    cases ht : Task.fromFields f with
    | error x =>
      simp only [handleBatch, ht]
      exact ⟨fun m hm => by simp at hm, fun m hm => by cases hm⟩
    | ok t =>
      simp only [handleBatch, ht]
      constructor
      · intro m hm
        rcases hm with hm | hm
        · cases hm
          exact ⟨⟨f, hb _ List.mem_cons_self, ht⟩, fun e he => hb e (List.mem_cons_of_mem _ he)⟩
        · cases hm
      · intro m hm
        cases hm

theorem Consumer.faithful_of_idle {k : Consumer} {s : Server} (hh : ∀ m, k.pc ≠ .handler m)
    (ha : ∀ m, k.pc ≠ .ack m) : k.Faithful s := by
  intro m hm
  rcases hm with hm | hm
  · exact absurd hm (hh m)
  · exact absurd hm (ha m)

/-- A command keeps the entries and leaves its run faithful, not waiting for an `XACK`. -/
theorem Move.faithful {k k' : Consumer} {now : ℕ} {s s' : Server} (hm : Move k now s k' s')
    (hf : k.Faithful s) :
    (k'.Faithful s' ∧ ∀ m, k'.pc ≠ .ack m) ∧ s'.stream.entries = s.stream.entries := by
  cases hm with
  | sweep hpc hne =>
    exact ⟨k.faithful_handleBatch .reclaimed 0 GroupStream.entryAt_of_mem_staleBatch, rfl⟩
  | nothingStale hpc hnil =>
    exact ⟨⟨Consumer.faithful_of_idle (fun m => by simp) fun m => by simp, fun m => by simp⟩, rfl⟩
  | readNew didWork hpc hne =>
    exact ⟨k.faithful_handleBatch .new 0 GroupStream.entryAt_of_mem_newBatch, rfl⟩
  | nothingNew didWork hpc hnil =>
    have hh (m : Held) : (if didWork then Pc.top else Pc.sleep) ≠ .handler m := by
      cases didWork <;> simp
    have ha (m : Held) : (if didWork then Pc.top else Pc.sleep) ≠ .ack m := by
      cases didWork <;> simp
    exact ⟨⟨Consumer.faithful_of_idle hh ha, ha⟩, rfl⟩
  | wake hpc =>
    exact ⟨⟨Consumer.faithful_of_idle (fun m => by simp) fun m => by simp, fun m => by simp⟩, rfl⟩
  | ack m hpc => exact ⟨k.faithful_handleBatch m.phase (m.handled + 1) (hf m (Or.inr hpc)).2, rfl⟩

/-- An entry leaves the pending list only by the `XACK` for the message in hand. -/
theorem Move.pending {k k' : Consumer} {now : ℕ} {s s' : Server} (hm : Move k now s k' s')
    {id : ℕ} {c : String} (hid : s.stream.owner? id = some c) :
    (∃ d, s'.stream.owner? id = some d) ∨ ∃ m, k.pc = .ack m ∧ m.id = id := by
  have hsweep : ∃ d, (s.reclaimStale k.consumerId now k.reclaimMinIdleMs k.count).2.stream.owner? id =
      some d := by
    change ∃ d, (s.stream.redeliver _ k.consumerId now).owner? id = some d
    rw [GroupStream.owner?_redeliver, hid]
    split_ifs
    · exact ⟨k.consumerId, rfl⟩
    · exact ⟨c, rfl⟩
  have hread : ∃ d, (s.readNew k.consumerId now k.count).2.stream.owner? id = some d := by
    change ∃ d, (s.stream.readNew k.consumerId now k.count).owner? id = some d
    rw [GroupStream.owner?_readNew, hid]
    split_ifs
    · exact ⟨k.consumerId, rfl⟩
    · exact ⟨c, rfl⟩
  cases hm with
  | sweep hpc hne => exact Or.inl hsweep
  | nothingStale hpc hnil => exact Or.inl hsweep
  | readNew didWork hpc hne => exact Or.inl hread
  | nothingNew didWork hpc hnil => exact Or.inl hread
  | wake hpc => exact Or.inl ⟨c, hid⟩
  | ack m hpc =>
    by_cases hi : id = m.id
    · exact Or.inr ⟨m, hpc, hi.symm⟩
    · apply Or.inl
      change ∃ d, (s.stream.xack m.id).owner? id = some d
      rw [GroupStream.owner?_xack, if_neg hi, hid]
      exact ⟨c, rfl⟩

theorem Move.issued {k k' : Consumer} {now : ℕ} {s s' : Server} (hm : Move k now s k' s')
    {id : ℕ} (hid : s'.Issued id) : s.Issued id ∨ ∃ d, s'.stream.owner? id = some d := by
  have hread (h : (s.readNew k.consumerId now k.count).2.Issued id) :
      s.Issued id ∨ ∃ d, (s.readNew k.consumerId now k.count).2.stream.owner? id = some d := by
    by_cases hle : id ≤ s.stream.delivered
    · exact Or.inl ⟨h.1, hle⟩
    · apply Or.inr
      change ∃ d, (s.stream.readNew k.consumerId now k.count).owner? id = some d
      rw [GroupStream.owner?_readNew, if_pos ⟨not_le.mp hle, h.2⟩]
      exact ⟨k.consumerId, rfl⟩
  cases hm with
  | sweep hpc hne => exact Or.inl hid
  | nothingStale hpc hnil => exact Or.inl hid
  | readNew didWork hpc hne => exact hread hid
  | nothingNew didWork hpc hnil => exact hread hid
  | wake hpc => exact Or.inl hid
  | ack m hpc => exact Or.inl hid

namespace World

def Pending (w : World) (id : ℕ) : Prop := ∃ c, w.server.stream.owner? id = some c

/-- Every delivered entry is pending or handled, and no `XACK` comes before its handler. -/
structure SafeInv (w : World) : Prop where
  faithful : ∀ i k, w.runs i = some k → k.Faithful w.server
  traced : ∀ e ∈ w.trace, ∃ f, entryAt w.server.stream.entries e.id = some f ∧
    Task.fromFields f = .ok e.task
  acked : ∀ i k m, w.runs i = some k → k.pc = .ack m → w.Handled m.id
  covered : ∀ id, w.server.Issued id → w.Pending id ∨ w.Handled id

theorem safeInv_init : SafeInv {} where
  faithful i k hk := by cases hk
  traced e he := by cases he
  acked i k m hk := by cases hk
  covered id h := absurd (h.1.trans h.2) (Nat.not_succ_le_zero 0)

theorem safeInv_append {w w' : World} (hi : SafeInv w) (f : Fields)
    (hs : w'.server.stream = w.server.stream.xadd f) (hruns : w'.runs = w.runs)
    (htrace : w'.trace = w.trace) : SafeInv w' := by
  have hle (id : ℕ) (g : Fields) (h : entryAt w.server.stream.entries id = some g) :
      entryAt w'.server.stream.entries id = some g := by
    rw [hs, GroupStream.entries_xadd, entryAt_append_of_le (entryAt_some_le h).2, h]
  have hpending (id : ℕ) : w'.Pending id ↔ w.Pending id := by
    rw [Pending, Pending, hs, GroupStream.owner?_xadd]
  have hhandled (id : ℕ) : w'.Handled id ↔ w.Handled id := by
    rw [Handled, Handled, htrace]
  constructor
  · intro i k hk
    exact (hi.faithful i k (hruns ▸ hk)).mono hle
  · intro e he
    obtain ⟨g, hg, hgt⟩ := hi.traced e (htrace ▸ he)
    exact ⟨g, hle _ _ hg, hgt⟩
  · intro i k m hk hpc
    rw [hhandled]
    exact hi.acked i k m (hruns ▸ hk) hpc
  · intro id hid
    rw [hpending, hhandled]
    apply hi.covered id
    rwa [Server.Issued, hs] at hid

/-- A run gets another state without touching the server, and not in front of an `XACK`. -/
theorem safeInv_setRun {w : World} (hi : SafeInv w) {i : ℕ} {k : Consumer}
    (hf : k.Faithful w.server) (hack : ∀ m, k.pc ≠ .ack m) : SafeInv (w.setRun i k) where
  faithful := faithful_setRun hi.faithful hf
  traced := hi.traced
  acked j l m hl hpc := by
    rcases Slots.cases_update hl with ⟨-, rfl⟩ | ⟨-, hl⟩
    · exact absurd hpc (hack m)
    · exact hi.acked j l m hl hpc
  covered := hi.covered

theorem safeInv_moved {w : World} (hi : SafeInv w) {i : ℕ} {k k' : Consumer} {s' : Server}
    (hk : w.runs i = some k) (hm : Move k w.now w.server k' s') : SafeInv (w.moved i k' s') := by
  obtain ⟨⟨hf, hack⟩, hent⟩ := hm.faithful (hi.faithful i k hk)
  have hle (id : ℕ) (f : Fields) (h : entryAt w.server.stream.entries id = some f) :
      entryAt s'.stream.entries id = some f := by
    rwa [hent]
  constructor
  · exact faithful_setRun (fun j l hl => (hi.faithful j l hl).mono hle) hf
  · intro e he
    obtain ⟨f, hf, hft⟩ := hi.traced e he
    exact ⟨f, hle _ _ hf, hft⟩
  · intro j l m hl hpc
    rcases Slots.cases_update hl with ⟨-, rfl⟩ | ⟨-, hl⟩
    · exact absurd hpc (hack m)
    · exact hi.acked j l m hl hpc
  · intro id hid
    rcases hm.issued hid with hold | hnew
    · rcases hi.covered id hold with ⟨c, hc⟩ | hh
      · rcases hm.pending hc with hp | ⟨m, hpc, rfl⟩
        · exact Or.inl hp
        · exact Or.inr (hi.acked i k m hk hpc)
      · exact Or.inr hh
    · exact Or.inl hnew

theorem safeInv_completed {w : World} (hi : SafeInv w) {i : ℕ} {k : Consumer} {m : Held}
    (hk : w.runs i = some k) (hpc : k.pc = .handler m) : SafeInv (w.completed i k m) := by
  have hff := hi.faithful i k hk m (Or.inl hpc)
  have hgrow {id : ℕ} (h : w.Handled id) : (w.completed i k m).Handled id :=
    (handled_completed id).mpr (Or.inl h)
  constructor
  · apply faithful_setRun hi.faithful
    intro n hn
    obtain rfl : m = n := by simpa using hn
    exact hff
  · intro e he
    rcases List.mem_append.mp he with he | he
    · exact hi.traced e he
    · obtain rfl := List.mem_singleton.mp he
      exact hff.1
  · intro j l n hl hn
    rcases Slots.cases_update hl with ⟨-, rfl⟩ | ⟨-, hl⟩
    · cases hn
      exact (handled_completed m.id).mpr (Or.inr rfl)
    · exact hgrow (hi.acked j l n hl hn)
  · intro id hid
    exact (hi.covered id hid).imp_right hgrow

theorem safeInv_step (w : World) (a : Action) (w' : World) (hi : SafeInv w)
    (h : step w a = some w') : SafeInv w' := by
  cases Effect.of_step h with
  | publish taskFields => exact safeInv_append hi (encodeFields taskFields) rfl rfl rfl
  | xadd fields => exact safeInv_append hi fields rfl rfl rfl
  | start i consumerId count reclaimMinIdleMs hnone =>
    have h := safeInv_setRun (i := i) (k := { consumerId, count, reclaimMinIdleMs }) hi
      (fun m hm => by simp at hm) fun m hm => by cases hm
    exact ⟨h.faithful, h.traced, h.acked, h.covered⟩
  | stop i k hk hpc => exact safeInv_setRun hi (fun m hm => by simp at hm) fun m hm => by cases hm
  | run i k k' s' hk hm => exact safeInv_moved hi hk hm
  | returns i k m hk hpc => exact safeInv_completed hi hk hpc
  | raises i k m e hk hpc =>
    exact safeInv_setRun hi (fun m hm => by simp at hm) fun m hm => by cases hm
  | crash i k hk hend =>
    exact safeInv_setRun hi (fun m hm => by simp at hm) fun m hm => by cases hm
  | tick ms => exact ⟨hi.faithful, hi.traced, hi.acked, hi.covered⟩

theorem SafeInv.handled_of_acked {w w' : World} {a : Action} (hi : SafeInv w)
    (h : step w a = some w') {id : ℕ} (hp : w.Pending id) (hnot : ¬ w'.Pending id) :
    w.Handled id := by
  cases Effect.of_step h with
  | publish taskFields =>
    rw [Pending, Server.publish, GroupStream.owner?_xadd] at hnot
    exact absurd hp hnot
  | xadd fields =>
    rw [Pending, GroupStream.owner?_xadd] at hnot
    exact absurd hp hnot
  | run i k k' s' hk hm =>
    obtain ⟨c, hc⟩ := hp
    rcases hm.pending hc with hp | ⟨m, hpc, rfl⟩
    · exact absurd hp hnot
    · exact hi.acked i k m hk hpc
  | start i consumerId count reclaimMinIdleMs hnone => exact absurd hp hnot
  | stop i k hk hpc => exact absurd hp hnot
  | returns i k m hk hpc => exact absurd hp hnot
  | raises i k m e hk hpc => exact absurd hp hnot
  | crash i k hk hend => exact absurd hp hnot
  | tick ms => exact absurd hp hnot

theorem pending_iff {w : World} {id : ℕ} :
    w.Pending id ↔ ∃! p, p ∈ w.server.stream.pel ∧ p.id = id := by
  constructor
  · rintro ⟨c, hc⟩
    obtain ⟨p, hp, hid, -⟩ := GroupStream.owner?_eq_some.mp hc
    refine ⟨p, ⟨hp, hid⟩, ?_⟩
    rintro q ⟨hq, hqid⟩
    exact GroupStream.eq_of_mem_pel hq hp (hqid.trans hid.symm)
  · rintro ⟨p, ⟨hp, hid⟩, -⟩
    exact ⟨p.owner, GroupStream.owner?_eq_some.mpr ⟨p, hp, hid, rfl⟩⟩

/-- In every reachable state a published entry is undelivered, or on exactly one consumer's pending
list, or handled as the task that it is; and it leaves the pending list only when it is handled. -/
theorem undelivered_or_pending_or_handled (acts : List Action) (w : World)
    (hrun : run step {} acts = some w) :
    (∀ id f, entryAt w.server.stream.entries id = some f →
      w.server.stream.delivered < id ∨ (∃! p, p ∈ w.server.stream.pel ∧ p.id = id) ∨
        ∃ e ∈ w.trace, e.id = id ∧ Task.fromFields f = .ok e.task) ∧
    ∀ a w', step w a = some w' → ∀ id, w.Pending id → ¬ w'.Pending id → w.Handled id := by
  have hi : SafeInv w := run_invariant_of_step safeInv_step safeInv_init hrun
  constructor
  · intro id f hf
    by_cases hid : id ≤ w.server.stream.delivered
    · apply Or.inr
      rcases hi.covered id ⟨(entryAt_some_le hf).1, hid⟩ with hp | ⟨e, he, rfl⟩
      · exact Or.inl (pending_iff.mp hp)
      · obtain ⟨g, hg, hgt⟩ := hi.traced e he
        obtain rfl := Option.some.inj (hf.symm.trans hg)
        exact Or.inr ⟨e, he, rfl, hgt⟩
    · exact Or.inl (not_le.mp hid)
  · intro a w' h id hp hnot
    exact hi.handled_of_acked h hp hnot

/-- A sibling sweeps the entry while its handler is at work, and both acknowledge it. -/
theorem slowHandler_covered :
    ∃ w, run step {} slowHandler = some w ∧ w.server.stream.pel = [] ∧
      ∃ e ∈ w.trace, e.id = 1 ∧ Task.fromFields (encodeFields resize.toFields) = .ok e.task := by
  obtain ⟨w, hw, hpel, hdel, hent⟩ : ∃ w, run step {} slowHandler = some w ∧
      w.server.stream.pel = [] ∧ w.server.stream.delivered = 1 ∧
      entryAt w.server.stream.entries 1 = some (encodeFields resize.toFields) :=
    ⟨_, rfl, rfl, rfl, rfl⟩
  refine ⟨w, hw, hpel, ?_⟩
  rcases (undelivered_or_pending_or_handled slowHandler w hw).1 1 _ hent with h | h | h
  · omega
  · obtain ⟨p, ⟨hp, -⟩, -⟩ := h
    rw [hpel] at hp
    cases hp
  · exact h

end World
end CompetingConsumers
