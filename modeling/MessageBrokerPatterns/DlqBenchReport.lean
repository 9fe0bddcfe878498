import MessageBrokerPatterns.DlqBench

/-!
# The reported numbers of the benchmark

With any number of publishers in flight, the handler's count by payment id and the consumer's by message
id agree on every pending entry, because the ids of a configuration are distinct and nothing is skipped
as a duplicate. So a future is resolved by the very failure that sends its payment to the dead-letter
stream, no publisher waits for ever, and the numbers reported at the end are exact.
-/

namespace Dlq
open PyText PyDict RedisStream ActionRun

namespace Bench

def encode (p : Payment) : Fields := encodeFields p.toFields

theorem entryAt_map_encode (ps : List Payment) (id : ℕ) :
    entryAt (ps.map encode) id = (entryAt ps id).map encode := by
  cases id with
  | zero => rfl
  | succ n => exact List.getElem?_map

theorem eq_of_paymentId_eq {ps : List Payment} (hnodup : (ps.map Payment.paymentId).Nodup) {i j : ℕ}
    {p q : Payment} (hi : entryAt ps i = some p) (hj : entryAt ps j = some q)
    (hpq : p.paymentId = q.paymentId) : i = j := by
  cases i with
  | zero => cases hi
  | succ i =>
    cases j with
    | zero => cases hj
    | succ j =>
      simp only [entryAt] at hi hj
      have hlt : i < (ps.map Payment.paymentId).length := by
        rw [List.length_map]
        exact (List.getElem?_eq_some_iff.mp hi).1
      have heq : (ps.map Payment.paymentId)[i]? = (ps.map Payment.paymentId)[j]? := by
        rw [List.getElem?_map, List.getElem?_map, hi, hj]
        exact congrArg some hpq
      exact congrArg (· + 1) ((List.getElem?_inj hlt hnodup).mp heq)

theorem mem_of_entryAt {ps : List Payment} {id : ℕ} {p : Payment} (h : entryAt ps id = some p) :
    p ∈ ps := by
  cases id with
  | zero => cases h
  | succ n => exact List.mem_of_getElem? h

/-- The state of a configuration, with the payments published so far in the order of the stream. -/
structure BenchInv (runId : String) (b : Bench) (ps : List Payment) (k : Consumer) : Prop where
  solo : World.SoloInv (consumerName runId) 10 (max 1 b.maxAttempts).toNat b.world k
  maxAttempts : k.maxAttempts = b.maxAttempts
  noSkip : ∀ m, k.pc ≠ .busy m .skipAck
  reason : ∀ m reason attempt, k.pc = .busy m (.dlqAck reason attempt) ∨
    k.pc = .busy m (.dlqAdd reason attempt) → reason = "ValueError"
  entries : b.world.server.main.entries = ps.map encode
  begun : (ps ++ b.sending).Perm ((List.range' 1 b.index).map (payment runId b.maxAttempts))
  rows : ∀ id p, entryAt ps id = some p → b.books.Row k b.world.server b.world.trace id p
  sending : ∀ p ∈ b.sending, p.paymentId ∈ b.books.awaiting ∧ b.books.attempts p.paymentId = none
  known : ∀ pid, pid ∈ b.books.awaiting ∨ b.books.attempts pid ≠ none →
    ∃ p ∈ ps ++ b.sending, p.paymentId = pid
  charged : b.books.charged = (b.world.trace.filterMap Event.charge?).length
  poisoned : b.books.poisoned = b.index / poisonEvery
  letters : ∀ c id p reason attempt, Event.deadLettered c id p reason attempt ∈ b.world.trace →
    reason = "ValueError"

namespace BenchInv
variable {runId : String} {b : Bench} {ps : List Payment} {k : Consumer}

theorem nodup (h : BenchInv runId b ps k) :
    ((ps ++ b.sending).map Payment.paymentId).Nodup := by
  rw [(h.begun.map Payment.paymentId).nodup_iff, List.map_map]
  have hrange : (List.range' 1 b.index).Nodup := List.nodup_range'
  exact hrange.map (payment_injective runId b.maxAttempts)

theorem nodup_published (h : BenchInv runId b ps k) : (ps.map Payment.paymentId).Nodup := by
  have := h.nodup
  rw [List.map_append] at this
  exact (List.nodup_append.mp this).1

theorem entryAt_of_fromFields (h : BenchInv runId b ps k) {id : ℕ} {f : Fields} {p : Payment}
    (hf : entryAt b.world.server.main.entries id = some f) (hp : Payment.fromFields f = .ok p) :
    entryAt ps id = some p := by
  rw [h.entries, entryAt_map_encode] at hf
  obtain ⟨q, hq, rfl⟩ := Option.map_eq_some_iff.mp hf
  rw [encode, Payment.fromFields_toFields] at hp
  cases hp
  exact hq

theorem inHand (h : BenchInv runId b ps k) {m : Held} {stage : Stage}
    (hpc : k.pc = .busy m stage) : entryAt ps m.id = some m.payment := by
  obtain ⟨⟨f, hf, hp⟩, -⟩ := h.solo.faithful.busy hpc
  exact h.entryAt_of_fromFields hf hp

theorem wellFormed (h : BenchInv runId b ps k) : b.world.server.WellFormed := by
  intro id f hf
  rw [h.entries, entryAt_map_encode] at hf
  obtain ⟨p, -, rfl⟩ := Option.map_eq_some_iff.mp hf
  exact ⟨p, p.fromFields_toFields⟩

theorem not_processed (h : BenchInv runId b ps k) {m : Held} (hpc : k.pc = .busy m .check) :
    m.payment.paymentId ∉ b.world.server.processed := by
  intro hp
  have hpos := ((h.solo.charge m.payment.paymentId).recorded).mpr (Or.inl hp)
  obtain ⟨e, he, hcharge⟩ := List.countP_pos_iff.mp hpos
  obtain ⟨f, hf, hdec⟩ := h.solo.traced e he
  have hev : e.charge? = some (e.id, e.payment) ∧ e.payment.paymentId = m.payment.paymentId := by
    unfold Event.charges at hcharge
    split at hcharge
    · exact ⟨rfl, of_decide_eq_true hcharge⟩
    · cases hcharge
  have hid : e.id = m.id := eq_of_paymentId_eq h.nodup_published (h.entryAt_of_fromFields hf hdec)
    (h.inHand hpc) hev.2
  have hrow := h.rows m.id m.payment (h.inHand hpc)
  have hpend : b.world.server.status m.id = .pending := Server.status_pending (h.solo.holds m _ hpc).owner
  rw [Books.Row, Consumer.status_busy hpc, hpend] at hrow
  -- the row of a pending entry has no charge, and the trace has one
  have hmem : e.id ∈ (b.world.trace.filterMap Event.charge?).map Prod.fst :=
    List.mem_map.mpr ⟨_, List.mem_filterMap.mpr ⟨e, he, hev.1⟩, rfl⟩
  have hzero : tally Event.charge? b.world.trace m.id = 0 := hrow.2.2.1
  rw [tally, ← hid] at hzero
  exact List.count_eq_zero.mp hzero hmem

/-- A step of the consumer, when the row of the entry in hand is kept, the books change only there,
and the counts and reasons stay right. -/
theorem moved (h : BenchInv runId b ps k) {k' : Consumer} {s' : Server} {evs : List Event}
    {books : Books} (hm : Move (consumerName runId) k b.world.server k' s' evs)
    (hself : ∀ m stage, k.pc = .busy m stage →
      books.Row k' s' (b.world.trace ++ evs) m.id m.payment)
    (hother : ∀ q : Payment, (∀ m stage, k.pc = .busy m stage → q.paymentId ≠ m.payment.paymentId) →
      (q.paymentId ∈ books.awaiting ↔ q.paymentId ∈ b.books.awaiting) ∧
        books.attempts q.paymentId = b.books.attempts q.paymentId)
    (hknown : ∀ pid, pid ∈ books.awaiting ∨ books.attempts pid ≠ none →
      pid ∈ b.books.awaiting ∨ b.books.attempts pid ≠ none)
    (hskip : ∀ m, k'.pc ≠ .busy m .skipAck)
    (hreason : ∀ m reason attempt, k'.pc = .busy m (.dlqAck reason attempt) ∨
      k'.pc = .busy m (.dlqAdd reason attempt) → reason = "ValueError")
    (hcharged : books.charged = b.books.charged + (evs.filterMap Event.charge?).length)
    (hpoisoned : books.poisoned = b.books.poisoned)
    (hletters : ∀ c id p reason attempt, Event.deadLettered c id p reason attempt ∈ evs →
      reason = "ValueError") :
    BenchInv runId
      { b with world := b.world.moved (consumerName runId) k' s' evs, books } ps k' where
  solo := h.solo.moved hm
  maxAttempts := hm.maxAttempts_eq.trans h.maxAttempts
  noSkip := hskip
  reason := hreason
  entries := hm.entries_eq.trans h.entries
  begun := h.begun
  rows id p hp := by
    by_cases hhand : ∃ m stage, k.pc = .busy m stage ∧ m.id = id
    · obtain ⟨m, stage, hpc, rfl⟩ := hhand
      obtain rfl := Option.some.inj (hp.symm.trans (h.inHand hpc))
      exact hself m stage hpc
    · have hne : ∀ m stage, k.pc = .busy m stage → id ≠ m.id :=
        fun m stage hpc hid => hhand ⟨m, stage, hpc, hid.symm⟩
      obtain ⟨hawait, hattempts⟩ := hother p fun m stage hpc hpid =>
        hne m stage hpc (eq_of_paymentId_eq h.nodup_published hp (h.inHand hpc) hpid)
      exact (hm.row_of_ne (h.rows id p hp) hne).congr rfl rfl hawait hattempts
  sending p hp := by
    have hne : ∀ m stage, k.pc = .busy m stage → p.paymentId ≠ m.payment.paymentId := by
      intro m stage hpc hpid
      have hmem : m.payment ∈ ps := mem_of_entryAt (h.inHand hpc)
      have hnodup := h.nodup
      rw [List.map_append] at hnodup
      exact List.disjoint_of_nodup_append hnodup (List.mem_map_of_mem hmem)
        (hpid ▸ List.mem_map_of_mem hp)
    obtain ⟨hawait, hattempts⟩ := hother p hne
    exact ⟨hawait.mpr (h.sending p hp).1, hattempts.trans (h.sending p hp).2⟩
  known pid hpid := h.known pid (hknown pid hpid)
  charged := by
    change books.charged = ((b.world.trace ++ evs).filterMap Event.charge?).length
    rw [hcharged, h.charged, List.filterMap_append, List.length_append]
  poisoned := hpoisoned.trans h.poisoned
  letters c id p reason attempt hmem := by
    rcases List.mem_append.mp hmem with hmem | hmem
    · exact h.letters c id p reason attempt hmem
    · exact hletters c id p reason attempt hmem

theorem consumer (h : BenchInv runId b ps k) {b' : Bench}
    (hs : step runId b .consumer = some b') : ∃ k', BenchInv runId b' ps k' := by
  obtain ⟨w, hw, rfl⟩ := Option.map_eq_some_iff.mp hs
  simp only [World.step, h.solo.self] at hw
  cases hc : k.command (consumerName runId) b.world.server with
  | none => simp [hc] at hw
  | some r =>
    obtain ⟨k', s', evs⟩ := r
    simp only [hc, Option.some.injEq] at hw
    subst hw
    have hm := Move.of_command hc
    have hhandler : ∀ m, k.pc ≠ .busy m .handler := by
      intro m hpc
      simp [Consumer.command, hpc] at hc
    refine ⟨k', h.moved hm (fun m stage hpc => ?_) (fun q _ => ⟨Iff.rfl, rfl⟩) (fun pid hp => hp)
      (fun m hpc => ?_) (fun m reason attempt hpc => ?_) ?_ rfl
      fun c id p reason attempt hmem => ?_⟩
    · refine hm.row_self hpc (h.solo.holds m stage hpc) (fun hst => ?_) (fun hst => ?_)
        (fun hst => ?_) (h.rows m.id m.payment (h.inHand hpc))
      · exact hhandler m (hst ▸ hpc)
      · exact h.noSkip m (hst ▸ hpc)
      · exact h.not_processed (hst ▸ hpc)
    · rcases hm.next_stage hpc with hst | ⟨before, hbefore, hst, -⟩
      · cases hst
      · obtain ⟨rfl, hp⟩ := hst rfl
        exact h.not_processed hbefore hp
    · rcases hpc with hpc | hpc
      · rcases hm.next_stage hpc with hst | ⟨before, hbefore, -, hst, -⟩
        · cases hst
        · exact absurd (hst _ _ rfl ▸ hbefore) (hhandler m)
      · rcases hm.next_stage hpc with hst | ⟨before, hbefore, -, -, hst⟩
        · cases hst
        · exact h.reason m reason attempt (Or.inl (hst _ _ rfl ▸ hbefore))
    · cases hm with
      | returns m hpc => exact absurd hpc (hhandler m)
      | _ => rfl
    · cases hm with
      | dlqAdd m r a hpc =>
        cases List.mem_singleton.mp hmem
        exact h.reason m _ _ (Or.inr hpc)
      | _ => simp at hmem

theorem handlerEnds (h : BenchInv runId b ps k) {b' : Bench}
    (hs : step runId b .handlerEnds = some b') : ∃ k', BenchInv runId b' ps k' := by
  cases hp : b.world.awaits (consumerName runId) with
  | none => simp [step, hp] at hs
  | some p =>
    simp only [step, hp] at hs
    obtain ⟨w, hw, rfl⟩ := Option.map_eq_some_iff.mp hs
    obtain ⟨m, hpc, rfl⟩ : ∃ m, k.pc = .busy m .handler ∧ m.payment = p := by
      simp only [World.awaits, h.solo.self] at hp
      split at hp
      · rename_i m hpc
        exact ⟨m, hpc, Option.some.inj hp⟩
      · cases hp
    simp only [World.step, h.solo.self] at hw
    cases hc : k.handlerEnds (consumerName runId) (b.books.handler b.maxAttempts m.payment).1 with
    | none => simp [hc] at hw
    | some r =>
      obtain ⟨k', evs⟩ := r
      simp only [hc, Option.some.injEq] at hw
      subst hw
      have hm : Move (consumerName runId) k b.world.server k' b.world.server evs :=
        Move.of_handlerEnds hc
      obtain ⟨hevs, hleaves⟩ := Consumer.handlerEnds_cases hpc hc
      have hrow := h.rows m.id m.payment (h.inHand hpc)
      have hbefore {n : Held} {before : Stage} (hn : k.pc = .busy n before) :
          n = m ∧ before = .handler := Pc.busy.inj (hn.symm.trans hpc)
      refine ⟨k', h.moved hm (fun n stage hn => ?_) (fun q hq => ?_) (fun pid hpid => ?_)
        (fun n hn => ?_) (fun n reason attempt hn => ?_) ?_ ?_ fun c id p reason attempt hmem => ?_⟩
      · obtain ⟨rfl, rfl⟩ := hbefore hn
        exact Consumer.row_handlerEnds hpc h.maxAttempts (h.solo.holds n _ hpc) hrow hc
      · exact Books.handler_of_ne (hq m _ hpc) _ _
      · by_cases hm' : pid = m.payment.paymentId
        · have hpend := Server.status_pending (h.solo.holds m _ hpc).owner
          rw [Books.Row, Consumer.status_busy hpc, hpend] at hrow
          exact Or.inl (hm' ▸ hrow.1)
        · obtain ⟨hawait, hattempts⟩ :=
            Books.handler_of_ne (q := { m.payment with paymentId := pid }) hm' b.maxAttempts b.books
          rwa [hawait, hattempts] at hpid
      · rcases hm.next_stage hn with hst | ⟨before, hn', hst, -⟩
        · cases hst
        · cases (hst rfl).1.symm.trans (hbefore hn').2
      · rcases hn with hn | hn
        · obtain ⟨exc, hexc, rfl⟩ := hleaves n reason attempt hn
          exact (b.books.handler_counts b.maxAttempts m.payment).2.1 exc hexc
        · rcases hm.next_stage hn with hst | ⟨before, hn', -, -, hst⟩
          · cases hst
          · cases (hst _ _ rfl).symm.trans (hbefore hn').2
      · rw [hevs]
        exact (b.books.handler_counts b.maxAttempts m.payment).2.2 _ m.id
      · exact (b.books.handler_counts b.maxAttempts m.payment).1
      · rw [hevs] at hmem
        cases List.mem_singleton.mp hmem

theorem begins (h : BenchInv runId b ps k) {b' : Bench} (hs : step runId b .begins = some b') :
    BenchInv runId b' ps k := by
  cases hs
  have hfresh : ∀ q ∈ ps ++ b.sending, q.paymentId ≠ (payment runId b.maxAttempts (b.index + 1)).paymentId := by
    intro q hq hid
    obtain ⟨i, hi, rfl⟩ := List.mem_map.mp (h.begun.subset hq)
    have := payment_injective runId b.maxAttempts hid
    simp at hi
    omega
  have hnone : b.books.attempts (payment runId b.maxAttempts (b.index + 1)).paymentId = none := by
    by_contra hne
    obtain ⟨q, hq, hid⟩ := h.known _ (Or.inr hne)
    exact hfresh q hq hid
  refine ⟨h.solo, h.maxAttempts, h.noSkip, h.reason, h.entries, ?_, fun id p hp => ?_, fun p hp => ?_,
    fun pid hpid => ?_, h.charged, ?_, h.letters⟩
  · change (ps ++ (b.sending ++ [_])).Perm ((List.range' 1 (b.index + 1)).map _)
    rw [← List.append_assoc, List.range'_1_concat, List.map_append, Nat.add_comm 1]
    exact h.begun.append_right _
  · have hmem := hfresh p (List.mem_append_left _ (mem_of_entryAt hp))
    exact (h.rows id p hp).congr rfl rfl (by simp [hmem]) rfl
  · rcases List.mem_append.mp hp with hp | hp
    · exact ⟨Finset.mem_insert_of_mem (h.sending p hp).1, (h.sending p hp).2⟩
    · rw [List.mem_singleton.mp hp]
      exact ⟨Finset.mem_insert_self _ _, hnone⟩
  · rw [← List.append_assoc]
    have hcases : pid = (payment runId b.maxAttempts (b.index + 1)).paymentId ∨
        pid ∈ b.books.awaiting ∨ b.books.attempts pid ≠ none := by
      rcases hpid with hpid | hpid
      · rcases Finset.mem_insert.mp hpid with hpid | hpid
        · exact Or.inl hpid
        · exact Or.inr (Or.inl hpid)
      · exact Or.inr (Or.inr hpid)
    rcases hcases with rfl | hcases
    · exact ⟨_, List.mem_append_right _ (List.mem_singleton_self _), rfl⟩
    · obtain ⟨q, hq, hid⟩ := h.known pid hcases
      exact ⟨q, List.mem_append_left _ hq, hid⟩
  · change b.books.poisoned + _ = (b.index + 1) / poisonEvery
    rw [h.poisoned, Nat.succ_div]
    simp only [Nat.dvd_iff_mod_eq_zero]

theorem row_unseen (h : BenchInv runId b ps k) {id : ℕ} {p : Payment} (hid : ps.length < id)
    (hp : p.paymentId ∈ b.books.awaiting ∧ b.books.attempts p.paymentId = none) :
    b.books.Row k b.world.server b.world.trace id p := by
  have hlen : b.world.server.main.entries.length = ps.length := by rw [h.entries, List.length_map]
  have hwait : k.status b.world.server id = .waiting := by
    rw [Consumer.status_of_ne, Server.status, if_pos]
    · exact (b.world.server.main.delivered_le.trans hlen.le).trans_lt hid
    · rintro m stage hpc rfl
      obtain ⟨⟨f, hf, -⟩, -⟩ := h.solo.faithful.busy hpc
      exact absurd (entryAt_some_le hf).2 (by omega)
  have hev : ∀ e ∈ b.world.trace, e.id ≠ id := by
    rintro e he rfl
    obtain ⟨f, hf, -⟩ := h.solo.traced e he
    exact absurd (entryAt_some_le hf).2 (by omega)
  have hledger := (h.solo.ledger id (by omega)).row
  rw [hwait] at hledger
  rw [Books.Row, hwait, tally_of_ne (fun _ _ => Event.eq_of_charge?) hev,
    tally_of_ne (fun _ _ => Event.eq_of_letter?) hev, hledger.1]
  exact ⟨hp.1, by rw [hp.2]; rfl, rfl, rfl⟩

theorem sent (h : BenchInv runId b ps k) {i : ℕ} {b' : Bench}
    (hs : step runId b (.sent i) = some b') : ∃ p, BenchInv runId b' (ps ++ [p]) k := by
  cases hp : b.sending[i]? with
  | none => simp [step, hp] at hs
  | some p =>
    simp only [step, hp, World.step, Option.map_some, Option.some.injEq] at hs
    subst hs
    refine ⟨p, ?_⟩
    obtain ⟨hi, hget⟩ := List.getElem?_eq_some_iff.mp hp
    have hperm : (ps ++ [p] ++ b.sending.eraseIdx i).Perm (ps ++ b.sending) := by
      rw [List.append_assoc, List.singleton_append, ← hget]
      exact (List.getElem_cons_eraseIdx_perm hi).append_left ps
    have hst (id : ℕ) : k.status (b.world.server.publish p) id = k.status b.world.server id := by
      have hserver : (b.world.server.publish p).status id = b.world.server.status id :=
        Server.status_congr rfl (GroupStream.owner?_xadd _ _)
      simp only [Consumer.status, hserver]
    refine ⟨h.solo.fed rfl rfl rfl, h.maxAttempts, h.noSkip, h.reason, ?_, hperm.trans h.begun,
      fun id q hq => ?_, fun q hq => ?_, fun pid hpid => ?_, h.charged, h.poisoned, h.letters⟩
    · change b.world.server.main.entries ++ [encode p] = _
      rw [h.entries, List.map_append, List.map_singleton]
    · by_cases hid : id ≤ ps.length
      · rw [entryAt_append_of_le hid] at hq
        exact (h.rows id q hq).congr (hst id) rfl Iff.rfl rfl
      · obtain rfl := eq_of_entryAt_append hq hid
        exact (h.row_unseen (not_le.mp hid) (h.sending q (List.mem_of_getElem? hp))).congr (hst id)
          rfl Iff.rfl rfl
    · exact h.sending q (List.mem_of_mem_eraseIdx hq)
    · obtain ⟨q, hq, hid⟩ := h.known pid hpid
      exact ⟨q, hperm.symm.subset hq, hid⟩

theorem advance {a : BenchAction} {b' : Bench} (h : ∃ ps k, BenchInv runId b ps k)
    (hs : step runId b a = some b') : ∃ ps k, BenchInv runId b' ps k := by
  obtain ⟨ps, k, h⟩ := h
  cases a with
  | begins => exact ⟨ps, k, h.begins hs⟩
  | sent i =>
    obtain ⟨p, h'⟩ := h.sent hs
    exact ⟨_, k, h'⟩
  | consumer => exact ⟨ps, h.consumer hs⟩
  | handlerEnds => exact ⟨ps, h.handlerEnds hs⟩

end BenchInv

theorem benchInv_fresh (runId : String) (maxAttempts : ℤ) :
    BenchInv runId (fresh runId maxAttempts) [] { maxAttempts } where
  solo := World.fresh_init.soloInv rfl
  maxAttempts := rfl
  noSkip m h := by cases h
  reason m reason attempt h := by rcases h with h | h <;> cases h
  entries := rfl
  begun := List.Perm.refl _
  rows id p hp := by cases id <;> cases hp
  sending p hp := by cases hp
  known pid h := by
    rcases h with h | h
    · cases h
    · exact absurd rfl h
  charged := rfl
  poisoned := (Nat.zero_div _).symm
  letters c id p reason attempt h := by cases h

theorem step_maxAttempts {runId : String} {b b' : Bench} {a : BenchAction}
    (hs : step runId b a = some b') : b'.maxAttempts = b.maxAttempts := by
  cases a with
  | begins =>
    cases hs
    rfl
  | sent i =>
    simp only [step] at hs
    split at hs
    · obtain ⟨w, -, rfl⟩ := Option.map_eq_some_iff.mp hs
      rfl
    · cases hs
  | consumer =>
    obtain ⟨w, -, rfl⟩ := Option.map_eq_some_iff.mp hs
    rfl
  | handlerEnds =>
    simp only [step] at hs
    split at hs
    · obtain ⟨w, -, rfl⟩ := Option.map_eq_some_iff.mp hs
      rfl
    · cases hs

namespace BenchInv
variable {runId : String} {b : Bench} {ps : List Payment} {k : Consumer}

/-- A future is unresolved exactly while its entry waits or is pending with the handler's count short
of the budget. -/
theorem awaiting_iff (h : BenchInv runId b ps k) {id : ℕ} {p : Payment} (hp : entryAt ps id = some p) :
    p.paymentId ∈ b.books.awaiting ↔ k.status b.world.server id = .waiting ∨
      k.status b.world.server id = .pending := by
  have hrow := h.rows id p hp
  unfold Books.Row at hrow
  cases hst : k.status b.world.server id <;> rw [hst] at hrow <;> simp [hrow.1]

/-- Between two messages, with every future resolved, every entry is settled. -/
theorem settled (h : BenchInv runId b ps k) (hidle : ∀ m stage, k.pc ≠ .busy m stage)
    (hawait : b.books.awaiting = ∅) {id : ℕ} {p : Payment} (hp : entryAt ps id = some p) :
    k.status b.world.server id = .settled := by
  have hnot : p.paymentId ∉ b.books.awaiting := by simp [hawait]
  rw [h.awaiting_iff hp] at hnot
  have hst : k.status b.world.server id = b.world.server.status id :=
    Consumer.status_of_ne fun m stage hpc => absurd hpc (hidle m stage)
  rw [hst, Server.status] at hnot ⊢
  split_ifs at hnot ⊢ <;> simp at hnot ⊢

theorem perm_of_tally (h : BenchInv runId b ps k) {f : Event → Option (ℕ × Payment)}
    (hf : ∀ e x, f e = some x → x = (e.id, e.payment)) (P : Payment → Prop) [DecidablePred P]
    (htally : ∀ id p, entryAt ps id = some p →
      tally f b.world.trace id = if P p then 1 else 0) :
    ((b.world.trace.filterMap f).map Prod.snd).Perm (ps.filter P) := by
  have hsource : ∀ x ∈ b.world.trace.filterMap f, entryAt ps x.1 = some x.2 := by
    intro x hx
    obtain ⟨e, he, hfe⟩ := List.mem_filterMap.mp hx
    obtain ⟨g, hg, hgp⟩ := h.solo.traced e he
    rw [hf e x hfe]
    exact h.entryAt_of_fromFields hg hgp
  rw [List.perm_iff_count]
  intro q
  by_cases hq : q ∈ ps
  · obtain ⟨i, hi⟩ := List.mem_iff_getElem?.mp hq
    have hentry : entryAt ps (i + 1) = some q := hi
    have hcount : ((b.world.trace.filterMap f).map Prod.snd).count q =
        tally f b.world.trace (i + 1) := by
      rw [tally, List.count, List.count, List.countP_map, List.countP_map]
      refine List.countP_congr fun x hx => ?_
      have hx' := hsource x hx
      simp only [Function.comp_apply, beq_iff_eq]
      constructor
      · rintro rfl
        exact eq_of_paymentId_eq h.nodup_published hx' hentry rfl
      · intro hid
        rw [hid, hentry] at hx'
        exact (Option.some.inj hx').symm
    have hnodup : ps.Nodup := List.Nodup.of_map _ h.nodup_published
    rw [hcount, htally _ q hentry, (hnodup.filter _).count]
    simp [hq]
  · rw [List.count_eq_zero.mpr, List.count_eq_zero.mpr]
    · exact fun hmem => hq (List.mem_of_mem_filter hmem)
    · intro hmem
      obtain ⟨x, hx, rfl⟩ := List.mem_map.mp hmem
      exact hq (mem_of_entryAt (hsource x hx))

end BenchInv

theorem reachable {runId : String} {maxAttempts : ℤ} {actions : List BenchAction} {b : Bench}
    (hrun : run (step runId) (fresh runId maxAttempts) actions = some b) :
    (∃ ps k, BenchInv runId b ps k) ∧ b.maxAttempts = maxAttempts :=
  run_invariant_of_step (I := fun b => (∃ ps k, BenchInv runId b ps k) ∧ b.maxAttempts = maxAttempts)
    (fun _ _ _ h hs => ⟨BenchInv.advance h.1 hs, (step_maxAttempts hs).trans h.2⟩)
    ⟨⟨_, _, benchInv_fresh runId maxAttempts⟩, rfl⟩ hrun

/-- What happens next when no operation begins: the payments on their way arrive, then the consumer
runs. -/
def settle (runId : String) (b : Bench) : BenchAction :=
  match b.sending with
  | _ :: _ => .sent 0
  | [] => if (b.world.awaits (consumerName runId)).isSome then .handlerEnds else .consumer

def failureOf (p : Payment) : Option PyExc :=
  if p.amountCents < 0 then some (valueError ("malformed amount: " ++ pyStr p.amountCents)) else none

theorem handler_fst (maxAttempts : ℤ) (b : Books) (p : Payment) :
    (b.handler maxAttempts p).1 = failureOf p := by
  unfold Books.handler failureOf
  split_ifs <;> rfl

theorem drive_settle {runId : String} {n : ℕ} {b : Bench} {w : World} (hsend : b.sending = [])
    (h : drive World.step (World.solo (consumerName runId) fun w =>
      (w.awaits (consumerName runId)).bind failureOf) n b.world = some w) :
    ∃ b', drive (step runId) (settle runId) n b = some b' ∧ b'.world = w ∧ b'.sending = [] := by
  induction n generalizing b with
  | zero =>
    cases h
    exact ⟨b, rfl, rfl, hsend⟩
  | succ n ih =>
    obtain ⟨v, hv, hrest⟩ := Option.bind_eq_some_iff.mp h
    have hnext : ∃ b₁, step runId b (settle runId b) = some b₁ ∧ b₁.world = v ∧ b₁.sending = [] := by
      simp only [settle, hsend]
      cases hp : b.world.awaits (consumerName runId) with
      | none =>
        have hact : World.solo (consumerName runId) (fun w =>
            (w.awaits (consumerName runId)).bind failureOf) b.world = .run (consumerName runId) := by
          unfold World.solo
          split
          · rename_i m hpc
            obtain ⟨k, hk, hpc⟩ := Option.map_eq_some_iff.mp hpc
            simp [World.awaits, hk, hpc] at hp
          · rfl
        rw [hact] at hv
        exact ⟨{ b with world := v }, by simp [step, hv], rfl, hsend⟩
      | some p =>
        have hact : World.solo (consumerName runId) (fun w =>
            (w.awaits (consumerName runId)).bind failureOf) b.world =
              .handler (consumerName runId) (failureOf p) := by
          obtain ⟨k, m, hk, hpc⟩ : ∃ k m, b.world.consumers (consumerName runId) = some k ∧
              k.pc = .busy m .handler := by
            unfold World.awaits at hp
            split at hp
            · rename_i k hk
              split at hp
              · rename_i m hpc
                exact ⟨k, m, hk, hpc⟩
              · cases hp
            · cases hp
          simp only [World.solo, hk, Option.map_some, hpc, hp, Option.bind_some]
        rw [hact] at hv
        exact ⟨{ b with world := v, books := (b.books.handler b.maxAttempts p).2 },
          by simp [step, hp, handler_fst, hv], rfl, hsend⟩
    obtain ⟨b₁, hb₁, rfl, hsend₁⟩ := hnext
    obtain ⟨b', hb', hw, hs⟩ := ih hsend₁ hrest
    exact ⟨b', by simp only [drive, hb₁, Option.bind_some, hb'], hw, hs⟩

theorem BenchInv.reaches_idle {runId : String} {b : Bench} (h : ∃ ps k, BenchInv runId b ps k) :
    ∃ n b', drive (step runId) (settle runId) n b = some b' ∧
      World.Idle (consumerName runId) b'.world ∧ b'.sending = [] := by
  obtain ⟨l, hl⟩ : ∃ l, b.sending.length = l := ⟨_, rfl⟩
  induction l generalizing b with
  | zero =>
    obtain ⟨ps, k, h⟩ := h
    have hsend := List.length_eq_zero_iff.mp hl
    obtain ⟨n, w, hn, hidle⟩ := (h.solo.working (by decide) h.wellFormed).reaches_idle
      fun w => (w.awaits (consumerName runId)).bind failureOf
    obtain ⟨b', hb', rfl, hs⟩ := drive_settle hsend hn
    exact ⟨n, b', hb', hidle, hs⟩
  | succ l ih =>
    cases hsend : b.sending with
    | nil => simp [hsend] at hl
    | cons p rest =>
      have hb₁ : step runId b (settle runId b) = some { b with
          world := { b.world with server := b.world.server.publish p }, sending := rest } := by
        simp [settle, step, hsend, World.step]
      obtain ⟨n, b', hb', hidle, hs⟩ := ih (BenchInv.advance h hb₁) (by simpa [hsend] using hl)
      exact ⟨n + 1, b', by simp only [drive, hb₁, Option.bind_some, hb'], hidle, hs⟩

theorem BenchInv.resolved_iff {runId : String} {b : Bench} {ps : List Payment} {k : Consumer}
    (h : BenchInv runId b ps k) {id : ℕ} {p : Payment} (hp : entryAt ps id = some p) :
    p.paymentId ∉ b.books.awaiting ↔ (∃ c, Event.handled c id p none ∈ b.world.trace) ∨
      b.world.trace.countP (Event.fails id) = (max 1 b.maxAttempts).toNat := by
  have hid : 1 ≤ id := by
    cases id with
    | zero => cases hp
    | succ n => exact Nat.le_add_left 1 n
  have hledger := h.solo.ledger id hid
  have hrow := h.rows id p hp
  have hfails := countP_handles b.world.trace id
  have hpos := k.budget_pos
  have hcharges : (∃ c, Event.handled c id p none ∈ b.world.trace) ↔
      tally Event.charge? b.world.trace id ≠ 0 := by
    constructor
    · rintro ⟨c, hc⟩
      refine (List.count_pos_iff.mpr ?_).ne'
      exact List.mem_map.mpr ⟨(id, p), List.mem_filterMap.mpr ⟨_, hc, rfl⟩, rfl⟩
    · intro hne
      obtain ⟨e, he, q, hq⟩ := exists_of_tally hne
      obtain ⟨c, rfl⟩ := Event.charge?_eq_some.mp hq
      obtain ⟨f, hf, hdec⟩ := h.solo.traced _ he
      obtain rfl := Option.some.inj ((h.entryAt_of_fromFields hf hdec).symm.trans hp)
      exact ⟨c, he⟩
  have hlrow := hledger.row
  rw [hcharges, ← h.solo.budget, h.awaiting_iff hp]
  unfold Books.Row at hrow
  cases hst : k.status b.world.server id with
  | waiting =>
    rw [hst] at hrow hlrow
    obtain ⟨-, -, hc, -⟩ := hrow
    obtain ⟨-, hh, -⟩ := hlrow
    simp
    omega
  | pending =>
    rw [hst] at hrow hlrow
    obtain ⟨-, -, hc, -⟩ := hrow
    obtain ⟨hlt, hh, -⟩ := hlrow
    simp
    omega
  | charged =>
    rw [hst] at hrow
    obtain ⟨-, -, hc, -⟩ := hrow
    simp [hc]
  | exhausted attempt =>
    rw [hst] at hrow hlrow
    obtain ⟨-, -, hc, -⟩ := hrow
    obtain ⟨ha, hh, -⟩ := hlrow
    simp
    omega
  | moving attempt =>
    rw [hst] at hrow hlrow
    obtain ⟨-, -, hc, -⟩ := hrow
    obtain ⟨ha, hh, -⟩ := hlrow
    simp
    omega
  | settled =>
    rw [hst] at hrow
    obtain ⟨-, hc⟩ := hrow
    split_ifs at hc with hbad
    · obtain ⟨e, he, q, hq⟩ := exists_of_tally (f := Event.letter?) (by rw [hc.2]; exact one_ne_zero)
      obtain ⟨c, reason, attempt, rfl⟩ := Event.letter?_eq_some.mp hq
      obtain ⟨ha, hh⟩ := hledger.dead c q reason attempt he
      simp
      omega
    · simp [hc.1]

/-- A future is resolved exactly when its payment has been charged or has failed as often as the
budget allows; and from any state of any run, when no further operation begins, every future is
resolved. -/
theorem futures_resolve_at_outcome (runId : String) (maxAttempts : ℤ) (actions : List BenchAction)
    (b : Bench) (hrun : run (step runId) (fresh runId maxAttempts) actions = some b) :
    (∀ id p, entryAt b.world.server.main.entries id = some (encode p) →
      (p.paymentId ∉ b.books.awaiting ↔ (∃ c, Event.handled c id p none ∈ b.world.trace) ∨
        b.world.trace.countP (Event.fails id) = (max 1 maxAttempts).toNat)) ∧
      ∃ n b', drive (step runId) (settle runId) n b = some b' ∧ b'.books.awaiting = ∅ := by
  obtain ⟨⟨ps, k, h⟩, rfl⟩ := reachable hrun
  refine ⟨fun id p hp => ?_, ?_⟩
  · exact h.resolved_iff (h.entryAt_of_fromFields hp p.fromFields_toFields)
  · obtain ⟨n, b', hn, ⟨⟨l, hl, hpc⟩, hdel, hpend⟩, hsend⟩ := BenchInv.reaches_idle ⟨ps, k, h⟩
    refine ⟨n, b', hn, ?_⟩
    obtain ⟨ps', k', h'⟩ := drive_invariant (I := fun b => ∃ ps k, BenchInv runId b ps k)
      (fun _ _ h hs => BenchInv.advance h hs) ⟨ps, k, h⟩ hn
    rw [Finset.eq_empty_iff_forall_notMem]
    intro pid hpid
    obtain ⟨p, hp, rfl⟩ := h'.known pid (Or.inl hpid)
    rw [hsend, List.append_nil] at hp
    obtain ⟨i, hi⟩ := List.mem_iff_getElem?.mp hp
    have hentry : entryAt ps' (i + 1) = some p := hi
    obtain rfl := Option.some.inj (h'.solo.self.symm.trans hl)
    have hlen : i + 1 ≤ b'.world.server.main.delivered := by
      rw [hdel, h'.entries, List.length_map]
      exact (List.getElem?_eq_some_iff.mp hi).1
    have hst : k'.status b'.world.server (i + 1) = .settled := by
      rw [Consumer.status_of_ne, Server.status_settled hlen (hpend (i + 1))]
      intro m stage hm
      cases hpc.symm.trans hm
    rcases (h'.awaiting_iff hentry).mp hpid with hw | hw <;> cases hst.symm.trans hw

theorem length_filter_poison (n : ℕ) :
    ((List.range' 1 n).filter (· % poisonEvery = 0)).length = n / poisonEvery := by
  induction n with
  | zero => exact (Nat.zero_div _).symm
  | succ n ih =>
    rw [List.range'_1_concat, List.filter_append, List.length_append, ih, Nat.succ_div,
      Nat.add_comm 1]
    simp only [Nat.dvd_iff_mod_eq_zero]
    by_cases h : (n + 1) % poisonEvery = 0 <;> simp [h]

theorem payment_poison (runId : String) (maxAttempts : ℤ) (index : ℕ) :
    (payment runId maxAttempts index).amountCents < 0 ↔ index % poisonEvery = 0 := by
  unfold payment
  by_cases h : index % poisonEvery = 0 <;> simp [h]

namespace BenchInv
variable {runId : String} {b : Bench} {ps : List Payment} {k : Consumer}

theorem outcome (h : BenchInv runId b ps k) (hidle : ∀ m stage, k.pc ≠ .busy m stage)
    (hawait : b.books.awaiting = ∅) {id : ℕ} {p : Payment} (hp : entryAt ps id = some p) :
    if p.amountCents < 0 then tally Event.charge? b.world.trace id = 0 ∧
      tally Event.letter? b.world.trace id = 1
    else tally Event.charge? b.world.trace id = 1 ∧ tally Event.letter? b.world.trace id = 0 := by
  have hrow := h.rows id p hp
  rw [Books.Row, h.settled hidle hawait hp] at hrow
  exact hrow.2

theorem perm_charges (h : BenchInv runId b ps k) (hidle : ∀ m stage, k.pc ≠ .busy m stage)
    (hawait : b.books.awaiting = ∅) :
    ((b.world.trace.filterMap Event.charge?).map Prod.snd).Perm
      (ps.filter fun p => ¬ p.amountCents < 0) := by
  refine h.perm_of_tally (fun _ _ => Event.eq_of_charge?) (fun p => ¬ p.amountCents < 0) fun id p hp => ?_
  have hout := h.outcome hidle hawait hp
  by_cases hbad : p.amountCents < 0
  · rw [if_pos hbad] at hout
    rw [if_neg (not_not.mpr hbad), hout.1]
  · rw [if_neg hbad] at hout
    rw [if_pos hbad, hout.1]

theorem perm_letters (h : BenchInv runId b ps k) (hidle : ∀ m stage, k.pc ≠ .busy m stage)
    (hawait : b.books.awaiting = ∅) :
    ((b.world.trace.filterMap Event.letter?).map Prod.snd).Perm
      (ps.filter fun p => p.amountCents < 0) := by
  refine h.perm_of_tally (fun _ _ => Event.eq_of_letter?) (fun p => p.amountCents < 0) fun id p hp => ?_
  have hout := h.outcome hidle hawait hp
  by_cases hbad : p.amountCents < 0
  · rw [if_pos hbad] at hout ⊢
    exact hout.2
  · rw [if_neg hbad] at hout ⊢
    exact hout.2

theorem dlq_eq (h : BenchInv runId b ps k) :
    b.world.server.dlq = ((b.world.trace.filterMap Event.letter?).map Prod.snd).map fun p =>
      encodeFields (p.dlqFields "ValueError" ((max 1 b.maxAttempts).toNat)) := by
  rw [h.solo.letters, List.map_map, List.map_filterMap]
  refine List.filterMap_congr fun e he => ?_
  cases e with
  | deadLettered c id p reason attempt =>
    obtain ⟨f, hf, -⟩ := h.solo.traced _ he
    obtain ⟨ha, -⟩ := (h.solo.ledger id (entryAt_some_le hf).1).dead c p reason attempt he
    rw [h.letters c id p reason attempt he, ha, h.solo.budget]
    rfl
  | _ => rfl

theorem perm_poison (h : BenchInv runId b ps k) (hsend : b.sending = []) :
    (ps.filter fun p => p.amountCents < 0).Perm
      (((List.range' 1 b.index).filter (· % poisonEvery = 0)).map (payment runId b.maxAttempts)) := by
  have hbegun := h.begun
  rw [hsend, List.append_nil] at hbegun
  refine (hbegun.filter _).trans ?_
  rw [List.filter_map]
  simp only [Function.comp_def, payment_poison]
  exact List.Perm.refl _

theorem pel_eq_nil (h : BenchInv runId b ps k) (hidle : ∀ m stage, k.pc ≠ .busy m stage)
    (hawait : b.books.awaiting = ∅) : b.world.server.main.pel = [] := by
  refine GroupStream.pel_eq_nil fun id => Option.eq_none_iff_forall_ne_some.mpr fun d hd => ?_
  obtain ⟨hpos, hle⟩ := GroupStream.owner?_some_range hd
  have hlen : id ≤ ps.length := by
    have hdelivered := b.world.server.main.delivered_le
    rw [h.entries, List.length_map] at hdelivered
    omega
  obtain ⟨p, hp⟩ := entryAt_isSome hpos hlen
  have hst := h.settled hidle hawait hp
  rw [Consumer.status_of_ne fun m stage hm => absurd hm (hidle m stage),
    Server.status_pending hd] at hst
  cases hst

theorem perm_good (h : BenchInv runId b ps k) (hsend : b.sending = []) :
    (ps.filter fun p => ¬ p.amountCents < 0).Perm
      (((List.range' 1 b.index).filter (· % poisonEvery ≠ 0)).map (payment runId b.maxAttempts)) := by
  have hbegun := h.begun
  rw [hsend, List.append_nil] at hbegun
  refine (hbegun.filter _).trans ?_
  rw [List.filter_map]
  simp only [Function.comp_def, payment_poison]
  exact List.Perm.refl _

end BenchInv

/-- When the operations are over and the consumer has ended, the reported numbers are exact, payment by
payment: each was published once, one in five was poison and is in the dead-letter stream once, with
the budget as its attempt count, each other one was charged once, and nothing is pending. -/
theorem report_exact (runId : String) (maxAttempts : ℤ) (actions : List BenchAction) (b : Bench)
    (hrun : run (step runId) (fresh runId maxAttempts) actions = some b)
    (hops : b.sending = [] ∧ b.books.awaiting = ∅) (w : World)
    (hstop : b.world.step (.stop (consumerName runId)) = some w) :
    w.server.main.entries.length = b.index ∧ b.books.poisoned = b.index / poisonEvery ∧
      b.books.charged = b.index - b.books.poisoned ∧ w.server.main.pel = [] ∧
      w.server.main.entries.Perm ((List.range' 1 b.index).map fun i =>
        encode (payment runId maxAttempts i)) ∧
      ((w.trace.filterMap Event.charge?).map Prod.snd).Perm
        (((List.range' 1 b.index).filter (· % poisonEvery ≠ 0)).map (payment runId maxAttempts)) ∧
      w.server.dlq.Perm (((List.range' 1 b.index).filter (· % poisonEvery = 0)).map fun i =>
        encodeFields ((payment runId maxAttempts i).dlqFields "ValueError"
          ((max 1 maxAttempts).toNat))) := by
  obtain ⟨⟨ps, k, h⟩, rfl⟩ := reachable hrun
  obtain ⟨hsend, hawait⟩ := hops
  have hpc : k.pc = .readNew ∧ w.server = b.world.server ∧ w.trace = b.world.trace := by
    simp only [World.step, h.solo.self] at hstop
    split at hstop
    · rename_i hpc
      cases hstop
      exact ⟨hpc, rfl, rfl⟩
    · cases hstop
  obtain ⟨hpc, hserver, htrace⟩ := hpc
  rw [hserver, htrace]
  have hidle : ∀ m stage, k.pc ≠ .busy m stage := fun m stage hm => by cases hpc.symm.trans hm
  have hcharges := h.perm_charges hidle hawait
  have hpoison := h.perm_poison hsend
  have hlength := h.begun.length_eq
  rw [hsend, List.append_nil, List.length_map, List.length_range'] at hlength
  refine ⟨?_, h.poisoned, ?_, h.pel_eq_nil hidle hawait, ?_, hcharges.trans (h.perm_good hsend), ?_⟩
  · rw [h.entries, List.length_map, hlength]
  · have hgood : (ps.filter fun p => ¬ p.amountCents < 0).length = b.books.charged := by
      rw [h.charged, ← hcharges.length_eq, List.length_map]
    have hbad : (ps.filter fun p => p.amountCents < 0).length = b.books.poisoned := by
      rw [hpoison.length_eq, List.length_map, length_filter_poison, h.poisoned]
    have hsplit := ps.length_eq_length_filter_add fun p => p.amountCents < 0
    simp only [← decide_not] at hsplit
    omega
  · have hbegun := h.begun
    rw [hsend, List.append_nil] at hbegun
    rw [h.entries]
    simpa only [List.map_map, Function.comp_def] using hbegun.map encode
  · rw [h.dlq_eq]
    have hletters := ((h.perm_letters hidle hawait).trans hpoison).map fun p =>
      encodeFields (p.dlqFields "ValueError" ((max 1 b.maxAttempts).toNat))
    simpa only [List.map_map, Function.comp_def] using hletters

/-- Five operations with a budget of two, the last of them overtaking the fourth on the way to the
stream; then the consumer works the batch off, and the malformed payment a second time. -/
def fiveOperations : List BenchAction :=
  [.begins, .begins, .begins, .begins, .begins, .sent 0, .sent 0, .sent 0, .sent 1, .sent 0, .consumer,
    .consumer, .handlerEnds, .consumer, .consumer, .consumer, .handlerEnds, .consumer, .consumer,
    .consumer, .handlerEnds, .consumer, .consumer, .consumer, .handlerEnds, .consumer, .handlerEnds,
    .consumer, .consumer, .consumer, .consumer, .consumer, .handlerEnds, .consumer, .consumer]

theorem fiveOperations_reported :
    ∃ b w, run (step "1f") (fresh "1f" 2) fiveOperations = some b ∧
      b.world.step (.stop (consumerName "1f")) = some w ∧ b.books.charged = 4 ∧
      w.server.dlq.length = 1 := by
  have hend : ((run (step "1f") (fresh "1f" 2) fiveOperations).bind fun b =>
      (b.world.step (.stop (consumerName "1f"))).map fun _ =>
        (b.index, b.sending, b.books.awaiting)) = some (5, [], ∅) := by
    decide +kernel
  obtain ⟨b, hrun, hb⟩ := Option.bind_eq_some_iff.mp hend
  obtain ⟨w, hstop, hops⟩ := Option.map_eq_some_iff.mp hb
  simp only [Prod.mk.injEq] at hops
  obtain ⟨hindex, hops⟩ := hops
  obtain ⟨-, hpoisoned, hcharged, -, -, -, hdlq⟩ := report_exact "1f" 2 fiveOperations b hrun hops w hstop
  refine ⟨b, w, hrun, hstop, ?_, ?_⟩
  · rw [hcharged, hpoisoned, hindex]
    rfl
  · rw [hdlq.length_eq, hindex]
    rfl

/-- The first five payments are still on their way, and every publisher will hear of its own. -/
theorem fiveOperations_resolve :
    ∃ b, run (step "1f") (fresh "1f" 2) (fiveOperations.take 5) = some b ∧
      ∃ n b', drive (step "1f") (settle "1f") n b = some b' ∧ b'.books.awaiting = ∅ :=
  ⟨_, rfl, (futures_resolve_at_outcome "1f" 2 (fiveOperations.take 5) _ rfl).2⟩

end Bench

end Dlq
