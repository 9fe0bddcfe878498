import MessageBrokerPatterns.DlqCrew

/-!
# Replaying payments

A payment that has been processed, and that no consumer is working on past its `is_processed`, can be
published again any number of times: whoever reads it skips it. Nothing else happens to it, whatever
the consumers, their interleaving, their crashes and their budgets.

A replay into a quiet pipeline, where every run has ended and nothing is pending, is worked off by any
one new consumer. Every replayed entry gets one outcome, and every replay of a processed payment is
skipped once and never handled.
-/

namespace Dlq
open PyText PyDict RedisStream ActionRun

/-- The consumer has a message of the payment in hand that it has not found processed. -/
def Consumer.Past (k : Consumer) (pid : String) : Prop :=
  ∃ m stage, k.pc = .busy m stage ∧ m.payment.paymentId = pid ∧ stage ≠ .check ∧ stage ≠ .skipAck

theorem Consumer.not_past_of_pc {k : Consumer} {pc : Pc} (hpc : k.pc = pc) {pid : String}
    (h : ∀ m stage, pc = .busy m stage → m.payment.paymentId = pid →
      stage = .check ∨ stage = .skipAck) : ¬ k.Past pid := by
  rintro ⟨m, stage, hm, hp, hc, hs⟩
  rcases h m stage (hpc.symm.trans hm) hp with rfl | rfl
  · exact hc rfl
  · exact hs rfl

theorem Consumer.not_past_forBatch (k : Consumer) (batch : List (ℕ × Fields)) (pid : String) :
    ¬ (k.forBatch batch).Past pid := by
  rintro ⟨m, stage, hm, -, hc, -⟩
  cases batch with
  | nil => cases hm
  | cons e rest =>
    simp only [forBatch] at hm
    split at hm
    · obtain ⟨-, rfl⟩ := Pc.busy.inj hm
      exact hc rfl
    · cases hm

theorem Consumer.past_of_pc {k : Consumer} {m : Held} {stage : Stage} (hpc : k.pc = .busy m stage)
    (hc : stage ≠ .check) (hs : stage ≠ .skipAck) : k.Past m.payment.paymentId :=
  ⟨m, stage, hpc, rfl, hc, hs⟩

theorem Move.absorbed {c : String} {k k' : Consumer} {s s' : Server} {evs : List Event}
    (h : Move c k s k' s' evs) {pid : String} (hp : pid ∈ s.processed) (hk : ¬ k.Past pid) :
    ¬ k'.Past pid ∧ ∀ e ∈ evs, e.payment.paymentId = pid → e.isSkipped = true := by
  have hidle {pc : Pc} (hpc : k'.pc = pc) (hne : ∀ m stage, pc ≠ .busy m stage) : ¬ k'.Past pid :=
    Consumer.not_past_of_pc hpc fun m stage hm => absurd hm (hne m stage)
  have hout {m : Held} {stage : Stage} (hpc : k.pc = .busy m stage) (hc : stage ≠ .check)
      (hs : stage ≠ .skipAck) : m.payment.paymentId ≠ pid := by
    rintro rfl
    exact hk (Consumer.past_of_pc hpc hc hs)
  have hnext {m : Held} {stage stage' : Stage} (hpc : k.pc = .busy m stage) (hc : stage ≠ .check)
      (hs : stage ≠ .skipAck) (hpc' : k'.pc = .busy m stage') : ¬ k'.Past pid :=
    Consumer.not_past_of_pc hpc' fun m' st hm hp' => by
      obtain ⟨rfl, -⟩ := Pc.busy.inj hm
      exact absurd hp' (hout hpc hc hs)
  have hevent {m : Held} {stage : Stage} {e : Event} (hpc : k.pc = .busy m stage)
      (hc : stage ≠ .check) (hs : stage ≠ .skipAck) (he : e.payment = m.payment) :
      ∀ e' ∈ [e], e'.payment.paymentId = pid → e'.isSkipped = true := by
    intro e' he' hp'
    obtain rfl := List.mem_singleton.mp he'
    rw [he] at hp'
    exact absurd hp' (hout hpc hc hs)
  cases h with
  | readNew hpc hne => exact ⟨k.not_past_forBatch _ pid, by simp⟩
  | noNew hpc hnil => exact ⟨hidle rfl (by simp), by simp⟩
  | readPending hpc hne => exact ⟨k.not_past_forBatch _ pid, by simp⟩
  | noPending hpc hnil => exact ⟨hidle rfl (by simp), by simp⟩
  | wake hpc => exact ⟨hidle rfl (by simp), by simp⟩
  | hit m hpc hin =>
    refine ⟨Consumer.not_past_of_pc rfl fun m' st hm _ => ?_, by simp⟩
    exact Or.inr (Pc.busy.inj hm).2.symm
  | miss m hpc hnot =>
    refine ⟨Consumer.not_past_of_pc rfl fun m' st hm hp' => ?_, by simp⟩
    obtain ⟨rfl, -⟩ := Pc.busy.inj hm
    exact absurd (hp' ▸ hp) hnot
  | skip m hpc =>
    refine ⟨k.not_past_forBatch _ pid, fun e he _ => ?_⟩
    obtain rfl := List.mem_singleton.mp he
    rfl
  | returns m hpc =>
    exact ⟨hnext hpc (by simp) (by simp) rfl, hevent hpc (by simp) (by simp) rfl⟩
  | retry m exc hpc hlt =>
    exact ⟨Consumer.not_past_forBatch _ _ pid, hevent hpc (by simp) (by simp) rfl⟩
  | exhaust m exc hpc hge =>
    exact ⟨hnext hpc (by simp) (by simp) rfl, hevent hpc (by simp) (by simp) rfl⟩
  | mark m hpc => exact ⟨hnext hpc (by simp) (by simp) rfl, by simp⟩
  | ack m hpc =>
    exact ⟨Consumer.not_past_forBatch _ _ pid, hevent hpc (by simp) (by simp) rfl⟩
  | dlqAck m reason attempt hpc => exact ⟨hnext hpc (by simp) (by simp) rfl, by simp⟩
  | dlqAdd m reason attempt hpc =>
    exact ⟨Consumer.not_past_forBatch _ _ pid, hevent hpc (by simp) (by simp) rfl⟩

namespace World

/-- All that has happened since the state `u` has the property. -/
def Since (u : World) (P : Event → Prop) (w : World) : Prop :=
  ∃ evs, w.trace = u.trace ++ evs ∧ ∀ e ∈ evs, P e

theorem Since.refl (u : World) (P : Event → Prop) : Since u P u :=
  ⟨[], (List.append_nil _).symm, by simp⟩

theorem Since.append {u w w' : World} {P : Event → Prop} {evs : List Event} (h : Since u P w)
    (ht : w'.trace = w.trace ++ evs) (he : ∀ e ∈ evs, P e) : Since u P w' := by
  obtain ⟨evs₀, ht₀, he₀⟩ := h
  refine ⟨evs₀ ++ evs, by rw [ht, ht₀, List.append_assoc], fun e hmem => ?_⟩
  exact (List.mem_append.mp hmem).elim (he₀ e) (he e)

theorem Since.forall_of_eq {u w : World} {P : Event → Prop} (h : Since u P w) {evs : List Event}
    (ht : w.trace = u.trace ++ evs) : ∀ e ∈ evs, P e := by
  obtain ⟨evs', ht', he⟩ := h
  rwa [List.append_cancel_left (ht.symm.trans ht')]

/-- Since the state `u`, the payment is processed, is no consumer's business, and was only skipped. -/
structure Absorbed (u : World) (pid : String) (w : World) : Prop where
  processed : pid ∈ w.server.processed
  nobody : ∀ d k, w.consumers d = some k → ¬ k.Past pid
  skipped : Since u (fun e => e.payment.paymentId = pid → e.isSkipped = true) w

theorem Absorbed.refl {u : World} {pid : String} (hp : pid ∈ u.server.processed)
    (hn : ∀ d k, u.consumers d = some k → ¬ k.Past pid) : Absorbed u pid u :=
  ⟨hp, hn, .refl u _⟩

theorem forall_setConsumer {w : World} {c : String} {ko : Option Consumer}
    {P : String → Consumer → Prop} (h : ∀ d k, w.consumers d = some k → P d k)
    (hc : ∀ k, ko = some k → P c k) :
    ∀ d k, (w.setConsumer c ko).consumers d = some k → P d k := by
  intro d k hk
  by_cases hd : d = c
  · subst hd
    rw [setConsumer_self] at hk
    exact hc k hk
  · rw [setConsumer_of_ne w hd] at hk
    exact h d k hk

theorem absorbed_step {u : World} {pid : String} (w : World) (a : Action) (w' : World)
    (h : Absorbed u pid w) (hw : step w a = some w') : Absorbed u pid w' := by
  cases Effect.of_step hw with
  | publish p => exact ⟨h.processed, h.nobody, h.skipped⟩
  | xadd f => exact ⟨h.processed, h.nobody, h.skipped⟩
  | start c maxAttempts count hend =>
    refine ⟨h.processed, forall_setConsumer h.nobody ?_, h.skipped⟩
    rintro k ⟨⟩
    exact Consumer.not_past_of_pc rfl (by simp)
  | stop c k hk hpc =>
    refine ⟨h.processed, forall_setConsumer h.nobody ?_, h.skipped⟩
    rintro l ⟨⟩
    exact Consumer.not_past_of_pc rfl (by simp)
  | move _ c k k' s' evs _ hk hm =>
    obtain ⟨hk', he⟩ := hm.absorbed h.processed (h.nobody c k hk)
    refine ⟨hm.le.processed h.processed, forall_setConsumer h.nobody ?_, h.skipped.append rfl he⟩
    rintro l ⟨⟩
    exact hk'
  | crash c k hk hend =>
    refine ⟨h.processed, forall_setConsumer h.nobody ?_, h.skipped.append rfl fun e hmem hp => ?_⟩
    · rintro l ⟨⟩
    · unfold crashEvents at hmem
      split at hmem
      · rename_i m reason attempt hpc
        obtain rfl := List.mem_singleton.mp hmem
        exact absurd (hp ▸ Consumer.past_of_pc hpc (by simp) (by simp)) (h.nobody c k hk)
      · cases hmem

/-- Replays of a processed payment are absorbed: from any state in which the payment is processed and
no consumer is past its check, whatever is published and whoever works, stops, crashes and starts,
all that ever happens to the payment again is that an entry of it is skipped. -/
theorem replays_only_skipped (u : World) (pid : String) (hprocessed : pid ∈ u.server.processed)
    (hnobody : ∀ d k, u.consumers d = some k → ¬ k.Past pid) (actions : List Action) (w : World)
    (hrun : run step u actions = some w) :
    ∃ evs, w.trace = u.trace ++ evs ∧
      ∀ e ∈ evs, e.payment.paymentId = pid → e.isSkipped = true :=
  (run_invariant_of_step absorbed_step (Absorbed.refl hprocessed hnobody) hrun).skipped

/-- Every event is about an entry of the stream and the payment that the entry decodes to. -/
def Traced (w : World) : Prop :=
  ∀ e ∈ w.trace, ∃ f, entryAt w.server.main.entries e.id = some f ∧
    Payment.fromFields f = .ok e.payment

theorem Traced.mono {w w' : World} (h : Traced w) (hle : w.server.Le w'.server)
    (ht : w'.trace = w.trace) : Traced w' := by
  intro e he
  obtain ⟨f, hf, hp⟩ := h e (ht ▸ he)
  exact ⟨f, hle.entries _ _ hf, hp⟩

theorem traced_step (w : World) (a : Action) (w' : World) (hi : FateInv w ∧ Traced w)
    (hw : step w a = some w') : FateInv w' ∧ Traced w' := by
  refine ⟨fateInv_step w a w' hi.1 hw, ?_⟩
  cases Effect.of_step hw with
  | publish p =>
    have hle := Server.Le.xadd w.server (encodeFields p.toFields)
    exact hi.2.mono ⟨hle.entries, fun _ h => h, fun _ h => h⟩ rfl
  | xadd f => exact hi.2.mono (Server.Le.xadd w.server f) rfl
  | start c maxAttempts count hend => exact hi.2
  | stop c k hk hpc => exact hi.2
  | move _ c k k' s' evs _ hk hm =>
    intro e he
    rcases List.mem_append.mp he with he | he
    · obtain ⟨f, hf, hp⟩ := hi.2 e he
      exact ⟨f, hm.le.entries _ _ hf, hp⟩
    · obtain ⟨m, stage, hpc, hid, hp⟩ := hm.events_in_hand e he
      obtain ⟨⟨f, hf, hfp⟩, -⟩ := (hi.1.faithful c k hk).busy hpc
      exact ⟨f, hm.le.entries _ _ (hid ▸ hf), hp ▸ hfp⟩
  | crash c k hk hend =>
    intro e he
    rcases List.mem_append.mp he with he | he
    · exact hi.2 e he
    · unfold crashEvents at he
      split at he
      · rename_i m reason attempt hpc
        obtain rfl := List.mem_singleton.mp he
        exact ((hi.1.faithful c k hk).busy hpc).1
      · cases he

theorem frame_publish (payments : List Payment) (s : Server) :
    (payments.foldl Server.publish s).main.pel = s.main.pel ∧
      (payments.foldl Server.publish s).processed = s.processed := by
  induction payments generalizing s with
  | nil => exact ⟨rfl, rfl⟩
  | cons p ps ih => exact ih (s.publish p)

theorem wellFormed_publish {s : Server} (h : s.WellFormed) (payments : List Payment) :
    (payments.foldl Server.publish s).WellFormed := by
  induction payments generalizing s with
  | nil => exact h
  | cons p ps ih =>
    apply ih
    intro id f hf
    by_cases hid : id ≤ s.main.entries.length
    · change entryAt (s.main.entries ++ [encodeFields p.toFields]) id = some f at hf
      rw [entryAt_append_of_le hid] at hf
      exact h id f hf
    · rw [eq_of_entryAt_append hf hid]
      exact ⟨p, p.fromFields_toFields⟩

/-- What holds while the consumer `c` works off a stream that nobody else reads, since the state `u`. -/
structure Rerun (u : World) (c : String) (entries : List Fields) (w : World) : Prop where
  fate : FateInv w
  traced : Traced w
  entries : w.server.main.entries = entries
  absorbed : ∀ pid ∈ u.server.processed, Absorbed u pid w
  worker : Since u (fun e => e.consumer = c ∧ ∀ d id p, e ≠ .lost d id p) w
  rest : ∀ d l, d ≠ c → w.consumers d = some l → l.ended = true

theorem Rerun.moved {u : World} {c : String} {entries : List Fields} {w w' : World}
    (h : Rerun u c entries w) {a : Action} (ha : a = .run c ∨ ∃ failure, a = .handler c failure)
    (hw : step w a = some w') : Rerun u c entries w' := by
  obtain ⟨hfate, htraced⟩ := traced_step w a w' ⟨h.fate, h.traced⟩ hw
  have habs (pid : String) (hp : pid ∈ u.server.processed) :=
    absorbed_step w a w' (h.absorbed pid hp) hw
  cases Effect.of_step hw with
  | move _ d k k' s' evs hact hk hm =>
    obtain rfl : d = c := by
      rcases hact with rfl | ⟨failure, m, rfl, -⟩
      · simpa using ha
      · simpa using ha
    refine ⟨hfate, htraced, hm.entries_eq.trans h.entries, habs,
      h.worker.append rfl fun e he => ⟨hm.consumer_of_event e he, ?_⟩, fun e l he hl => ?_⟩
    · rintro d id p rfl
      exact hm.no_lost he
    · exact h.rest e l he ((w.setConsumer_of_ne he _).symm.trans hl)
  | _ => simp at ha

theorem Rerun.drive {u : World} {c : String} {entries : List Fields} {w w' : World} {n : ℕ}
    {oracle : World → Option PyExc} (h : Rerun u c entries w)
    (hn : ActionRun.drive step (solo c oracle) n w = some w') : Rerun u c entries w' := by
  refine drive_invariant (fun v v' hv hstep => hv.moved ?_ hstep) h hn
  unfold solo
  split
  · exact Or.inr ⟨_, rfl⟩
  · exact Or.inl rfl

/-- Once the consumer is idle, every entry that was published since has had one outcome. -/
theorem Rerun.finished {u : World} {c : String} {entries : List Fields} {w : World}
    (h : Rerun u c entries w) (hidle : Idle c w) {id : ℕ} (h₁ : 1 ≤ id) (h₂ : id ≤ entries.length) :
    w.finished id = 1 := by
  obtain ⟨⟨k, hk, hpc⟩, hd, ho⟩ := hidle
  apply h.fate.closed id h₁
  rintro ((hopen | hopen) | ⟨d, l, hl, hm⟩)
  · rw [hd, h.entries] at hopen
    omega
  · rw [ho] at hopen
    cases hopen
  · by_cases hdc : d = c
    · subst hdc
      obtain rfl := Option.some.inj (hk.symm.trans hl)
      rw [Consumer.moving, hpc] at hm
      cases hm
    · rw [Consumer.moving_of_ended (h.rest d l hdc hl)] at hm
      cases hm

theorem filter_id_of_skipped {evs : List Event} {c : String} {id : ℕ} {p : Payment}
    (hone : evs.countP (Event.finishes id) = 1)
    (hskip : ∀ e ∈ evs, e.id = id → e = .skipped c id p) :
    (evs.filter fun e => e.id = id) = [.skipped c id p] := by
  have hall : (evs.filter fun e => e.id = id) =
      List.replicate (evs.filter fun e => e.id = id).length (.skipped c id p) := by
    refine List.eq_replicate_iff.mpr ⟨rfl, fun e he => ?_⟩
    obtain ⟨hmem, hid⟩ := List.mem_filter.mp he
    exact hskip e hmem (by simpa using hid)
  have hcount : evs.countP (Event.finishes id) = (evs.filter fun e => e.id = id).length := by
    rw [← List.countP_eq_length_filter]
    apply List.countP_congr
    intro e he
    constructor
    · intro hf
      cases e <;> simp_all [Event.finishes, Event.settles, Event.loses, Event.id]
    · intro hid
      rw [hskip e he (by simpa using hid)]
      simp [Event.finishes, Event.settles]
  rw [hall, ← hcount, hone]
  rfl

/-- Everybody's run has ended, `replays` are published again, and the consumer `c` has been started. -/
def replayed (u : World) (replays : List Payment) (c : String) (maxAttempts : ℤ) (count : ℕ) : World :=
  ({ u with server := replays.foldl Server.publish u.server } : World).setConsumer c
    (some { maxAttempts, count })

section Replayed
variable {u : World} {replays : List Payment} {c : String} {maxAttempts : ℤ} {count : ℕ}

theorem run_replayed (hended : ∀ d k, u.consumers d = some k → k.ended = true) :
    run step u (replays.map .publish ++ [.start c maxAttempts count]) =
      some (replayed u replays c maxAttempts count) := by
  rw [run_append, run_publish]
  simp only [Option.bind_some, run_cons, step]
  cases hk : u.consumers c with
  | none => rfl
  | some k => simp only [hended c k hk, if_true]; rfl

theorem Consumer.not_past_of_ended {k : Consumer} (h : k.ended = true) (pid : String) : ¬ k.Past pid := by
  apply Consumer.not_past_of_pc rfl
  intro m stage hpc
  rw [Consumer.ended, hpc] at h
  cases h

theorem rerun_replayed (hu : FateInv u ∧ Traced u)
    (hended : ∀ d k, u.consumers d = some k → k.ended = true) :
    Rerun u c (replays.foldl Server.publish u.server).main.entries
      (replayed u replays c maxAttempts count) := by
  have hstart : run step u (replays.map .publish ++ [.start c maxAttempts count]) =
      some (replayed u replays c maxAttempts count) := run_replayed hended
  obtain ⟨hfate, htraced⟩ := run_invariant_of_step traced_step hu hstart
  refine ⟨hfate, htraced, rfl, fun pid hp => ?_, ?_, ?_⟩
  · exact run_invariant_of_step absorbed_step
      (Absorbed.refl hp fun d k hk => Consumer.not_past_of_ended (hended d k hk) pid) hstart
  · exact ⟨[], (List.append_nil _).symm, by simp⟩
  · intro d l hd hl
    exact hended d l ((setConsumer_of_ne _ hd _).symm.trans hl)

theorem working_replayed (hpel : u.server.main.pel = []) (hwf : u.server.WellFormed) (hcount : 1 ≤ count) :
    Working c (replayed u replays c maxAttempts count) { maxAttempts, count } := by
  refine ⟨setConsumer_self _ c _, hcount, rfl, Consumer.holds_idle (by simp), trivial, ?_, ?_⟩
  · intro id d hid
    have hnil : (replays.foldl Server.publish u.server).main.pel = [] :=
      (frame_publish replays u.server).1.trans hpel
    obtain ⟨q, hq, -⟩ := GroupStream.owner?_eq_some.mp hid
    change q ∈ (replays.foldl Server.publish u.server).main.pel at hq
    rw [hnil] at hq
    cases hq
  · exact wellFormed_publish hwf replays

end Replayed

/-- The entry of the `i`-th replay. -/
theorem entryAt_replay {u : Server} {replays : List Payment} {i : ℕ} {r : Payment}
    (hr : replays[i]? = some r) :
    entryAt (replays.foldl Server.publish u).main.entries (u.main.entries.length + 1 + i) =
      some (encodeFields r.toFields) := by
  rw [entries_publish replays u, Nat.add_right_comm, entryAt, List.getElem?_append_right (by omega)]
  simp [hr]

/-- An entry published since `u` has had one outcome since. -/
theorem Rerun.one_outcome {u : World} {c : String} {entries : List Fields} {w : World} {evs : List Event}
    (h : Rerun u c entries w) (hu : Traced u) (hidle : Idle c w) (ht : w.trace = u.trace ++ evs) {id : ℕ}
    (h₁ : u.server.main.entries.length < id) (h₂ : id ≤ entries.length) :
    evs.countP (Event.finishes id) = 1 := by
  have hbefore : u.trace.countP (Event.finishes id) = 0 := by
    rw [List.countP_eq_zero]
    intro e he hf
    obtain ⟨f, hfe, -⟩ := hu e he
    have hid : e.id = id := by
      cases e <;> simp_all [Event.finishes, Event.settles, Event.loses, Event.id]
    have hle := (entryAt_some_le hfe).2
    omega
  have hfin := h.finished hidle (by omega) h₂
  rw [World.finished, ht, List.countP_append, hbefore, Nat.zero_add] at hfin
  exact hfin

theorem Rerun.skipped {u : World} {c : String} {entries : List Fields} {w : World} {evs : List Event}
    (h : Rerun u c entries w) (ht : w.trace = u.trace ++ evs) (hevs : ∀ e ∈ evs, e.consumer = c)
    {id : ℕ} {r : Payment} (hentry : entryAt entries id = some (encodeFields r.toFields))
    (hp : r.paymentId ∈ u.server.processed) {e : Event} (he : e ∈ evs) (hid : e.id = id) :
    e = .skipped c id r := by
  obtain ⟨f, hf, hfp⟩ := h.traced e (ht ▸ List.mem_append_right _ he)
  rw [h.entries, hid, hentry, Option.some.injEq] at hf
  rw [← hf, Payment.fromFields_toFields] at hfp
  have hpay : e.payment = r := (Except.ok.inj hfp).symm
  have hsk := (h.absorbed _ hp).skipped.forall_of_eq ht e he (by rw [hpay])
  have hc := hevs e he
  cases e with
  | skipped d i p =>
    simp only [Event.id, Event.payment, Event.consumer] at hid hpay hc
    rw [hid, hpay, hc]
  | _ => cases hsk

/-- A replay into a quiet pipeline: once every run has ended with nothing pending, any one consumer
works off whatever is published again. Every replayed entry gets one outcome, and a replay of a
payment that had been processed is skipped, without the handler being called. -/
theorem replay_drains (before : List Action) (u : World) (hrun : run step {} before = some u)
    (hended : ∀ d k, u.consumers d = some k → k.ended = true) (hpel : u.server.main.pel = [])
    (hwf : u.server.WellFormed) (replays : List Payment) (c : String) (maxAttempts : ℤ) (count : ℕ)
    (hcount : 1 ≤ count) (oracle : World → Option PyExc) :
    ∃ n w evs, ((run step u (replays.map .publish ++ [.start c maxAttempts count])).bind
        (drive step (solo c oracle) n)) = some w ∧ Idle c w ∧ w.trace = u.trace ++ evs ∧
      ∀ i r, replays[i]? = some r →
        let id := u.server.main.entries.length + 1 + i
        evs.countP (Event.settles id) = 1 ∧
          (r.paymentId ∈ u.server.processed →
            (evs.filter fun e => e.id = id) = [.skipped c id r]) := by
  have hu : FateInv u ∧ Traced u :=
    run_invariant_of_step traced_step ⟨fateInv_init, fun e he => by cases he⟩ hrun
  have hworking : Working c (replayed u replays c maxAttempts count) { maxAttempts, count } :=
    working_replayed hpel hwf hcount
  obtain ⟨n, w, hn, hidle⟩ := hworking.reaches_idle oracle
  have hw := (rerun_replayed hu hended).drive hn
  obtain ⟨evs, ht, hevs⟩ := hw.worker
  refine ⟨n, w, evs, by rw [run_replayed hended]; exact hn, hidle, ht, fun i r hr => ?_⟩
  intro id
  have hentry := entryAt_replay (u := u.server) hr
  have hone := hw.one_outcome hu.2 hidle ht (by omega) (entryAt_some_le hentry).2
  refine ⟨?_, fun hp => filter_id_of_skipped hone fun e he hid => ?_⟩
  · have hlost : evs.countP (Event.loses id) = 0 := by
      rw [List.countP_eq_zero]
      intro e he hl
      cases e with
      | lost d i p => exact (hevs _ he).2 d i p rfl
      | _ => cases hl
    rw [countP_finishes, hlost, Nat.add_zero] at hone
    exact hone
  · exact hw.skipped ht (fun e he => (hevs e he).1) hentry hp he hid

/-- A worker charges the rent and is stopped. -/
def rentCharged : List Action :=
  [.publish rent, .start "worker-1" 2 10, .run "worker-1", .run "worker-1",
    .handler "worker-1" none, .run "worker-1", .run "worker-1", .stop "worker-1"]

theorem rentCharged_ended {u : World} (hu : run step {} rentCharged = some u) (d : String)
    (k : Consumer) (hk : u.consumers d = some k) : k.ended = true := by
  cases hu
  by_cases hd : d = "worker-1"
  · subst hd
    cases hk
    rfl
  · have hnone := (setConsumer_of_ne _ hd _).symm.trans hk
    simp [moved, setConsumer, hd] at hnone

/-- The rent is published twice more, and a worker reads both entries and skips the first. -/
def rentAgain : List Action :=
  [.publish rent, .publish rent, .start "worker-2" 2 10, .run "worker-2", .run "worker-2",
    .run "worker-2"]

theorem rentAgain_only_skipped :
    ∃ u w evs, run step {} rentCharged = some u ∧ run step u rentAgain = some w ∧
      w.trace = u.trace ++ evs ∧ evs = [.skipped "worker-2" 2 rent] ∧
      ∀ e ∈ evs, e.payment.paymentId = rent.paymentId → e.isSkipped = true := by
  refine ⟨_, _, [.skipped "worker-2" 2 rent], rfl, rfl, rfl, rfl, ?_⟩
  obtain ⟨evs, ht, he⟩ := replays_only_skipped _ rent.paymentId (Finset.mem_insert_self _ _)
    (fun d k hk => Consumer.not_past_of_pc rfl fun m stage hpc _ => by
      have := rentCharged_ended rfl d k hk
      rw [Consumer.ended, hpc] at this
      cases this) rentAgain _ rfl
  rwa [← List.append_cancel_left ht] at he

theorem rent_replay_drains :
    ∃ u n w evs, run step {} rentCharged = some u ∧
      ((run step u ([rent, rent].map .publish ++ [.start "worker-2" 2 10])).bind
        (drive step (solo "worker-2" fun _ => none) n)) = some w ∧ Idle "worker-2" w ∧
      w.trace = u.trace ++ evs ∧ (evs.filter fun e => e.id = 3) = [.skipped "worker-2" 3 rent] := by
  have hwf : (([rent].foldl Server.publish {} : Server)).WellFormed :=
    wellFormed_publish (fun id f hf => by cases id <;> cases hf) [rent]
  obtain ⟨n, w, evs, hn, hidle, ht, hall⟩ := replay_drains rentCharged _ rfl
    (rentCharged_ended rfl) rfl hwf [rent, rent] "worker-2" 2 10 (by decide) fun _ => none
  exact ⟨_, n, w, evs, rfl, hn, hidle, ht, (hall 1 rent rfl).2 (Finset.mem_insert_self _ _)⟩

end World
end Dlq
