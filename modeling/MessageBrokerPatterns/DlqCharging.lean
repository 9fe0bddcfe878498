import MessageBrokerPatterns.DlqConsumer

/-!
# How often a payment is charged

A payment is charged when the handler returns normally for it. The window of a consumer runs from
its negative `is_processed` to the `mark_processed` that answers it. As long as no check is
answered inside another consumer's window for the same payment id, and no crash falls between the
handler's return and the mark, a payment id is charged at most once. One consumer at a time gives
the first condition, the absence of crashes the second.
-/

namespace Dlq
open PyText PyDict RedisStream ActionRun

/-- The handler has returned normally for the payment id. -/
def Event.charges (pid : String) : Event → Bool
  | .handled _ _ p none => p.paymentId = pid
  | _ => false

def Consumer.At (k : Consumer) (stage : Stage) (pid : String) : Prop :=
  ∃ m, k.pc = .busy m stage ∧ m.payment.paymentId = pid

def Consumer.InWindow (k : Consumer) (pid : String) : Prop := k.At .handler pid ∨ k.At .mark pid

theorem Consumer.at_busy {k : Consumer} {m : Held} {stage stage' : Stage} {pid : String}
    (hpc : k.pc = .busy m stage) :
    k.At stage' pid ↔ stage = stage' ∧ m.payment.paymentId = pid := by
  constructor
  · rintro ⟨n, hn, hp⟩
    obtain ⟨rfl, hst⟩ := Pc.busy.inj (hpc.symm.trans hn)
    exact ⟨hst, hp⟩
  · rintro ⟨rfl, hp⟩
    exact ⟨m, hpc, hp⟩

theorem Consumer.not_inWindow_forBatch (k : Consumer) (batch : List (ℕ × Fields)) (pid : String) :
    ¬ (k.forBatch batch).InWindow pid := by
  cases batch with
  | nil =>
    rintro (⟨m, h, _⟩ | ⟨m, h, _⟩) <;> cases h
  | cons e rest =>
    obtain ⟨id, f⟩ := e
    rintro (⟨m, h, _⟩ | ⟨m, h, _⟩) <;>
    · simp only [forBatch] at h
      split at h <;> cases h

/-- A move charges nothing, records the payment that was waiting for it and ends outside the window,
or it is one of the two steps into and through the window. -/
theorem Move.window_cases {c : String} {k k' : Consumer} {s s' : Server} {evs : List Event}
    (h : Move c k s k' s' evs) :
    ((∀ pid, pid ∈ s'.processed ↔ pid ∈ s.processed ∨ k.At .mark pid) ∧
      (∀ pid, ¬ k'.InWindow pid) ∧ ∀ pid, evs.countP (Event.charges pid) = 0) ∨
    (∃ m, k.pc = .busy m .check ∧ m.payment.paymentId ∉ s.processed ∧
      k'.pc = .busy m .handler ∧ s' = s ∧ evs = []) ∨
    ∃ m, k.pc = .busy m .handler ∧ k'.pc = .busy m .mark ∧ s' = s ∧
      evs = [.handled c m.id m.payment none] := by
  have hout {l : Consumer} {pc : Pc} (hpc : l.pc = pc)
      (hne : ∀ m, pc ≠ .busy m .handler ∧ pc ≠ .busy m .mark) (pid : String) :
      ¬ l.InWindow pid := by
    rintro (⟨m, h, _⟩ | ⟨m, h, _⟩)
    · exact (hne m).1 (hpc.symm.trans h)
    · exact (hne m).2 (hpc.symm.trans h)
  have hmark {pc : Pc} (hpc : k.pc = pc) (hne : ∀ m, pc ≠ .busy m .mark) (pid : String) :
      pid ∈ s.processed ↔ pid ∈ s.processed ∨ k.At .mark pid := by
    refine ⟨Or.inl, fun h => h.resolve_right ?_⟩
    rintro ⟨m, h, _⟩
    exact hne m (hpc.symm.trans h)
  cases h with
  | readNew hpc hne =>
    exact Or.inl ⟨hmark hpc (by simp), k.not_inWindow_forBatch _, fun _ => rfl⟩
  | noNew hpc hnil => exact Or.inl ⟨hmark hpc (by simp), hout rfl (by simp), fun _ => rfl⟩
  | readPending hpc hne =>
    exact Or.inl ⟨hmark hpc (by simp), k.not_inWindow_forBatch _, fun _ => rfl⟩
  | noPending hpc hnil =>
    exact Or.inl ⟨hmark hpc (by simp), hout rfl (by simp), fun _ => rfl⟩
  | wake hpc => exact Or.inl ⟨hmark hpc (by simp), hout rfl (by simp), fun _ => rfl⟩
  | hit m hpc hp => exact Or.inl ⟨hmark hpc (by simp), hout rfl (by simp), fun _ => rfl⟩
  | miss m hpc hp => exact Or.inr (Or.inl ⟨m, hpc, hp, rfl, rfl, rfl⟩)
  | skip m hpc =>
    exact Or.inl ⟨hmark hpc (by simp), k.not_inWindow_forBatch _, fun _ => rfl⟩
  | returns m hpc => exact Or.inr (Or.inr ⟨m, hpc, rfl, rfl, rfl⟩)
  | retry m exc hpc hlt =>
    exact Or.inl ⟨hmark hpc (by simp), Consumer.not_inWindow_forBatch _ _, fun _ => rfl⟩
  | exhaust m exc hpc hge =>
    exact Or.inl ⟨hmark hpc (by simp), hout rfl (by simp), fun _ => rfl⟩
  | mark m hpc =>
    refine Or.inl ⟨fun pid => ?_, hout rfl (by simp), fun _ => rfl⟩
    rw [Server.markProcessed, Finset.mem_insert, Consumer.at_busy hpc]
    simp [eq_comm, or_comm]
  | ack m hpc =>
    exact Or.inl ⟨hmark hpc (by simp), Consumer.not_inWindow_forBatch _ _, fun _ => rfl⟩
  | dlqAck m reason attempt hpc =>
    exact Or.inl ⟨hmark hpc (by simp), hout rfl (by simp), fun _ => rfl⟩
  | dlqAdd m reason attempt hpc =>
    exact Or.inl ⟨hmark hpc (by simp), Consumer.not_inWindow_forBatch _ _, fun _ => rfl⟩

namespace World

def charged (w : World) (pid : String) : ℕ := w.trace.countP (Event.charges pid)

def At (w : World) (c : String) (stage : Stage) (pid : String) : Prop :=
  ∃ k, w.consumers c = some k ∧ k.At stage pid

def InWindow (w : World) (c : String) (pid : String) : Prop :=
  ∃ k, w.consumers c = some k ∧ k.InWindow pid

/-- A check that answers "not processed" does so outside every other consumer's window. -/
def CheckAlone (w : World) : Action → Prop
  | .run c => ∀ pid, w.At c .check pid → pid ∉ w.server.processed →
      ∀ d, d ≠ c → ¬ w.InWindow d pid
  | _ => True

/-- A crash does not fall between the handler's return and the mark. -/
def MarkKept (w : World) : Action → Prop
  | .crash c => ∀ pid, ¬ w.At c .mark pid
  | _ => True

structure ChargeInv (w : World) (pid : String) : Prop where
  once : w.charged pid ≤ 1
  recorded : 1 ≤ w.charged pid ↔ pid ∈ w.server.processed ∨ ∃ c, w.At c .mark pid
  fresh : ∀ c, w.At c .handler pid → w.charged pid = 0
  lone : ∀ c d, w.InWindow c pid → w.InWindow d pid → c = d

theorem chargeInv_init (pid : String) : ChargeInv {} pid where
  once := Nat.zero_le 1
  recorded := by
    constructor
    · intro h
      cases h
    · rintro (h | ⟨c, k, hk, _⟩)
      · cases h
      · cases hk
  fresh _ _ := rfl
  lone := by
    rintro c d ⟨k, hk, _⟩
    cases hk

theorem at_congr {w w' : World} {c : String} (h : w'.consumers c = w.consumers c) {stage : Stage}
    {pid : String} : w'.At c stage pid ↔ w.At c stage pid := by
  simp only [At, h]

theorem inWindow_congr {w w' : World} {c : String} (h : w'.consumers c = w.consumers c)
    {pid : String} : w'.InWindow c pid ↔ w.InWindow c pid := by
  simp only [InWindow, h]

theorem At.inWindow {w : World} {c pid : String} {stage : Stage}
    (hst : stage = .handler ∨ stage = .mark) (h : w.At c stage pid) : w.InWindow c pid := by
  obtain ⟨k, hk, h⟩ := h
  rcases hst with rfl | rfl
  · exact ⟨k, hk, Or.inl h⟩
  · exact ⟨k, hk, Or.inr h⟩

theorem ChargeInv.leave {w w' : World} {c pid : String} (hi : ChargeInv w pid)
    (hother : ∀ d, d ≠ c → w'.consumers d = w.consumers d) (hout : ¬ w'.InWindow c pid)
    (hch : w'.charged pid = w.charged pid)
    (hrec : pid ∈ w'.server.processed ↔ pid ∈ w.server.processed ∨ w.At c .mark pid) :
    ChargeInv w' pid := by
  have hne {d : String} (hd : w'.InWindow d pid) : d ≠ c := by
    rintro rfl
    exact hout hd
  refine ⟨hch ▸ hi.once, ?_, fun d hd => ?_, fun d e hd he => ?_⟩
  · rw [hch, hi.recorded, hrec]
    constructor
    · rintro (h | ⟨d, hd⟩)
      · exact Or.inl (Or.inl h)
      · by_cases hdc : d = c
        · exact Or.inl (Or.inr (hdc ▸ hd))
        · exact Or.inr ⟨d, (at_congr (hother d hdc)).mpr hd⟩
    · rintro ((h | h) | ⟨d, hd⟩)
      · exact Or.inl h
      · exact Or.inr ⟨c, h⟩
      · exact Or.inr ⟨d, (at_congr (hother d (hne (At.inWindow (Or.inr rfl) hd)))).mp hd⟩
  · rw [hch]
    exact hi.fresh d ((at_congr (hother d (hne (At.inWindow (Or.inl rfl) hd)))).mp hd)
  · exact hi.lone d e ((inWindow_congr (hother d (hne hd))).mp hd)
      ((inWindow_congr (hother e (hne he))).mp he)

theorem chargeInv_move {w : World} {c : String} {k k' : Consumer} {s' : Server}
    {evs : List Event} {pid : String} (hi : ChargeInv w pid) (hk : w.consumers c = some k)
    (hm : Move c k w.server k' s' evs)
    (halone : w.At c .check pid → pid ∉ w.server.processed → ∀ d, d ≠ c → ¬ w.InWindow d pid) :
    ChargeInv (w.moved c k' s' evs) pid := by
  generalize hw' : w.moved c k' s' evs = w'
  have hother (d : String) (hd : d ≠ c) : w'.consumers d = w.consumers d := by
    rw [← hw']
    exact w.setConsumer_of_ne hd _
  have hself : w'.consumers c = some k' := by
    rw [← hw']
    exact w.setConsumer_self c _
  have hs' : w'.server = s' := by
    rw [← hw']
    rfl
  have hat {stage : Stage} : w.At c stage pid ↔ k.At stage pid := by simp [At, hk]
  have hwin : w.InWindow c pid ↔ k.InWindow pid := by simp [InWindow, hk]
  have hwin' : w'.InWindow c pid ↔ k'.InWindow pid := by simp [InWindow, hself]
  have hch : w'.charged pid = w.charged pid + evs.countP (Event.charges pid) := by
    rw [← hw']
    exact List.countP_append
  rcases hm.window_cases with ⟨hrec, hout, hnone⟩ | ⟨m, hpc, hp, hpc', rfl, rfl⟩ |
    ⟨m, hpc, hpc', rfl, rfl⟩
  · refine hi.leave hother (fun h => hout pid (hwin'.mp h)) ?_ ?_
    · rw [hch, hnone]
      rfl
    · rw [hs', hat]
      exact hrec pid
  · have hmiss : ¬ w.At c .mark pid := by
      rw [hat, Consumer.at_busy hpc]
      simp
    by_cases hpid : m.payment.paymentId = pid
    · have hfree := halone (hat.mpr ⟨m, hpc, hpid⟩) (hpid ▸ hp)
      have hzero : w.charged pid = 0 := by
        by_contra hne
        rcases hi.recorded.mp (Nat.one_le_iff_ne_zero.mpr hne) with h | ⟨d, l, hl, hd⟩
        · exact hp (hpid ▸ h)
        · by_cases hdc : d = c
          · subst hdc
            exact hmiss ⟨l, hl, hd⟩
          · exact hfree d hdc ⟨l, hl, Or.inr hd⟩
      have hzero' : w'.charged pid = 0 := by rw [hch, hzero]; rfl
      have hlone {d : String} (hd : w'.InWindow d pid) : d = c := by
        by_contra hdc
        exact hfree d hdc ((inWindow_congr (hother d hdc)).mp hd)
      refine ⟨by omega, ⟨fun h => by omega, ?_⟩, fun _ _ => hzero',
        fun d e hd he => (hlone hd).trans (hlone he).symm⟩
      rintro (h | ⟨d, hd⟩)
      · rw [hs'] at h
        exact absurd (hpid ▸ h) hp
      · obtain rfl := hlone (hd.inWindow (Or.inr rfl))
        obtain ⟨l, hl, hd⟩ := hd
        obtain rfl := Option.some.inj (hself.symm.trans hl)
        simp [Consumer.at_busy hpc'] at hd
    · refine hi.leave hother ?_ hch ?_
      · rw [hwin', Consumer.InWindow, Consumer.at_busy hpc', Consumer.at_busy hpc']
        simp [hpid]
      · rw [hs']
        exact ⟨Or.inl, fun h => h.resolve_right hmiss⟩
  · by_cases hpid : m.payment.paymentId = pid
    · have hzero := hi.fresh c (hat.mpr ⟨m, hpc, hpid⟩)
      have hone : w'.charged pid = 1 := by
        rw [hch, hzero]
        simp [Event.charges, hpid]
      have hback {d : String} (hd : w'.InWindow d pid) : d = c := by
        by_contra hdc
        exact hdc (hi.lone d c ((inWindow_congr (hother d hdc)).mp hd)
          (hwin.mpr (Or.inl ⟨m, hpc, hpid⟩)))
      refine ⟨hone.le, ⟨fun _ => Or.inr ⟨c, k', hself, m, hpc', hpid⟩, fun _ => hone.ge⟩,
        fun d hd => ?_, fun d e hd he => (hback hd).trans (hback he).symm⟩
      obtain rfl := hback (hd.inWindow (Or.inl rfl))
      obtain ⟨l, hl, hd⟩ := hd
      obtain rfl := Option.some.inj (hself.symm.trans hl)
      simp [Consumer.at_busy hpc'] at hd
    · refine hi.leave hother ?_ ?_ ?_
      · rw [hwin', Consumer.InWindow, Consumer.at_busy hpc', Consumer.at_busy hpc']
        simp [hpid]
      · rw [hch]
        simp [Event.charges, hpid]
      · rw [hs', hat, Consumer.at_busy hpc]
        simp

theorem chargeInv_step {pid : String} (w : World) (a : Action) (w' : World) (hi : ChargeInv w pid)
    (hg : w.CheckAlone a ∧ w.MarkKept a) (h : step w a = some w') : ChargeInv w' pid := by
  cases Effect.of_step h with
  | publish p => exact ⟨hi.once, hi.recorded, hi.fresh, hi.lone⟩
  | xadd f => exact ⟨hi.once, hi.recorded, hi.fresh, hi.lone⟩
  | start c maxAttempts count hend =>
    refine hi.leave (fun d hd => w.setConsumer_of_ne hd _) ?_ rfl
      ⟨Or.inl, fun h => h.resolve_right ?_⟩
    · rintro ⟨k, hk, h⟩
      rw [setConsumer_self, Option.some.injEq] at hk
      subst hk
      rcases h with ⟨m, hpc, _⟩ | ⟨m, hpc, _⟩ <;> cases hpc
    · rintro ⟨k, hk, m, hpc, _⟩
      have := hend k hk
      simp [Consumer.ended, hpc] at this
  | stop c k hk hpc =>
    refine hi.leave (fun d hd => w.setConsumer_of_ne hd _) ?_ rfl
      ⟨Or.inl, fun h => h.resolve_right ?_⟩
    · rintro ⟨l, hl, h⟩
      rw [setConsumer_self, Option.some.injEq] at hl
      subst hl
      rcases h with ⟨m, hpc, _⟩ | ⟨m, hpc, _⟩ <;> cases hpc
    · rintro ⟨l, hl, m, hpc', _⟩
      obtain rfl := Option.some.inj (hk.symm.trans hl)
      cases hpc.symm.trans hpc'
  | move _ c k k' s' evs ha hk hm =>
    refine chargeInv_move hi hk hm fun hat hp => ?_
    rcases ha with rfl | ⟨failure, m, rfl, hpc⟩
    · exact hg.1 pid hat hp
    · obtain ⟨l, hl, h⟩ := hat
      obtain rfl := Option.some.inj (hk.symm.trans hl)
      simp [Consumer.at_busy hpc] at h
  | crash c k hk hend =>
    refine hi.leave (fun d hd => w.setConsumer_of_ne hd _) ?_ ?_
      ⟨Or.inl, fun h => h.resolve_right (hg.2 pid)⟩
    · rintro ⟨l, hl, _⟩
      rw [setConsumer_self] at hl
      cases hl
    · have hnone : (crashEvents c k).countP (Event.charges pid) = 0 := by
        unfold crashEvents
        split <;> rfl
      change (w.trace ++ crashEvents c k).countP _ = _
      rw [List.countP_append, hnone]
      rfl

theorem charged_le_one_of_guarded {acts : List Action} {w : World}
    (hrun : run step {} acts = some w)
    (hg : Along step (fun w a => w.CheckAlone a ∧ w.MarkKept a) {} acts) (pid : String) :
    w.charged pid ≤ 1 :=
  (run_invariant chargeInv_step (chargeInv_init pid) hg hrun).once

/-- What an action on the consumer `c`, or on the streams alone, is. -/
def Of (c : String) : Action → Prop
  | .publish _ => True
  | .xadd _ => True
  | .start d _ _ => d = c
  | .stop d => d = c
  | .run d => d = c
  | .handler d _ => d = c
  | .crash d => d = c

def NoCrash : Action → Prop
  | .crash _ => False
  | _ => True

theorem only_step {c : String} (w : World) (a : Action) (w' : World)
    (hi : ∀ d, d ≠ c → w.consumers d = none) (ha : Of c a) (h : step w a = some w') :
    ∀ d, d ≠ c → w'.consumers d = none := by
  intro d hd
  cases Effect.of_step h with
  | publish p => exact hi d hd
  | xadd f => exact hi d hd
  | start b maxAttempts count hend =>
    obtain rfl : b = c := ha
    exact (w.setConsumer_of_ne hd _).trans (hi d hd)
  | stop b k hk hpc =>
    obtain rfl : b = c := ha
    exact (w.setConsumer_of_ne hd _).trans (hi d hd)
  | move _ b k k' s' evs hact hk hm =>
    have hb : b = c := by
      rcases hact with rfl | ⟨failure, m, rfl, _⟩ <;> exact ha
    subst hb
    exact (w.setConsumer_of_ne hd _).trans (hi d hd)
  | crash b k hk hend =>
    obtain rfl : b = c := ha
    exact (w.setConsumer_of_ne hd _).trans (hi d hd)

/-- One consumer name, crashed and restarted anywhere but before a mark that is due, charges a
payment id at most once. -/
theorem charged_once_of_mark_kept (c : String) (acts : List Action) (w : World)
    (hone : ∀ a ∈ acts, Of c a) (hrun : run step {} acts = some w)
    (hkept : Along step MarkKept {} acts) (pid : String) : w.charged pid ≤ 1 := by
  have hof : Along step (fun w a => Of c a ∧ w.MarkKept a) {} acts :=
    along_and.mpr ⟨along_of_forall (fun a ha _ => hone a ha) _, hkept⟩
  refine charged_le_one_of_guarded hrun (along_mono (I := fun w => ∀ d, d ≠ c → w.consumers d = none)
    (fun w a w' hi ha h => only_step w a w' hi ha.1 h) ?_ (fun _ _ => rfl) hof) pid
  rintro w a hi ⟨ha, hk⟩
  refine ⟨?_, hk⟩
  cases a with
  | run b =>
    obtain rfl : b = c := ha
    rintro pid _ _ d hd ⟨k, hk, _⟩
    rw [hi d hd] at hk
    cases hk
  | _ => trivial

/-- Any number of consumers without crashes, none of which has its check answered inside another's
window, charge a payment id at most once. -/
theorem charged_once_of_check_alone (acts : List Action) (w : World)
    (hcrash : ∀ a ∈ acts, NoCrash a) (hrun : run step {} acts = some w)
    (halone : Along step CheckAlone {} acts) (pid : String) : w.charged pid ≤ 1 := by
  refine charged_le_one_of_guarded hrun (along_and.mpr ⟨halone, ?_⟩) pid
  refine along_of_forall (fun a ha w => ?_) _
  have := hcrash a ha
  cases a with
  | crash d => exact absurd this id
  | _ => trivial

def rent : Payment := ⟨"pay-7", 90000, "cust-7", "EUR"⟩

/-- The process dies between the handler's return and the mark, and is restarted. -/
def crashBeforeMark : List Action :=
  [.publish rent, .start "c" 3 10, .run "c", .run "c", .handler "c" none, .crash "c",
    .start "c" 3 10, .run "c", .run "c", .run "c", .handler "c" none]

theorem crashBeforeMark_charged :
    ∃ w, (∀ a ∈ crashBeforeMark, Of "c" a) ∧ run step {} crashBeforeMark = some w ∧
      w.charged "pay-7" = 2 :=
  ⟨_, by simp [crashBeforeMark, Of], rfl, rfl⟩

/-- The process dies between the mark and the acknowledgement, and is restarted. -/
def crashAfterMark : List Action :=
  [.publish rent, .start "c" 3 10, .run "c", .run "c", .handler "c" none, .run "c", .crash "c",
    .start "c" 3 10, .run "c", .run "c", .run "c"]

theorem crashAfterMark_charged :
    ∃ w, run step {} crashAfterMark = some w ∧ w.charged "pay-7" ≤ 1 := by
  refine ⟨_, rfl, charged_once_of_mark_kept "c" crashAfterMark _ (by simp [crashAfterMark, Of]) rfl
    ?_ "pay-7"⟩
  iterate 6 refine (along_cons rfl).mpr ⟨trivial, ?_⟩
  refine (along_cons rfl).mpr ⟨?_, ?_⟩
  · rintro pid ⟨k, hk, m, hpc, _⟩
    cases hk
    cases hpc
  · iterate 4 refine (along_cons rfl).mpr ⟨trivial, ?_⟩
    trivial

/-- Two consumers hold two entries of one payment and check before either has marked. -/
def checkBothFirst : List Action :=
  [.publish rent, .publish rent, .start "a" 3 1, .start "b" 3 1, .run "a", .run "b", .run "a",
    .run "b", .handler "a" none, .handler "b" none]

theorem checkBothFirst_charged :
    ∃ w, (∀ a ∈ checkBothFirst, NoCrash a) ∧ run step {} checkBothFirst = some w ∧
      w.charged "pay-7" = 2 :=
  ⟨_, by simp [checkBothFirst, NoCrash], rfl, rfl⟩

/-- The second consumer starts and checks after the first has marked. -/
def checkAfterMark : List Action :=
  [.publish rent, .start "a" 3 1, .run "a", .run "a", .handler "a" none, .run "a", .publish rent,
    .start "b" 3 1, .run "b", .run "b"]

theorem checkAfterMark_charged :
    ∃ w, run step {} checkAfterMark = some w ∧ w.charged "pay-7" ≤ 1 := by
  refine ⟨_, rfl, charged_once_of_check_alone checkAfterMark _ (by simp [checkAfterMark, NoCrash])
    rfl ?_ "pay-7"⟩
  have hno {w w' : World} {c : String} {as : List Action} (h : step w (.run c) = some w')
      (hne : ∀ pid, w.At c .check pid → pid ∈ w.server.processed ∨ ∀ d, d ≠ c →
        w.consumers d = none)
      (hrest : Along step CheckAlone w' as) : Along step CheckAlone w (.run c :: as) := by
    refine (along_cons h).mpr ⟨fun pid hat hp d hd => ?_, hrest⟩
    rintro ⟨k, hk, _⟩
    rw [(hne pid hat).resolve_left hp d hd] at hk
    cases hk
  iterate 2 refine (along_cons rfl).mpr ⟨trivial, ?_⟩
  refine hno rfl ?_ (hno rfl (fun pid _ => Or.inr fun d hd => ?_)
    ((along_cons rfl).mpr ⟨trivial, hno rfl ?_ ?_⟩))
  · rintro pid ⟨k, hk, m, hpc, _⟩
    cases hk
    cases hpc
  · exact ((setConsumer_of_ne _ hd _).trans (setConsumer_of_ne _ hd _)).trans rfl
  · rintro pid ⟨k, hk, m, hpc, _⟩
    cases hk
    cases hpc
  · iterate 2 refine (along_cons rfl).mpr ⟨trivial, ?_⟩
    refine hno rfl ?_ (hno rfl ?_ trivial)
    · rintro pid ⟨k, hk, m, hpc, _⟩
      cases hk
      cases hpc
    · rintro pid ⟨k, hk, m, hpc, rfl⟩
      cases hk
      cases hpc
      exact Or.inl (by decide +kernel)

end World
end Dlq
