import MessageBrokerPatterns.DlqLedger

/-!
# A single run of the idempotent consumer

One run of one consumer on a fresh group, with publishers adding entries at any moment and the
handler returning or raising as it likes. A `BaseException` of the handler is caught nowhere, so it
takes the consumer away as a crash does. Driven on alone, the run becomes idle with every entry
settled exactly when every entry of the stream decodes and no call of the handler is cut short like
that. On a stream of payments it ends with the
books closed: one outcome an entry, one charge a payment id, and dead letters that carry the budget.
-/

namespace Dlq
open PyText PyDict RedisStream ActionRun

def Event.deadLetter : Event → Option Fields
  | .deadLettered _ _ p reason attempt => some (encodeFields (p.dlqFields reason attempt))
  | _ => none

def Event.isProcessed : Event → Bool
  | .processed _ _ _ => true
  | _ => false

theorem Move.events_in_hand {c : String} {k k' : Consumer} {s s' : Server} {evs : List Event}
    (h : Move c k s k' s' evs) :
    ∀ e ∈ evs, ∃ m stage, k.pc = .busy m stage ∧ e.id = m.id ∧ e.payment = m.payment := by
  intro e he
  cases h with
  | skip m hpc =>
    obtain rfl := List.mem_singleton.mp he
    exact ⟨m, _, hpc, rfl, rfl⟩
  | returns m hpc =>
    obtain rfl := List.mem_singleton.mp he
    exact ⟨m, _, hpc, rfl, rfl⟩
  | retry m exc hpc hlt =>
    obtain rfl := List.mem_singleton.mp he
    exact ⟨m, _, hpc, rfl, rfl⟩
  | exhaust m exc hpc hge =>
    obtain rfl := List.mem_singleton.mp he
    exact ⟨m, _, hpc, rfl, rfl⟩
  | ack m hpc =>
    obtain rfl := List.mem_singleton.mp he
    exact ⟨m, _, hpc, rfl, rfl⟩
  | dlqAdd m reason attempt hpc =>
    obtain rfl := List.mem_singleton.mp he
    exact ⟨m, _, hpc, rfl, rfl⟩
  | _ => cases he

theorem Move.reports {c : String} {k k' : Consumer} {s s' : Server} {evs : List Event}
    (h : Move c k s k' s' evs) : s'.dlq = s.dlq ++ evs.filterMap Event.deadLetter ∧
      k'.totalProcessed = k.totalProcessed + evs.countP Event.isProcessed := by
  have hbatch (l : Consumer) (batch : List (ℕ × Fields)) :
      (l.forBatch batch).totalProcessed = l.totalProcessed := by
    cases batch with
    | nil => rfl
    | cons e rest =>
      simp only [Consumer.forBatch]
      split <;> rfl
  cases h with
  | readNew hpc hne => exact ⟨(List.append_nil _).symm, hbatch _ _⟩
  | readPending hpc hne => exact ⟨(List.append_nil _).symm, hbatch _ _⟩
  | skip m hpc => exact ⟨(List.append_nil _).symm, hbatch _ _⟩
  | retry m exc hpc hlt => exact ⟨(List.append_nil _).symm, hbatch _ _⟩
  | ack m hpc => exact ⟨(List.append_nil _).symm, hbatch _ _⟩
  | dlqAdd m reason attempt hpc => exact ⟨rfl, hbatch _ _⟩
  | _ => exact ⟨(List.append_nil _).symm, rfl⟩

namespace World

/-- Publishers at work. -/
def Feeds : Action → Prop
  | .publish _ => True
  | .xadd _ => True
  | _ => False

/-- Publishers and the consumer `c` at work, which is neither stopped nor interrupted. -/
def Uninterrupted (c : String) : Action → Prop
  | .publish _ => True
  | .xadd _ => True
  | .run d => d = c
  | .handler d _ => d = c
  | _ => False

/-- What holds throughout the run of a consumer that has the group to itself. -/
structure SoloInv (c : String) (count budget : ℕ) (w : World) (k : Consumer) : Prop where
  self : w.consumers c = some k
  count : k.count = count
  budget : k.budget = budget
  only : ∀ d, d ≠ c → w.consumers d = none
  holds : k.Holds c w.server
  owned : w.server.OwnedBy c
  faithful : k.Faithful w.server
  raised : k.ended = true → ¬ w.server.WellFormed
  ledger : ∀ id, 1 ≤ id → Ledger k w.server w.trace id
  traced : ∀ e ∈ w.trace, ∃ f, entryAt w.server.main.entries e.id = some f ∧
    Payment.fromFields f = .ok e.payment
  letters : w.server.dlq = w.trace.filterMap Event.deadLetter
  total : k.totalProcessed = w.trace.countP Event.isProcessed
  charge : ∀ pid, ChargeInv w pid

theorem SoloInv.moved {c : String} {count budget : ℕ} {w : World} {k k' : Consumer} {s' : Server}
    {evs : List Event} (h : SoloInv c count budget w k) (hm : Move c k w.server k' s' evs) :
    SoloInv c count budget (w.moved c k' s' evs) k' where
  self := w.setConsumer_self c _
  count := hm.count_eq.trans h.count
  budget := hm.budget_eq.trans h.budget
  only d hd := (w.setConsumer_of_ne hd _).trans (h.only d hd)
  holds := hm.holds h.holds
  owned := hm.ownedBy h.owned
  faithful := hm.faithful h.faithful
  raised hend hwf := by
    have hwf' : w.server.WellFormed := by
      intro id f hf
      exact hwf id f (hm.le.entries id f hf)
    exact absurd (hm.not_ended h.faithful hwf') (by simp [hend])
  ledger id hid := hm.ledger h.holds (h.ledger id hid)
  traced e he := by
    change ∃ f, entryAt s'.main.entries e.id = some f ∧ _
    rw [hm.entries_eq]
    rcases List.mem_append.mp he with he | he
    · exact h.traced e he
    · obtain ⟨m, stage, hpc, hid, hp⟩ := hm.events_in_hand e he
      rw [hid, hp]
      exact (h.faithful.busy hpc).1
  letters := by
    change s'.dlq = (w.trace ++ evs).filterMap _
    rw [hm.reports.1, h.letters, List.filterMap_append]
  total := by
    change k'.totalProcessed = (w.trace ++ evs).countP _
    rw [hm.reports.2, h.total, List.countP_append]
  charge pid := by
    refine chargeInv_move (h.charge pid) h.self hm fun _ _ d hd => ?_
    rintro ⟨l, hl, _⟩
    rw [h.only d hd] at hl
    cases hl

theorem SoloInv.fed {c : String} {count budget : ℕ} {w : World} {k : Consumer}
    (h : SoloInv c count budget w k) {f : Fields} {s' : Server}
    (hm : s'.main = w.server.main.xadd f) (hp : s'.processed = w.server.processed)
    (hq : s'.dlq = w.server.dlq) : SoloInv c count budget { w with server := s' } k := by
  have hle : w.server.Le s' := by
    refine ⟨fun id g hg => ?_, hp ▸ fun _ h => h, hq ▸ fun _ h => h⟩
    rw [hm]
    exact (Server.Le.xadd w.server f).entries id g hg
  have ho (id : ℕ) : s'.main.owner? id = w.server.main.owner? id := by
    rw [hm, GroupStream.owner?_xadd]
  have hd : s'.main.delivered = w.server.main.delivered := by rw [hm, GroupStream.delivered_xadd]
  have hst (id : ℕ) : k.status s' id = k.status w.server id := by
    simp only [Consumer.status, Server.status, hd, ho]
  have hcharge (pid : String) : ChargeInv { w with server := s' } pid := by
    have hi := h.charge pid
    refine ⟨hi.once, ?_, hi.fresh, hi.lone⟩
    change 1 ≤ w.charged pid ↔ pid ∈ s'.processed ∨ ∃ d, w.At d .mark pid
    rw [hp]
    exact hi.recorded
  exact {
    self := h.self
    count := h.count
    budget := h.budget
    only := h.only
    holds := fun m stage hpc =>
      have hown := h.holds m stage hpc
      ⟨hown.nodup, hd ▸ hown.delivered, (ho _).trans hown.owner,
        fun e he => (ho _).trans (hown.rest e he)⟩
    owned := fun id d hid => h.owned id d ((ho id).symm.trans hid)
    faithful := h.faithful.mono hle
    raised := fun hend hwf => h.raised hend fun id g hg => hwf id g (hle.entries id g hg)
    ledger := fun id hid => ⟨hst id ▸ (h.ledger id hid).row, (h.ledger id hid).dead⟩
    traced := fun e he => by
      obtain ⟨g, hg, hgp⟩ := h.traced e he
      exact ⟨g, hle.entries _ _ hg, hgp⟩
    letters := hq.trans h.letters
    total := h.total
    charge := hcharge }

theorem SoloInv.advance {c : String} {count budget : ℕ} {w w' : World} {a : Action}
    (h : ∃ k, SoloInv c count budget w k)
    (ha : Uninterrupted c a) (hw : step w a = some w') :
    ∃ k, SoloInv c count budget w' k := by
  obtain ⟨k, h⟩ := h
  cases Effect.of_step hw with
  | publish p => exact ⟨k, h.fed rfl rfl rfl⟩
  | xadd f => exact ⟨k, h.fed rfl rfl rfl⟩
  | start d maxAttempts count hend => exact absurd ha id
  | stop d l hl hpc => exact absurd ha id
  | move _ d l k' s' evs hact hl hm =>
    obtain rfl : d = c := by
      rcases hact with rfl | ⟨failure, m, rfl, _⟩ <;> exact ha
    obtain rfl := Option.some.inj (h.self.symm.trans hl)
    exact ⟨k', h.moved hm⟩
  | crash d l hl hend => exact absurd ha id

/-- A group that no consumer has joined yet. -/
structure Fresh (w : World) : Prop where
  delivered : w.server.main.delivered = 0
  pel : w.server.main.pel = []
  processed : w.server.processed = ∅
  dlq : w.server.dlq = []
  consumers : w.consumers = fun _ => none
  trace : w.trace = []

theorem fresh_init : Fresh {} := ⟨rfl, rfl, rfl, rfl, rfl, rfl⟩

theorem Fresh.feed {w w' : World} {a : Action} (h : Fresh w) (ha : Feeds a)
    (hw : step w a = some w') : Fresh w' := by
  cases a with
  | publish p =>
    cases hw
    exact ⟨h.delivered, h.pel, h.processed, h.dlq, h.consumers, h.trace⟩
  | xadd f =>
    cases hw
    exact ⟨h.delivered, h.pel, h.processed, h.dlq, h.consumers, h.trace⟩
  | _ => exact absurd ha id

theorem Fresh.chargeInv {w : World} (h : Fresh w) (pid : String) : ChargeInv w pid where
  once := by simp [charged, h.trace]
  recorded := by simp [charged, At, h.trace, h.processed, h.consumers]
  fresh _ _ := by simp [charged, h.trace]
  lone := by simp [InWindow, h.consumers]

theorem Fresh.soloInv {w w' : World} {c : String} {maxAttempts : ℤ} {count : ℕ} (h : Fresh w)
    (hw : step w (.start c maxAttempts count) = some w') :
    SoloInv c count (max 1 maxAttempts).toNat w' { maxAttempts, count } := by
  have hcharge (pid : String) : ChargeInv w' pid :=
    chargeInv_step w (.start c maxAttempts count) w' (h.chargeInv pid) ⟨trivial, trivial⟩ hw
  simp only [World.step, h.consumers, Option.some.injEq] at hw
  subst hw
  have hown (id : ℕ) : w.server.main.owner? id = none := by
    rw [GroupStream.owner?_eq_none, h.pel]
    simp
  have hwait {id : ℕ} (hid : 1 ≤ id) : w.server.status id = .waiting := by
    rw [Server.status, h.delivered, if_pos (Nat.lt_of_succ_le hid)]
  exact {
    self := w.setConsumer_self c _
    count := rfl
    budget := rfl
    only := fun d hd => (w.setConsumer_of_ne hd _).trans (congrFun h.consumers d)
    holds := Consumer.holds_idle (by simp)
    owned := fun id d hid => by cases (hown id).symm.trans hid
    faithful := trivial
    raised := fun hend => by cases hend
    ledger := fun id hid => by
      change Ledger _ w.server w.trace id
      rw [h.trace]
      refine ⟨?_, by simp⟩
      change (w.server.status id).Row _ _ _ _
      rw [hwait hid]
      exact ⟨rfl, rfl, rfl⟩
    traced := fun e he => by
      change e ∈ w.trace at he
      rw [h.trace] at he
      cases he
    letters := by
      change w.server.dlq = w.trace.filterMap _
      rw [h.dlq, h.trace]
      rfl
    total := by
      change 0 = w.trace.countP _
      rw [h.trace]
      rfl
    charge := hcharge }

/-- One run of the consumer `c`: publishers before it, then the consumer among publishers. -/
theorem soloInv_of_run {c : String} {maxAttempts : ℤ} {count : ℕ} {before during : List Action}
    {w : World} (hbefore : ∀ a ∈ before, Feeds a) (hduring : ∀ a ∈ during, Uninterrupted c a)
    (hrun : run step {} (before ++ .start c maxAttempts count :: during) = some w) :
    ∃ k, SoloInv c count (max 1 maxAttempts).toNat w k := by
  obtain ⟨u, hu, hrun⟩ := run_append_eq_some.mp hrun
  obtain ⟨v, hv, hrun⟩ := run_cons_eq_some.mp hrun
  have hfresh : Fresh u := run_invariant (fun _ _ _ h ha hw => h.feed ha hw) fresh_init
    (along_of_forall (fun a ha _ => hbefore a ha) _) hu
  exact run_invariant (fun _ _ _ h ha hw => SoloInv.advance h ha hw) ⟨_, hfresh.soloInv hv⟩
    (along_of_forall (fun a ha _ => hduring a ha) _) hrun

theorem soloInv_of_drive {c : String} {count budget n : ℕ} {w w' : World} {k : Consumer}
    {oracle : World → Option PyExc} (h : SoloInv c count budget w k)
    (hn : drive step (solo c oracle) n w = some w') :
    (∃ k', SoloInv c count budget w' k') ∧
      w'.server.main.entries = w.server.main.entries := by
  refine drive_invariant (I := fun u => (∃ l, SoloInv c count budget u l) ∧
    u.server.main.entries = w.server.main.entries) ?_ ⟨⟨k, h⟩, rfl⟩ hn
  rintro u v ⟨⟨l, hl⟩, he⟩ hv
  obtain ⟨l', s', evs, hm, rfl⟩ := step_solo hl.self hv
  exact ⟨⟨l', hl.moved hm⟩, hm.entries_eq.trans he⟩

/-- When the consumer is idle with everything drained, every entry is settled. -/
theorem SoloInv.settled {c : String} {count budget : ℕ} {w : World} {k : Consumer}
    (h : SoloInv c count budget w k) (hidle : Idle c w) {id : ℕ} (h₁ : 1 ≤ id)
    (h₂ : id ≤ w.server.main.entries.length) :
    w.trace.countP (Event.handles id) ≤ budget ∧ w.trace.countP (Event.settles id) = 1 := by
  obtain ⟨⟨l, hl, hpc⟩, hd, ho⟩ := hidle
  obtain rfl := Option.some.inj (h.self.symm.trans hl)
  have hrow := (h.ledger id h₁).row
  have hsleep : ∀ m stage, k.pc = .busy m stage → m.id ≠ id := by
    intro m stage hm
    cases hpc.symm.trans hm
  rw [Consumer.status_of_ne hsleep, Server.status_settled (hd ▸ h₂) (ho id)] at hrow
  exact h.budget ▸ hrow

theorem SoloInv.working {c : String} {count budget : ℕ} {w : World} {k : Consumer}
    (h : SoloInv c count budget w k) (hcount : 1 ≤ count) (hwf : w.server.WellFormed) :
    Working c w k :=
  ⟨h.self, h.count ▸ hcount, Bool.eq_false_iff.mpr fun hend => h.raised hend hwf, h.holds,
    h.faithful, h.owned, hwf⟩

/-- What a call of the handler comes to; `interrupts` is a `BaseException` that is no `Exception`. -/
inductive Outcome where
  | returns
  | raises (exc : PyExc)
  | interrupts

def Outcome.action (c : String) : Outcome → Action
  | .returns => .handler c none
  | .raises exc => .handler c (some exc)
  | .interrupts => .crash c

def Outcome.failure : Outcome → Option PyExc
  | .raises exc => some exc
  | _ => none

/-- What the consumer `c` does next, its handler's calls coming to what the oracle says. -/
def attend (c : String) (oracle : World → Outcome) (w : World) : Action :=
  match w.awaits c with
  | some _ => (oracle w).action c
  | none => .run c

/-- Publishers and the consumer `c` at work, whose handler may also be interrupted. -/
def Attended (c : String) (w : World) : Action → Prop
  | .publish _ => True
  | .xadd _ => True
  | .run d => d = c
  | .handler d _ => d = c
  | .crash d => d = c ∧ w.awaits c ≠ none
  | _ => False

/-- No call of the handler that the consumer comes to is interrupted. -/
def NeverInterrupted (c : String) (oracle : World → Outcome) (w : World) : Prop :=
  ∀ n u, drive step (attend c oracle) n w = some u → u.awaits c ≠ none → oracle u ≠ .interrupts

theorem awaits_of_none {w : World} {c : String} (h : w.consumers c = none) : w.awaits c = none := by
  simp only [awaits, h]

theorem attend_of_none {w : World} {c : String} {oracle : World → Outcome}
    (h : w.awaits c = none) : attend c oracle w = .run c := by
  simp only [attend, h]

theorem solo_eq (c : String) (oracle : World → Option PyExc) (w : World) :
    solo c oracle w = match w.awaits c with
      | some _ => .handler c (oracle w)
      | none => .run c := by
  cases hk : w.consumers c with
  | none => simp only [solo, awaits, hk, Option.map_none]
  | some k =>
    simp only [solo, awaits, hk, Option.map_some]
    cases k.pc with
    | busy m stage => cases stage <;> rfl
    | _ => rfl

/-- Without an interruption the handler returns or raises an `Exception`. -/
theorem attend_eq_solo {w : World} {c : String} {oracle : World → Outcome}
    (h : w.awaits c ≠ none → oracle w ≠ .interrupts) :
    attend c oracle w = solo c (fun u => (oracle u).failure) w := by
  rw [solo_eq, attend]
  cases haw : w.awaits c with
  | none => rfl
  | some p =>
    have hne := h (haw ▸ Option.some_ne_none p)
    cases ho : oracle w with
    | returns => rfl
    | raises exc => rfl
    | interrupts => exact absurd ho hne

theorem drive_attend_eq_solo {w : World} {c : String} {oracle : World → Outcome}
    (h : NeverInterrupted c oracle w) (n : ℕ) :
    drive step (attend c oracle) n w = drive step (solo c fun u => (oracle u).failure) n w :=
  drive_congr fun m u hu => attend_eq_solo (h m u hu)

theorem not_idle_of_gone {w w' : World} {c : String} {oracle : World → Outcome} {n : ℕ}
    (hgone : w.consumers c = none) (hn : drive step (attend c oracle) n w = some w') :
    ¬ Idle c w' := by
  rintro ⟨⟨k, hk, -⟩, -⟩
  cases n with
  | zero =>
    cases hn
    rw [hgone] at hk
    cases hk
  | succ n =>
    rw [drive, attend_of_none (awaits_of_none hgone)] at hn
    simp [step, hgone] at hn

theorem consumers_of_crash {w w' : World} {c : String} (h : step w (.crash c) = some w') :
    w'.consumers c = none := by
  cases Effect.of_step h with
  | move _ d k k' s' evs hact hk hm => simp at hact
  | crash d k hk he => exact w.setConsumer_self c none

/-- Once the handler has been interrupted, the consumer does not come back by itself. -/
theorem gone_of_attended {c : String} {during : List Action} {w w' : World}
    (hgone : w.consumers c = none) (h : Along step (Attended c) w during)
    (hrun : run step w during = some w') : w'.consumers c = none := by
  refine run_invariant (I := fun u => u.consumers c = none) ?_ hgone h hrun
  intro u a v hu ha hv
  cases Effect.of_step hv with
  | publish p => exact hu
  | xadd f => exact hu
  | start d maxAttempts count hend => exact absurd ha id
  | stop d k hk hpc => exact absurd ha id
  | move _ d k k' s' evs hact hk hm =>
    obtain rfl : d = c := by
      rcases hact with rfl | ⟨failure, m, rfl, _⟩ <;> exact ha
    rw [hu] at hk
    cases hk
  | crash d k hk he =>
    obtain rfl : d = c := ha.1
    rw [hu] at hk
    cases hk

theorem gone_of_interrupted {c : String} {during : List Action} {w w' : World}
    (h : Along step (Attended c) w during) (hrun : run step w during = some w')
    (hcrash : .crash c ∈ during) : w'.consumers c = none := by
  obtain ⟨first, rest, rfl⟩ := List.append_of_mem hcrash
  obtain ⟨u, hu, hrun⟩ := run_append_eq_some.mp hrun
  obtain ⟨v, hv, hrun⟩ := run_cons_eq_some.mp hrun
  have hrest := (along_append.mp h).2 u hu
  exact gone_of_attended (consumers_of_crash hv) ((along_cons hv).mp hrest).2 hrun

theorem uninterrupted_of_attended {c : String} {during : List Action} {w w' : World}
    (h : Along step (Attended c) w during) (hrun : run step w during = some w')
    (hcrash : .crash c ∉ during) : ∀ a ∈ during, Uninterrupted c a := by
  induction during generalizing w with
  | nil => simp
  | cons a rest ih =>
    obtain ⟨u, hu, hrun⟩ := run_cons_eq_some.mp hrun
    obtain ⟨ha, hrest⟩ := (along_cons hu).mp h
    rw [List.mem_cons, not_or] at hcrash
    refine List.forall_mem_cons.mpr ⟨?_, ih hrest hrun hcrash.2⟩
    cases a with
    | crash d => exact absurd (by rw [ha.1]) hcrash.1
    | _ => exact ha

/-- The consumer `c` is between two batches, with nothing undelivered and nothing pending. -/
def AtRest (c : String) (w : World) : Prop :=
  (∃ k, w.consumers c = some k ∧ (k.pc = .sleep ∨ k.pc = .readNew ∨ k.pc = .readPending)) ∧
    w.server.Drained

theorem Idle.atRest {c : String} {w : World} (h : Idle c w) : AtRest c w := by
  obtain ⟨⟨k, hk, hpc⟩, hd⟩ := h
  exact ⟨⟨k, hk, Or.inl hpc⟩, hd⟩

theorem AtRest.awaits {c : String} {w : World} (h : AtRest c w) : w.awaits c = none := by
  obtain ⟨⟨k, hk, hpc⟩, -⟩ := h
  rcases hpc with hpc | hpc | hpc
  · simp only [World.awaits, hk, hpc]
  · simp only [World.awaits, hk, hpc]
  · simp only [World.awaits, hk, hpc]

/-- A consumer at rest finds nothing to read, whichever list it asks. -/
theorem AtRest.moved {c : String} {w : World} {k k' : Consumer} {s' : Server} {evs : List Event}
    (h : AtRest c w) (hk : w.consumers c = some k) (hm : Move c k w.server k' s' evs) :
    AtRest c (w.moved c k' s' evs) := by
  obtain ⟨⟨l, hl, hpc⟩, hd, ho⟩ := h
  obtain rfl := Option.some.inj (hk.symm.trans hl)
  have hself : (w.moved c k' s' evs).consumers c = some k' := w.setConsumer_self c _
  have hzero (count : ℕ) : w.server.main.newCount count = 0 := by
    rw [GroupStream.newCount, hd, Nat.sub_self, Nat.min_zero]
  cases hm with
  | readNew hpc' hne => exact absurd (GroupStream.newBatch_eq_nil.mpr (hzero _)) hne
  | noNew hpc' hnil =>
    refine ⟨⟨_, hself, Or.inr (Or.inr rfl)⟩, ?_, fun id => ?_⟩
    · change w.server.main.delivered + w.server.main.newCount k.count = _
      rw [hzero]
      exact hd
    · change (w.server.main.readNew c () k.count).owner? id = none
      rw [GroupStream.owner?_readNew, hzero, if_neg (by omega)]
      exact ho id
  | readPending hpc' hne =>
    obtain ⟨e, he⟩ := List.exists_mem_of_ne_nil _ hne
    have hown := GroupStream.owner?_of_mem_ownIds (GroupStream.mem_pendingBatch.mp he).1
    rw [ho] at hown
    cases hown
  | noPending hpc' hnil =>
    refine ⟨⟨_, hself, Or.inl rfl⟩, hd, fun id => ?_⟩
    change (w.server.main.readPending c () k.count).owner? id = none
    rw [GroupStream.owner?_readPending]
    exact ho id
  | wake hpc' => exact ⟨⟨_, hself, Or.inr (Or.inl rfl)⟩, hd, ho⟩
  | _ =>
    rename_i hpc'
    simp_all

theorem atRest_of_drive {c : String} {oracle : World → Outcome} {n : ℕ} {w w' : World}
    (h : AtRest c w) (hn : drive step (attend c oracle) n w = some w') : AtRest c w' := by
  refine drive_invariant (I := AtRest c) ?_ h hn
  intro u v hu hv
  rw [attend_of_none hu.awaits] at hv
  cases Effect.of_step hv with
  | move _ d k k' s' evs hact hk hm =>
    obtain rfl : c = d := by simpa using hact
    exact hu.moved hk hm

theorem neverInterrupted_of_idle {c : String} {oracle : World → Outcome} {n : ℕ} {w w' : World}
    (hn : drive step (attend c oracle) n w = some w') (hidle : Idle c w') :
    NeverInterrupted c oracle w := by
  intro m u hm hu hint
  rcases le_or_gt n m with hle | hlt
  · obtain ⟨k, rfl⟩ := Nat.exists_eq_add_of_le hle
    rw [drive_add, hn, Option.bind_some] at hm
    exact hu (atRest_of_drive hidle.atRest hm).awaits
  · obtain ⟨k, rfl⟩ := Nat.exists_eq_add_of_lt hlt
    rw [Nat.add_assoc, drive_add, hm, Option.bind_some, Nat.add_comm k, drive_add] at hn
    obtain ⟨v, hv, hn⟩ := Option.bind_eq_some_iff.mp hn
    have hcrash : step u (.crash c) = some v := by
      obtain ⟨p, hp⟩ := Option.ne_none_iff_exists'.mp hu
      simpa [drive, attend, hp, hint, Outcome.action] using hv
    exact not_idle_of_gone (consumers_of_crash hcrash) hn hidle

theorem SoloInv.settles_iff {c : String} {count budget : ℕ} {w : World} {k : Consumer}
    (h : SoloInv c count budget w k) (hcount : 1 ≤ count) (oracle : World → Option PyExc) :
    (∃ n w', drive step (solo c oracle) n w = some w' ∧ Idle c w' ∧
      ∀ id, 1 ≤ id → id ≤ w.server.main.entries.length →
        w'.trace.countP (Event.settles id) = 1) ↔ w.server.WellFormed := by
  constructor
  · rintro ⟨n, w', hn, -, hall⟩ id f hf
    obtain ⟨⟨k', h'⟩, he⟩ := soloInv_of_drive h hn
    have hr := entryAt_some_le hf
    have hpos : 0 < w'.trace.countP (Event.settles id) := by
      rw [hall id hr.1 hr.2]
      exact Nat.one_pos
    obtain ⟨e, hmem, hset⟩ := List.countP_pos_iff.mp hpos
    have hid : e.id = id := by cases e <;> simp_all [Event.settles, Event.id]
    obtain ⟨g, hg, hgp⟩ := h'.traced e hmem
    rw [he, hid, hf, Option.some.injEq] at hg
    exact ⟨e.payment, hg ▸ hgp⟩
  · intro hwf
    obtain ⟨n, w', hn, hidle⟩ := (h.working hcount hwf).reaches_idle oracle
    obtain ⟨⟨k', h'⟩, he⟩ := soloInv_of_drive h hn
    exact ⟨n, w', hn, hidle, fun id h₁ h₂ => (h'.settled hidle h₁ (he ▸ h₂)).2⟩

/-- Alone with its stream, the consumer becomes idle with every entry settled exactly when every
entry decodes and no call of its handler has been interrupted or is. -/
theorem drains_iff_wellFormed_and_uninterrupted (c : String) (maxAttempts : ℤ) (count : ℕ)
    (hcount : 1 ≤ count) (before during : List Action) (hbefore : ∀ a ∈ before, Feeds a)
    (v w : World) (hstart : run step {} (before ++ [.start c maxAttempts count]) = some v)
    (hduring : Along step (Attended c) v during) (hrun : run step v during = some w)
    (oracle : World → Outcome) :
    (∃ n w', drive step (attend c oracle) n w = some w' ∧ Idle c w' ∧
      ∀ id, 1 ≤ id → id ≤ w.server.main.entries.length →
        w'.trace.countP (Event.settles id) = 1) ↔
      w.server.WellFormed ∧ .crash c ∉ during ∧ NeverInterrupted c oracle w := by
  have hsolo (hcrash : .crash c ∉ during) :
      ∃ k, SoloInv c count (max 1 maxAttempts).toNat w k := by
    apply soloInv_of_run hbefore (uninterrupted_of_attended hduring hrun hcrash)
    rw [List.append_cons, run_append, hstart]
    exact hrun
  constructor
  · rintro ⟨n, w', hn, hidle, hall⟩
    have hcrash : .crash c ∉ during := fun hmem =>
      not_idle_of_gone (gone_of_interrupted hduring hrun hmem) hn hidle
    have hnever := neverInterrupted_of_idle hn hidle
    obtain ⟨k, h⟩ := hsolo hcrash
    rw [drive_attend_eq_solo hnever] at hn
    exact ⟨(h.settles_iff hcount _).mp ⟨n, w', hn, hidle, hall⟩, hcrash, hnever⟩
  · rintro ⟨hwf, hcrash, hnever⟩
    obtain ⟨k, h⟩ := hsolo hcrash
    obtain ⟨n, w', hn, hidle, hall⟩ := (h.settles_iff hcount _).mpr hwf
    exact ⟨n, w', by rw [drive_attend_eq_solo hnever]; exact hn, hidle, hall⟩

theorem rent_drains_iff :
    ∃ v w, run step {} ([.publish rent] ++ [.start "c" 3 10]) = some v ∧
      run step v [.run "c"] = some w ∧
      ((∃ n w', drive step (attend "c" fun _ => .returns) n w = some w' ∧ Idle "c" w' ∧
        ∀ id, 1 ≤ id → id ≤ w.server.main.entries.length →
          w'.trace.countP (Event.settles id) = 1) ↔
        w.server.WellFormed ∧ .crash "c" ∉ [Action.run "c"] ∧
          NeverInterrupted "c" (fun _ => .returns) w) :=
  ⟨_, _, rfl, rfl, drains_iff_wellFormed_and_uninterrupted "c" 3 10 (by decide) [.publish rent]
    [.run "c"] (by simp [Feeds]) _ _ rfl (by simp [Along, Attended]) rfl _⟩

/-- An entry without a payment id, and a payment behind it. -/
def poisoned : List Action :=
  [.xadd (encodeFields [("x", "1")]), .publish rent, .start "c" 3 10, .run "c"]

theorem poisoned_raises :
    ∃ w, run step {} poisoned = some w ∧
      (∃ k, w.consumers "c" = some k ∧ k.pc = .raised (keyError "b'payment_id'")) ∧
      ∀ oracle n w', drive step (attend "c" oracle) n w = some w' → ¬ Idle "c" w' := by
  refine ⟨_, rfl, ⟨_, rfl, rfl⟩, fun oracle n w' hn hidle => ?_⟩
  cases n with
  | zero =>
    cases hn
    obtain ⟨⟨k, hk, hpc⟩, -⟩ := hidle
    cases hk
    cases hpc
  | succ n => cases hn

/-- The outcomes of a run over a stream of payments, once it is idle. -/
structure Report (c : String) (payments : List Payment) (maxAttempts : ℤ) (w : World) : Prop where
  idle : Idle c w
  pending : w.server.main.pel = []
  outcome : ∀ id, 1 ≤ id → id ≤ payments.length → w.trace.countP (Event.settles id) = 1
  charged : ∀ pid, w.charged pid ≤ 1 ∧ (w.charged pid = 1 ↔ pid ∈ w.server.processed)
  letters : w.server.dlq = w.trace.filterMap Event.deadLetter
  letter : ∀ d id p reason attempt, Event.deadLettered d id p reason attempt ∈ w.trace →
    (1 ≤ id ∧ payments[id - 1]? = some p) ∧
      Payment.fromFields (encodeFields (p.dlqFields reason attempt)) = .ok p ∧
      getText (encodeFields (p.dlqFields reason attempt)) "attempt" =
        .ok (pyStr (max 1 maxAttempts)) ∧
      (w.trace.countP (Event.handles id) : ℤ) = max 1 maxAttempts
  handled : ∀ id, 1 ≤ id → id ≤ payments.length →
    (w.trace.countP (Event.handles id) : ℤ) ≤ max 1 maxAttempts
  returned : ∃ w' k, run step w [.run c, .stop c] = some w' ∧ w'.consumers c = some k ∧
    k.pc = .returned ∧ k.totalProcessed = w.trace.countP Event.isProcessed

theorem run_publish (payments : List Payment) (w : World) :
    run step w (payments.map .publish) =
      some { w with server := payments.foldl Server.publish w.server } := by
  induction payments generalizing w with
  | nil => rfl
  | cons p ps ih =>
    simp only [List.map_cons, run_cons, World.step, Option.bind_some]
    exact ih _

theorem entries_publish (payments : List Payment) (s : Server) :
    (payments.foldl Server.publish s).main.entries =
      s.main.entries ++ payments.map fun p => encodeFields p.toFields := by
  induction payments generalizing s with
  | nil => simp
  | cons p ps ih =>
    rw [List.foldl_cons, ih]
    simp [Server.publish]

theorem entryAt_publish {payments : List Payment} {id : ℕ} {f : Fields}
    (h : entryAt (payments.map fun p => encodeFields p.toFields) id = some f) :
    1 ≤ id ∧ ∃ p, payments[id - 1]? = some p ∧ f = encodeFields p.toFields := by
  cases id with
  | zero => cases h
  | succ n =>
    obtain ⟨p, hp, rfl⟩ := by simpa [entryAt] using h
    exact ⟨Nat.le_add_left 1 n, p, hp, rfl⟩

theorem SoloInv.charged_of_idle {c : String} {count budget : ℕ} {w : World} {k : Consumer}
    (h : SoloInv c count budget w k) (hpc : k.pc = .sleep) (pid : String) :
    w.charged pid ≤ 1 ∧ (w.charged pid = 1 ↔ pid ∈ w.server.processed) := by
  have hi := h.charge pid
  have hmark : ¬ ∃ d, w.At d .mark pid := by
    rintro ⟨d, j, hj, m, hm, _⟩
    by_cases hdc : d = c
    · subst hdc
      obtain rfl := Option.some.inj (h.self.symm.trans hj)
      cases hpc.symm.trans hm
    · rw [h.only d hdc] at hj
      cases hj
  refine ⟨hi.once, fun hone => ?_, fun hp => ?_⟩
  · exact (hi.recorded.mp hone.ge).resolve_right hmark
  · exact le_antisymm hi.once (hi.recorded.mpr (Or.inl hp))

theorem SoloInv.letter_of_payments {c : String} {count budget : ℕ} {w : World} {k : Consumer}
    (h : SoloInv c count budget w k) {payments : List Payment}
    (hentries : w.server.main.entries = payments.map fun p => encodeFields p.toFields)
    {d : String} {id : ℕ} {p : Payment} {reason : String} {attempt : ℕ}
    (hmem : Event.deadLettered d id p reason attempt ∈ w.trace) :
    (1 ≤ id ∧ payments[id - 1]? = some p) ∧ attempt = budget ∧
      w.trace.countP (Event.handles id) = budget := by
  obtain ⟨f, hf, hfp⟩ := h.traced _ hmem
  rw [hentries] at hf
  obtain ⟨hid, q, hq, rfl⟩ := entryAt_publish hf
  rw [Payment.fromFields_toFields] at hfp
  obtain rfl : q = p := Except.ok.inj hfp
  obtain ⟨hattempt, hcount⟩ := (h.ledger id hid).dead d q reason attempt hmem
  rw [h.budget] at hattempt
  exact ⟨⟨hid, hq⟩, hattempt, hcount.trans hattempt⟩

theorem SoloInv.returns {c : String} {count budget : ℕ} {w : World} {k : Consumer}
    (h : SoloInv c count budget w k) (hpc : k.pc = .sleep) :
    ∃ w' l, run step w [.run c, .stop c] = some w' ∧ w'.consumers c = some l ∧
      l.pc = .returned ∧ l.totalProcessed = w.trace.countP Event.isProcessed := by
  have hwake : step w (.run c) = some (w.moved c { k with pc := .readNew } w.server []) := by
    simp only [World.step, h.self, Consumer.command, hpc]
  have hread : (w.moved c { k with pc := .readNew } w.server []).consumers c =
      some { k with pc := .readNew } := w.setConsumer_self c _
  have hstop : step (w.moved c { k with pc := .readNew } w.server []) (.stop c) =
      some ((w.moved c { k with pc := .readNew } w.server []).setConsumer c
        (some { k with pc := .returned })) := by
    simp only [World.step, hread]
  have hrun : run step w [.run c, .stop c] =
      some ((w.moved c { k with pc := .readNew } w.server []).setConsumer c
        (some { k with pc := .returned })) := by
    simp only [run_cons, hwake, hstop, Option.bind_some]
    rfl
  exact ⟨_, _, hrun, setConsumer_self _ c _, rfl, h.total⟩

/-- On any list of payments, with any handler, the run becomes idle with its books closed. -/
theorem drains_with_report (c : String) (maxAttempts : ℤ) (count : ℕ) (hcount : 1 ≤ count)
    (payments : List Payment) (oracle : World → Option PyExc) :
    ∃ n w, ((run step {} (payments.map .publish ++ [.start c maxAttempts count])).bind
      (drive step (solo c oracle) n)) = some w ∧ Report c payments maxAttempts w := by
  obtain ⟨u, hu⟩ : ∃ u, run step {} (payments.map .publish ++ [.start c maxAttempts count]) =
      some u := by
    rw [run_append, run_publish]
    exact ⟨_, rfl⟩
  have hentries : u.server.main.entries = payments.map fun p => encodeFields p.toFields := by
    rw [run_append, run_publish] at hu
    cases hu
    exact entries_publish payments _
  have hwf : u.server.WellFormed := by
    intro id f hf
    rw [hentries] at hf
    obtain ⟨-, p, -, rfl⟩ := entryAt_publish hf
    exact ⟨p, p.fromFields_toFields⟩
  have hfeeds : ∀ a ∈ payments.map Action.publish, Feeds a := by
    intro a ha
    obtain ⟨p, -, rfl⟩ := List.mem_map.mp ha
    trivial
  have hnone : ∀ a ∈ ([] : List Action), Uninterrupted c a := by simp
  obtain ⟨k, h⟩ := soloInv_of_run hfeeds hnone hu
  obtain ⟨n, w, hn, hidle⟩ := (h.working hcount hwf).reaches_idle oracle
  obtain ⟨⟨k', h'⟩, he⟩ := soloInv_of_drive h hn
  have hlen : w.server.main.entries.length = payments.length := by
    rw [he, hentries, List.length_map]
  have hbudget : ((max 1 maxAttempts).toNat : ℤ) = max 1 maxAttempts := by omega
  have hsettled {id : ℕ} (h₁ : 1 ≤ id) (h₂ : id ≤ payments.length) :=
    h'.settled hidle h₁ (hlen ▸ h₂)
  obtain ⟨⟨l, hl, hpc⟩, hd, ho⟩ := id hidle
  obtain rfl := Option.some.inj (h'.self.symm.trans hl)
  refine ⟨n, w, by rw [hu]; exact hn, ?_⟩
  constructor
  · exact hidle
  · exact GroupStream.pel_eq_nil ho
  · exact fun id h₁ h₂ => (hsettled h₁ h₂).2
  · exact h'.charged_of_idle hpc
  · exact h'.letters
  · intro d id p reason attempt hmem
    obtain ⟨hid, rfl, hhandled⟩ := h'.letter_of_payments (he.trans hentries) hmem
    refine ⟨hid, p.fromFields_dlqFields _ _, ?_, ?_⟩
    · rw [Payment.getText_attempt, hbudget]
    · rw [hhandled, hbudget]
  · intro id h₁ h₂
    have := (hsettled h₁ h₂).1
    omega
  · exact h'.returns hpc

theorem rent_twice_drains_with_report :
    ∃ n w, ((run step {} ([rent, rent].map .publish ++ [.start "c" 3 10])).bind
      (drive step (solo "c" fun _ => some ⟨"PaymentError", "declined"⟩) n)) = some w ∧
        Report "c" [rent, rent] 3 w :=
  drains_with_report "c" 3 10 (by decide) [rent, rent] _

end World
end Dlq
