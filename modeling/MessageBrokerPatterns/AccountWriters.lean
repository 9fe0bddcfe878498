import MessageBrokerPatterns.EventStore
import MessageBrokerPatterns.ActionRun

/-!
# Concurrent writers of one account

Each writer loads the aggregate by replaying the account's full history, issues one command on
what it loaded and appends the produced event. The checks of the command see the history at the
time of the load, and the append carries no expected version, so other writers' appends may come
in between.

The stored history stays free of overdrafts and of second creations exactly in the runs whose
every append would still pass the aggregate's own checks against the history it extends.
-/

namespace EventSourcing
open PyText PyDict ActionRun

inductive WriterState where
  | idle
  | loaded (a : BankAccount)
  | holding (c : Command) (e : AccountEvent)
  deriving DecidableEq, Repr

/-- All writers of the account `accountId` and the streams they share. -/
structure Writers (ω : Type*) where
  accountId : String
  db : Streams
  state : ω → WriterState

inductive WriterAction (ω : Type*) where
  | load (w : ω)
  | command (w : ω) (c : Command)
  | append (w : ω)

namespace Writers
variable {ω : Type*} [DecidableEq ω]

def history (s : Writers ω) : List Fields := s.db (accountStream s.accountId)

def step (s : Writers ω) : WriterAction ω → Option (Writers ω)
  | .load w =>
      match s.state w, replayRaw s.history with
      | .idle, .ok a => some { s with state := Function.update s.state w (.loaded a) }
      | _, _ => none
  | .command w c =>
      match s.state w with
      | .loaded a =>
          match a.execute c with
          | .ok (e, _) => some { s with state := Function.update s.state w (.holding c e) }
          | .error _ => some { s with state := Function.update s.state w .idle }
      | _ => none
  | .append w =>
      match s.state w with
      | .holding _ e => some { s with
          db := (EventStore.append s.db s.accountId e.eventType e.toDict).2
          state := Function.update s.state w .idle }
      | _ => none

def init (accountId : String) : Writers ω := ⟨accountId, fun _ => [], fun _ => .idle⟩

def isCreated (raw : Fields) : Bool :=
  match decodeEvent raw with
  | .ok (.created _) => true
  | _ => false

/-- The stream replays to a balance that is not negative and holds at most one creation. -/
def Solvent (s : Writers ω) : Prop :=
  (∃ a, replayRaw s.history = .ok a ∧ 0 ≤ a.balance) ∧ s.history.countP isCreated ≤ 1

/-- An append is current when its command passes the checks on the history it extends. -/
def Current (s : Writers ω) : WriterAction ω → Prop
  | .append w => ∀ c e a, s.state w = .holding c e → replayRaw s.history = .ok a → a.Admits c
  | _ => True

theorem replayRaw_append (raws : List Fields) (raw : Fields) :
    replayRaw (raws ++ [raw]) = (replayRaw raws).bind fun a => applyRaw a raw := by
  rw [replayRaw, List.foldlM_append]
  change (replayRaw raws).bind _ = _
  congr 1
  funext a
  cases h : applyRaw a raw <;> simp [h]

theorem countP_isCreated_append (raws : List Fields) (a : BankAccount) (c : Command) :
    (raws ++ [rawEvent (a.eventOf c)]).countP isCreated =
      raws.countP isCreated + match c with
        | .create _ => 1
        | _ => 0 := by
  rw [List.countP_append, List.countP_singleton, isCreated, rawEvent,
    decodeEvent_append (a.eventOf_typed c)]
  cases c <;> rfl

theorem applyRaw_eventOf (a b : BankAccount) (c : Command) :
    applyRaw a (rawEvent (b.eventOf c)) = .ok (match c with
      | .create o => { a with
          accountId := b.accountId, ownerId := o, created := true, version := a.version + 1 }
      | .deposit n => { a with balance := a.balance + n, version := a.version + 1 }
      | .withdraw n => { a with balance := a.balance - n, version := a.version + 1 }) := by
  rw [applyRaw, rawEvent, decodeEvent_append (b.eventOf_typed c)]
  cases c with
  | create o => rfl
  | deposit n => exact BankAccount.apply_deposited a b.accountId n
  | withdraw n => exact BankAccount.apply_withdrawn a b.accountId n

/-- A held event comes from a load whose checks its command passed. -/
def HeldBy (acct : BankAccount) : WriterState → Prop
  | .idle => True
  | .loaded b => b.created = true → acct.created = true
  | .holding c e => ∃ b : BankAccount, b.Admits c ∧ e = b.eventOf c ∧
      (b.created = true → acct.created = true)

/-- The history replays, it holds a creation exactly if the account is created, and every writer
holds a load of an earlier history or an event produced from one. -/
structure Inv (s : Writers ω) (acct : BankAccount) : Prop where
  replays : replayRaw s.history = .ok acct
  created_iff : acct.created = true ↔ 1 ≤ s.history.countP isCreated
  held : ∀ w, HeldBy acct (s.state w)

omit [DecidableEq ω] in
theorem inv_init (accountId : String) : Inv (init accountId : Writers ω) {} where
  replays := rfl
  created_iff := by simp [history, init]
  held _ := trivial

theorem HeldBy.mono {a b : BankAccount} (hab : a.created = true → b.created = true)
    {st : WriterState} (h : HeldBy a st) : HeldBy b st := by
  cases st with
  | idle => trivial
  | loaded l => exact fun hl => hab (h hl)
  | holding c e =>
    obtain ⟨l, hadm, he, hl⟩ := h
    exact ⟨l, hadm, he, fun hc => hab (hl hc)⟩

theorem held_update {s : Writers ω} {acct : BankAccount} (h : ∀ v, HeldBy acct (s.state v))
    (w : ω) {st : WriterState} (hst : HeldBy acct st) :
    ∀ v, HeldBy acct (Function.update s.state w st v) := by
  intro v
  by_cases hv : v = w
  · subst hv
    simpa using hst
  · simpa [hv] using h v

/-- Everything a step does: only an append touches the history, and it appends the held event. -/
theorem step_cases {s t : Writers ω} {act : WriterAction ω} (h : step s act = some t) :
    (t.history = s.history ∧ (∀ w, act ≠ .append w) ∧
      ∀ acct, Inv s acct → ∀ w, HeldBy acct (t.state w)) ∨
    ∃ w c e, act = .append w ∧ s.state w = .holding c e ∧
      t.history = s.history ++ [rawEvent e] ∧ t.state = Function.update s.state w .idle := by
  cases act with
  | load w =>
    cases hw : s.state w with
    | idle =>
      cases hr : replayRaw s.history with
      | ok a =>
        simp only [step, hw, hr, Option.some.injEq] at h
        subst h
        refine Or.inl ⟨rfl, by simp, fun acct hi => held_update hi.held w ?_⟩
        obtain rfl := Except.ok.inj (hr.symm.trans hi.replays)
        exact id
      | error e => simp [step, hw, hr] at h
    | loaded a => simp [step, hw] at h
    | holding c e => simp [step, hw] at h
  | command w c =>
    cases hw : s.state w with
    | loaded a =>
      refine Or.inl ?_
      by_cases hadm : a.Admits c
      · simp only [step, hw, BankAccount.execute_of_admits hadm, Option.some.injEq] at h
        subst h
        refine ⟨rfl, by simp, fun acct hi => held_update hi.held w ⟨a, hadm, rfl, ?_⟩⟩
        have hl := hi.held w
        rwa [hw] at hl
      · obtain ⟨x, hx⟩ := BankAccount.execute_of_not_admits hadm
        simp only [step, hw, hx, Option.some.injEq] at h
        subst h
        exact ⟨rfl, by simp, fun acct hi => held_update hi.held w trivial⟩
    | idle => simp [step, hw] at h
    | holding c e => simp [step, hw] at h
  | append w =>
    cases hw : s.state w with
    | holding c e =>
      simp only [step, hw, Option.some.injEq] at h
      subst h
      exact Or.inr ⟨w, c, e, rfl, hw, append_same _ _ _, rfl⟩
    | idle => simp [step, hw] at h
    | loaded a => simp [step, hw] at h

/-- One step keeps the invariant; an append keeps the history solvent exactly if it is current. -/
theorem step_inv {s t : Writers ω} {act : WriterAction ω} {acct : BankAccount} (hi : Inv s acct)
    (h : step s act = some t) :
    (∃ acct', Inv t acct') ∧ (Solvent s → (Current s act ↔ Solvent t)) := by
  rcases step_cases h with ⟨hh, hna, hheld⟩ | ⟨w, c, e, rfl, hw, hh, hst⟩
  · refine ⟨⟨acct, by rw [hh]; exact hi.replays, by rw [hh]; exact hi.created_iff, hheld acct hi⟩, ?_⟩
    intro hs
    have hc : Current s act := by
      cases act with
      | append w => exact absurd rfl (hna w)
      | load w => trivial
      | command w c => trivial
    have ht : Solvent t := by simpa only [Solvent, hh] using hs
    exact ⟨fun _ => ht, fun _ => hc⟩
  · have hheld := hi.held w
    rw [hw] at hheld
    obtain ⟨b, hadm, rfl, hbc⟩ := hheld
    have hrep : replayRaw t.history = applyRaw acct (rawEvent (b.eventOf c)) := by
      rw [hh, replayRaw_append, hi.replays]
      rfl
    rw [applyRaw_eventOf] at hrep
    have hcount := countP_isCreated_append s.history b c
    rw [← hh] at hcount
    have hcur : Current s (.append w) ↔ acct.Admits c := by
      constructor
      · intro hc
        exact hc c _ acct hw hi.replays
      · intro hadm' c' e' a hw' hr
        rw [hw] at hw'
        cases hw'
        obtain rfl := Except.ok.inj (hr.symm.trans hi.replays)
        exact hadm'
    have hsol (acct' : BankAccount) (hr : replayRaw t.history = .ok acct') :
        Solvent t ↔ 0 ≤ acct'.balance ∧ t.history.countP isCreated ≤ 1 := by
      simp [Solvent, hr]
    have hkeep (acct' : BankAccount) (hr : replayRaw t.history = .ok acct')
        (hc : acct'.created = true ↔ 1 ≤ t.history.countP isCreated)
        (hmono : acct.created = true → acct'.created = true) : Inv t acct' :=
      ⟨hr, hc, by
        rw [hst]
        exact held_update (fun v => (hi.held v).mono hmono) w trivial⟩
    have hbal (hs : Solvent s) : 0 ≤ acct.balance ∧ s.history.countP isCreated ≤ 1 := by
      simpa [Solvent, hi.replays] using hs
    have hci := hi.created_iff
    cases c with
    | create o =>
      refine ⟨⟨_, hkeep _ hrep ?_ fun _ => rfl⟩, fun hs => ?_⟩
      · rw [hcount]
        exact ⟨fun _ => Nat.le_add_left 1 _, fun _ => rfl⟩
      · have hb := hbal hs
        rw [hcur, hsol _ hrep, hcount]
        change acct.created = false ↔ 0 ≤ acct.balance ∧ s.history.countP isCreated + 1 ≤ 1
        rw [← Bool.not_eq_true, hci]
        omega
    | deposit n =>
      obtain ⟨hbcr, hn⟩ : b.created = true ∧ 0 < n := hadm
      refine ⟨⟨_, hkeep _ hrep ?_ id⟩, fun hs => ?_⟩
      · rw [hcount]
        exact hci
      · have hb := hbal hs
        rw [hcur, hsol _ hrep, hcount]
        change (acct.created = true ∧ 0 < n) ↔ 0 ≤ acct.balance + n ∧ s.history.countP isCreated ≤ 1
        exact ⟨fun _ => ⟨by omega, hb.2⟩, fun _ => ⟨hbc hbcr, hn⟩⟩
    | withdraw n =>
      obtain ⟨hbcr, hn, _⟩ : b.created = true ∧ 0 < n ∧ n ≤ b.balance := hadm
      refine ⟨⟨_, hkeep _ hrep ?_ id⟩, fun hs => ?_⟩
      · rw [hcount]
        exact hci
      · have hb := hbal hs
        rw [hcur, hsol _ hrep, hcount]
        change (acct.created = true ∧ 0 < n ∧ n ≤ acct.balance) ↔
          0 ≤ acct.balance - n ∧ s.history.countP isCreated ≤ 1
        exact ⟨fun h => ⟨by omega, hb.2⟩, fun h => ⟨hbc hbcr, hn, by omega⟩⟩

/-- In every run of any number of writers, every state is solvent exactly if every append is
current. -/
theorem solvent_iff_appends_current (accountId : String) (acts : List (WriterAction ω))
    (t : Writers ω) (hrun : run step (init accountId) acts = some t) :
    Throughout step Solvent (init accountId : Writers ω) acts ↔
      Along step Current (init accountId) acts := by
  refine (along_iff_throughout (I := fun s => ∃ acct, Inv s acct) ?_ ?_ ⟨_, inv_init accountId⟩
    ⟨⟨_, rfl, le_rfl⟩, by simp [history, init]⟩ hrun).symm
  · rintro s a u ⟨acct, hi⟩ h
    exact (step_inv hi h).1
  · rintro s a u ⟨acct, hi⟩ hs h
    exact (step_inv hi h).2 hs

/-- Two withdrawals of the whole balance, both checked against the same load. -/
def overdraw : List (WriterAction Bool) :=
  [.load true, .command true (.create "demo-user"), .append true,
    .load true, .command true (.deposit 10), .append true,
    .load true, .load false, .command true (.withdraw 10), .command false (.withdraw 10),
    .append true, .append false]

theorem overdraw_balance :
    ((run step (init "acc-1") overdraw).bind fun t => (replayRaw t.history).toOption.map
      (·.balance)) = some (-10) := by decide +kernel

theorem solvent_of_current_append :
    Throughout step Solvent (init "acc-1" : Writers Unit)
      [.load (), .command () (.create "demo-user"), .append ()] := by
  refine (solvent_iff_appends_current "acc-1" _ _ rfl).mpr
    ⟨trivial, fun s₁ h₁ => ⟨trivial, fun s₂ h₂ => ⟨?_, fun _ _ => trivial⟩⟩⟩
  cases h₁
  cases h₂
  intro c e a hst hr
  cases hst
  cases hr
  rfl

end Writers
end EventSourcing
