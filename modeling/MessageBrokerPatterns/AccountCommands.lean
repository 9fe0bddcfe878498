import MessageBrokerPatterns.EventStore

/-!
# Commands on a live aggregate

The methods of `BankAccount` assign its fields in place, one statement after the other, so a raise
in the middle could leave half of a transition behind. `InPlace` has the method bodies in this
form; `run_execute` shows that each of them behaves like the pure command, with the fields of the
start kept on a raise. A session is any sequence of commands whose raises the caller survives: its
successful commands form an admitted history, and its events replay to its state.
-/

namespace EventSourcing
open PyText PyDict

/-- A method body: it returns or raises, and either way leaves the fields it has assigned. -/
abbrev Method (α : Type) := ExceptT PyExc (StateM BankAccount) α

namespace InPlace

def apply (event : AccountEvent) : Method Unit := do
  match event with
  | .created e =>
    modify fun a => { a with accountId := e.accountId }
    modify fun a => { a with ownerId := e.ownerId }
    modify fun a => { a with created := true }
  | .deposited e =>
    let balance := (← get).balance
    let amount ← liftExcept (pyInt e.amount)
    modify fun a => { a with balance := balance + amount }
  | .withdrawn e =>
    let balance := (← get).balance
    let amount ← liftExcept (pyInt e.amount)
    modify fun a => { a with balance := balance - amount }
  modify fun a => { a with version := a.version + 1 }

def requireCreated : Method Unit := do
  if !(← get).created then throw (valueError "Account not created")

def create (ownerId : String) : Method AccountEvent := do
  if (← get).created then throw (valueError "Account already created")
  let event := .created { accountId := (← get).accountId, ownerId }
  apply event
  return event

def deposit (amount : ℤ) : Method AccountEvent := do
  requireCreated
  if amount ≤ 0 then throw (valueError "Deposit amount must be positive")
  let event := .deposited { accountId := (← get).accountId, amount := pyStr amount }
  apply event
  return event

def withdraw (amount : ℤ) : Method AccountEvent := do
  requireCreated
  if amount ≤ 0 then throw (valueError "Withdrawal amount must be positive")
  if amount > (← get).balance then
    throw (insufficientFundsError
      ("Cannot withdraw " ++ pyStr amount ++ " from balance " ++ pyStr (← get).balance))
  let event := .withdrawn { accountId := (← get).accountId, amount := pyStr amount }
  apply event
  return event

def execute : Command → Method AccountEvent
  | .create ownerId => create ownerId
  | .deposit amount => deposit amount
  | .withdraw amount => withdraw amount

/-- What a pure command says about a method: its answer, with the state it leaves on success and
the state it started from on a raise. -/
def outcome {α : Type} (a : BankAccount) : Except PyExc (α × BankAccount) → Except PyExc α × BankAccount
  | .ok (r, b) => (.ok r, b)
  | .error x => (.error x, a)

theorem run_apply (event : AccountEvent) (a : BankAccount) :
    (apply event).run.run a = outcome a ((a.apply event).map fun b => ((), b)) := by
  cases event with
  | created e => rfl
  | deposited e =>
    cases h : pyInt e.amount with
    | error x =>
      simp only [apply, BankAccount.apply, h]
      rfl
    | ok amount =>
      simp only [apply, BankAccount.apply, h]
      rfl
  | withdrawn e =>
    cases h : pyInt e.amount with
    | error x =>
      simp only [apply, BankAccount.apply, h]
      rfl
    | ok amount =>
      simp only [apply, BankAccount.apply, h]
      rfl

theorem run_bind {α β : Type} (m : Method α) (f : α → Method β) (a : BankAccount) :
    (m >>= f).run.run a =
      match m.run.run a with
      | (.ok r, b) => (f r).run.run b
      | (.error x, b) => (.error x, b) := by
  show ExceptT.bindCont f (m.run.run a).1 (m.run.run a).2 = _
  rcases m.run.run a with ⟨_ | _, b⟩
  · rfl
  · rfl

theorem run_get (a : BankAccount) : (get : Method BankAccount).run.run a = (.ok a, a) := rfl

theorem run_pure {α : Type} (r : α) (a : BankAccount) :
    (pure r : Method α).run.run a = (.ok r, a) := rfl

theorem run_requireCreated {a : BankAccount} (h : a.created = true) :
    requireCreated.run.run a = (.ok (), a) := by
  simp only [requireCreated, run_bind, run_get, h]
  rfl

theorem run_requireCreated_raises {a : BankAccount} (h : a.created = false) :
    requireCreated.run.run a = (.error (valueError "Account not created"), a) := by
  simp only [requireCreated, run_bind, run_get, h]
  rfl

theorem run_apply_eventOf (a : BankAccount) (c : Command) :
    (apply (a.eventOf c)).run.run a = (.ok (), a.next c) := by
  rw [run_apply, BankAccount.apply_eventOf]
  rfl

theorem run_create (ownerId : String) (a : BankAccount) :
    (create ownerId).run.run a = outcome a (a.create ownerId) := by
  cases h : a.created with
  | true =>
    simp only [create, run_bind, run_get, h, BankAccount.create]
    rfl
  | false =>
    simp only [create, run_bind, run_get, h, BankAccount.create]
    rfl

theorem run_deposit (amount : ℤ) (a : BankAccount) :
    (deposit amount).run.run a = outcome a (a.deposit amount) := by
  cases h : a.created with
  | false =>
    simp only [deposit, run_bind, run_requireCreated_raises h, BankAccount.deposit,
      BankAccount.requireCreated, h]
    rfl
  | true =>
    rw [deposit, run_bind, run_requireCreated h]
    by_cases hp : amount ≤ 0
    · simp only [hp, if_true, BankAccount.deposit, BankAccount.requireCreated, h]
      rfl
    · have hpure : a.execute (.deposit amount) = _ :=
        BankAccount.execute_of_admits ⟨h, not_le.mp hp⟩
      rw [show a.deposit amount = _ from hpure]
      have happ := run_apply_eventOf a (.deposit amount)
      simp only [BankAccount.eventOf] at happ
      simp only [hp, if_false, run_bind, run_get, happ, run_pure]
      rfl

theorem run_withdraw (amount : ℤ) (a : BankAccount) :
    (withdraw amount).run.run a = outcome a (a.withdraw amount) := by
  cases h : a.created with
  | false =>
    simp only [withdraw, run_bind, run_requireCreated_raises h, BankAccount.withdraw,
      BankAccount.requireCreated, h]
    rfl
  | true =>
    rw [withdraw, run_bind, run_requireCreated h]
    by_cases hp : amount ≤ 0
    · simp only [hp, if_true, BankAccount.withdraw, BankAccount.requireCreated, h]
      rfl
    · by_cases hb : amount > a.balance
      · simp only [hp, if_false, run_bind, run_get, hb, if_true, BankAccount.withdraw,
          BankAccount.requireCreated, h]
        rfl
      · have hpure : a.execute (.withdraw amount) = _ :=
          BankAccount.execute_of_admits ⟨h, not_le.mp hp, not_lt.mp hb⟩
        rw [show a.withdraw amount = _ from hpure]
        have happ := run_apply_eventOf a (.withdraw amount)
        simp only [BankAccount.eventOf] at happ
        simp only [hp, if_false, run_bind, run_get, hb, happ, run_pure]
        rfl

/-- The methods, statement by statement, and the pure commands agree; a raise keeps every field. -/
theorem run_execute (c : Command) (a : BankAccount) :
    (execute c).run.run a = outcome a (a.execute c) := by
  cases c with
  | create ownerId => exact run_create ownerId a
  | deposit amount => exact run_deposit amount a
  | withdraw amount => exact run_withdraw amount a

end InPlace

/-- What the caller of a live aggregate holds: the account and the events it was given so far. -/
structure Session where
  account : BankAccount
  events : List AccountEvent

def Session.issue (s : Session) (c : Command) : Session :=
  match (InPlace.execute c).run.run s.account with
  | (.ok event, account) => ⟨account, s.events ++ [event]⟩
  | (.error _, account) => ⟨account, s.events⟩

/-- Any sequence of commands on `BankAccount(account_id=accountId)`. -/
def session (accountId : String) (cs : List Command) : Session :=
  cs.foldl Session.issue ⟨{ accountId }, []⟩

theorem issue_of_admits {s : Session} {c : Command} (h : s.account.Admits c) :
    s.issue c = ⟨s.account.next c, s.events ++ [s.account.eventOf c]⟩ := by
  rw [Session.issue, InPlace.run_execute, BankAccount.execute_of_admits h]
  rfl

theorem issue_of_not_admits {s : Session} {c : Command} (h : ¬ s.account.Admits c) :
    s.issue c = s := by
  obtain ⟨x, hx⟩ := BankAccount.execute_of_not_admits h
  rw [Session.issue, InPlace.run_execute, hx]
  rfl

theorem admitted_append {a : BankAccount} {cs : List Command} {c : Command} (h : Admitted a cs)
    (hc : (cs.foldl BankAccount.next a).Admits c) : Admitted a (cs ++ [c]) := by
  induction cs generalizing a with
  | nil => exact ⟨hc, trivial⟩
  | cons d cs ih => exact ⟨h.1, ih h.2 hc⟩

theorem produced_append (a : BankAccount) (cs : List Command) (c : Command) :
    produced a (cs ++ [c]) = produced a cs ++ [(cs.foldl BankAccount.next a).eventOf c] := by
  induction cs generalizing a with
  | nil => rfl
  | cons d cs ih => simp only [List.cons_append, produced, ih, List.foldl_cons]

theorem length_produced (a : BankAccount) (cs : List Command) :
    (produced a cs).length = cs.length := by
  induction cs generalizing a with
  | nil => rfl
  | cons c cs ih => simp only [produced, List.length_cons, ih]

/-- The successful commands of a session are an admitted history: its events are the ones this
history produces and its account is the one the history leaves. -/
theorem exists_admitted (accountId : String) (cs : List Command) :
    ∃ ds, Admitted { accountId } ds ∧
      session accountId cs =
        ⟨ds.foldl BankAccount.next { accountId }, produced { accountId } ds⟩ := by
  induction cs using List.reverseRecOn with
  | nil => exact ⟨[], trivial, rfl⟩
  | append_singleton cs c ih =>
    obtain ⟨ds, hds, hs⟩ := ih
    have hstep : session accountId (cs ++ [c]) = (session accountId cs).issue c := by
      rw [session, List.foldl_append]
      rfl
    rw [hs] at hstep
    by_cases h : (ds.foldl BankAccount.next { accountId }).Admits c
    · refine ⟨ds ++ [c], admitted_append hds h, ?_⟩
      rw [hstep, issue_of_admits h, produced_append, List.foldl_append]
      rfl
    · exact ⟨ds, hds, hstep.trans (issue_of_not_admits h)⟩

theorem foldlM_apply_produced (a : BankAccount) (cs : List Command) :
    (produced a cs).foldlM BankAccount.apply a = .ok (cs.foldl BankAccount.next a) := by
  induction cs generalizing a with
  | nil => rfl
  | cons c cs ih =>
    simp only [produced, List.foldlM_cons, List.foldl_cons, a.apply_eventOf]
    exact ih (a.next c)

theorem admitted_cons {accountId : String} {c : Command} {cs : List Command}
    (h : Admitted { accountId } (c :: cs)) :
    ∃ ownerId, c = .create ownerId ∧ Admitted { accountId, ownerId, version := 1, created := true } cs := by
  cases c with
  | create ownerId => exact ⟨ownerId, rfl, h.2⟩
  | deposit amount => exact absurd h.1.1 Bool.false_ne_true
  | withdraw amount => exact absurd h.1.1 Bool.false_ne_true

theorem replay_produced {accountId : String} {cs : List Command}
    (h : Admitted { accountId } cs) (hne : cs ≠ []) :
    BankAccount.replay (produced { accountId } cs) = .ok (cs.foldl BankAccount.next { accountId }) := by
  cases cs with
  | nil => exact absurd rfl hne
  | cons c cs =>
    obtain ⟨ownerId, rfl, hcs⟩ := admitted_cons h
    exact foldlM_apply_produced { accountId, ownerId, version := 1, created := true } cs

theorem created_next (a : BankAccount) (c : Command) (h : a.Admits c) :
    (a.next c).created = true := by
  cases c with
  | create ownerId => rfl
  | deposit amount => exact h.1
  | withdraw amount => exact h.1

theorem balance_next {a : BankAccount} {c : Command} (h : a.Admits c) (ha : 0 ≤ a.balance) :
    0 ≤ (a.next c).balance := by
  cases c with
  | create ownerId => exact ha
  | deposit amount =>
    have hp := h.2
    show 0 ≤ a.balance + amount
    omega
  | withdraw amount =>
    have hb := h.2.2
    show 0 ≤ a.balance - amount
    omega

theorem balance_foldl_next {a : BankAccount} {cs : List Command} (h : Admitted a cs)
    (ha : 0 ≤ a.balance) : 0 ≤ (cs.foldl BankAccount.next a).balance := by
  induction cs generalizing a with
  | nil => exact ha
  | cons c cs ih => exact ih h.2 (balance_next h.1 ha)

theorem created_foldl_next {a : BankAccount} {cs : List Command} (h : Admitted a cs)
    (ha : a.created = true) : (cs.foldl BankAccount.next a).created = true := by
  induction cs generalizing a with
  | nil => exact ha
  | cons c cs ih => exact ih h.2 (created_next a c h.1)

theorem not_created_produced {a : BankAccount} {cs : List Command} (h : Admitted a cs)
    (ha : a.created = true) : ∀ e ∈ produced a cs, ∀ e', e ≠ .created e' := by
  induction cs generalizing a with
  | nil => exact fun e he => absurd he (List.not_mem_nil)
  | cons c cs ih =>
    intro e he e'
    rcases List.mem_cons.mp he with rfl | he
    · cases c with
      | create ownerId => exact absurd (h.1.symm.trans ha) Bool.false_ne_true
      | deposit amount => exact AccountEvent.noConfusion
      | withdraw amount => exact AccountEvent.noConfusion
    · exact ih h.2 (created_next a c h.1) e he e'

/-- Every prefix of the events of a history replays, and to no overdraft. -/
theorem solvent_produced {accountId : String} {cs : List Command} (h : Admitted { accountId } cs)
    {p : List AccountEvent} (hp : p <+: produced { accountId } cs) :
    ∃ b, BankAccount.replay p = .ok b ∧ 0 ≤ b.balance := by
  rw [List.prefix_iff_eq_take, produced_take] at hp
  have htake := admitted_take h p.length
  rw [hp]
  generalize cs.take p.length = ds at htake
  by_cases hne : ds = []
  · subst hne
    exact ⟨{}, rfl, le_refl 0⟩
  · exact ⟨_, replay_produced htake hne, balance_foldl_next htake (le_refl 0)⟩

theorem created_iff_produced {accountId : String} {cs : List Command}
    (h : Admitted { accountId } cs) :
    (cs.foldl BankAccount.next { accountId }).created = true ↔
      0 < (produced { accountId } cs).length := by
  cases cs with
  | nil => simp [produced]
  | cons c cs =>
    have hc := created_foldl_next (a := BankAccount.next { accountId } c) h.2 (created_next _ c h.1)
    simp only [List.foldl_cons, hc, length_produced, List.length_cons]
    simp

/-- Live command handling and replay agree after any mixture of successes and failures. -/
theorem session_replays (accountId : String) (cs : List Command) :
    let s := session accountId cs
    (∀ c x b, (InPlace.execute c).run.run s.account = (.error x, b) →
      b = s.account ∧ session accountId (cs ++ [c]) = s) ∧
    s.account.version = s.events.length ∧
    (s.account.created = true ↔ 0 < s.events.length) ∧
    (s.events ≠ [] → BankAccount.replay s.events = .ok s.account) ∧
    (∀ e es, s.events = e :: es →
      (∃ ownerId, e = .created { accountId, ownerId }) ∧ ∀ e' ∈ es, ∀ c, e' ≠ .created c) ∧
    ∀ p, p <+: s.events → ∃ b, BankAccount.replay p = .ok b ∧ 0 ≤ b.balance := by
  intro s
  obtain ⟨ds, hds, hs⟩ := exists_admitted accountId cs
  have hs : s = _ := hs
  refine ⟨?_, ?_⟩
  · intro c x b hrun
    have hraise : ¬ s.account.Admits c := by
      intro h
      rw [InPlace.run_execute, BankAccount.execute_of_admits h] at hrun
      exact absurd (congrArg Prod.fst hrun) (by simp [InPlace.outcome])
    obtain ⟨y, hy⟩ := BankAccount.execute_of_not_admits hraise
    rw [InPlace.run_execute, hy] at hrun
    refine ⟨(congrArg Prod.snd hrun).symm, ?_⟩
    rw [session, List.foldl_append]
    exact issue_of_not_admits hraise
  · rw [hs]
    refine ⟨?_, created_iff_produced hds, ?_, ?_, fun p hp => solvent_produced hds hp⟩
    · rw [version_foldl_next, length_produced, Nat.zero_add]
    · intro hne
      apply replay_produced hds
      rintro rfl
      exact hne rfl
    · intro e es he
      cases ds with
      | nil => exact absurd he (List.cons_ne_nil e es).symm
      | cons d ds =>
        obtain ⟨ownerId, rfl, htail⟩ := admitted_cons hds
        obtain ⟨rfl, rfl⟩ := List.cons.inj he
        exact ⟨⟨ownerId, rfl⟩, not_created_produced htail rfl⟩

end EventSourcing
