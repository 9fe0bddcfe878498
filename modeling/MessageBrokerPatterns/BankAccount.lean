import MessageBrokerPatterns.AccountEvents

/-!
# The write-side aggregate

`BankAccount` validates a command, produces an event and folds it through `apply`, the same step
that `replay` folds over a history. `execute` dispatches the three commands; `Admits`, `eventOf`
and `next` say in closed form when a command succeeds and what it does then.
-/

namespace EventSourcing
open PyText PyDict

structure BankAccount where
  accountId : String := ""
  ownerId : String := ""
  balance : ℤ := 0
  version : ℕ := 0
  created : Bool := false
  deriving DecidableEq, Repr

def insufficientFundsError (message : String) : PyExc := ⟨"InsufficientFundsError", message⟩

inductive Command where
  | create (ownerId : String)
  | deposit (amount : ℤ)
  | withdraw (amount : ℤ)
  deriving DecidableEq, Repr

namespace BankAccount

/-- `_apply`, the single source of truth for state transitions. -/
def apply (a : BankAccount) : AccountEvent → Except PyExc BankAccount
  | .created e => .ok { a with
      accountId := e.accountId, ownerId := e.ownerId, created := true, version := a.version + 1 }
  | .deposited e => do
      let amount ← pyInt e.amount
      return { a with balance := a.balance + amount, version := a.version + 1 }
  | .withdrawn e => do
      let amount ← pyInt e.amount
      return { a with balance := a.balance - amount, version := a.version + 1 }

def replay (events : List AccountEvent) : Except PyExc BankAccount := events.foldlM apply {}

def requireCreated (a : BankAccount) : Except PyExc Unit :=
  if a.created then .ok () else .error (valueError "Account not created")

def create (a : BankAccount) (ownerId : String) : Except PyExc (AccountEvent × BankAccount) := do
  if a.created then throw (valueError "Account already created")
  let event := .created { accountId := a.accountId, ownerId }
  return (event, ← a.apply event)

def deposit (a : BankAccount) (amount : ℤ) : Except PyExc (AccountEvent × BankAccount) := do
  a.requireCreated
  if amount ≤ 0 then throw (valueError "Deposit amount must be positive")
  let event := .deposited { accountId := a.accountId, amount := pyStr amount }
  return (event, ← a.apply event)

def withdraw (a : BankAccount) (amount : ℤ) : Except PyExc (AccountEvent × BankAccount) := do
  a.requireCreated
  if amount ≤ 0 then throw (valueError "Withdrawal amount must be positive")
  if amount > a.balance then
    throw (insufficientFundsError
      ("Cannot withdraw " ++ pyStr amount ++ " from balance " ++ pyStr a.balance))
  let event := .withdrawn { accountId := a.accountId, amount := pyStr amount }
  return (event, ← a.apply event)

def execute (a : BankAccount) : Command → Except PyExc (AccountEvent × BankAccount)
  | .create ownerId => a.create ownerId
  | .deposit amount => a.deposit amount
  | .withdraw amount => a.withdraw amount

/-- The checks of the three commands. -/
def Admits (a : BankAccount) : Command → Prop
  | .create _ => a.created = false
  | .deposit amount => a.created = true ∧ 0 < amount
  | .withdraw amount => a.created = true ∧ 0 < amount ∧ amount ≤ a.balance

instance decidableAdmits (a : BankAccount) : (c : Command) → Decidable (a.Admits c)
  | .create _ => inferInstanceAs (Decidable (_ = _))
  | .deposit _ => inferInstanceAs (Decidable (_ ∧ _))
  | .withdraw _ => inferInstanceAs (Decidable (_ ∧ _ ∧ _))

def eventOf (a : BankAccount) : Command → AccountEvent
  | .create ownerId => .created { accountId := a.accountId, ownerId }
  | .deposit amount => .deposited { accountId := a.accountId, amount := pyStr amount }
  | .withdraw amount => .withdrawn { accountId := a.accountId, amount := pyStr amount }

def next (a : BankAccount) : Command → BankAccount
  | .create ownerId => { a with ownerId, created := true, version := a.version + 1 }
  | .deposit amount => { a with balance := a.balance + amount, version := a.version + 1 }
  | .withdraw amount => { a with balance := a.balance - amount, version := a.version + 1 }

theorem apply_deposited (a : BankAccount) (id : String) (n : ℤ) :
    a.apply (.deposited { accountId := id, amount := pyStr n }) =
      .ok { a with balance := a.balance + n, version := a.version + 1 } := by
  simp only [apply, pyInt_pyStr]
  rfl

theorem apply_withdrawn (a : BankAccount) (id : String) (n : ℤ) :
    a.apply (.withdrawn { accountId := id, amount := pyStr n }) =
      .ok { a with balance := a.balance - n, version := a.version + 1 } := by
  simp only [apply, pyInt_pyStr]
  rfl

theorem apply_eventOf (a : BankAccount) (c : Command) : a.apply (a.eventOf c) = .ok (a.next c) := by
  cases c with
  | create ownerId => rfl
  | deposit amount => exact apply_deposited a _ amount
  | withdraw amount => exact apply_withdrawn a _ amount

theorem eventOf_typed (a : BankAccount) (c : Command) : (a.eventOf c).Typed := by
  cases c <;> rfl

theorem version_next (a : BankAccount) (c : Command) : (a.next c).version = a.version + 1 := by
  cases c <;> rfl

theorem execute_of_admits {a : BankAccount} {c : Command} (h : a.Admits c) :
    a.execute c = .ok (a.eventOf c, a.next c) := by
  have hap := a.apply_eventOf c
  cases c with
  | create ownerId =>
    have h : a.created = false := h
    simp only [eventOf] at hap
    simp only [execute, create, h, Bool.false_eq_true, if_false, hap, eventOf]
    rfl
  | deposit amount =>
    obtain ⟨hc, hp⟩ : a.created = true ∧ 0 < amount := h
    simp only [eventOf] at hap
    simp only [execute, deposit, requireCreated, hc, if_true, not_le.mpr hp, if_false, hap, eventOf]
    rfl
  | withdraw amount =>
    obtain ⟨hc, hp, hb⟩ : a.created = true ∧ 0 < amount ∧ amount ≤ a.balance := h
    simp only [eventOf] at hap
    simp only [execute, withdraw, requireCreated, hc, if_true, not_le.mpr hp, if_false, gt_iff_lt,
      not_lt.mpr hb, hap, eventOf]
    rfl

theorem execute_of_not_admits {a : BankAccount} {c : Command} (h : ¬ a.Admits c) :
    ∃ e, a.execute c = .error e := by
  cases c with
  | create ownerId =>
    have hc : a.created = true := by simpa [Admits] using h
    exact ⟨_, by simp only [execute, create, hc, if_true]; rfl⟩
  | deposit amount =>
    by_cases hc : a.created = true
    · have hp : amount ≤ 0 := by simpa [Admits, hc] using h
      exact ⟨_, by simp only [execute, deposit, requireCreated, hc, if_true, hp]; rfl⟩
    · exact ⟨_, by simp only [execute, deposit, requireCreated, hc]; rfl⟩
  | withdraw amount =>
    by_cases hc : a.created = true
    · by_cases hp : amount ≤ 0
      · exact ⟨_, by simp only [execute, withdraw, requireCreated, hc, if_true, hp]; rfl⟩
      · have hb : amount > a.balance := by
          by_contra hb
          exact h ⟨hc, by omega, by omega⟩
        exact ⟨_, by simp only [execute, withdraw, requireCreated, hc, if_true, hp, if_false, hb]; rfl⟩
    · exact ⟨_, by simp only [execute, withdraw, requireCreated, hc]; rfl⟩

/-- A command succeeds exactly when its checks pass, and then does what `eventOf` and `next` say. -/
theorem execute_eq_ok {a b : BankAccount} {c : Command} {e : AccountEvent} :
    a.execute c = .ok (e, b) ↔ a.Admits c ∧ e = a.eventOf c ∧ b = a.next c := by
  by_cases h : a.Admits c
  · rw [execute_of_admits h, Except.ok.injEq, Prod.mk.injEq]
    constructor
    · rintro ⟨rfl, rfl⟩
      exact ⟨h, rfl, rfl⟩
    · rintro ⟨_, rfl, rfl⟩
      exact ⟨rfl, rfl⟩
  · obtain ⟨x, hx⟩ := execute_of_not_admits h
    rw [hx]
    exact ⟨fun h' => (by cases h'), fun h' => absurd h'.1 h⟩

end BankAccount
end EventSourcing
