import MessageBrokerPatterns.AccountCommands

/-!
# The state-only account store

`naive.py` keeps one row of the table `accounts` per account and overwrites its balance. A
statement inside `with conn` is committed when the block returns and rolled back when it raises; a
parameter outside the signed 64-bit range is refused before anything is written. The store and the
event-sourced aggregate are driven by the same commands: as long as every balance fits a column,
they accept alike and agree on today's balance.
-/

namespace EventSourcing.Naive
open PyText PyDict

/-- A row of `accounts` without its primary key. -/
structure Row where
  ownerId : String
  balance : ℤ
  updatedAt : String
  deriving DecidableEq, Repr

/-- The table `accounts`, with what its primary key enforces. -/
structure Accounts where
  rows : Dict String Row
  primaryKey : (keys rows).Nodup

/-- A connection between two statements: the committed table, and the one its statements see. -/
structure Connection where
  committed : Accounts
  current : Accounts

/-- What SQLite can store in an `INTEGER` column. -/
def FitsInteger (n : ℤ) : Prop := -2 ^ 63 ≤ n ∧ n < 2 ^ 63

instance decidableFitsInteger (n : ℤ) : Decidable (FitsInteger n) :=
  inferInstanceAs (Decidable (_ ∧ _))

def integrityError : PyExc := ⟨"IntegrityError", "UNIQUE constraint failed: accounts.account_id"⟩

def overflowError : PyExc := ⟨"OverflowError", "Python int too large to convert to SQLite INTEGER"⟩

def accountNotFoundError (accountId : String) : PyExc := ⟨"AccountNotFoundError", accountId⟩

/-- What an `UPDATE` of one account does to a row. -/
def overwrite (accountId : String) (balance : ℤ) (now : String) (e : String × Row) : String × Row :=
  if e.1 = accountId then (e.1, { e.2 with balance, updatedAt := now }) else e

theorem fst_overwrite (accountId : String) (balance : ℤ) (now : String) (e : String × Row) :
    (overwrite accountId balance now e).1 = e.1 := by
  rw [overwrite]
  split
  · rfl
  · rfl

theorem keys_map_overwrite (accountId : String) (balance : ℤ) (now : String)
    (rows : Dict String Row) : keys (rows.map (overwrite accountId balance now)) = keys rows := by
  rw [keys, List.map_map]
  exact List.map_congr_left fun e _ => fst_overwrite accountId balance now e

theorem get?_map_overwrite (accountId : String) (balance : ℤ) (now : String)
    (rows : Dict String Row) :
    get? (rows.map (overwrite accountId balance now)) accountId =
      (get? rows accountId).map fun row => { row with balance, updatedAt := now } := by
  induction rows with
  | nil => rfl
  | cons e rows ih =>
    rw [List.map_cons, get?_cons, get?_cons, ih, fst_overwrite]
    by_cases h : e.1 = accountId
    · rw [if_pos h, if_pos h, overwrite, if_pos h]
      rfl
    · rw [if_neg h, if_neg h]

def createAccountsTable : Accounts := ⟨[], List.nodup_nil⟩

namespace Accounts
variable (t : Accounts)

/-- `INSERT INTO accounts`. -/
def insert (accountId : String) (row : Row) : Except PyExc Accounts :=
  if accountId ∈ keys t.rows then .error integrityError
  else .ok ⟨assign t.rows accountId row, nodup_keys_assign t.primaryKey accountId row⟩

/-- `UPDATE accounts SET balance = ?, updated_at = ? WHERE account_id = ?`. -/
def update (accountId : String) (balance : ℤ) (now : String) : Except PyExc Accounts :=
  if FitsInteger balance then
    .ok ⟨t.rows.map (overwrite accountId balance now), by
      rw [keys_map_overwrite]
      exact t.primaryKey⟩
  else .error overflowError

theorem update_of_fits {balance : ℤ} (accountId : String) (h : FitsInteger balance) (now : String) :
    ∃ t', t.update accountId balance now = .ok t' ∧
      t'.rows = t.rows.map (overwrite accountId balance now) :=
  ⟨_, if_pos h, rfl⟩

theorem insert_of_absent {accountId : String} (h : get? t.rows accountId = none) (row : Row) :
    ∃ t', t.insert accountId row = .ok t' ∧ t'.rows = assign t.rows accountId row :=
  ⟨_, if_neg (get?_eq_none.mp h), rfl⟩

theorem insert_of_present {accountId : String} {old : Row} (h : get? t.rows accountId = some old)
    (row : Row) : t.insert accountId row = .error integrityError := by
  apply if_pos
  by_contra hno
  rw [get?_eq_none.mpr hno] at h
  cases h

end Accounts

/-- The block `with conn: …`. -/
def withConn (conn : Connection) (body : Accounts → Except PyExc Accounts) :
    Except PyExc Unit × Connection :=
  match body conn.current with
  | .ok t => (.ok (), ⟨t, t⟩)
  | .error x => (.error x, ⟨conn.committed, conn.committed⟩)

def createAccount (conn : Connection) (accountId ownerId now : String) :
    Except PyExc Unit × Connection :=
  withConn conn fun t => t.insert accountId { ownerId, balance := 0, updatedAt := now }

/-- The lossy write. -/
def overwriteBalance (conn : Connection) (accountId : String) (newBalance : ℤ) (now : String) :
    Except PyExc ℤ × Connection :=
  match withConn conn fun t => t.update accountId newBalance now with
  | (.ok (), conn') => (.ok newBalance, conn')
  | (.error x, conn') => (.error x, conn')

def getBalance (conn : Connection) (accountId : String) : Except PyExc ℤ :=
  match get? conn.current.rows accountId with
  | some row => .ok row.balance
  | none => .error (accountNotFoundError accountId)

def deposit (conn : Connection) (accountId : String) (amount : ℤ) (now : String) :
    Except PyExc ℤ × Connection :=
  if amount ≤ 0 then (.error (valueError "Deposit amount must be positive"), conn)
  else
    match getBalance conn accountId with
    | .error x => (.error x, conn)
    | .ok balance => overwriteBalance conn accountId (balance + amount) now

def withdraw (conn : Connection) (accountId : String) (amount : ℤ) (now : String) :
    Except PyExc ℤ × Connection :=
  if amount ≤ 0 then (.error (valueError "Withdrawal amount must be positive"), conn)
  else
    match getBalance conn accountId with
    | .error x => (.error x, conn)
    | .ok balance =>
      if amount > balance then
        (.error (insufficientFundsError
          ("Cannot withdraw " ++ pyStr amount ++ " from balance " ++ pyStr balance)), conn)
      else overwriteBalance conn accountId (balance - amount) now

/-- A command as the caller sees it, `now` being the clock text a write records. A creation
returns `None`. -/
def execute (conn : Connection) (accountId now : String) :
    Command → Except PyExc (Option ℤ) × Connection
  | .create ownerId => (createAccount conn accountId ownerId now).map (·.map fun _ => none) id
  | .deposit amount => (deposit conn accountId amount now).map (·.map some) id
  | .withdraw amount => (withdraw conn accountId amount now).map (·.map some) id

def runOn (conn : Connection) (accountId : String) (cs : List (Command × String)) :
    Connection :=
  cs.foldl (fun conn c => (execute conn accountId c.2 c.1).2) conn

/-- The row of the account, where there is one, shows the aggregate's balance and is committed. -/
def Agrees (conn : Connection) (accountId : String) (a : BankAccount) : Prop :=
  match get? conn.current.rows accountId with
  | none => a.created = false ∧ a.balance = 0
  | some row => a.created = true ∧ row.balance = a.balance ∧ conn.committed = conn.current

theorem getBalance_of_agrees {conn : Connection} {accountId : String} {a : BankAccount}
    (h : Agrees conn accountId a) :
    getBalance conn accountId =
      if a.created then .ok a.balance else .error (accountNotFoundError accountId) := by
  rw [Agrees] at h
  rw [getBalance]
  cases hrow : get? conn.current.rows accountId with
  | none =>
    rw [hrow] at h
    simp only [h.1]
    rfl
  | some row =>
    rw [hrow] at h
    obtain ⟨hc, hb, _⟩ := h
    simp only [hc, hb]
    rfl

theorem overwriteBalance_of_agrees {conn : Connection} {accountId : String} {a b : BankAccount}
    (h : Agrees conn accountId a) (ha : a.created = true) (hb : b.created = true)
    (hfit : FitsInteger b.balance) (now : String) :
    ∃ conn', overwriteBalance conn accountId b.balance now = (.ok b.balance, conn') ∧
      Agrees conn' accountId b := by
  obtain ⟨t, ht, hrows⟩ := conn.current.update_of_fits accountId hfit now
  refine ⟨⟨t, t⟩, by simp only [overwriteBalance, withConn, ht], ?_⟩
  rw [Agrees] at h ⊢
  rw [hrows, get?_map_overwrite]
  cases hrow : get? conn.current.rows accountId with
  | none =>
    rw [hrow] at h
    exact absurd (h.1.symm.trans ha) Bool.false_ne_true
  | some row => exact ⟨hb, rfl, rfl⟩

theorem get?_of_agrees {conn : Connection} {accountId : String} {a : BankAccount}
    (h : Agrees conn accountId a) (ha : a.created = false) :
    get? conn.current.rows accountId = none ∧ a.balance = 0 := by
  rw [Agrees] at h
  cases hrow : get? conn.current.rows accountId with
  | none =>
    rw [hrow] at h
    exact ⟨rfl, h.2⟩
  | some row =>
    rw [hrow] at h
    exact absurd (ha.symm.trans h.1) Bool.false_ne_true

theorem createAccount_of_agrees {conn : Connection} {accountId : String} {a b : BankAccount}
    (h : Agrees conn accountId a) (ha : a.created = false) (hb : b.created = true)
    (hbal : b.balance = a.balance) (ownerId now : String) :
    ∃ conn', createAccount conn accountId ownerId now = (.ok (), conn') ∧
      Agrees conn' accountId b := by
  obtain ⟨hrow, hzero⟩ := get?_of_agrees h ha
  obtain ⟨t, ht, hrows⟩ :=
    conn.current.insert_of_absent hrow { ownerId, balance := 0, updatedAt := now }
  refine ⟨⟨t, t⟩, by simp only [createAccount, withConn, ht], ?_⟩
  rw [Agrees, hrows, get?_assign, if_pos rfl]
  exact ⟨hb, (hbal.trans hzero).symm, rfl⟩

/-- A second creation violates the primary key, and the rollback changes nothing. -/
theorem createAccount_rejected {conn : Connection} {accountId : String} {a : BankAccount}
    (h : Agrees conn accountId a) (ha : a.created = true) (ownerId now : String) :
    createAccount conn accountId ownerId now = (.error integrityError, conn) := by
  rw [Agrees] at h
  cases hrow : get? conn.current.rows accountId with
  | none =>
    rw [hrow] at h
    exact absurd (h.1.symm.trans ha) Bool.false_ne_true
  | some row =>
    rw [hrow] at h
    have hraise := conn.current.insert_of_present hrow { ownerId, balance := 0, updatedAt := now }
    simp only [createAccount, withConn, hraise]
    exact congrArg (fun t => (Except.error integrityError, Connection.mk conn.committed t)) h.2.2

/-- What the aggregate admits, the store accepts, and they agree afterwards. -/
theorem execute_of_admits {conn : Connection} {accountId : String} {a : BankAccount} {c : Command}
    (h : Agrees conn accountId a) (hc : a.Admits c) (hfit : FitsInteger (a.next c).balance)
    (now : String) :
    ∃ r conn', execute conn accountId now c = (.ok r, conn') ∧
      Agrees conn' accountId (a.next c) := by
  cases c with
  | create ownerId =>
    obtain ⟨conn', hrun, hagree⟩ := createAccount_of_agrees (b := a.next (.create ownerId)) h hc rfl
      rfl ownerId now
    exact ⟨none, conn', by rw [execute, hrun]; rfl, hagree⟩
  | deposit amount =>
    obtain ⟨ha, hp⟩ : a.created = true ∧ 0 < amount := hc
    obtain ⟨conn', hrun, hagree⟩ :=
      overwriteBalance_of_agrees (b := a.next (.deposit amount)) h ha ha hfit now
    refine ⟨some (a.balance + amount), conn', ?_, hagree⟩
    simp only [execute, deposit, if_neg (not_le.mpr hp), getBalance_of_agrees h, if_pos ha]
    rw [show overwriteBalance conn accountId (a.balance + amount) now = _ from hrun]
    rfl
  | withdraw amount =>
    obtain ⟨ha, hp, hb⟩ : a.created = true ∧ 0 < amount ∧ amount ≤ a.balance := hc
    obtain ⟨conn', hrun, hagree⟩ :=
      overwriteBalance_of_agrees (b := a.next (.withdraw amount)) h ha ha hfit now
    refine ⟨some (a.balance - amount), conn', ?_, hagree⟩
    simp only [execute, withdraw, if_neg (not_le.mpr hp), getBalance_of_agrees h, if_pos ha,
      gt_iff_lt, if_neg (not_lt.mpr hb)]
    rw [show overwriteBalance conn accountId (a.balance - amount) now = _ from hrun]
    rfl

theorem execute_of_not_admits {conn : Connection} {accountId : String} {a : BankAccount}
    {c : Command} (h : Agrees conn accountId a) (hc : ¬ a.Admits c) (now : String) :
    ∃ x, execute conn accountId now c = (.error x, conn) := by
  cases c with
  | create ownerId =>
    have ha : a.created = true := by simpa [BankAccount.Admits] using hc
    exact ⟨integrityError, by rw [execute, createAccount_rejected h ha]; rfl⟩
  | deposit amount =>
    by_cases hp : amount ≤ 0
    · exact ⟨_, by rw [execute, deposit, if_pos hp]; rfl⟩
    · have ha : ¬ a.created = true := fun ha => hc ⟨ha, not_le.mp hp⟩
      exact ⟨_, by rw [execute, deposit, if_neg hp, getBalance_of_agrees h, if_neg ha]; rfl⟩
  | withdraw amount =>
    by_cases hp : amount ≤ 0
    · exact ⟨_, by rw [execute, withdraw, if_pos hp]; rfl⟩
    · by_cases ha : a.created = true
      · have hb : amount > a.balance := by
          by_contra hb
          exact hc ⟨ha, not_le.mp hp, not_lt.mp hb⟩
        refine ⟨insufficientFundsError
          ("Cannot withdraw " ++ pyStr amount ++ " from balance " ++ pyStr a.balance), ?_⟩
        simp only [execute, withdraw, if_neg hp, getBalance_of_agrees h, if_pos ha, if_pos hb]
        rfl
      · exact ⟨_, by rw [execute, withdraw, if_neg hp, getBalance_of_agrees h, if_neg ha]; rfl⟩

theorem session_append (accountId : String) (cs : List Command) (c : Command) :
    session accountId (cs ++ [c]) = (session accountId cs).issue c := by
  rw [session, List.foldl_append]
  rfl

theorem account_session (accountId : String) (cs : List Command) :
    (session accountId cs).account =
      cs.foldl (fun a c => if a.Admits c then a.next c else a) { accountId } := by
  induction cs using List.reverseRecOn with
  | nil => rfl
  | append_singleton cs c ih =>
    rw [session_append, List.foldl_append, ← ih]
    by_cases hc : (session accountId cs).account.Admits c
    · rw [issue_of_admits hc]
      exact (if_pos hc).symm
    · rw [issue_of_not_admits hc]
      exact (if_neg hc).symm

theorem runOn_append (conn : Connection) (accountId : String) (cs : List (Command × String))
    (c : Command × String) :
    runOn conn accountId (cs ++ [c]) = (execute (runOn conn accountId cs) accountId c.2 c.1).2 := by
  rw [runOn, List.foldl_append]
  rfl

theorem agrees_runOn {conn : Connection} {accountId : String}
    (hnew : accountId ∉ keys conn.current.rows) (cs : List (Command × String))
    (hfit : ∀ p, p <+: cs → FitsInteger (session accountId (p.map Prod.fst)).account.balance) :
    Agrees (runOn conn accountId cs) accountId (session accountId (cs.map Prod.fst)).account := by
  induction cs using List.reverseRecOn with
  | nil =>
    show Agrees conn accountId { accountId }
    rw [Agrees, get?_eq_none.mpr hnew]
    exact ⟨rfl, rfl⟩
  | append_singleton cs c ih =>
    have hagree := ih fun p hp => hfit p (hp.trans (List.prefix_append cs [c]))
    have hlast := hfit (cs ++ [c]) List.prefix_rfl
    rw [List.map_append, List.map_singleton, session_append] at hlast ⊢
    rw [runOn_append]
    by_cases hc : (session accountId (cs.map Prod.fst)).account.Admits c.1
    · rw [issue_of_admits hc] at hlast ⊢
      obtain ⟨r, conn', hrun, hnext⟩ := execute_of_admits hagree hc hlast c.2
      rw [hrun]
      exact hnext
    · obtain ⟨x, hrun⟩ := execute_of_not_admits hagree hc c.2
      rw [hrun, issue_of_not_admits hc]
      exact hagree

/-- A command raises on the store exactly when it raises on the aggregate, and then changes
neither; today's balance is the same wherever the account exists. -/
theorem naive_agrees (conn : Connection) (accountId : String)
    (hnew : accountId ∉ keys conn.current.rows) (cs : List (Command × String))
    (hfit : ∀ p, p <+: cs → FitsInteger (session accountId (p.map Prod.fst)).account.balance) :
    (∀ p c, p ++ [c] <+: cs →
      let conn' := runOn conn accountId p
      let s := session accountId (p.map Prod.fst)
      ((∃ r, (execute conn' accountId c.2 c.1).1 = .ok r) ↔
        ∃ e, ((InPlace.execute c.1).run.run s.account).1 = .ok e) ∧
      (∀ x, (execute conn' accountId c.2 c.1).1 = .error x →
        (execute conn' accountId c.2 c.1).2 = conn' ∧
        ((InPlace.execute c.1).run.run s.account).2 = s.account)) ∧
    ∀ p, p <+: cs →
      let a := (session accountId (p.map Prod.fst)).account
      getBalance (runOn conn accountId p) accountId =
        if a.created then .ok a.balance else .error (accountNotFoundError accountId) := by
  have hagree : ∀ p, p <+: cs →
      Agrees (runOn conn accountId p) accountId (session accountId (p.map Prod.fst)).account :=
    fun p hp => agrees_runOn hnew p fun q hq => hfit q (hq.trans hp)
  refine ⟨?_, fun p hp => getBalance_of_agrees (hagree p hp)⟩
  intro p c hp conn' s
  have hrel : Agrees conn' accountId s.account := hagree p ((List.prefix_append p [c]).trans hp)
  rw [InPlace.run_execute]
  by_cases hc : s.account.Admits c.1
  · have hnext := hfit (p ++ [c]) hp
    rw [List.map_append, List.map_singleton, session_append, issue_of_admits hc] at hnext
    obtain ⟨r, conn'', hrun, _⟩ := execute_of_admits hrel hc hnext c.2
    rw [hrun, BankAccount.execute_of_admits hc]
    exact ⟨⟨fun _ => ⟨_, rfl⟩, fun _ => ⟨r, rfl⟩⟩, fun x hx => by cases hx⟩
  · obtain ⟨x, hrun⟩ := execute_of_not_admits hrel hc c.2
    obtain ⟨y, hy⟩ := BankAccount.execute_of_not_admits hc
    rw [hrun, hy]
    exact ⟨⟨fun ⟨_, h⟩ => (by cases h), fun ⟨_, h⟩ => (by cases h)⟩, fun _ _ => ⟨rfl, rfl⟩⟩

theorem naive_agrees_demo :
    getBalance (runOn ⟨createAccountsTable, createAccountsTable⟩ "acc-1"
      [(.deposit 5, "t0"), (.create "owner-1", "t1"), (.deposit 1000, "t2"), (.withdraw 5000, "t3"),
        (.withdraw 300, "t4")]) "acc-1" = .ok 700 := by
  have hfit : ∀ p, p <+: [(Command.deposit 5, "t0"), (.create "owner-1", "t1"), (.deposit 1000, "t2"),
      (.withdraw 5000, "t3"), (.withdraw 300, "t4")] →
      FitsInteger (session "acc-1" (p.map Prod.fst)).account.balance := by
    intro p hp
    rw [account_session]
    rw [← List.mem_inits] at hp
    revert p
    decide
  have hagree := (naive_agrees ⟨createAccountsTable, createAccountsTable⟩ "acc-1" (by decide) _
    hfit).2 _ List.prefix_rfl
  rw [hagree, account_session]
  decide

end EventSourcing.Naive
