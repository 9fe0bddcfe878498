import MessageBrokerPatterns.PyDict

/-!
# Account events and their wire format

The three domain events of the account stream, each with its own `to_dict` and `from_dict`, and
`decode_event`, which decodes every key and value of a raw entry and dispatches on `event_type`.
-/

namespace EventSourcing
open PyText PyDict

def accountStream (accountId : String) : String := "account:" ++ accountId ++ ":events"

structure AccountCreated where
  eventType : String := "AccountCreated"
  accountId : String := ""
  ownerId : String := ""
  deriving DecidableEq, Repr

structure MoneyDeposited where
  eventType : String := "MoneyDeposited"
  accountId : String := ""
  amount : String := ""
  deriving DecidableEq, Repr

structure MoneyWithdrawn where
  eventType : String := "MoneyWithdrawn"
  accountId : String := ""
  amount : String := ""
  deriving DecidableEq, Repr

def AccountCreated.toDict (e : AccountCreated) : Dict String String :=
  [("event_type", e.eventType), ("account_id", e.accountId), ("owner_id", e.ownerId)]

def MoneyDeposited.toDict (e : MoneyDeposited) : Dict String String :=
  [("event_type", e.eventType), ("account_id", e.accountId), ("amount", e.amount)]

def MoneyWithdrawn.toDict (e : MoneyWithdrawn) : Dict String String :=
  [("event_type", e.eventType), ("account_id", e.accountId), ("amount", e.amount)]

def AccountCreated.fromDict (data : Dict String String) : Except PyExc AccountCreated := do
  let accountId ← getItem data "account_id"
  let ownerId ← getItem data "owner_id"
  return { accountId, ownerId }

def MoneyDeposited.fromDict (data : Dict String String) : Except PyExc MoneyDeposited := do
  let accountId ← getItem data "account_id"
  let amount ← getItem data "amount"
  return { accountId, amount }

def MoneyWithdrawn.fromDict (data : Dict String String) : Except PyExc MoneyWithdrawn := do
  let accountId ← getItem data "account_id"
  let amount ← getItem data "amount"
  return { accountId, amount }

inductive AccountEvent where
  | created (e : AccountCreated)
  | deposited (e : MoneyDeposited)
  | withdrawn (e : MoneyWithdrawn)
  deriving DecidableEq, Repr

def AccountEvent.eventType : AccountEvent → String
  | .created e => e.eventType
  | .deposited e => e.eventType
  | .withdrawn e => e.eventType

def AccountEvent.toDict : AccountEvent → Dict String String
  | .created e => e.toDict
  | .deposited e => e.toDict
  | .withdrawn e => e.toDict

def decodeEvent (raw : Fields) : Except PyExc AccountEvent := do
  let data ← decodeFields raw
  let eventType := (get? data "event_type").getD ""
  match eventType with
  | "AccountCreated" => (AccountCreated.fromDict data).map .created
  | "MoneyDeposited" => (MoneyDeposited.fromDict data).map .deposited
  | "MoneyWithdrawn" => (MoneyWithdrawn.fromDict data).map .withdrawn
  | other => .error (valueError ("Unknown event_type: '" ++ other ++ "'"))

/-- The fields `EventStore.append` writes: `{"event_type": event_type, **payload}`. -/
def eventFields (eventType : String) (payload : Dict String String) : Dict String String :=
  merge [("event_type", eventType)] payload

def AccountEvent.Typed : AccountEvent → Prop
  | .created e => e.eventType = "AccountCreated"
  | .deposited e => e.eventType = "MoneyDeposited"
  | .withdrawn e => e.eventType = "MoneyWithdrawn"

theorem decodeEvent_append {e : AccountEvent} (he : e.Typed) :
    decodeEvent (encodeFields (eventFields e.eventType e.toDict)) = .ok e := by
  cases e with
  | created e =>
    obtain ⟨t, a, o⟩ := e
    cases he
    simp [decodeEvent, eventFields, merge, assign, AccountEvent.eventType, AccountEvent.toDict,
      AccountCreated.toDict, AccountCreated.fromDict, getItem, Except.map]
    rfl
  | deposited e =>
    obtain ⟨t, a, m⟩ := e
    cases he
    simp [decodeEvent, eventFields, merge, assign, AccountEvent.eventType, AccountEvent.toDict,
      MoneyDeposited.toDict, MoneyDeposited.fromDict, getItem]
    rfl
  | withdrawn e =>
    obtain ⟨t, a, m⟩ := e
    cases he
    simp [decodeEvent, eventFields, merge, assign, AccountEvent.eventType, AccountEvent.toDict,
      MoneyWithdrawn.toDict, MoneyWithdrawn.fromDict, getItem]
    rfl

end EventSourcing
