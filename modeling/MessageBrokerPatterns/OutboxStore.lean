import MessageBrokerPatterns.PyDict
import Mathlib.Data.List.Nodup

/-!
# The order database of the transactional outbox

`Order` and `OutboxEntry`, the two tables of `create_tables` and the statements that the pattern
executes on them. The tables carry what SQLite enforces: the primary key of `orders`, and the
`AUTOINCREMENT` ids of `outbox`, which only grow. `PyJson` is what the pattern asks of `json` and of
`str` on an amount.

The relay turns a payload into the mapping of `order_created_event`, value by value.
-/

namespace Outbox
open PyText PyDict

/-- A value of a flat JSON object. -/
inductive JsonValue (F : Type) where
  | text (s : String)
  | number (x : F)

class PyJson (F : Type) where
  str : F → String
  dumps : Dict String (JsonValue F) → String
  loads : String → Except PyExc (Dict String (JsonValue F))

structure Order (F : Type) where
  orderId : String
  customerId : String
  amount : F
  createdAt : ℕ
  deriving DecidableEq

structure OutboxEntry where
  orderId : String
  payload : String
  id : Option ℕ := none
  createdAt : ℕ
  deriving DecidableEq

/-- A row of the table `outbox`. -/
structure OutboxRow where
  id : ℕ
  orderId : String
  payload : String
  createdAt : ℕ
  deriving DecidableEq

/-- A row as `poll_outbox` returns it. -/
def OutboxRow.toEntry (r : OutboxRow) : OutboxEntry :=
  { orderId := r.orderId, payload := r.payload, id := some r.id, createdAt := r.createdAt }

section Payload
variable {F : Type}

/-- What `insert_order_with_outbox` passes to `json.dumps`. -/
def orderPayload (order : Order F) : Dict String (JsonValue F) :=
  [("event", .text "order_created"), ("order_id", .text order.orderId),
    ("customer_id", .text order.customerId), ("amount", .number order.amount)]

variable [PyJson F]

/-- `str(v)`. -/
def JsonValue.str : JsonValue F → String
  | .text s => s
  | .number x => PyJson.str x

def strPayload (payload : Dict String (JsonValue F)) : Dict String String :=
  payload.map fun e => (e.1, e.2.str)

def orderCreatedEvent (order : Order F) : Dict String String :=
  [("event", "order_created"), ("order_id", order.orderId), ("customer_id", order.customerId),
    ("amount", PyJson.str order.amount)]

theorem strPayload_orderPayload (order : Order F) :
    strPayload (orderPayload order) = orderCreatedEvent order := rfl

/-- The entry that `insert_order_with_outbox` builds before its transaction. -/
def OutboxEntry.ofOrder (order : Order F) (now : ℕ) : OutboxEntry :=
  { orderId := order.orderId, payload := PyJson.dumps (orderPayload order), createdAt := now }

def OutboxRow.Records (r : OutboxRow) (order : Order F) : Prop :=
  r.orderId = order.orderId ∧ r.payload = PyJson.dumps (orderPayload order)

theorem orderId_of_orderCreatedEvent {order order' : Order F}
    (h : orderCreatedEvent order = orderCreatedEvent order') : order.orderId = order'.orderId := by
  simp only [orderCreatedEvent, List.cons.injEq, Prod.mk.injEq] at h
  exact h.2.1.2

end Payload

structure Tables (F : Type) where
  orders : List (Order F)
  outbox : List OutboxRow
  lastId : ℕ
  primaryKey : (orders.map Order.orderId).Nodup
  sorted : (outbox.map OutboxRow.id).Pairwise (· < ·)
  issued : ∀ r ∈ outbox, r.id ≤ lastId

namespace Tables
variable {F : Type}

def createTables : Tables F where
  orders := []
  outbox := []
  lastId := 0
  primaryKey := List.nodup_nil
  sorted := List.Pairwise.nil
  issued := by simp

def integrityError : PyExc := ⟨"IntegrityError", "UNIQUE constraint failed: orders.order_id"⟩

variable (t : Tables F)

/-- `INSERT INTO orders`. -/
def insertOrder (order : Order F) : Except PyExc (Tables F) :=
  if h : order.orderId ∈ t.orders.map Order.orderId then .error integrityError
  else .ok { t with
    orders := t.orders ++ [order]
    primaryKey := by
      rw [List.map_append, List.map_singleton]
      exact List.nodup_append.mpr ⟨t.primaryKey, List.nodup_singleton _, by
        rintro a ha b hb rfl
        exact h (List.mem_singleton.mp hb ▸ ha)⟩ }

/-- The row that the next `INSERT INTO outbox` writes. -/
def nextRow (entry : OutboxEntry) : OutboxRow :=
  ⟨t.lastId + 1, entry.orderId, entry.payload, entry.createdAt⟩

/-- `INSERT INTO outbox`. -/
def insertOutbox (entry : OutboxEntry) : Tables F where
  orders := t.orders
  outbox := t.outbox ++ [t.nextRow entry]
  lastId := t.lastId + 1
  primaryKey := t.primaryKey
  sorted := by
    rw [List.map_append, List.map_singleton, List.pairwise_append]
    refine ⟨t.sorted, List.pairwise_singleton _ _, fun a ha b hb => ?_⟩
    obtain ⟨r, hr, rfl⟩ := List.mem_map.mp ha
    obtain rfl := List.mem_singleton.mp hb
    exact Nat.lt_succ_of_le (t.issued r hr)
  issued := by
    intro r hr
    rcases List.mem_append.mp hr with hr | hr
    · exact (t.issued r hr).trans (Nat.le_succ _)
    · obtain rfl := List.mem_singleton.mp hr
      exact le_rfl

def pollOutbox (limit : ℕ := 10) : List OutboxEntry := (t.outbox.take limit).map OutboxRow.toEntry

def deleteOutboxEntry (entryId : ℕ) : Tables F where
  orders := t.orders
  outbox := t.outbox.filter fun r => r.id ≠ entryId
  lastId := t.lastId
  primaryKey := t.primaryKey
  sorted := t.sorted.sublist (List.filter_sublist.map _)
  issued r hr := t.issued r (List.mem_of_mem_filter hr)

variable {t}

theorem insertOrder_eq_ok {t' : Tables F} {order : Order F} (h : t.insertOrder order = .ok t') :
    t'.orders = t.orders ++ [order] ∧ t'.outbox = t.outbox ∧ t'.lastId = t.lastId := by
  unfold insertOrder at h
  split_ifs at h with hmem
  cases h
  exact ⟨rfl, rfl, rfl⟩

/-- `orders` refuses an order exactly when it has a row with its id. -/
theorem insertOrder_eq_error {order : Order F} {exc : PyExc} :
    t.insertOrder order = .error exc ↔
      exc = integrityError ∧ ∃ row ∈ t.orders, row.orderId = order.orderId := by
  unfold insertOrder
  split_ifs with hmem
  · rw [Except.error.injEq, eq_comm]
    exact (and_iff_left (List.mem_map.mp hmem)).symm
  · constructor
    · intro h
      cases h
    · rintro ⟨-, hrow⟩
      exact absurd (List.mem_map.mpr hrow) hmem

@[simp] theorem outbox_insertOutbox (entry : OutboxEntry) :
    (t.insertOutbox entry).outbox = t.outbox ++ [t.nextRow entry] := rfl

@[simp] theorem lastId_insertOutbox (entry : OutboxEntry) :
    (t.insertOutbox entry).lastId = t.lastId + 1 := rfl

theorem mem_outbox_deleteOutboxEntry {entryId : ℕ} {r : OutboxRow} :
    r ∈ (t.deleteOutboxEntry entryId).outbox ↔ r ∈ t.outbox ∧ r.id ≠ entryId := by
  simp [deleteOutboxEntry]

theorem outbox_deleteOutboxEntry_head {r : OutboxRow} {rs : List OutboxRow}
    (h : t.outbox = r :: rs) : (t.deleteOutboxEntry r.id).outbox = rs := by
  have hs := t.sorted
  rw [h, List.map_cons, List.pairwise_cons] at hs
  have hkeep : rs.filter (fun q => q.id ≠ r.id) = rs := by
    apply List.filter_eq_self.mpr
    intro q hq
    have hlt := hs.1 q.id (List.mem_map.mpr ⟨q, hq, rfl⟩)
    simpa using hlt.ne'
  change t.outbox.filter _ = rs
  rw [h, List.filter_cons_of_neg (by simp), hkeep]

theorem eq_of_mem_outbox {r r' : OutboxRow} (hr : r ∈ t.outbox) (hr' : r' ∈ t.outbox)
    (hid : r.id = r'.id) : r = r' :=
  List.inj_on_of_nodup_map (t.sorted.imp fun h => h.ne) hr hr' hid

theorem mem_of_mem_pollOutbox {limit : ℕ} {e : OutboxEntry} (h : e ∈ t.pollOutbox limit) :
    ∃ r ∈ t.outbox, e = r.toEntry := by
  obtain ⟨r, hr, rfl⟩ := List.mem_map.mp h
  exact ⟨r, List.mem_of_mem_take hr, rfl⟩

theorem pollOutbox_prefix (limit : ℕ) :
    t.pollOutbox limit <+: t.outbox.map OutboxRow.toEntry :=
  (List.take_prefix _ _).map _

theorem outbox_of_pollOutbox_nil (h : t.pollOutbox = []) : t.outbox = [] := by
  have htake : t.outbox.take 10 = [] := List.map_eq_nil_iff.mp h
  cases ho : t.outbox with
  | nil => rfl
  | cons r rs =>
    rw [ho] at htake
    cases htake

/-- Orders stay, and new rows have new ids. -/
structure Grows (t t' : Tables F) : Prop where
  orders : ∀ order ∈ t.orders, order ∈ t'.orders
  lastId : t.lastId ≤ t'.lastId
  outbox : ∀ r ∈ t'.outbox, r ∈ t.outbox ∨ t.lastId < r.id

theorem Grows.refl (t : Tables F) : t.Grows t where
  orders _ h := h
  lastId := le_rfl
  outbox _ h := Or.inl h

theorem grows_deleteOutboxEntry (t : Tables F) (entryId : ℕ) :
    t.Grows (t.deleteOutboxEntry entryId) where
  orders _ h := h
  lastId := le_rfl
  outbox _ h := Or.inl (mem_outbox_deleteOutboxEntry.mp h).1

end Tables
end Outbox
