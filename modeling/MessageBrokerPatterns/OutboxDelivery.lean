import MessageBrokerPatterns.OutboxRelay
import MessageBrokerPatterns.Slots

/-!
# No lost and no ghost order event

Whatever writers and relays do, and wherever they stop, an order of the database has its outbox row
or its event is on the stream, and rows and events belong to orders of the database. The database
and the stream share no transaction: a relay may hold entries that others have deleted in the
meantime, so the invariant speaks about every entry that some relay holds. An id is not issued
twice, hence a row with the id of a held entry is the row that was polled.
-/

namespace Outbox
open PyText PyDict ActionRun
variable {F : Type} [PyJson F]

/-- `json.loads` undoes `json.dumps` on the payload of the order. -/
def RoundTrips (order : Order F) : Prop :=
  PyJson.loads (PyJson.dumps (orderPayload order)) = .ok (orderPayload order)

theorem OutboxRow.Records.entryFields {r : OutboxRow} {order : Order F} (h : r.Records order)
    (hjson : RoundTrips order) :
    Relay.entryFields F r.toEntry = .ok (orderCreatedEvent order) := by
  have hpayload : r.toEntry.payload = PyJson.dumps (orderPayload order) := h.2
  simp only [Relay.entryFields, hpayload]
  rw [hjson]
  rfl

/-- The entry was read from a row of an order of the database, and no other row has its id. -/
def Tables.Issued (db : Tables F) (entry : OutboxEntry) : Prop :=
  ∃ r, entry = r.toEntry ∧ (∃ order ∈ db.orders, r.Records order) ∧ r.id ≤ db.lastId ∧
    ∀ q ∈ db.outbox, q.id = r.id → q = r

theorem Tables.Issued.mono {db db' : Tables F} {entry : OutboxEntry} (h : db.Issued entry)
    (hg : db.Grows db') : db'.Issued entry := by
  obtain ⟨r, rfl, ⟨order, ho, hr⟩, hid, huniq⟩ := h
  refine ⟨r, rfl, ⟨order, hg.orders order ho, hr⟩, hid.trans hg.lastId, fun q hq hqid => ?_⟩
  rcases hg.outbox q hq with hq | hq
  · exact huniq q hq hqid
  · omega

theorem Tables.issued_of_mem {db : Tables F} {r : OutboxRow} (hr : r ∈ db.outbox)
    (ho : ∃ order ∈ db.orders, r.Records order) : db.Issued r.toEntry :=
  ⟨r, rfl, ho, db.issued r hr, fun _ hq hid => eq_of_mem_outbox hq hr hid⟩

namespace Relay

/-- The polled entries whose `DELETE` lies ahead. -/
def entries (k : Relay) : List OutboxEntry :=
  match k.pc with
  | .publish entry _ rest => entry :: rest
  | .delete entry rest => entry :: rest
  | _ => []

/-- What the relay holds is issued, and what it deletes next is on the stream. -/
structure Fits (k : Relay) (db : Tables F) (stream : List Fields) : Prop where
  issued : ∀ entry ∈ k.entries, db.Issued entry
  payload : ∀ entry payload rest, k.pc = .publish entry payload rest →
    entryFields F entry = .ok payload
  published : ∀ entry rest, k.pc = .delete entry rest →
    ∃ payload, entryFields F entry = .ok payload ∧ encodeFields payload ∈ stream

theorem Fits.mono {k : Relay} {db db' : Tables F} {stream : List Fields} (h : k.Fits db stream)
    (hg : db.Grows db') (more : List Fields) : k.Fits db' (stream ++ more) where
  issued entry he := (h.issued entry he).mono hg
  payload := h.payload
  published entry rest hpc := by
    obtain ⟨payload, hp, hmem⟩ := h.published entry rest hpc
    exact ⟨payload, hp, List.mem_append_left _ hmem⟩

theorem fits_of_idle {k : Relay} {db : Tables F} {stream : List Fields}
    (hp : ∀ entry payload rest, k.pc ≠ .publish entry payload rest)
    (hd : ∀ entry rest, k.pc ≠ .delete entry rest) : k.Fits db stream := by
  constructor
  · intro entry he
    unfold entries at he
    split at he
    · rename_i hpc
      exact absurd hpc (hp _ _ _)
    · rename_i hpc
      exact absurd hpc (hd _ _)
    · cases he
  · intro entry payload rest hpc
    exact absurd hpc (hp _ _ _)
  · intro entry rest hpc
    exact absurd hpc (hd _ _)

theorem fits_forEntries (k : Relay) {db : Tables F} {stream : List Fields}
    {page : List OutboxEntry} (h : ∀ entry ∈ page, db.Issued entry) :
    (k.forEntries F page).Fits db stream := by
  cases page with
  | nil => exact fits_of_idle (fun _ _ _ hpc => by cases hpc) fun _ _ hpc => by cases hpc
  | cons entry rest =>
    cases hf : entryFields F entry with
    | error exc =>
      simp only [forEntries, hf]
      exact fits_of_idle (fun _ _ _ hpc => by cases hpc) fun _ _ hpc => by cases hpc
    | ok payload =>
      simp only [forEntries, hf]
      constructor
      · exact h
      · intro e p r hpc
        cases hpc
        exact hf
      · intro e r hpc
        cases hpc

end Relay

/-- The transaction adds the row of its order and at most the outbox row recording it. -/
structure Transaction.Extends (t : Transaction F) (db : Tables F) : Prop where
  roundTrips : RoundTrips t.order
  orders : t.working.orders = db.orders ++ [t.order]
  entry : t.entry.orderId = t.order.orderId ∧ t.entry.payload = PyJson.dumps (orderPayload t.order)
  rows : t.entry.id = none ∧ t.working.outbox = db.outbox ∧ t.working.lastId = db.lastId ∨
    ∃ r : OutboxRow, t.entry = r.toEntry ∧ r.id = db.lastId + 1 ∧
      t.working.outbox = db.outbox ++ [r] ∧ t.working.lastId = db.lastId + 1

theorem Transaction.extends_insertOrder {db working : Tables F} {order : Order F} {now : ℕ}
    (h : db.insertOrder order = .ok working) (hjson : RoundTrips order) :
    Transaction.Extends ⟨order, .ofOrder order now, working⟩ db := by
  obtain ⟨ho, hx, hl⟩ := Tables.insertOrder_eq_ok h
  exact ⟨hjson, ho, ⟨rfl, rfl⟩, Or.inl ⟨rfl, hx, hl⟩⟩

theorem Transaction.Extends.insertOutbox {t : Transaction F} {db : Tables F} (h : t.Extends db)
    (hid : t.entry.id = none) : t.insertOutbox.Extends db := by
  rcases h.rows with ⟨-, hx, hl⟩ | ⟨r, hr, -⟩
  · refine ⟨h.roundTrips, h.orders, h.entry, Or.inr ⟨t.working.nextRow t.entry, rfl, ?_, ?_, ?_⟩⟩
    · rw [Tables.nextRow, hl]
    · rw [Transaction.insertOutbox, Tables.outbox_insertOutbox, hx]
    · rw [Transaction.insertOutbox, Tables.lastId_insertOutbox, hl]
  · rw [hr] at hid
    cases hid

theorem Transaction.Extends.row {t : Transaction F} {db : Tables F} (h : t.Extends db)
    (hid : t.entry.id ≠ none) :
    ∃ r : OutboxRow, t.entry = r.toEntry ∧ r.Records t.order ∧ r.id = db.lastId + 1 ∧
      t.working.outbox = db.outbox ++ [r] ∧ t.working.lastId = db.lastId + 1 := by
  rcases h.rows with ⟨hnone, -⟩ | ⟨r, hr, hrest⟩
  · exact absurd hnone hid
  · refine ⟨r, hr, ?_, hrest⟩
    have he := h.entry
    rw [hr] at he
    exact he

theorem Transaction.Extends.grows {t : Transaction F} {db : Tables F} (h : t.Extends db)
    (hid : t.entry.id ≠ none) : db.Grows t.working := by
  obtain ⟨r, -, -, hlast, hx, hl⟩ := h.row hid
  constructor
  · intro order ho
    rw [h.orders]
    exact List.mem_append_left _ ho
  · omega
  · intro q hq
    rw [hx] at hq
    rcases List.mem_append.mp hq with hq | hq
    · exact Or.inl hq
    · obtain rfl := List.mem_singleton.mp hq
      exact Or.inr (by omega)

namespace World

/-- Every order is recorded or published, and only orders are. -/
structure Delivers (db : Tables F) (stream : List Fields) : Prop where
  roundTrips : ∀ order ∈ db.orders, RoundTrips order
  covered : ∀ order ∈ db.orders, (∃ r ∈ db.outbox, r.Records order) ∨
    encodeFields (orderCreatedEvent order) ∈ stream
  rows : ∀ r ∈ db.outbox, ∃ order ∈ db.orders, r.Records order
  events : ∀ f ∈ stream, ∃ order ∈ db.orders, f = encodeFields (orderCreatedEvent order)

structure DeliveryInv (w : World F) : Prop where
  delivers : Delivers w.db w.stream
  tx : ∀ t, w.tx = some t → t.Extends w.db
  relays : ∀ i k, w.relays i = some k → k.Fits w.db w.stream

theorem deliveryInv_init : DeliveryInv ({} : World F) where
  delivers := by
    constructor <;> intro x hx <;> cases hx
  tx t h := by cases h
  relays i k h := by cases h

theorem Delivers.publish {db : Tables F} {stream : List Fields} (h : Delivers db stream)
    {entry : OutboxEntry} (he : db.Issued entry) {payload : Dict String String}
    (hp : Relay.entryFields F entry = .ok payload) :
    Delivers db (stream ++ [encodeFields payload]) where
  roundTrips := h.roundTrips
  covered order ho := (h.covered order ho).imp_right (List.mem_append_left _)
  rows := h.rows
  events f hf := by
    rcases List.mem_append.mp hf with hf | hf
    · exact h.events f hf
    · obtain ⟨r, rfl, ⟨order, ho, hr⟩, -⟩ := he
      obtain rfl : orderCreatedEvent order = payload :=
        Except.ok.inj ((hr.entryFields (h.roundTrips order ho)).symm.trans hp)
      exact ⟨order, ho, List.mem_singleton.mp hf⟩

theorem Delivers.delete {db : Tables F} {stream : List Fields} (h : Delivers db stream)
    {entry : OutboxEntry} {entryId : ℕ} (he : db.Issued entry) (hid : entry.id = some entryId)
    {payload : Dict String String} (hp : Relay.entryFields F entry = .ok payload)
    (hmem : encodeFields payload ∈ stream) : Delivers (db.deleteOutboxEntry entryId) stream where
  roundTrips := h.roundTrips
  covered order ho := by
    rcases h.covered order ho with ⟨q, hq, hrec⟩ | hpub
    · by_cases hqid : q.id = entryId
      · obtain ⟨r, rfl, -, -, huniq⟩ := he
        obtain rfl := huniq q hq (hqid.trans (Option.some.inj hid).symm)
        obtain rfl : orderCreatedEvent order = payload :=
          Except.ok.inj ((hrec.entryFields (h.roundTrips order ho)).symm.trans hp)
        exact Or.inr hmem
      · exact Or.inl ⟨q, Tables.mem_outbox_deleteOutboxEntry.mpr ⟨hq, hqid⟩, hrec⟩
    · exact Or.inr hpub
  rows r hr := h.rows r (Tables.mem_outbox_deleteOutboxEntry.mp hr).1
  events := h.events

theorem Delivers.commit {db : Tables F} {stream : List Fields} (h : Delivers db stream)
    {t : Transaction F} (ht : t.Extends db) (hid : t.entry.id ≠ none) :
    Delivers t.working stream := by
  obtain ⟨r, -, hrec, -, hx, -⟩ := ht.row hid
  have hold {order : Order F} (ho : order ∈ db.orders) : order ∈ t.working.orders :=
    (ht.grows hid).orders order ho
  have hnew : t.order ∈ t.working.orders := by
    rw [ht.orders]
    exact List.mem_append_right _ List.mem_cons_self
  have hcases {order : Order F} (ho : order ∈ t.working.orders) :
      order ∈ db.orders ∨ order = t.order := by
    rw [ht.orders] at ho
    exact (List.mem_append.mp ho).imp_right List.mem_singleton.mp
  constructor
  · intro order ho
    rcases hcases ho with ho | rfl
    · exact h.roundTrips order ho
    · exact ht.roundTrips
  · intro order ho
    rw [hx]
    rcases hcases ho with ho | rfl
    · exact (h.covered order ho).imp_left fun ⟨q, hq, hqr⟩ => ⟨q, List.mem_append_left _ hq, hqr⟩
    · exact Or.inl ⟨r, List.mem_append_right _ List.mem_cons_self, hrec⟩
  · intro q hq
    rw [hx] at hq
    rcases List.mem_append.mp hq with hq | hq
    · obtain ⟨order, ho, hqr⟩ := h.rows q hq
      exact ⟨order, hold ho, hqr⟩
    · obtain rfl := List.mem_singleton.mp hq
      exact ⟨t.order, hnew, hrec⟩
  · intro f hf
    obtain ⟨order, ho, hf⟩ := h.events f hf
    exact ⟨order, hold ho, hf⟩

theorem deliveryInv_writer {w w' : World F} (hi : DeliveryInv w) (hdb : w'.db = w.db)
    (hstream : w'.stream = w.stream) (hrelays : w'.relays = w.relays)
    (htx : ∀ t, w'.tx = some t → t.Extends w.db) : DeliveryInv w' where
  delivers := by
    rw [hdb, hstream]
    exact hi.delivers
  tx := by
    rw [hdb]
    exact htx
  relays := by
    rw [hdb, hstream, hrelays]
    exact hi.relays

theorem deliveryInv_relay {w w' : World F} (hi : DeliveryInv w) {i : ℕ} {k : Relay}
    {more : List Fields} (hrelays : w'.relays = Function.update w.relays i (some k))
    (hstream : w'.stream = w.stream ++ more) (hg : w.db.Grows w'.db)
    (htx : ∀ t, w'.tx = some t → t.Extends w'.db) (hd : Delivers w'.db w'.stream)
    (hk : k.Fits w'.db w'.stream) : DeliveryInv w' where
  delivers := hd
  tx := htx
  relays := by
    rw [hrelays]
    refine Slots.forall_update (fun j l hl => ?_) hk
    rw [hstream]
    exact (hi.relays j l hl).mono hg more

theorem deliveryInv_setRelay {w w' : World F} (hi : DeliveryInv w) {i : ℕ} {k : Relay}
    (hrelays : w'.relays = Function.update w.relays i (some k)) (hdb : w'.db = w.db)
    (hstream : w'.stream = w.stream) (htx : w'.tx = w.tx) (hk : k.Fits w.db w.stream) :
    DeliveryInv w' := by
  have hmore : w'.stream = w.stream ++ [] := hstream.trans (List.append_nil _).symm
  apply deliveryInv_relay hi hrelays hmore
  · rw [hdb]
    exact .refl _
  · rw [hdb, htx]
    exact hi.tx
  · rw [hdb, hstream]
    exact hi.delivers
  · rw [hdb, hstream]
    exact hk

theorem deliveryInv_moved {w : World F} (hi : DeliveryInv w) {i : ℕ} {k k' : Relay}
    {db : Tables F} {stream : List Fields} (hk : w.relays i = some k)
    (hfree : k.unsettled ≠ none → w.tx = none) (hm : Move k w.db w.stream k' db stream) :
    DeliveryInv (w.moved i k' db stream) := by
  have hf := hi.relays i k hk
  cases hm with
  | stopped hpc hstop =>
    exact deliveryInv_setRelay hi rfl rfl rfl rfl
      (Relay.fits_of_idle (fun _ _ _ h => by cases h) fun _ _ h => by cases h)
  | polled hpc hstop =>
    refine deliveryInv_setRelay hi rfl rfl rfl rfl (Relay.fits_forEntries k ?_)
    intro entry he
    obtain ⟨r, hr, rfl⟩ := Tables.mem_of_mem_pollOutbox he
    exact Tables.issued_of_mem hr (hi.delivers.rows r hr)
  | published entry payload rest hpc =>
    have he : w.db.Issued entry := hf.issued entry (by simp [Relay.entries, hpc])
    have hp := hf.payload entry payload rest hpc
    refine deliveryInv_relay hi rfl rfl (.refl _) hi.tx (hi.delivers.publish he hp) ?_
    constructor
    · intro e hmem
      exact hf.issued e (by simpa [Relay.entries, hpc] using hmem)
    · intro e p r h
      cases h
    · intro e r h
      cases h
      exact ⟨payload, hp, List.mem_append_right _ List.mem_cons_self⟩
  | deleted entry rest entryId hpc hid =>
    have he : w.db.Issued entry := hf.issued entry (by simp [Relay.entries, hpc])
    obtain ⟨payload, hp, hmem⟩ := hf.published entry rest hpc
    have hg := w.db.grows_deleteOutboxEntry entryId
    have hnone : w.tx = none := hfree (by simp [Relay.unsettled, hpc])
    refine deliveryInv_relay hi rfl (List.append_nil _).symm hg ?_ ?_ ?_
    · intro t ht
      rw [moved, setRelay, hnone] at ht
      cases ht
    · exact hi.delivers.delete he hid hp hmem
    · apply Relay.fits_forEntries
      intro e hrest
      exact (hf.issued e (by simp [Relay.entries, hpc, hrest])).mono hg
  | unnumbered entry rest hpc hid =>
    exact deliveryInv_setRelay hi rfl rfl rfl rfl
      (Relay.fits_of_idle (fun _ _ _ h => by cases h) fun _ _ h => by cases h)
  | wake hpc =>
    exact deliveryInv_setRelay hi rfl rfl rfl rfl
      (Relay.fits_of_idle (fun _ _ _ h => by cases h) fun _ _ h => by cases h)

theorem deliveryInv_step (w : World F) (a : Action F) (w' : World F) (hi : DeliveryInv w)
    (hjson : ∀ order now, a = .insertOrder order now → RoundTrips order)
    (h : step w a = some w') : DeliveryInv w' := by
  cases Effect.of_step h with
  | insertOrder order now working htx hins =>
    refine deliveryInv_writer hi rfl rfl rfl ?_
    rintro t ⟨⟩
    exact Transaction.extends_insertOrder hins (hjson order now rfl)
  | duplicate order now exc htx hins => exact deliveryInv_writer hi rfl rfl rfl hi.tx
  | insertOutbox t htx hid =>
    refine deliveryInv_writer hi rfl rfl rfl ?_
    rintro u ⟨⟩
    exact (hi.tx t htx).insertOutbox hid
  | commit t htx hid =>
    have ht := hi.tx t htx
    constructor
    · exact hi.delivers.commit ht hid
    · intro u hu
      cases hu
    · intro i k hk
      have hm := (hi.relays i k hk).mono (ht.grows hid) []
      rwa [List.append_nil] at hm
  | refuse order exc => exact deliveryInv_writer hi rfl rfl rfl hi.tx
  | rollBack t exc htx => exact deliveryInv_writer hi rfl rfl rfl fun u hu => by cases hu
  | crashWriter t htx => exact deliveryInv_writer hi rfl rfl rfl fun u hu => by cases hu
  | startRelay i hnone =>
    exact deliveryInv_setRelay hi rfl rfl rfl rfl
      (Relay.fits_of_idle (fun _ _ _ h => by cases h) fun _ _ h => by cases h)
  | stopRelay i k hk =>
    have hf := hi.relays i k hk
    exact deliveryInv_setRelay hi rfl rfl rfl rfl ⟨hf.issued, hf.payload, hf.published⟩
  | relay i k k' db stream hk hfree hm => exact deliveryInv_moved hi hk hfree hm
  | raises i k exc hk hlive =>
    exact deliveryInv_setRelay hi rfl rfl rfl rfl
      (Relay.fits_of_idle (fun _ _ _ h => by cases h) fun _ _ h => by cases h)
  | loseReply i k entry payload rest exc hk hpc =>
    have hf := hi.relays i k hk
    have he : w.db.Issued entry := hf.issued entry (by simp [Relay.entries, hpc])
    exact deliveryInv_relay hi rfl rfl (.refl _) hi.tx
      (hi.delivers.publish he (hf.payload entry payload rest hpc))
      (Relay.fits_of_idle (fun _ _ _ h => by cases h) fun _ _ h => by cases h)
  | crashRelay i k hk hlive =>
    exact deliveryInv_setRelay hi rfl rfl rfl rfl
      (Relay.fits_of_idle (fun _ _ _ h => by cases h) fun _ _ h => by cases h)

/-- The action begins or ends a call inside its transaction. -/
def bounds : Action F → Bool
  | .insertOrder _ _ => true
  | .commit => true
  | .rollBack _ => true
  | .crashWriter => true
  | _ => false

/-- A call of `insert_order_with_outbox` begins in the one world and raises in the other. Between
its statements other processes may act. -/
inductive InsertRaises (w w' : World F) : Prop where
  | refused (order : Order F) (exc : PyExc) (h : step w (.refuse order exc) = some w')
  | duplicate (order : Order F) (now : ℕ) (htx : w'.tx = none)
      (h : step w (.insertOrder order now) = some w')
  | rolledBack (order : Order F) (now : ℕ) (acts : List (Action F)) (exc : PyExc)
      (hacts : ∀ a ∈ acts, bounds a = false)
      (h : run step w (.insertOrder order now :: acts ++ [.rollBack exc]) = some w')

theorem frozen_step {db : Tables F} {w w' : World F} {a : Action F}
    (hw : w.tx ≠ none → w.db = db) (ha : bounds a = false) (h : step w a = some w') :
    w'.tx ≠ none → w'.db = db := by
  cases Effect.of_step h with
  | insertOrder order now working htx hins => cases ha
  | duplicate order now exc htx hins => exact hw
  | insertOutbox t htx hid => exact fun _ => hw (by rw [htx]; simp)
  | commit t htx hid => cases ha
  | refuse order exc => exact hw
  | rollBack t exc htx => cases ha
  | crashWriter t htx => cases ha
  | startRelay i hnone => exact hw
  | stopRelay i k hk => exact hw
  | relay i k k' db' stream hk hfree hm =>
    intro htx
    cases hm with
    | deleted entry rest entryId hpc hid => exact absurd (hfree (by simp [Relay.unsettled, hpc])) htx
    | stopped hpc hstop => exact hw htx
    | polled hpc hstop => exact hw htx
    | published entry payload rest hpc => exact hw htx
    | unnumbered entry rest hpc hid => exact hw htx
    | wake hpc => exact hw htx
  | raises i k exc hk hlive => exact hw
  | loseReply i k entry payload rest exc hk hpc => exact hw
  | crashRelay i k hk hlive => exact hw

theorem InsertRaises.db_eq {w w' : World F} (h : InsertRaises w w') : w'.db = w.db := by
  cases h with
  | refused order exc h =>
    cases h
    rfl
  | duplicate order now htx h =>
    cases Effect.of_step h with
    | insertOrder _ _ working _ _ => cases htx
    | duplicate _ _ exc _ _ => rfl
  | rolledBack order now acts exc hacts h =>
    obtain ⟨v, hv, hroll⟩ := run_append_eq_some.mp h
    obtain ⟨u, hu, hv⟩ := run_cons_eq_some.mp hv
    have hopen : u.tx ≠ none → u.db = w.db := by
      cases Effect.of_step hu with
      | insertOrder _ _ working _ _ => exact fun _ => rfl
      | duplicate _ _ exc htx _ => exact fun h => absurd htx h
    have hfrozen : v.tx ≠ none → v.db = w.db :=
      run_invariant (I := fun x : World F => x.tx ≠ none → x.db = w.db)
        (fun x a y hx ha hy => frozen_step hx ha hy) hopen
        (along_of_forall (fun a ha _ => hacts a ha) u) hv
    obtain ⟨x, hx, hr⟩ := run_cons_eq_some.mp hroll
    cases hr
    cases Effect.of_step hx with
    | rollBack t _ htx => exact hfrozen (by rw [htx]; simp)

/-- In every reachable state each order has its outbox row or its event is on the stream, and rows
and events belong to orders; a call that raises from there changes neither table. -/
theorem order_recorded_or_published (acts : List (Action F)) (w : World F)
    (hjson : ∀ order now, .insertOrder order now ∈ acts → RoundTrips order)
    (hrun : run step {} acts = some w) :
    (∀ w', InsertRaises w w' → w'.db = w.db) ∧
      (∀ order ∈ w.db.orders, (∃ r ∈ w.db.outbox, r.Records order) ∨
        encodeFields (orderCreatedEvent order) ∈ w.stream) ∧
      (∀ r ∈ w.db.outbox, ∃ order ∈ w.db.orders, r.Records order) ∧
      ∀ f ∈ w.stream, ∃ order ∈ w.db.orders, f = encodeFields (orderCreatedEvent order) := by
  have hi : DeliveryInv w := by
    apply run_invariant (fun v a v' hi ha h => deliveryInv_step v a v' hi ha h) deliveryInv_init ?_
      hrun
    apply along_of_forall
    rintro a ha v order now rfl
    exact hjson order now ha
  exact ⟨fun w' h => h.db_eq, hi.delivers.covered, hi.delivers.rows, hi.delivers.events⟩

end World

/-- A JSON string without characters to escape, and a number. -/
def JsonValue.json : JsonValue ℤ → String
  | .text s => "\"" ++ s ++ "\""
  | .number n => pyStr n

def jsonDumps (d : Dict String (JsonValue ℤ)) : String :=
  "\x7b" ++ ", ".intercalate (d.map fun e => "\"" ++ e.1 ++ "\": " ++ e.2.json) ++ "\x7d"

def firstOrder : Order ℤ := ⟨"o-1", "c-1", 20, 0⟩

def secondOrder : Order ℤ := ⟨"o-2", "c-1", 35, 1⟩

/-- Whole amounts, and the payloads of two orders. -/
instance : PyJson ℤ where
  str := pyStr
  dumps := jsonDumps
  loads text :=
    match [orderPayload firstOrder, orderPayload secondOrder].find? fun d => jsonDumps d = text with
    | some d => .ok d
    | none => .error (valueError "Expecting value: line 1 column 1 (char 0)")

theorem roundTrips_firstOrder : RoundTrips firstOrder := by
  simp [RoundTrips, PyJson.loads, PyJson.dumps]

theorem roundTrips_secondOrder : RoundTrips secondOrder := by
  have hne : jsonDumps (orderPayload firstOrder) ≠ jsonDumps (orderPayload secondOrder) := by decide
  simp [RoundTrips, PyJson.loads, PyJson.dumps, hne]

namespace World

/-- An order is relayed twice, because the first relay crashes before its delete. -/
def crashBetween : List (Action ℤ) :=
  [.insertOrder firstOrder 0, .insertOutbox, .commit, .startRelay 0, .relay 0, .relay 0,
    .crashRelay 0, .startRelay 1, .relay 1, .relay 1, .relay 1]

/-- The order id is used again after the relays are done with it. -/
theorem crashBetween_published :
    ∃ w, run step {} crashBetween = some w ∧ w.db.outbox = [] ∧ w.stream.length = 2 ∧
      encodeFields (orderCreatedEvent firstOrder) ∈ w.stream ∧
      ∀ w', step w (.insertOrder firstOrder 5) = some w' → w'.tx = none → w'.db = w.db := by
  obtain ⟨w, hw, hempty, hlen, horders⟩ : ∃ w, run step {} crashBetween = some w ∧
      w.db.outbox = [] ∧ w.stream.length = 2 ∧ w.db.orders = [firstOrder] :=
    ⟨_, rfl, rfl, rfl, rfl⟩
  obtain ⟨hraise, hcov, -, -⟩ := order_recorded_or_published crashBetween w
    (fun order now h => by
      obtain ⟨rfl, rfl⟩ : order = firstOrder ∧ now = 0 := by simpa [crashBetween] using h
      exact roundTrips_firstOrder) hw
  refine ⟨w, hw, hempty, hlen, ?_, fun w' h htx => hraise w' (.duplicate firstOrder 5 htx h)⟩
  rcases hcov firstOrder (by rw [horders]; exact List.mem_cons_self) with ⟨r, hr, -⟩ | h
  · rw [hempty] at hr
    cases hr
  · exact h

end World
end Outbox
