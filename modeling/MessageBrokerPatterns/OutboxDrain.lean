import MessageBrokerPatterns.OutboxOrder

/-!
# Draining the outbox

A row that is gone was published: a caller that waits for the row of its order to disappear, as the
outbox bench does, waits for the event, whatever the relays do and however they end.

A relay starts over whatever its predecessors, crashed or not, have left in the tables, and nobody else
acts. It works through the rows page by page: each row is published and deleted before the next one, and
a poll finds the rows behind the page. Along its run the rows are those whose event it has appended,
followed by those that are still in the table; only between a publish and its delete one row is both.
-/

namespace Outbox
open PyText PyDict ActionRun
variable {F : Type} [PyJson F]

namespace World

/-- The rows are those of the entries that `insert_order_with_outbox` has returned. -/
def RowsCommitted (w : World F) : Prop :=
  ∀ r ∈ w.db.outbox, ∃ p ∈ w.committed, p.2 = r.toEntry ∧ r.Records p.1

theorem outbox_of_step {w w' : World F} {a : Action F} (h : step w a = some w') :
    (∃ t, w.tx = some t ∧ t.entry.id ≠ none ∧
      w' = { w.closed [.inserted t.order t.entry] with db := t.working }) ∨
    ∀ r ∈ w'.db.outbox, r ∈ w.db.outbox := by
  cases Effect.of_step h with
  | commit t htx hid => exact Or.inl ⟨t, htx, hid, rfl⟩
  | relay i k k' db stream hk hfree hm =>
    apply Or.inr
    cases hm with
    | deleted entry rest entryId hpc hid =>
      exact fun r hr => (Tables.mem_outbox_deleteOutboxEntry.mp hr).1
    | stopped hpc hstop => exact fun r hr => hr
    | polled hpc hstop => exact fun r hr => hr
    | published entry payload rest hpc => exact fun r hr => hr
    | unnumbered entry rest hpc hid => exact fun r hr => hr
    | wake hpc => exact fun r hr => hr
  | insertOrder order now working htx hins => exact Or.inr fun r hr => hr
  | duplicate order now exc htx hins => exact Or.inr fun r hr => hr
  | insertOutbox t htx hid => exact Or.inr fun r hr => hr
  | refuse order exc => exact Or.inr fun r hr => hr
  | rollBack t exc htx => exact Or.inr fun r hr => hr
  | crashWriter t htx => exact Or.inr fun r hr => hr
  | startRelay i hnone => exact Or.inr fun r hr => hr
  | stopRelay i k hk => exact Or.inr fun r hr => hr
  | raises i k exc hk hlive => exact Or.inr fun r hr => hr
  | loseReply i k entry payload rest exc hk hpc => exact Or.inr fun r hr => hr
  | crashRelay i k hk hlive => exact Or.inr fun r hr => hr

theorem rowsCommitted_step {w w' : World F} {a : Action F} (hi : DeliveryInv w)
    (hr : RowsCommitted w) (h : step w a = some w') : RowsCommitted w' := by
  rcases outbox_of_step h with ⟨t, htx, hid, rfl⟩ | hsub
  · obtain ⟨q, hq, hrec, -, hx, -⟩ := (hi.tx t htx).row hid
    intro r hmem
    change ∃ p ∈ (w.closed [.inserted t.order t.entry]).committed, p.2 = r.toEntry ∧ r.Records p.1
    rw [committed_closed]
    rcases List.mem_append.mp (hx ▸ hmem) with hmem | hmem
    · obtain ⟨p, hp, hpr⟩ := hr r hmem
      exact ⟨p, List.mem_append_left _ hp, hpr⟩
    · obtain rfl := List.mem_singleton.mp hmem
      exact ⟨(t.order, t.entry), List.mem_append_right _ List.mem_cons_self, hq, hrec⟩
  · intro r hmem
    obtain ⟨p, hp, hpr⟩ := hr r (hsub r hmem)
    rcases commits_of_step h with ⟨t, -, -, rfl⟩ | ⟨hcom, -⟩
    · exact ⟨p, (w.committed_closed _) ▸ List.mem_append_left _ hp, hpr⟩
    · exact ⟨p, hcom ▸ hp, hpr⟩

/-- While an order of the database is not on the stream, the row of its entry is in the outbox: as soon as
a caller of `insert_order_with_outbox` finds the row of its order gone, the event is there. -/
theorem gone_row_published (acts : List (Action F)) (w : World F)
    (hjson : ∀ order now, .insertOrder order now ∈ acts → RoundTrips order)
    (hrun : run step {} acts = some w) (order : Order F) (entry : OutboxEntry)
    (hcommitted : (order, entry) ∈ w.committed) (hgone : ∀ r ∈ w.db.outbox, entry.id ≠ some r.id) :
    encodeFields (orderCreatedEvent order) ∈ w.stream := by
  obtain ⟨hi, hc, hrows⟩ : DeliveryInv w ∧ CommitInv w ∧ RowsCommitted w := by
    apply run_invariant (I := fun v : World F => DeliveryInv v ∧ CommitInv v ∧ RowsCommitted v)
      (C := fun _ a => ∀ order now, a = Action.insertOrder order now → RoundTrips order)
      (fun v a v' hv ha h => ⟨deliveryInv_step v a v' hv.1 ha h, commitInv_step hv.1 hv.2.1 h,
        rowsCommitted_step hv.1 hv.2.2 h⟩)
      ⟨deliveryInv_init, commitInv_init, fun r hr => (by cases hr)⟩ ?_ hrun
    apply along_of_forall
    rintro a ha v order now rfl
    exact hjson order now ha
  have horder {p : Commit F} (hp : p ∈ w.committed) : p.1 ∈ w.db.orders :=
    hc.orders ▸ List.mem_map.mpr ⟨p, hp, rfl⟩
  rcases hi.delivers.covered order (horder hcommitted) with ⟨r, hr, hrec⟩ | hpub
  · exfalso
    obtain ⟨p, hp, hentry, hprec⟩ := hrows r hr
    have hsame : p.1 = order := List.inj_on_of_nodup_map w.db.primaryKey (horder hp)
      (horder hcommitted) (hprec.1.symm.trans hrec.1)
    have hnodup : (w.committed.map Prod.fst).Nodup := hc.orders ▸ w.db.primaryKey.of_map
    obtain rfl : p = (order, entry) := List.inj_on_of_nodup_map hnodup hp hcommitted hsame
    exact hgone r hr (congrArg OutboxEntry.id hentry)
  · exact hpub

/-- One order is relayed, while the next one waits for its row to go. -/
def oneRelayed : List (Action ℤ) :=
  [.insertOrder firstOrder 0, .insertOutbox, .commit, .insertOrder secondOrder 1, .insertOutbox,
    .commit, .startRelay 0, .relay 0, .relay 0, .relay 0]

theorem roundTrips_inserted (acts : List (Action ℤ))
    (h : ∀ order now, .insertOrder order now ∈ acts → order = firstOrder ∨ order = secondOrder) :
    ∀ order now, .insertOrder order now ∈ acts → RoundTrips order := by
  intro order now hmem
  rcases h order now hmem with rfl | rfl
  · exact roundTrips_firstOrder
  · exact roundTrips_secondOrder

theorem oneRelayed_published : ∃ w : World ℤ, run step {} oneRelayed = some w ∧
    w.db.outbox.map OutboxRow.id = [2] ∧
    encodeFields (orderCreatedEvent firstOrder) ∈ w.stream := by
  obtain ⟨w, hw, hrow, hcommitted⟩ : ∃ w : World ℤ, run step {} oneRelayed = some w ∧
      w.db.outbox.map OutboxRow.id = [2] ∧
      w.committed[0]? = some (firstOrder, { OutboxEntry.ofOrder firstOrder 0 with id := some 1 }) :=
    ⟨_, rfl, rfl, rfl⟩
  refine ⟨w, hw, hrow, gone_row_published oneRelayed w (roundTrips_inserted _ ?_) hw firstOrder _
    (List.mem_of_getElem? hcommitted) fun r hr hid => ?_⟩
  · intro order now hmem
    have ho : order = firstOrder ∧ now = 0 ∨ order = secondOrder ∧ now = 1 := by
      simpa [oneRelayed] using hmem
    exact ho.imp And.left And.left
  · have hmem : r.id ∈ w.db.outbox.map OutboxRow.id := List.mem_map.mpr ⟨r, hr, rfl⟩
    rw [hrow, List.mem_singleton] at hmem
    rw [hmem] at hid
    cases hid

/-- A row of the outbox and the order it was written for. -/
abbrev Owed (F : Type) := OutboxRow × Order F

def Owed.event (p : Owed F) : Fields := encodeFields (orderCreatedEvent p.2)

def Owed.entries (rest : List (Owed F)) : List OutboxEntry := rest.map fun p => p.1.toEntry

/-- Where the relay stands between the rows it is done with and the rest. -/
inductive Turn (outbox : List OutboxRow) (done rest : List (Owed F)) : Pc → Prop where
  | top (hrows : outbox = rest.map Prod.fst) : Turn outbox done rest .top
  | sleep (hrows : outbox = rest.map Prod.fst) : Turn outbox done rest .sleep
  | publish (p : Owed F) (behind : List (Owed F)) (page : List OutboxEntry)
      (hrest : rest = p :: behind) (hrows : outbox = rest.map Prod.fst)
      (hpage : page <+: Owed.entries behind) :
      Turn outbox done rest (.publish p.1.toEntry (orderCreatedEvent p.2) page)
  | delete (p : Owed F) (before : List (Owed F)) (page : List OutboxEntry)
      (hdone : done = before ++ [p]) (hrows : outbox = p.1 :: rest.map Prod.fst)
      (hpage : page <+: Owed.entries rest) : Turn outbox done rest (.delete p.1.toEntry page)

/-- The relay `i` has appended the events of the first owed rows to `base`. -/
structure Draining (i : ℕ) (orders : List (Order F)) (base : List Fields) (owed : List (Owed F))
    (w : World F) : Prop where
  tx : w.tx = none
  orders : w.db.orders = orders
  turn : ∃ k done rest, w.relays i = some k ∧ k.stopEvent = false ∧ owed = done ++ rest ∧
    w.stream = base ++ done.map Owed.event ∧ Turn w.db.outbox done rest k.pc

/-- How much of a round a relay has before it in its place. -/
def Pc.ahead : Pc → ℕ
  | .sleep => 3
  | .top => 2
  | .publish _ _ _ => 1
  | _ => 0

def remaining (i : ℕ) (w : World F) : ℕ :=
  4 * w.db.outbox.length + ((w.relays i).map fun k => Pc.ahead k.pc).getD 0

theorem Draining.moved {i : ℕ} {orders : List (Order F)} {base : List Fields} {owed : List (Owed F)}
    {w : World F} (h : Draining i orders base owed w) {k : Relay} {db : Tables F} {stream : List Fields}
    {d r : List (Owed F)} (horders : db.orders = w.db.orders) (hstop : k.stopEvent = false)
    (howed : owed = d ++ r) (hstream : stream = base ++ d.map Owed.event)
    (hturn : Turn db.outbox d r k.pc) : Draining i orders base owed (w.moved i k db stream) where
  tx := h.tx
  orders := horders.trans h.orders
  turn := ⟨k, d, r, setRelay_self w i k, hstop, howed, hstream, hturn⟩

end World
end Outbox
