import MessageBrokerPatterns.OutboxStore
import MessageBrokerPatterns.ActionRun
import Mathlib.Logic.Function.Basic

/-!
# Writers and relays over one order database

`insert_order_with_outbox` is cut between its statements, the loop of `relay.run` at its awaits and
between a publish and the delete behind it. SQLite has one write transaction at a time: a writer
works on a copy of the tables that its commit installs and its rollback drops, and a delete waits
for the open transaction. Polls see the committed tables.

Any process may crash at any point, a statement may be refused, and `broker.publish` may raise with
or without its `XADD` being executed. A relay has a number of its own. The trace records how calls
of `insert_order_with_outbox` end, and the entries whose relay ended between `XADD` and `DELETE`.
-/

namespace Outbox
open PyText PyDict

inductive Pc where
  | top
  | publish (entry : OutboxEntry) (strPayload : Dict String String) (rest : List OutboxEntry)
  | delete (entry : OutboxEntry) (rest : List OutboxEntry)
  | sleep
  | returned
  | raised (exc : PyExc)
  | crashed

structure Relay where
  stopEvent : Bool := false
  pc : Pc := .top

def assertionError : PyExc := ⟨"AssertionError", ""⟩

namespace Relay

def ended (k : Relay) : Bool :=
  match k.pc with
  | .returned => true
  | .raised _ => true
  | .crashed => true
  | _ => false

/-- The entry whose `XADD` is executed and whose `DELETE` is not. -/
def unsettled (k : Relay) : Option OutboxEntry :=
  match k.pc with
  | .delete entry _ => some entry
  | _ => none

/-- The mapping that the relay publishes for an entry. -/
def entryFields (F : Type) [PyJson F] (entry : OutboxEntry) : Except PyExc (Dict String String) := do
  let payload : Dict String (JsonValue F) ← PyJson.loads entry.payload
  return strPayload payload

def forEntries (F : Type) [PyJson F] (k : Relay) : List OutboxEntry → Relay
  | [] => { k with pc := .sleep }
  | entry :: rest =>
      match entryFields F entry with
      | .ok payload => { k with pc := .publish entry payload rest }
      | .error exc => { k with pc := .raised exc }

def command {F : Type} [PyJson F] (k : Relay) (db : Tables F) (stream : List Fields) :
    Option (Relay × Tables F × List Fields) :=
  match k.pc with
  | .top =>
      if k.stopEvent then some ({ k with pc := .returned }, db, stream)
      else some (k.forEntries F db.pollOutbox, db, stream)
  | .publish entry payload rest =>
      some ({ k with pc := .delete entry rest }, db, stream ++ [encodeFields payload])
  | .delete entry rest =>
      match entry.id with
      | some entryId => some (k.forEntries F rest, db.deleteOutboxEntry entryId, stream)
      | none => some ({ k with pc := .raised assertionError }, db, stream)
  | .sleep => some ({ k with pc := .top }, db, stream)
  | .returned => none
  | .raised _ => none
  | .crashed => none

end Relay

/-- All that a command of a relay can do to the relay, the tables and the stream. -/
inductive Move {F : Type} [PyJson F] (k : Relay) (db : Tables F) (stream : List Fields) :
    Relay → Tables F → List Fields → Prop where
  | stopped (hpc : k.pc = .top) (hstop : k.stopEvent = true) :
      Move k db stream { k with pc := .returned } db stream
  | polled (hpc : k.pc = .top) (hstop : k.stopEvent = false) :
      Move k db stream (k.forEntries F db.pollOutbox) db stream
  | published (entry : OutboxEntry) (payload : Dict String String) (rest : List OutboxEntry)
      (hpc : k.pc = .publish entry payload rest) :
      Move k db stream { k with pc := .delete entry rest } db (stream ++ [encodeFields payload])
  | deleted (entry : OutboxEntry) (rest : List OutboxEntry) (entryId : ℕ)
      (hpc : k.pc = .delete entry rest) (hid : entry.id = some entryId) :
      Move k db stream (k.forEntries F rest) (db.deleteOutboxEntry entryId) stream
  | unnumbered (entry : OutboxEntry) (rest : List OutboxEntry)
      (hpc : k.pc = .delete entry rest) (hid : entry.id = none) :
      Move k db stream { k with pc := .raised assertionError } db stream
  | wake (hpc : k.pc = .sleep) : Move k db stream { k with pc := .top } db stream

theorem Move.of_command {F : Type} [PyJson F] {k k' : Relay} {db db' : Tables F}
    {stream stream' : List Fields} (h : k.command db stream = some (k', db', stream')) :
    Move k db stream k' db' stream' := by
  unfold Relay.command at h
  split at h
  · rename_i hpc
    split_ifs at h with hstop
    · cases h
      exact .stopped hpc hstop
    · cases h
      exact .polled hpc (by simpa using hstop)
  · rename_i entry payload rest hpc
    cases h
    exact .published entry payload rest hpc
  · rename_i entry rest hpc
    split at h
    · rename_i entryId hid
      cases h
      exact .deleted entry rest entryId hpc hid
    · rename_i hid
      cases h
      exact .unnumbered entry rest hpc hid
  · rename_i hpc
    cases h
    exact .wake hpc
  · cases h
  · cases h
  · cases h

/-- A call of `insert_order_with_outbox` inside its transaction. -/
structure Transaction (F : Type) where
  order : Order F
  entry : OutboxEntry
  working : Tables F

/-- The second `INSERT`; `entry.id = cursor.lastrowid`. -/
def Transaction.insertOutbox {F : Type} (t : Transaction F) : Transaction F := { t with
  entry.id := some (t.working.lastId + 1)
  working := t.working.insertOutbox t.entry }

inductive Event (F : Type) where
  | inserted (order : Order F) (entry : OutboxEntry)
  | insertRaised (order : Order F) (exc : PyExc)
  | cut (entry : OutboxEntry)

def Event.commit? {F : Type} : Event F → Option (Order F × OutboxEntry)
  | .inserted order entry => some (order, entry)
  | _ => none

def Event.cuts {F : Type} (entry : OutboxEntry) : Event F → Bool
  | .cut e => e = entry
  | _ => false

structure World (F : Type) where
  db : Tables F := .createTables
  tx : Option (Transaction F) := none
  stream : List Fields := []
  relays : ℕ → Option Relay := fun _ => none
  trace : List (Event F) := []

inductive Action (F : Type) where
  | insertOrder (order : Order F) (now : ℕ)
  | insertOutbox
  | commit
  | refuse (order : Order F) (exc : PyExc)
  | rollBack (exc : PyExc)
  | crashWriter
  | startRelay (i : ℕ)
  | stopRelay (i : ℕ)
  | relay (i : ℕ)
  | raises (i : ℕ) (exc : PyExc)
  | loseReply (i : ℕ) (exc : PyExc)
  | crashRelay (i : ℕ)

namespace World
variable {F : Type}

def setRelay (w : World F) (i : ℕ) (k : Relay) : World F := { w with
  relays := Function.update w.relays i (some k) }

theorem setRelay_self (w : World F) (i : ℕ) (k : Relay) : (w.setRelay i k).relays i = some k := by
  simp [setRelay]

theorem setRelay_of_ne (w : World F) {i j : ℕ} (h : j ≠ i) (k : Relay) :
    (w.setRelay i k).relays j = w.relays j := by
  simp [setRelay, h]

/-- The relay `i` ends; a publish without its delete is on record. -/
def endRelay (w : World F) (i : ℕ) (k : Relay) (pc : Pc) : World F :=
  { (w.setRelay i { k with pc }) with trace := w.trace ++ (k.unsettled.map Event.cut).toList }

/-- The world after a command of the relay `i`. -/
def moved (w : World F) (i : ℕ) (k : Relay) (db : Tables F) (stream : List Fields) : World F :=
  { (w.setRelay i k) with db, stream }

/-- The call inside its transaction is over, with or without a word to its caller. -/
def closed (w : World F) (events : List (Event F)) : World F :=
  { w with tx := none, trace := w.trace ++ events }

/-- The orders in the order of their commits, with the entries returned for them. -/
def committed (w : World F) : List (Order F × OutboxEntry) := w.trace.filterMap Event.commit?

/-- How many relays ended between the `XADD` and the `DELETE` of an entry. -/
def cuts (w : World F) (entry : OutboxEntry) : ℕ := w.trace.countP (Event.cuts entry)

theorem committed_closed (w : World F) (events : List (Event F)) :
    (w.closed events).committed = w.committed ++ events.filterMap Event.commit? :=
  List.filterMap_append

theorem committed_endRelay (w : World F) (i : ℕ) (k : Relay) (pc : Pc) :
    (w.endRelay i k pc).committed = w.committed := by
  have hcut : (k.unsettled.map Event.cut).toList.filterMap (Event.commit? (F := F)) = [] := by
    cases k.unsettled with
    | none => rfl
    | some entry => rfl
  rw [committed, endRelay, List.filterMap_append, hcut, List.append_nil]
  rfl

theorem cuts_endRelay (w : World F) (i : ℕ) (k : Relay) (pc : Pc) (entry : OutboxEntry) :
    (w.endRelay i k pc).cuts entry =
      w.cuts entry + if k.unsettled = some entry then 1 else 0 := by
  rw [cuts, endRelay, List.countP_append]
  congr 1
  cases hk : k.unsettled with
  | none => rfl
  | some e => simp [Event.cuts]

variable [PyJson F]

def step (w : World F) : Action F → Option (World F)
  | .insertOrder order now =>
      match w.tx, w.db.insertOrder order with
      | none, .ok working => some { w with tx := some ⟨order, .ofOrder order now, working⟩ }
      | none, .error exc => some { w with trace := w.trace ++ [.insertRaised order exc] }
      | some _, _ => none
  | .insertOutbox =>
      match w.tx with
      | some t => if t.entry.id = none then some { w with tx := some t.insertOutbox } else none
      | none => none
  | .commit =>
      match w.tx with
      | some t =>
          if t.entry.id = none then none
          else some { w.closed [.inserted t.order t.entry] with db := t.working }
      | none => none
  | .refuse order exc => some { w with trace := w.trace ++ [.insertRaised order exc] }
  | .rollBack exc =>
      match w.tx with
      | some t => some (w.closed [.insertRaised t.order exc])
      | none => none
  | .crashWriter =>
      match w.tx with
      | some _ => some (w.closed [])
      | none => none
  | .startRelay i =>
      match w.relays i with
      | none => some (w.setRelay i {})
      | some _ => none
  | .stopRelay i =>
      match w.relays i with
      | some k => some (w.setRelay i { k with stopEvent := true })
      | none => none
  | .relay i =>
      match w.relays i with
      | some k =>
          if k.unsettled.isSome && w.tx.isSome then none
          else (k.command w.db w.stream).map fun r => w.moved i r.1 r.2.1 r.2.2
      | none => none
  | .raises i exc =>
      match w.relays i with
      | some k => if k.ended then none else some (w.endRelay i k (.raised exc))
      | none => none
  | .loseReply i exc =>
      match w.relays i with
      | some k =>
          match k.pc with
          | .publish entry payload rest =>
              some { w.endRelay i { k with pc := .delete entry rest } (.raised exc) with
                stream := w.stream ++ [encodeFields payload] }
          | _ => none
      | none => none
  | .crashRelay i =>
      match w.relays i with
      | some k => if k.ended then none else some (w.endRelay i k .crashed)
      | none => none

/-- All that one action can do. -/
inductive Effect (w : World F) : Action F → World F → Prop where
  | insertOrder (order : Order F) (now : ℕ) (working : Tables F) (htx : w.tx = none)
      (h : w.db.insertOrder order = .ok working) :
      Effect w (.insertOrder order now) { w with tx := some ⟨order, .ofOrder order now, working⟩ }
  | duplicate (order : Order F) (now : ℕ) (exc : PyExc) (htx : w.tx = none)
      (h : w.db.insertOrder order = .error exc) :
      Effect w (.insertOrder order now) { w with trace := w.trace ++ [.insertRaised order exc] }
  | insertOutbox (t : Transaction F) (htx : w.tx = some t) (hid : t.entry.id = none) :
      Effect w .insertOutbox { w with tx := some t.insertOutbox }
  | commit (t : Transaction F) (htx : w.tx = some t) (hid : t.entry.id ≠ none) :
      Effect w .commit { w.closed [.inserted t.order t.entry] with db := t.working }
  | refuse (order : Order F) (exc : PyExc) :
      Effect w (.refuse order exc) { w with trace := w.trace ++ [.insertRaised order exc] }
  | rollBack (t : Transaction F) (exc : PyExc) (htx : w.tx = some t) :
      Effect w (.rollBack exc) (w.closed [.insertRaised t.order exc])
  | crashWriter (t : Transaction F) (htx : w.tx = some t) : Effect w .crashWriter (w.closed [])
  | startRelay (i : ℕ) (hnone : w.relays i = none) : Effect w (.startRelay i) (w.setRelay i {})
  | stopRelay (i : ℕ) (k : Relay) (hk : w.relays i = some k) :
      Effect w (.stopRelay i) (w.setRelay i { k with stopEvent := true })
  | relay (i : ℕ) (k k' : Relay) (db : Tables F) (stream : List Fields)
      (hk : w.relays i = some k) (hfree : k.unsettled ≠ none → w.tx = none)
      (hm : Move k w.db w.stream k' db stream) : Effect w (.relay i) (w.moved i k' db stream)
  | raises (i : ℕ) (k : Relay) (exc : PyExc) (hk : w.relays i = some k) (hlive : k.ended = false) :
      Effect w (.raises i exc) (w.endRelay i k (.raised exc))
  | loseReply (i : ℕ) (k : Relay) (entry : OutboxEntry) (payload : Dict String String)
      (rest : List OutboxEntry) (exc : PyExc) (hk : w.relays i = some k)
      (hpc : k.pc = .publish entry payload rest) :
      Effect w (.loseReply i exc)
        { w.endRelay i { k with pc := .delete entry rest } (.raised exc) with
          stream := w.stream ++ [encodeFields payload] }
  | crashRelay (i : ℕ) (k : Relay) (hk : w.relays i = some k) (hlive : k.ended = false) :
      Effect w (.crashRelay i) (w.endRelay i k .crashed)

theorem Effect.of_step {w w' : World F} {a : Action F} (h : step w a = some w') :
    Effect w a w' := by
  cases a with
  | insertOrder order now =>
    simp only [step] at h
    split at h
    · rename_i working htx hins
      cases h
      exact .insertOrder order now working htx hins
    · rename_i exc htx hins
      cases h
      exact .duplicate order now exc htx hins
    · cases h
  | insertOutbox =>
    simp only [step] at h
    split at h
    · rename_i t htx
      split_ifs at h with hid
      cases h
      exact .insertOutbox t htx hid
    · cases h
  | commit =>
    simp only [step] at h
    split at h
    · rename_i t htx
      split_ifs at h with hid
      cases h
      exact .commit t htx hid
    · cases h
  | refuse order exc =>
    cases h
    exact .refuse order exc
  | rollBack exc =>
    simp only [step] at h
    split at h
    · rename_i t htx
      cases h
      exact .rollBack t exc htx
    · cases h
  | crashWriter =>
    simp only [step] at h
    split at h
    · rename_i t htx
      cases h
      exact .crashWriter t htx
    · cases h
  | startRelay i =>
    simp only [step] at h
    split at h
    · rename_i hnone
      cases h
      exact .startRelay i hnone
    · cases h
  | stopRelay i =>
    simp only [step] at h
    split at h
    · rename_i k hk
      cases h
      exact .stopRelay i k hk
    · cases h
  | relay i =>
    simp only [step] at h
    split at h
    · rename_i k hk
      split_ifs at h with hwait
      obtain ⟨⟨k', db, stream⟩, hr, rfl⟩ := Option.map_eq_some_iff.mp h
      apply Effect.relay i k k' db stream hk ?_ (.of_command hr)
      intro hun
      simpa [Option.isSome_iff_ne_none.mpr hun] using hwait
    · cases h
  | raises i exc =>
    simp only [step] at h
    split at h
    · rename_i k hk
      split_ifs at h with hend
      cases h
      exact .raises i k exc hk (by simpa using hend)
    · cases h
  | loseReply i exc =>
    simp only [step] at h
    split at h
    · rename_i k hk
      split at h
      · rename_i entry payload rest hpc
        cases h
        exact .loseReply i k entry payload rest exc hk hpc
      · cases h
    · cases h
  | crashRelay i =>
    simp only [step] at h
    split at h
    · rename_i k hk
      split_ifs at h with hend
      cases h
      exact .crashRelay i k hk (by simpa using hend)
    · cases h

end World
end Outbox
