import MessageBrokerPatterns.PyText
import MessageBrokerPatterns.RedisGroup
import Mathlib.Logic.Function.Basic

/-!
# Redis keys that hold streams with any number of groups

A key holds a stream, with its entries and the groups created on it so far, or a value of another
type. A key that does not exist answers as a stream without entries and groups. `execute` performs one
command; a command that the server refuses changes nothing.

`view g` is the stream as the group `g` sees it, and before the group exists as it will see it once
it is created at id `0`. Entries reach every view, a command on a group changes the view of that
group alone, and the creation of a group changes no view.
-/

namespace RedisStream
open PyText
variable {φ : Type*}

/-- What a client asks of a consumer group. -/
inductive GroupCommand
  | readNew (consumer : String) (now count : ℕ)
  | readPending (consumer : String) (now count : ℕ)
  | autoclaim (consumer : String) (now minIdle count : ℕ)
  | ack (id : ℕ)
  | pending
  deriving DecidableEq

inductive Reply (φ : Type*)
  | added (id : ℕ)
  | created
  | messages (batch : List (ℕ × φ))
  | count (n : ℕ)
  deriving DecidableEq

namespace GroupStream

/-- The stream as a group sees it that has just been created at id `0`. -/
def fresh (entries : List φ) : GroupStream φ String ℕ :=
  ⟨entries, 0, [], Nat.zero_le _, .nil, by simp⟩

theorem entries_fresh (entries : List φ) : (fresh entries).entries = entries := rfl

def serve (s : GroupStream φ String ℕ) : GroupCommand → Reply φ × GroupStream φ String ℕ
  | .readNew consumer now count => (.messages (s.newBatch count), s.readNew consumer now count)
  | .readPending consumer now count =>
      (.messages (s.pendingBatch consumer count), s.readPending consumer now count)
  | .autoclaim consumer now minIdle count =>
      (.messages (s.staleBatch now minIdle count), s.autoclaim consumer now minIdle count)
  | .ack id => (.count (s.pel.countP fun p => p.id = id), s.xack id)
  | .pending => (.count s.pel.length, s)

theorem entries_serve (s : GroupStream φ String ℕ) (c : GroupCommand) :
    (s.serve c).2.entries = s.entries := by
  cases c <;> rfl

end GroupStream

/-- A stream with the groups that have been created on it. -/
structure StreamKey (φ : Type*) where
  entries : List φ
  groups : String → Option (GroupStream φ String ℕ)
  shared : ∀ g s, groups g = some s → s.entries = entries

namespace StreamKey

def absent : StreamKey φ := ⟨[], fun _ => none, by simp⟩

variable (k : StreamKey φ)

def xadd (f : φ) : StreamKey φ where
  entries := k.entries ++ [f]
  groups g := (k.groups g).map (·.xadd f)
  shared g s h := by
    obtain ⟨t, ht, rfl⟩ := Option.map_eq_some_iff.mp h
    rw [GroupStream.entries_xadd, k.shared g t ht]

def setGroup (g : String) (s : GroupStream φ String ℕ) (hs : s.entries = k.entries) :
    StreamKey φ where
  entries := k.entries
  groups := Function.update k.groups g (some s)
  shared g' t h := by
    by_cases hg : g' = g
    · rw [hg, Function.update_self, Option.some.injEq] at h
      exact h ▸ hs
    · rw [Function.update_of_ne hg] at h
      exact k.shared g' t h

/-- `XGROUP CREATE key g 0 MKSTREAM` where the group does not exist. -/
def create (g : String) : StreamKey φ := k.setGroup g (.fresh k.entries) (GroupStream.entries_fresh k.entries)

/-- A command on a group, unless the group does not exist. -/
def serve (g : String) (c : GroupCommand) : Option (Reply φ × StreamKey φ) :=
  match h : k.groups g with
  | none => none
  | some s => some ((s.serve c).1,
      k.setGroup g (s.serve c).2 ((s.entries_serve c).trans (k.shared g s h)))

def view (g : String) : GroupStream φ String ℕ := (k.groups g).getD (.fresh k.entries)

variable {k}

theorem entries_view (k : StreamKey φ) (g : String) : (k.view g).entries = k.entries := by
  cases h : k.groups g with
  | none => rw [view, h, Option.getD_none, GroupStream.entries_fresh]
  | some s => rw [view, h, Option.getD_some, k.shared g s h]

theorem view_xadd (f : φ) (g : String) : (k.xadd f).view g = (k.view g).xadd f := by
  cases h : k.groups g with
  | none =>
    simp only [view, xadd, h, Option.map_none, Option.getD_none]
    rfl
  | some s => simp only [view, xadd, h, Option.map_some, Option.getD_some]

theorem view_setGroup_self (g : String) (s : GroupStream φ String ℕ) (hs : s.entries = k.entries) :
    (k.setGroup g s hs).view g = s := by
  simp [view, setGroup]

theorem view_setGroup_of_ne {g g' : String} (hg : g' ≠ g) (s : GroupStream φ String ℕ)
    (hs : s.entries = k.entries) : (k.setGroup g s hs).view g' = k.view g' := by
  simp [view, setGroup, hg]

/-- Nobody sees that a group has been created. -/
theorem view_create {g : String} (hg : k.groups g = none) (g' : String) :
    (k.create g).view g' = k.view g' := by
  by_cases h : g' = g
  · subst h
    have hv : k.view g' = .fresh k.entries := by rw [view, hg, Option.getD_none]
    rw [hv]
    exact view_setGroup_self _ _ _
  · exact view_setGroup_of_ne h _ _

theorem serve_of_some {g : String} {s : GroupStream φ String ℕ} (h : k.groups g = some s)
    (c : GroupCommand) : ∃ k', k.serve g c = some (((k.view g).serve c).1, k') ∧
      k'.view g = ((k.view g).serve c).2 ∧ (k'.groups g).isSome ∧
      ∀ g', g' ≠ g → k'.view g' = k.view g' ∧ k'.groups g' = k.groups g' := by
  have hs : k.view g = s := by rw [view, h, Option.getD_some]
  refine ⟨k.setGroup g (s.serve c).2 ((s.entries_serve c).trans (k.shared g s h)), ?_, ?_, ?_, ?_⟩
  · rw [hs, serve]
    split
    · rename_i hn
      cases hn.symm.trans h
    · rename_i t ht
      obtain rfl := Option.some.inj (ht.symm.trans h)
      rfl
  · rw [view_setGroup_self, hs]
  · simp [setGroup]
  · intro g' hg
    exact ⟨view_setGroup_of_ne hg _ _, Function.update_of_ne hg _ _⟩

theorem serve_of_none {g : String} (h : k.groups g = none) (c : GroupCommand) :
    k.serve g c = none := by
  rw [serve]
  split
  · rfl
  · rename_i s hs
    cases hs.symm.trans h

end StreamKey

inductive Value (φ : Type*)
  | stream (k : StreamKey φ)
  | other

abbrev Keyspace (φ : Type*) := String → Value φ

inductive Command (φ : Type*)
  | xadd (key : String) (f : φ)
  | xgroupCreate (key group : String)
  | onGroup (key group : String) (c : GroupCommand)

def Command.key : Command φ → String
  | .xadd key _ => key
  | .xgroupCreate key _ => key
  | .onGroup key _ _ => key

def wrongType : PyExc :=
  ⟨"ResponseError", "WRONGTYPE Operation against a key holding the wrong kind of value"⟩

def busyGroup : PyExc := ⟨"ResponseError", "BUSYGROUP Consumer Group name already exists"⟩

def noGroup (key group place : String) : PyExc := ⟨"ResponseError",
  "NOGROUP No such key '" ++ key ++ "' or consumer group '" ++ group ++ "'" ++ place⟩

/-- The answer to a command on a group that does not exist. -/
def GroupCommand.missing (key group : String) : GroupCommand → Except PyExc (Reply φ)
  | .ack _ => .ok (.count 0)
  | .readNew _ _ _ | .readPending _ _ _ =>
      .error (noGroup key group " in XREADGROUP with GROUP option")
  | .autoclaim _ _ _ _ | .pending => .error (noGroup key group "")

namespace Keyspace

def execute (redis : Keyspace φ) (cmd : Command φ) : Except PyExc (Reply φ) × Keyspace φ :=
  match redis cmd.key with
  | .other => (.error wrongType, redis)
  | .stream k =>
      match cmd with
      | .xadd key f =>
          (.ok (.added (k.entries.length + 1)), Function.update redis key (.stream (k.xadd f)))
      | .xgroupCreate key group =>
          match k.groups group with
          | some _ => (.error busyGroup, redis)
          | none => (.ok .created, Function.update redis key (.stream (k.create group)))
      | .onGroup key group c =>
          match k.serve group c with
          | some (reply, k) => (.ok reply, Function.update redis key (.stream k))
          | none => (c.missing key group, redis)

variable {redis : Keyspace φ} {key group : String} {k : StreamKey φ}

theorem execute_other {cmd : Command φ} (h : redis cmd.key = .other) :
    redis.execute cmd = (.error wrongType, redis) := by
  simp only [execute, h]

theorem execute_xadd (h : redis key = .stream k) (f : φ) : redis.execute (.xadd key f) =
    (.ok (.added (k.entries.length + 1)), Function.update redis key (.stream (k.xadd f))) := by
  simp only [execute, Command.key, h]

theorem execute_create (h : redis key = .stream k) (hg : k.groups group = none) :
    redis.execute (.xgroupCreate key group) =
      (.ok .created, Function.update redis key (.stream (k.create group))) := by
  simp only [execute, Command.key, h, hg]

theorem execute_busy (h : redis key = .stream k) (hg : (k.groups group).isSome) :
    redis.execute (.xgroupCreate key group) = (.error busyGroup, redis) := by
  obtain ⟨s, hs⟩ := Option.isSome_iff_exists.mp hg
  simp only [execute, Command.key, h, hs]

theorem execute_of_ne {cmd : Command φ} (hkey : key ≠ cmd.key) :
    (redis.execute cmd).2 key = redis key := by
  unfold execute
  cases hv : redis cmd.key with
  | other => rfl
  | stream k =>
    cases cmd with
    | xadd key' f => exact Function.update_of_ne hkey _ _
    | xgroupCreate key' g =>
      cases hg : k.groups g with
      | some s =>
        dsimp only
        rw [hg]
      | none =>
        dsimp only
        rw [hg]
        exact Function.update_of_ne hkey _ _
    | onGroup key' g c =>
      cases hs : k.serve g c with
      | none =>
        dsimp only
        rw [hs]
      | some r =>
        dsimp only
        rw [hs]
        exact Function.update_of_ne hkey _ _

end Keyspace
end RedisStream
