import MessageBrokerPatterns.BankAccount
import MessageBrokerPatterns.RedisStream
import Mathlib.Logic.Function.Basic

/-!
# The event store and replay from what it reads back

`append` writes one entry to the account's own stream and `read` returns the first hundred
entries behind a cursor. A live aggregate whose events are appended in order is reproduced by
replaying what one `read` from genesis returns exactly as long as the history fits one page.
-/

namespace EventSourcing
open PyText PyDict RedisStream

abbrev Streams := String → List Fields

namespace EventStore

/-- Returns the id of the new entry and the streams after `XADD`. -/
def append (db : Streams) (accountId eventType : String) (payload : Dict String String) :
    ℕ × Streams :=
  let stream := accountStream accountId
  ((db stream).length + 1,
    Function.update db stream (db stream ++ [encodeFields (eventFields eventType payload)]))

def read (db : Streams) (accountId : String) (lastId : ℕ := 0) : List (ℕ × Fields) :=
  xread (db (accountStream accountId)) lastId 100

end EventStore

def applyRaw (a : BankAccount) (raw : Fields) : Except PyExc BankAccount := do
  a.apply (← decodeEvent raw)

/-- `BankAccount.replay(decode_event(raw) for raw in raws)`: the generator decodes lazily. -/
def replayRaw (raws : List Fields) : Except PyExc BankAccount :=
  raws.foldlM applyRaw {}

theorem foldlM_applyRaw_eq_ok {raws : List Fields} {a b : BankAccount} :
    raws.foldlM applyRaw a = .ok b ↔
      ∃ events, raws.mapM decodeEvent = .ok events ∧ events.foldlM BankAccount.apply a = .ok b := by
  induction raws generalizing a with
  | nil =>
    rw [List.mapM_nil]
    constructor
    · intro h
      exact ⟨[], rfl, h⟩
    · rintro ⟨events, he, h⟩
      cases he
      exact h
  | cons raw raws ih =>
    simp only [List.foldlM_cons, List.mapM_cons, applyRaw, bind_eq_ok]
    constructor
    · rintro ⟨c, ⟨e, he, hc⟩, h⟩
      obtain ⟨events, hes, h⟩ := ih.mp h
      refine ⟨e :: events, ⟨e, he, events, hes, rfl⟩, ?_⟩
      rw [List.foldlM_cons]
      exact bind_eq_ok.mpr ⟨c, hc, h⟩
    · rintro ⟨_, ⟨e, he, events, hes, hcons⟩, h⟩
      cases hcons
      rw [List.foldlM_cons] at h
      obtain ⟨c, hc, h⟩ := bind_eq_ok.mp h
      exact ⟨c, ⟨e, he, hc⟩, ih.mpr ⟨events, hes, h⟩⟩

/-- Decoding lazily or all at once makes no difference to a replay that succeeds. -/
theorem replayRaw_eq_ok {raws : List Fields} {a : BankAccount} :
    replayRaw raws = .ok a ↔
      ∃ events, raws.mapM decodeEvent = .ok events ∧ BankAccount.replay events = .ok a :=
  foldlM_applyRaw_eq_ok

def replayStored (db : Streams) (accountId : String) : Except PyExc BankAccount :=
  replayRaw ((EventStore.read db accountId).map Prod.snd)

/-- Executes commands on a live aggregate and appends every produced event. -/
def runCommands (db : Streams) (accountId : String) (a : BankAccount) :
    List Command → Except PyExc (BankAccount × Streams)
  | [] => .ok (a, db)
  | c :: cs => do
      let (event, a') ← a.execute c
      runCommands (EventStore.append db accountId event.eventType event.toDict).2 accountId a' cs

def rawEvent (e : AccountEvent) : Fields := encodeFields (eventFields e.eventType e.toDict)

theorem append_same (db : Streams) (accountId : String) (e : AccountEvent) :
    (EventStore.append db accountId e.eventType e.toDict).2 (accountStream accountId) =
      db (accountStream accountId) ++ [rawEvent e] := by
  simp [EventStore.append, rawEvent]

/-- The events of a run of commands, each produced in the state its predecessors leave. -/
def produced (a : BankAccount) : List Command → List AccountEvent
  | [] => []
  | c :: cs => a.eventOf c :: produced (a.next c) cs

/-- Every command passes its checks in the state its predecessors leave. -/
def Admitted (a : BankAccount) : List Command → Prop
  | [] => True
  | c :: cs => a.Admits c ∧ Admitted (a.next c) cs

instance decidableAdmitted : (a : BankAccount) → (cs : List Command) → Decidable (Admitted a cs)
  | _, [] => .isTrue trivial
  | a, c :: cs => @instDecidableAnd _ _ inferInstance (decidableAdmitted (a.next c) cs)

def appendAll (db : Streams) (accountId : String) (events : List AccountEvent) : Streams :=
  events.foldl (fun db e => (EventStore.append db accountId e.eventType e.toDict).2) db

theorem appendAll_stream (db : Streams) (accountId : String) (events : List AccountEvent) :
    appendAll db accountId events (accountStream accountId) =
      db (accountStream accountId) ++ events.map rawEvent := by
  induction events generalizing db with
  | nil => simp [appendAll]
  | cons e es ih =>
    have hc : appendAll db accountId (e :: es) =
        appendAll (EventStore.append db accountId e.eventType e.toDict).2 accountId es := rfl
    rw [hc, ih, append_same]
    simp

/-- A run of commands succeeds exactly when all are admitted; it then leaves the folded
aggregate and appends the raw form of exactly the produced events. -/
theorem runCommands_eq_ok {db db' : Streams} {accountId : String} {a live : BankAccount}
    {cs : List Command} :
    runCommands db accountId a cs = .ok (live, db') ↔
      Admitted a cs ∧ live = cs.foldl BankAccount.next a ∧
        db' = appendAll db accountId (produced a cs) := by
  induction cs generalizing db a with
  | nil =>
    simp only [runCommands, Admitted, produced, appendAll, List.foldl_nil, Except.ok.injEq,
      Prod.mk.injEq, true_and]
    constructor
    · rintro ⟨rfl, rfl⟩
      exact ⟨rfl, rfl⟩
    · rintro ⟨rfl, rfl⟩
      exact ⟨rfl, rfl⟩
  | cons c cs ih =>
    by_cases h : a.Admits c
    · simp only [runCommands, BankAccount.execute_of_admits h, Admitted, h, true_and, produced]
      exact ih
    · obtain ⟨x, hx⟩ := BankAccount.execute_of_not_admits h
      simp only [runCommands, hx, Admitted, h, false_and, iff_false]
      intro hbad
      cases hbad

theorem produced_take (a : BankAccount) (cs : List Command) (n : ℕ) :
    (produced a cs).take n = produced a (cs.take n) := by
  induction cs generalizing a n with
  | nil => simp [produced]
  | cons c cs ih =>
    cases n with
    | zero => rfl
    | succ n => simp only [produced, List.take_succ_cons, ih]

theorem version_foldl_next (a : BankAccount) (cs : List Command) :
    (cs.foldl BankAccount.next a).version = a.version + cs.length := by
  induction cs generalizing a with
  | nil => rfl
  | cons c cs ih =>
    rw [List.foldl_cons, ih, BankAccount.version_next, List.length_cons]
    omega

theorem foldlM_produced (a : BankAccount) (cs : List Command) :
    ((produced a cs).map rawEvent).foldlM applyRaw a = .ok (cs.foldl BankAccount.next a) := by
  induction cs generalizing a with
  | nil => rfl
  | cons c cs ih =>
    have hraw : applyRaw a (rawEvent (a.eventOf c)) = .ok (a.next c) := by
      rw [applyRaw, rawEvent, decodeEvent_append (a.eventOf_typed c)]
      exact a.apply_eventOf c
    simp only [produced, List.map_cons, List.foldlM_cons, List.foldl_cons, hraw]
    exact ih (a.next c)

/-- An admitted history starts with the creation, so its replay from a blank aggregate and from
one that already knows its id agree. -/
theorem replayRaw_produced {accountId : String} {cs : List Command}
    (h : Admitted { accountId } cs) (hne : cs ≠ []) :
    replayRaw ((produced { accountId } cs).map rawEvent) =
      .ok (cs.foldl BankAccount.next { accountId }) := by
  rw [← foldlM_produced]
  cases cs with
  | nil => exact absurd rfl hne
  | cons c cs =>
    cases c with
    | create ownerId =>
      have hraw : applyRaw {} (rawEvent (BankAccount.eventOf { accountId } (.create ownerId))) =
          applyRaw { accountId } (rawEvent (BankAccount.eventOf { accountId } (.create ownerId))) := by
        simp only [applyRaw, rawEvent, decodeEvent_append (BankAccount.eventOf_typed _ _)]
        rfl
      simp only [replayRaw, produced, List.map_cons, List.foldlM_cons]
      rw [← hraw]
    | deposit amount => exact absurd h.1.1 Bool.false_ne_true
    | withdraw amount => exact absurd h.1.1 Bool.false_ne_true

theorem admitted_take {a : BankAccount} {cs : List Command} (h : Admitted a cs) (n : ℕ) :
    Admitted a (cs.take n) := by
  induction cs generalizing a n with
  | nil => simpa using h
  | cons c cs ih =>
    cases n with
    | zero => trivial
    | succ n => exact ⟨h.1, ih h.2 n⟩

theorem replayStored_appendAll {db : Streams} {accountId : String} {cs : List Command}
    (hfresh : db (accountStream accountId) = []) (h : Admitted { accountId } cs) (hne : cs ≠ []) :
    replayStored (appendAll db accountId (produced { accountId } cs)) accountId =
      .ok ((cs.take 100).foldl BankAccount.next { accountId }) := by
  rw [replayStored, EventStore.read, appendAll_stream, hfresh, List.nil_append, xread,
    map_snd_numberFrom, List.drop_zero, ← List.map_take, produced_take]
  apply replayRaw_produced (admitted_take h 100)
  cases cs with
  | nil => exact absurd rfl hne
  | cons c cs => simp

/-- One read from genesis reproduces the live aggregate exactly on a history of one to a hundred
events; on the empty history replay leaves the account id blank. -/
theorem replay_read_eq_live_iff (db db' : Streams) (accountId : String) (live : BankAccount)
    (cs : List Command) (hfresh : db (accountStream accountId) = [])
    (hrun : runCommands db accountId { accountId } cs = .ok (live, db')) :
    replayStored db' accountId = .ok live ↔ cs.length ≤ 100 ∧ (cs = [] → accountId = "") := by
  obtain ⟨hadm, rfl, rfl⟩ := runCommands_eq_ok.mp hrun
  by_cases hne : cs = []
  · subst hne
    have hblank : replayStored (appendAll db accountId (produced { accountId } [])) accountId =
        .ok {} := by
      rw [replayStored, EventStore.read, appendAll_stream, hfresh]
      rfl
    rw [hblank]
    simp [eq_comm]
  · rw [replayStored_appendAll hfresh hadm hne, Except.ok.injEq]
    constructor
    · intro he
      have hv := congrArg BankAccount.version he
      rw [version_foldl_next, version_foldl_next, List.length_take] at hv
      exact ⟨by omega, fun h => absurd h hne⟩
    · rintro ⟨hlen, _⟩
      rw [List.take_of_length_le hlen]

theorem replay_read_eq_live_two :
    replayStored (appendAll (fun _ => []) "acc-1"
        (produced { accountId := "acc-1" } [.create "demo-user", .deposit 5])) "acc-1" =
      .ok { accountId := "acc-1", ownerId := "demo-user", balance := 5, version := 2, created := true } :=
  (replay_read_eq_live_iff (fun _ => []) _ "acc-1" _ [.create "demo-user", .deposit 5] rfl
    (runCommands_eq_ok.mpr ⟨by decide, rfl, rfl⟩)).mpr ⟨by decide, by decide⟩

theorem admitted_deposits (a : BankAccount) (h : a.created = true) (n : ℕ) :
    Admitted a (List.replicate n (.deposit 1)) := by
  induction n generalizing a with
  | zero => trivial
  | succ n ih => exact ⟨⟨h, by decide⟩, ih _ h⟩

/-- A creation and a hundred deposits: the read stops one event short of the history. -/
theorem replay_read_ne_live_long :
    ∃ live db', runCommands (fun _ => []) "acc-1" { accountId := "acc-1" }
        (.create "demo-user" :: List.replicate 100 (.deposit 1)) = .ok (live, db') ∧
      replayStored db' "acc-1" ≠ .ok live := by
  have hadm : Admitted { accountId := "acc-1" }
      (.create "demo-user" :: List.replicate 100 (.deposit 1)) :=
    ⟨rfl, admitted_deposits _ rfl 100⟩
  refine ⟨_, _, runCommands_eq_ok.mpr ⟨hadm, rfl, rfl⟩, ?_⟩
  rw [replayStored_appendAll rfl hadm (by simp), Ne, Except.ok.injEq]
  intro he
  have hv := congrArg BankAccount.version he
  rw [version_foldl_next, version_foldl_next] at hv
  simp at hv

end EventSourcing
