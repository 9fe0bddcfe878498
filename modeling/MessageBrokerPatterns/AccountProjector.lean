import MessageBrokerPatterns.EventStore
import MessageBrokerPatterns.ActionRun

/-!
# The projector of the account read model

`AccountSummary` is folded on the read side, without the aggregate of the write side. `project` polls
the account's stream from its cursor, a page of at most a hundred events at a time, folds the page
into the summary and stops when the expected version is reached or the stop event is set. A step of
the projector runs from one await to the next: the guard of the loop, or a page with the check behind
it. Between two steps anybody may append events or set the stop event.

The cursor is the version, so that the pages follow each other without a gap, and each event is
folded once. The two folds agree event by event.
-/

namespace EventSourcing
open PyText PyDict RedisStream ActionRun

structure AccountSummary where
  accountId : String := ""
  ownerId : String := ""
  balance : ℤ := 0
  version : ℕ := 0
  lastUpdated : Option ℕ := none
  deriving DecidableEq, Repr

/-- The dispatch of `AccountSummary.apply` on the type of the event. -/
def AccountSummary.dispatch (s : AccountSummary) : AccountEvent → Except PyExc AccountSummary
  | .created e => .ok { s with accountId := e.accountId, ownerId := e.ownerId }
  | .deposited e => do
      let amount ← pyInt e.amount
      return { s with balance := s.balance + amount }
  | .withdrawn e => do
      let amount ← pyInt e.amount
      return { s with balance := s.balance - amount }

/-- `AccountSummary.apply`, by a clock that shows `now`. -/
def AccountSummary.apply (s : AccountSummary) (now : ℕ) (raw : Fields) :
    Except PyExc AccountSummary := do
  let event ← decodeEvent raw
  let s ← s.dispatch event
  return { s with version := s.version + 1, lastUpdated := some now }

/-- The counters of the `event_sourcing` pattern in the metrics registry. -/
structure Registry where
  eventsAppended : ℕ := 0
  readModelEventsApplied : ℕ := 0
  deriving DecidableEq, Repr

namespace Projection

inductive Pc where
  | guard
  | read
  | returned (caughtUp : Bool)
  | raised (e : PyExc)

/-- The locals of `project`. -/
structure Projector where
  accountId : String
  expectedVersion : ℤ
  summary : AccountSummary := { accountId }
  lastId : ℕ := 0
  pc : Pc := .guard

structure World where
  db : Streams
  now : ℕ := 0
  stopEvent : Bool := false
  projector : Projector
  registry : Registry := {}

inductive Action where
  | append (accountId eventType : String) (payload : Dict String String)
  | setStop
  | tick (ms : ℕ)
  | run

namespace World

def entries (w : World) : List Fields := w.db (accountStream w.projector.accountId)

def ended (w : World) : Bool :=
  match w.projector.pc with
  | .returned _ => true
  | .raised _ => true
  | _ => false

/-- The `for` loop over a page. -/
def applyPage (w : World) : List (ℕ × Fields) → World
  | [] => w
  | (msgId, raw) :: rest =>
      let w := { w with projector.lastId := msgId }
      match w.projector.summary.apply w.now raw with
      | .ok summary =>
          applyPage { w with
            projector.summary := summary
            registry.readModelEventsApplied := w.registry.readModelEventsApplied + 1 } rest
      | .error e => { w with projector.pc := .raised e }

/-- The check behind the page: the projector has caught up, or it sleeps. -/
def checkVersion (w : World) : World :=
  match w.projector.pc with
  | .raised _ => w
  | _ =>
      if w.projector.expectedVersion ≤ w.projector.summary.version then
        { w with stopEvent := true, projector.pc := .returned true }
      else { w with projector.pc := .guard }

def step (w : World) : Action → Option World
  | .append accountId eventType payload => some { w with
      db := (EventStore.append w.db accountId eventType payload).2
      registry.eventsAppended := w.registry.eventsAppended + 1 }
  | .setStop => some { w with stopEvent := true }
  | .tick ms => some { w with now := w.now + ms }
  | .run =>
      match w.projector.pc with
      | .guard =>
          if w.stopEvent then some { w with projector.pc := .returned false }
          else some { w with projector.pc := .read }
      | .read =>
          let page := EventStore.read w.db w.projector.accountId w.projector.lastId
          some (w.applyPage page).checkVersion
      | .returned _ => none
      | .raised _ => none

end World
end Projection

/-- The owner, the balance and the version of the two sides are the same. -/
structure Agrees (s : AccountSummary) (a : BankAccount) : Prop where
  owner : s.ownerId = a.ownerId
  balance : s.balance = a.balance
  version : s.version = a.version

/-- The two folds agree on every event, and after a creation on the account id too. -/
theorem Agrees.apply {s s' : AccountSummary} {a : BankAccount} (h : Agrees s a) {now : ℕ}
    {raw : Fields} (hs : s.apply now raw = .ok s') :
    ∃ e a', decodeEvent raw = .ok e ∧ a.apply e = .ok a' ∧ Agrees s' a' ∧
      ((s.accountId = a.accountId ∨ ∃ c, e = .created c) → s'.accountId = a'.accountId) := by
  obtain ⟨howner, hbalance, hversion⟩ := h
  simp only [AccountSummary.apply, bind_eq_ok] at hs
  obtain ⟨e, he, t, ht, hs⟩ := hs
  cases hs
  cases e with
  | created c =>
    cases ht
    exact ⟨_, _, he, rfl, ⟨rfl, hbalance, congrArg (· + 1) hversion⟩, fun _ => rfl⟩
  | deposited d =>
    obtain ⟨amount, hamount, ht⟩ := bind_eq_ok.mp ht
    cases ht
    have ha : a.apply (.deposited d) =
        .ok { a with balance := a.balance + amount, version := a.version + 1 } := by
      simp only [BankAccount.apply, hamount]
      rfl
    refine ⟨_, _, he, ha, ⟨howner, congrArg (· + amount) hbalance, congrArg (· + 1) hversion⟩, ?_⟩
    rintro (hid | ⟨c, hc⟩)
    · exact hid
    · cases hc
  | withdrawn d =>
    obtain ⟨amount, hamount, ht⟩ := bind_eq_ok.mp ht
    cases ht
    have ha : a.apply (.withdrawn d) =
        .ok { a with balance := a.balance - amount, version := a.version + 1 } := by
      simp only [BankAccount.apply, hamount]
      rfl
    refine ⟨_, _, he, ha, ⟨howner, congrArg (· - amount) hbalance, congrArg (· + 1) hversion⟩, ?_⟩
    rintro (hid | ⟨c, hc⟩)
    · exact hid
    · cases hc

/-- `AccountSummary.apply` folded over raw events, each with the time at which it is applied. -/
def foldSummary (s : AccountSummary) (raws : List (Fields × ℕ)) : Except PyExc AccountSummary :=
  raws.foldlM (fun s x => s.apply x.2 x.1) s

theorem version_apply {s s' : AccountSummary} {now : ℕ} {raw : Fields}
    (h : s.apply now raw = .ok s') : s'.version = s.version + 1 := by
  simp only [AccountSummary.apply, bind_eq_ok] at h
  obtain ⟨e, -, t, ht, h⟩ := h
  cases h
  cases e with
  | created c =>
    cases ht
    rfl
  | deposited d =>
    obtain ⟨amount, -, ht⟩ := bind_eq_ok.mp ht
    cases ht
    rfl
  | withdrawn d =>
    obtain ⟨amount, -, ht⟩ := bind_eq_ok.mp ht
    cases ht
    rfl

theorem Agrees.fold {raws : List (Fields × ℕ)} {s s' : AccountSummary} {a : BankAccount}
    (h : Agrees s a) (hs : foldSummary s raws = .ok s') :
    ∃ events a', (raws.map Prod.fst).mapM decodeEvent = .ok events ∧
      events.foldlM BankAccount.apply a = .ok a' ∧ Agrees s' a' ∧
      ((s.accountId = a.accountId ∨ ∃ c, events.head? = some (.created c)) →
        s'.accountId = a'.accountId) := by
  induction raws generalizing s a with
  | nil =>
    cases hs
    refine ⟨[], a, rfl, rfl, h, ?_⟩
    rintro (hid | ⟨c, hc⟩)
    · exact hid
    · cases hc
  | cons x raws ih =>
    obtain ⟨t, ht, hrest⟩ := bind_eq_ok.mp hs
    obtain ⟨e, b, he, hb, htb, hid⟩ := h.apply ht
    obtain ⟨events, a', hes, ha', hagree, hid'⟩ := ih htb hrest
    refine ⟨e :: events, a', ?_, ?_, hagree, ?_⟩
    · rw [List.map_cons, List.mapM_cons]
      exact bind_eq_ok.mpr ⟨e, he, bind_eq_ok.mpr ⟨events, hes, rfl⟩⟩
    · rw [List.foldlM_cons]
      exact bind_eq_ok.mpr ⟨b, hb, ha'⟩
    · rintro (hs | ⟨c, hc⟩)
      · exact hid' (Or.inl (hid (Or.inl hs)))
      · exact hid' (Or.inl (hid (Or.inr ⟨c, Option.some.inj hc⟩)))

/-- The amount of the event is an integer. -/
def AccountEvent.Numeric : AccountEvent → Prop
  | .created _ => True
  | .deposited e => ∃ n, pyInt e.amount = .ok n
  | .withdrawn e => ∃ n, pyInt e.amount = .ok n

def Decodable (raw : Fields) : Prop := ∃ e, decodeEvent raw = .ok e ∧ e.Numeric

theorem apply_of_decodable {raw : Fields} (h : Decodable raw) (s : AccountSummary) (now : ℕ) :
    ∃ s', s.apply now raw = .ok s' := by
  obtain ⟨e, he, hnum⟩ := h
  have hdispatch : ∃ t, s.dispatch e = .ok t := by
    cases e with
    | created c => exact ⟨_, rfl⟩
    | deposited d =>
      obtain ⟨n, hn⟩ := hnum
      exact ⟨_, bind_eq_ok.mpr ⟨n, hn, rfl⟩⟩
    | withdrawn d =>
      obtain ⟨n, hn⟩ := hnum
      exact ⟨_, bind_eq_ok.mpr ⟨n, hn, rfl⟩⟩
  obtain ⟨t, ht⟩ := hdispatch
  exact ⟨_, bind_eq_ok.mpr ⟨e, he, bind_eq_ok.mpr ⟨t, ht, rfl⟩⟩⟩

namespace Projection
namespace World

/-- The summary is the fold of the first `version` events of the stream. -/
structure Folded (w : World) : Prop where
  within : w.projector.summary.version ≤ w.entries.length
  fold : ∃ times : List ℕ, times.length = w.projector.summary.version ∧
    foldSummary { accountId := w.projector.accountId }
      ((w.entries.take w.projector.summary.version).zip times) = .ok w.projector.summary

def WellFormed (w : World) : Prop := ∀ raw ∈ w.entries, Decodable raw

theorem Folded.append {w w' : World} (h : Folded w) (hp : w'.projector = w.projector)
    {more : List Fields} (hent : w'.entries = w.entries ++ more) : Folded w' := by
  obtain ⟨times, hlen, hfold⟩ := h.fold
  constructor
  · rw [hp, hent, List.length_append]
    exact h.within.trans (Nat.le_add_right _ _)
  · refine ⟨times, hp ▸ hlen, ?_⟩
    rw [hp, hent, List.take_append_of_le_length h.within]
    exact hfold

theorem Folded.apply {w w' : World} (h : Folded w) {raw : Fields} {now : ℕ}
    (hraw : w.entries[w.projector.summary.version]? = some raw)
    (hs : w.projector.summary.apply now raw = .ok w'.projector.summary)
    (hid : w'.projector.accountId = w.projector.accountId) (hent : w'.entries = w.entries) :
    Folded w' := by
  obtain ⟨times, hlen, hfold⟩ := h.fold
  have hversion := version_apply hs
  have hlt := (List.getElem?_eq_some_iff.mp hraw).1
  constructor
  · rw [hversion, hent]
    exact hlt
  · refine ⟨times ++ [now], ?_, ?_⟩
    · rw [List.length_append, hlen, hversion]
      rfl
    · have htake : (w.entries.take w.projector.summary.version).length = times.length := by
        rw [List.length_take, hlen]
        exact Nat.min_eq_left h.within
      rw [hversion, hent, hid, List.take_add_one, hraw, Option.toList_some, List.zip_append htake,
        foldSummary, List.foldlM_append]
      exact bind_eq_ok.mpr ⟨_, hfold, bind_eq_ok.mpr ⟨_, hs, rfl⟩⟩

theorem applyPage_frame (w : World) (page : List (ℕ × Fields)) :
    (w.applyPage page).db = w.db ∧ (w.applyPage page).stopEvent = w.stopEvent ∧
      (w.applyPage page).projector.accountId = w.projector.accountId ∧
      (w.applyPage page).projector.expectedVersion = w.projector.expectedVersion := by
  induction page generalizing w with
  | nil => exact ⟨rfl, rfl, rfl, rfl⟩
  | cons e rest ih =>
    obtain ⟨msgId, raw⟩ := e
    simp only [applyPage]
    split
    · exact ih _
    · exact ⟨rfl, rfl, rfl, rfl⟩

theorem applyPage_spec {w : World} {page : List (ℕ × Fields)} (h : Folded w)
    (hpc : w.projector.pc = .read) (hcursor : w.projector.lastId = w.projector.summary.version)
    (hpage : IsPage w.entries w.projector.summary.version page) :
    Folded (w.applyPage page) ∧
      (((∃ e, (w.applyPage page).projector.pc = .raised e) ∧ ¬ w.WellFormed) ∨
        ((w.applyPage page).projector.pc = .read ∧
          (w.applyPage page).projector.lastId = (w.applyPage page).projector.summary.version ∧
          (w.applyPage page).projector.summary.version =
            w.projector.summary.version + page.length)) := by
  induction page generalizing w with
  | nil => exact ⟨h, Or.inr ⟨hpc, hcursor, rfl⟩⟩
  | cons e rest ih =>
    obtain ⟨msgId, raw⟩ := e
    obtain ⟨hid, hraw, hrest⟩ := hpage.head
    simp only [applyPage]
    split
    · rename_i summary hs
      have hversion := version_apply hs
      have hnext := ih (w := { w with
        projector.lastId := msgId
        projector.summary := summary
        registry.readModelEventsApplied := w.registry.readModelEventsApplied + 1 })
        (h.apply hraw hs rfl rfl) hpc (hid.trans hversion.symm) (hversion ▸ hrest)
      obtain ⟨hf, hcase⟩ := hnext
      refine ⟨hf, hcase.imp_right ?_⟩
      rintro ⟨hpc', hcur', hver'⟩
      refine ⟨hpc', hcur', hver'.trans ?_⟩
      rw [List.length_cons]
      change summary.version + rest.length = _
      omega
    · rename_i e hs
      refine ⟨⟨h.within, h.fold⟩, Or.inl ⟨⟨e, rfl⟩, ?_⟩⟩
      intro hwf
      have hmem := List.mem_of_getElem? hraw
      obtain ⟨s', hs'⟩ := apply_of_decodable (hwf raw hmem) w.projector.summary w.now
      rw [hs] at hs'
      cases hs'

/-- What holds whenever the projector waits. -/
structure ProjInv (w : World) : Prop where
  folded : Folded w
  cursor : w.ended = false → w.projector.lastId = w.projector.summary.version
  caught : w.projector.pc = .returned true →
    w.projector.expectedVersion ≤ w.projector.summary.version
  raised : ∀ e, w.projector.pc = .raised e → ¬ w.WellFormed

theorem ProjInv.append {w w' : World} (h : ProjInv w) (hp : w'.projector = w.projector)
    {more : List Fields} (hent : w'.entries = w.entries ++ more) : ProjInv w' := by
  constructor
  · exact h.folded.append hp hent
  · intro hend
    rw [hp]
    apply h.cursor
    rwa [ended, hp] at hend
  · rw [hp]
    exact h.caught
  · intro e hpc hwf
    rw [hp] at hpc
    apply h.raised e hpc
    intro raw hraw
    exact hwf raw (hent ▸ List.mem_append_left more hraw)

theorem entries_append (w : World) (accountId eventType : String) (payload : Dict String String) :
    ∃ more, (EventStore.append w.db accountId eventType payload).2
      (accountStream w.projector.accountId) = w.entries ++ more := by
  by_cases h : accountStream w.projector.accountId = accountStream accountId
  · refine ⟨[encodeFields (eventFields eventType payload)], ?_⟩
    simp [EventStore.append, entries, h]
  · refine ⟨[], ?_⟩
    simp [EventStore.append, entries, h]

/-- All that a step of the projector can do. -/
inductive Turn (w w' : World) : Prop where
  | stopped (hpc : w.projector.pc = .guard) (hstop : w.stopEvent = true)
      (hw' : w' = { w with projector.pc := .returned false })
  | entered (hpc : w.projector.pc = .guard) (hstop : w.stopEvent = false)
      (hw' : w' = { w with projector.pc := .read })
  | polled (hpc : w.projector.pc = .read)
      (hw' : w' = (w.applyPage
        (EventStore.read w.db w.projector.accountId w.projector.lastId)).checkVersion)

theorem Turn.of_step {w w' : World} (h : step w .run = some w') : Turn w w' := by
  simp only [step] at h
  split at h
  · rename_i hpc
    split_ifs at h with hstop
    · exact .stopped hpc hstop (Option.some.inj h).symm
    · exact .entered hpc (Bool.eq_false_iff.mpr hstop) (Option.some.inj h).symm
  · rename_i hpc
    exact .polled hpc (Option.some.inj h).symm
  · cases h
  · cases h

/-- How a poll ends: with an entry that is no event, caught up, or asleep. -/
inductive Polled (w w' : World) : Prop where
  | raised (e : PyExc) (hpc : w'.projector.pc = .raised e) (hstop : w'.stopEvent = w.stopEvent)
      (hwf : ¬ w.WellFormed)
  | caughtUp (hpc : w'.projector.pc = .returned true)
      (hversion : w.projector.expectedVersion ≤ w'.projector.summary.version)
  | asleep (hpc : w'.projector.pc = .guard) (hstop : w'.stopEvent = w.stopEvent)
      (hcursor : w'.projector.lastId = w'.projector.summary.version)
      (hversion : ¬ w.projector.expectedVersion ≤ w'.projector.summary.version)
      (hgrow : w'.projector.summary.version = w.projector.summary.version +
        min 100 (w.entries.length - w.projector.summary.version))

theorem polled_spec {w : World} (h : ProjInv w) (hpc : w.projector.pc = .read) :
    let w' := (w.applyPage
      (EventStore.read w.db w.projector.accountId w.projector.lastId)).checkVersion
    w'.db = w.db ∧ w'.projector.accountId = w.projector.accountId ∧
      w'.projector.expectedVersion = w.projector.expectedVersion ∧ Folded w' ∧ Polled w w' := by
  have hcursor : w.projector.lastId = w.projector.summary.version :=
    h.cursor (by simp only [ended, hpc])
  have hpage : IsPage w.entries w.projector.summary.version
      (EventStore.read w.db w.projector.accountId w.projector.lastId) := by
    rw [hcursor]
    exact isPage_xread _ _ _
  have hlen : (EventStore.read w.db w.projector.accountId w.projector.lastId).length =
      min 100 (w.entries.length - w.projector.summary.version) := by
    rw [hcursor]
    exact length_xread _ _ _
  obtain ⟨hdb, hstop, hid, hexp⟩ := w.applyPage_frame
    (EventStore.read w.db w.projector.accountId w.projector.lastId)
  obtain ⟨hf, hcase⟩ := applyPage_spec h.folded hpc hcursor hpage
  generalize w.applyPage (EventStore.read w.db w.projector.accountId w.projector.lastId) = v at *
  rcases hcase with ⟨⟨e, he⟩, hwf⟩ | ⟨hpc', hcur', hver'⟩
  · have hcheck : v.checkVersion = v := by simp only [checkVersion, he]
    simp only [hcheck]
    exact ⟨hdb, hid, hexp, hf, .raised e he hstop hwf⟩
  · by_cases hle : v.projector.expectedVersion ≤ v.projector.summary.version
    · have hcheck : v.checkVersion =
          { v with stopEvent := true, projector.pc := .returned true } := by
        simp only [checkVersion, hpc', hle, if_true]
      simp only [hcheck]
      exact ⟨hdb, hid, hexp, ⟨hf.within, hf.fold⟩, .caughtUp rfl (hexp ▸ hle)⟩
    · have hcheck : v.checkVersion = { v with projector.pc := .guard } := by
        simp only [checkVersion, hpc', hle, if_false]
      simp only [hcheck]
      exact ⟨hdb, hid, hexp, ⟨hf.within, hf.fold⟩,
        .asleep rfl hstop hcur' (hexp ▸ hle) (hver'.trans (by rw [hlen]))⟩

theorem projInv_step (w : World) (a : Action) (w' : World) (h : ProjInv w)
    (hw : step w a = some w') : ProjInv w' := by
  cases a with
  | append accountId eventType payload =>
    cases hw
    obtain ⟨more, hmore⟩ := w.entries_append accountId eventType payload
    exact h.append rfl hmore
  | setStop =>
    cases hw
    exact h.append rfl (List.append_nil w.entries).symm
  | tick ms =>
    cases hw
    exact h.append rfl (List.append_nil _).symm
  | run =>
    cases Turn.of_step hw with
    | stopped hpc hstop hw' =>
      subst hw'
      exact ⟨⟨h.folded.within, h.folded.fold⟩, (fun hend => by cases hend), (fun hpc => by cases hpc),
        fun e he => by cases he⟩
    | entered hpc hstop hw' =>
      subst hw'
      refine ⟨⟨h.folded.within, h.folded.fold⟩, fun _ => h.cursor ?_, (fun hpc => by cases hpc),
        fun e he => by cases he⟩
      simp only [ended, hpc]
    | polled hpc hw' =>
      obtain ⟨hdb, hid, hexp, hf, hpolled⟩ := polled_spec h hpc
      rw [← hw'] at hdb hid hexp hf hpolled
      have hent : w'.entries = w.entries := by rw [entries, entries, hdb, hid]
      cases hpolled with
      | raised e he hstop hwf =>
        refine ⟨hf, fun hend => ?_, fun hret => ?_, fun e' _ hwf' => hwf ?_⟩
        · simp only [ended, he] at hend
          cases hend
        · rw [he] at hret
          cases hret
        · rwa [WellFormed, hent] at hwf'
      | caughtUp hret hle =>
        refine ⟨hf, fun hend => ?_, fun _ => hexp ▸ hle, fun e he => ?_⟩
        · simp only [ended, hret] at hend
          cases hend
        · rw [hret] at he
          cases he
      | asleep hguard hstop hcur hlt hgrow =>
        refine ⟨hf, fun _ => hcur, fun hret => ?_, fun e he => ?_⟩
        · rw [hguard] at hret
          cases hret
        · rw [hguard] at he
          cases he

/-- `project` before its first look at the stop event. -/
def start (db : Streams) (accountId : String) (expectedVersion : ℤ) (now : ℕ) (stopEvent : Bool) :
    World := { db, now, stopEvent, projector := { accountId, expectedVersion } }

theorem projInv_start (db : Streams) (accountId : String) (expected : ℤ) (now : ℕ) (stopped : Bool) :
    ProjInv (start db accountId expected now stopped) where
  folded := ⟨Nat.zero_le _, [], rfl, by simp [start, foldSummary]; rfl⟩
  cursor _ := rfl
  caught hpc := by cases hpc
  raised e hpc := by cases hpc

/-- How many steps of the projector at most lie before its end. -/
def toCatchUp (w : World) : ℕ :=
  match w.projector.pc with
  | .guard => 2 * (w.projector.expectedVersion - w.projector.summary.version).toNat + 2
  | .read => 2 * (w.projector.expectedVersion - w.projector.summary.version).toNat + 1
  | _ => 0

theorem toCatchUp_le (w : World) : w.toCatchUp ≤ 2 * w.projector.expectedVersion.toNat + 2 := by
  unfold toCatchUp
  split
  · omega
  · omega
  · omega

theorem step_frame {w w' : World} {a : Action} (h : ProjInv w) (hw : step w a = some w') :
    w'.projector.accountId = w.projector.accountId ∧
      w'.projector.expectedVersion = w.projector.expectedVersion ∧
      ∃ more, w'.entries = w.entries ++ more := by
  cases a with
  | append accountId eventType payload =>
    cases hw
    exact ⟨rfl, rfl, w.entries_append accountId eventType payload⟩
  | setStop =>
    cases hw
    exact ⟨rfl, rfl, [], (List.append_nil _).symm⟩
  | tick ms =>
    cases hw
    exact ⟨rfl, rfl, [], (List.append_nil _).symm⟩
  | run =>
    cases Turn.of_step hw with
    | stopped hpc hstop hw' =>
      subst hw'
      exact ⟨rfl, rfl, [], (List.append_nil _).symm⟩
    | entered hpc hstop hw' =>
      subst hw'
      exact ⟨rfl, rfl, [], (List.append_nil _).symm⟩
    | polled hpc hw' =>
      obtain ⟨hdb, hid, hexp, -, -⟩ := polled_spec h hpc
      rw [← hw'] at hdb hid hexp
      refine ⟨hid, hexp, [], ?_⟩
      rw [entries, hdb, hid, List.append_nil, entries]

def isRun : Action → Bool
  | .run => true
  | _ => false

/-- A step of the projector comes closer to its end when the stream is long enough: a page that is
not empty raises the version. -/
theorem toCatchUp_step {w w' : World} {a : Action} (h : ProjInv w) (hw : step w a = some w')
    (hlong : w.projector.expectedVersion ≤ w.entries.length) :
    w'.toCatchUp + (if isRun a then 1 else 0) ≤ w.toCatchUp := by
  cases a with
  | append accountId eventType payload =>
    cases hw
    exact le_rfl
  | setStop =>
    cases hw
    exact le_rfl
  | tick ms =>
    cases hw
    exact le_rfl
  | run =>
    simp only [isRun, if_true]
    cases Turn.of_step hw with
    | stopped hpc hstop hw' =>
      subst hw'
      simp only [toCatchUp, hpc]
      omega
    | entered hpc hstop hw' =>
      subst hw'
      simp only [toCatchUp, hpc]
      omega
    | polled hpc hw' =>
      obtain ⟨-, -, hexp, -, hpolled⟩ := polled_spec h hpc
      rw [← hw'] at hexp hpolled
      cases hpolled with
      | raised e he hstop hwf =>
        simp only [toCatchUp, hpc, he]
        omega
      | caughtUp hret hle =>
        simp only [toCatchUp, hpc, hret]
        omega
      | asleep hguard hstop hcur hlt hgrow =>
        simp only [toCatchUp, hpc, hguard, hexp]
        omega

theorem toCatchUp_run {acts : List Action} {w w' : World} (h : ProjInv w)
    (hlong : w.projector.expectedVersion ≤ w.entries.length) (hrun : run step w acts = some w') :
    w'.toCatchUp + acts.countP isRun ≤ w.toCatchUp := by
  induction acts generalizing w with
  | nil =>
    cases hrun
    exact le_rfl
  | cons a acts ih =>
    obtain ⟨u, hu, hrun⟩ := run_cons_eq_some.mp hrun
    obtain ⟨-, hexp, more, hmore⟩ := step_frame h hu
    have hlong' : u.projector.expectedVersion ≤ u.entries.length := by
      rw [hexp, hmore, List.length_append]
      omega
    have hstep := toCatchUp_step h hu hlong
    have hrest := ih (projInv_step w a u h hu) hlong' hrun
    rw [List.countP_cons]
    omega

theorem step_run_of_not_ended {w : World} (hend : w.ended = false) : ∃ w', step w .run = some w' := by
  simp only [step]
  split
  · split_ifs
    · exact ⟨_, rfl⟩
    · exact ⟨_, rfl⟩
  · exact ⟨_, rfl⟩
  · rename_i hpc
    simp [ended, hpc] at hend
  · rename_i hpc
    simp [ended, hpc] at hend

/-- Only the projector itself has set the stop event. -/
def Unstopped (w : World) : Prop :=
  w.projector.pc ≠ .returned false ∧ (w.stopEvent = true → w.projector.pc = .returned true)

theorem unstopped_step {w w' : World} {a : Action} (h : ProjInv w ∧ Unstopped w)
    (ha : a ≠ .setStop) (hw : step w a = some w') : ProjInv w' ∧ Unstopped w' := by
  refine ⟨projInv_step w a w' h.1 hw, ?_⟩
  obtain ⟨hret, hstopped⟩ := h.2
  cases a with
  | append accountId eventType payload =>
    cases hw
    exact ⟨hret, hstopped⟩
  | setStop => exact absurd rfl ha
  | tick ms =>
    cases hw
    exact ⟨hret, hstopped⟩
  | run =>
    cases Turn.of_step hw with
    | stopped hpc hstop hw' =>
      have := hstopped hstop
      rw [hpc] at this
      cases this
    | entered hpc hstop hw' =>
      subst hw'
      exact ⟨by simp, fun hs => by rw [hstop] at hs; cases hs⟩
    | polled hpc hw' =>
      have hclear : w.stopEvent = false := by
        apply Bool.eq_false_iff.mpr
        intro hs
        have := hstopped hs
        rw [hpc] at this
        cases this
      obtain ⟨-, -, -, -, hpolled⟩ := polled_spec h.1 hpc
      rw [← hw'] at hpolled
      cases hpolled with
      | raised e he hstop hwf =>
        exact ⟨by simp [he], fun hs => by rw [hstop, hclear] at hs; cases hs⟩
      | caughtUp hret hle => exact ⟨by simp [hret], fun _ => hret⟩
      | asleep hguard hstop hcur hlt hgrow =>
        exact ⟨by simp [hguard], fun hs => by rw [hstop, hclear] at hs; cases hs⟩

end World

/-- The summary is the fold of the given entries, each applied once and in their order, and the
replay of the same history agrees with it. -/
structure FoldOf (accountId : String) (raws : List Fields) (s : AccountSummary) : Prop where
  version : s.version = raws.length
  fold : ∃ times : List ℕ, times.length = raws.length ∧
    foldSummary { accountId } (raws.zip times) = .ok s
  replay : ∃ events a, raws.mapM decodeEvent = .ok events ∧ BankAccount.replay events = .ok a ∧
    s.ownerId = a.ownerId ∧ s.balance = a.balance ∧ s.version = a.version ∧
    ((∃ c, events.head? = some (.created c)) → s.accountId = a.accountId)

namespace World

theorem Folded.foldOf {w : World} (h : Folded w) :
    FoldOf w.projector.accountId (w.entries.take w.projector.summary.version) w.projector.summary := by
  obtain ⟨times, hlen, hfold⟩ := h.fold
  have htake : (w.entries.take w.projector.summary.version).length =
      w.projector.summary.version := by
    rw [List.length_take]
    exact Nat.min_eq_left h.within
  refine ⟨htake.symm, ⟨times, hlen.trans htake.symm, hfold⟩, ?_⟩
  have hblank : Agrees { accountId := w.projector.accountId } {} := ⟨rfl, rfl, rfl⟩
  obtain ⟨events, a, hevents, ha, hagree, hid⟩ := hblank.fold hfold
  rw [List.map_fst_zip (by rw [htake, hlen])] at hevents
  exact ⟨events, a, hevents, ha, hagree.owner, hagree.balance, hagree.version,
    fun h => hid (Or.inr h)⟩

/-- Whatever is appended and whenever the stop event is set, the returned summary is the fold of the
first `version` events; it is caught up when the projector says so. A stream that is long enough
bounds the steps that the projector has left, and without another stop, on a stream of events, it
ends by catching up. -/
theorem project_folds_history (db : Streams) (accountId : String) (expected : ℤ) (now : ℕ)
    (stopped : Bool) (acts : List Action) (w : World)
    (hrun : run step (start db accountId expected now stopped) acts = some w) :
    (∀ caughtUp, w.projector.pc = .returned caughtUp →
      FoldOf accountId (w.entries.take w.projector.summary.version) w.projector.summary ∧
        (caughtUp = true → expected ≤ w.projector.summary.version)) ∧
    (expected ≤ w.entries.length → ∀ more w', run step w more = some w' →
      more.countP isRun ≤ 2 * expected.toNat + 2 ∧
        (w'.ended = false → ∃ w'', step w' .run = some w'')) ∧
    (stopped = false → (∀ a ∈ acts, a ≠ .setStop) → w.WellFormed → w.ended = true →
      w.projector.pc = .returned true) := by
  have hinv : ProjInv w ∧ w.projector.accountId = accountId ∧
      w.projector.expectedVersion = expected := by
    apply run_invariant_of_step (I := fun v => ProjInv v ∧ v.projector.accountId = accountId ∧
      v.projector.expectedVersion = expected) ?_
      ⟨projInv_start db accountId expected now stopped, rfl, rfl⟩ hrun
    rintro v a v' ⟨hi, hid, hexp⟩ hv
    obtain ⟨hid', hexp', -⟩ := step_frame hi hv
    exact ⟨projInv_step v a v' hi hv, hid'.trans hid, hexp'.trans hexp⟩
  obtain ⟨hi, hid, hexp⟩ := hinv
  refine ⟨?_, ?_, ?_⟩
  · intro caughtUp hpc
    refine ⟨hid ▸ hi.folded.foldOf, ?_⟩
    rintro rfl
    exact hexp ▸ hi.caught hpc
  · intro hlong more w' hmore
    have hbound := toCatchUp_run hi (hexp ▸ hlong) hmore
    have hmax := w.toCatchUp_le
    rw [hexp] at hmax
    exact ⟨by omega, step_run_of_not_ended⟩
  · rintro rfl hacts hwf hend
    have hquiet : ProjInv w ∧ Unstopped w :=
      run_invariant (fun _ _ _ h ha hw => unstopped_step h ha hw)
        ⟨projInv_start db accountId expected now false, by simp [start], fun h => by cases h⟩
        (along_of_forall (fun a ha _ => hacts a ha) _) hrun
    unfold ended at hend
    split at hend
    · rename_i caughtUp hpc
      cases caughtUp with
      | true => exact hpc
      | false => exact absurd hpc hquiet.2.1
    · rename_i e hpc
      exact absurd hwf (hi.raised e hpc)
    · cases hend

/-- A creation and a deposit are appended while the projector of the account runs. -/
def openAccount : List Action :=
  [.append "acc-1" "AccountCreated" [("account_id", "acc-1"), ("owner_id", "owner-1")], .run, .run,
    .append "acc-1" "MoneyDeposited" [("account_id", "acc-1"), ("amount", "1000")], .tick 50, .run,
    .run]

theorem openAccount_folds :
    ∃ w, run step (start (fun _ => []) "acc-1" 2 0 false) openAccount = some w ∧
      w.projector.pc = .returned true ∧ w.projector.summary.balance = 1000 ∧
      FoldOf "acc-1" (w.entries.take 2) w.projector.summary := by
  obtain ⟨w, hw, hpc, hbalance, hversion⟩ : ∃ w,
      run step (start (fun _ => []) "acc-1" 2 0 false) openAccount = some w ∧
      w.projector.pc = .returned true ∧ w.projector.summary.balance = 1000 ∧
      w.projector.summary.version = 2 := ⟨_, rfl, rfl, rfl, rfl⟩
  have h := ((project_folds_history _ _ _ _ _ openAccount w hw).1 true hpc).1
  rw [hversion] at h
  exact ⟨w, hw, hpc, hbalance, h⟩

end World
end Projection
end EventSourcing
