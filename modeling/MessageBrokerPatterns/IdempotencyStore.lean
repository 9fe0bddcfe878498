import MessageBrokerPatterns.PyDict
import MessageBrokerPatterns.RedisSet

/-!
# The dedup stores

A consumer asks a dedup store whether a key was handled and records keys that it handles.
`InMemoryIdempotencyStore` keeps a dictionary from keys to their expiry, drops an expired key
when the key is read and sweeps all expired keys when it records one. Each of its calls runs
under a lock and reads the clock once. `RedisIdempotencyStore` keeps one Redis set whose expiry
is set by the call that finds none.

Instants and durations count microseconds, as `datetime` and `timedelta` do, instants from 1970 in
UTC on. No `datetime` comes after the year 9999, so that a recording whose expiry would raises.
`millis` is the client library's conversion of a `timedelta` to the milliseconds that it sends.
-/

namespace IdempotencyStore
open PyText PyDict RedisSet

inductive Call
  | isProcessed (key : String)
  | markProcessed (key : String)
  | markIfNew (key : String)
  deriving DecidableEq

inductive Answer
  | bool (b : Bool)
  | none
  | int (n : ℕ)
  | raised (e : PyExc)
  deriving DecidableEq

def Answer.ofExcept {α : Type} (f : α → Answer) : Except PyExc α → Answer
  | .ok a => f a
  | .error e => .raised e

def Call.key : Call → String
  | .isProcessed key => key
  | .markProcessed key => key
  | .markIfNew key => key

def Call.Asks (key : String) (c : Call) : Prop := c = .isProcessed key ∨ c = .markIfNew key

def Call.Marks (key : String) (c : Call) : Prop := c = .markProcessed key ∨ c = .markIfNew key

/-- A duration that the constructors accept. -/
abbrev Ttl := {ttl : ℤ // 0 < ttl}

def timedeltaPart (name : String) (n : ℤ) : List String := if n = 0 then [] else [name ++ pyStr n]

/-- `repr` of a `timedelta`, whose seconds and microseconds are never negative. -/
def timedeltaRepr (d : ℤ) : String :=
  let parts := timedeltaPart "days=" (d / 86400000000) ++
    timedeltaPart "seconds=" (d % 86400000000 / 1000000) ++
    timedeltaPart "microseconds=" (d % 1000000)
  "datetime.timedelta(" ++ (if parts.isEmpty then "0" else String.intercalate ", " parts) ++ ")"

def validateTtl (ttl : ℤ) : Except PyExc Ttl :=
  if h : 0 < ttl then .ok ⟨ttl, h⟩
  else .error (valueError ("ttl must be positive, got " ++ timedeltaRepr ttl))

def defaultTtl : ℤ := 3600000000

theorem validateTtl_of_pos {ttl : ℤ} (h : 0 < ttl) : validateTtl ttl = .ok ⟨ttl, h⟩ := by
  simp [validateTtl, h]

theorem validateTtl_eq_ok {ttl : ℤ} {t : Ttl} : validateTtl ttl = .ok t ↔ t.val = ttl := by
  by_cases h : 0 < ttl
  · simp [validateTtl_of_pos h, Subtype.ext_iff, eq_comm]
  · simp only [validateTtl, dif_neg h, reduceCtorEq, false_iff]
    intro ht
    exact h (ht ▸ t.property)

theorem validateTtl_defaultTtl : ∃ t, validateTtl defaultTtl = .ok t :=
  ⟨_, validateTtl_of_pos (by decide)⟩

/-- `datetime.max`, the end of the year 9999. -/
def datetimeMax : ℤ := 253402300799999999

def dateOverflow : PyExc := ⟨"OverflowError", "date value out of range"⟩

/-- `now + ttl` on a `datetime` and a `timedelta`. -/
def addDelta (now ttl : ℤ) : Except PyExc ℤ :=
  if now + ttl ≤ datetimeMax then .ok (now + ttl) else .error dateOverflow

theorem addDelta_of_le {now ttl : ℤ} (h : now + ttl ≤ datetimeMax) :
    addDelta now ttl = .ok (now + ttl) := if_pos h

theorem addDelta_of_lt {now ttl : ℤ} (h : datetimeMax < now + ttl) :
    addDelta now ttl = .error dateOverflow := if_neg (not_le.mpr h)

structure InMemoryIdempotencyStore where
  ttl : Ttl
  expiry : Dict String ℤ
  nodup : (keys expiry).Nodup

namespace InMemoryIdempotencyStore

def empty (ttl : Ttl) : InMemoryIdempotencyStore := ⟨ttl, [], List.nodup_nil⟩

def new (ttl : ℤ) : Except PyExc InMemoryIdempotencyStore := (validateTtl ttl).map empty

def isLive (store : InMemoryIdempotencyStore) (key : String) (now : ℤ) :
    Bool × InMemoryIdempotencyStore :=
  match get? store.expiry key with
  | none => (false, store)
  | some expiresAt =>
    if now < expiresAt then (true, store)
    else (false, ⟨store.ttl, erase store.expiry key, nodup_keys_erase store.nodup key⟩)

def purgeExpired (store : InMemoryIdempotencyStore) (now : ℤ) : InMemoryIdempotencyStore :=
  let expired := keys (store.expiry.filter fun e => e.2 ≤ now)
  ⟨store.ttl, expired.foldl erase store.expiry, nodup_keys_foldl_erase store.nodup expired⟩

def record (store : InMemoryIdempotencyStore) (key : String) (now : ℤ) :
    Except PyExc Unit × InMemoryIdempotencyStore :=
  let purged := store.purgeExpired now
  match addDelta now purged.ttl with
  | .ok expiresAt =>
    (.ok (), ⟨purged.ttl, assign purged.expiry key expiresAt, nodup_keys_assign purged.nodup key _⟩)
  | .error e => (.error e, purged)

def isProcessed (store : InMemoryIdempotencyStore) (now : ℤ) (key : String) :
    Bool × InMemoryIdempotencyStore := store.isLive key now

def markProcessed (store : InMemoryIdempotencyStore) (now : ℤ) (key : String) :
    Except PyExc Unit × InMemoryIdempotencyStore := store.record key now

def markIfNew (store : InMemoryIdempotencyStore) (now : ℤ) (key : String) :
    Except PyExc Bool × InMemoryIdempotencyStore :=
  let (live, read) := store.isLive key now
  if live then (.ok false, read) else (read.record key now).map (·.map fun _ => true) id

def size (store : InMemoryIdempotencyStore) (now : ℤ) : ℕ :=
  (store.expiry.filter fun e => now < e.2).length

def call (store : InMemoryIdempotencyStore) (now : ℤ) : Call → Answer × InMemoryIdempotencyStore
  | .isProcessed key => ((store.isProcessed now key).map Answer.bool id)
  | .markProcessed key => ((store.markProcessed now key).map (Answer.ofExcept fun _ => .none) id)
  | .markIfNew key => ((store.markIfNew now key).map (Answer.ofExcept Answer.bool) id)

end InMemoryIdempotencyStore

namespace RedisIdempotencyStore
variable (millis : ℤ → ℤ)

def new (ttl : ℤ) : Except PyExc Ttl := validateTtl ttl

def isProcessed (entry : Entry String) (key : String) : Bool := sismember entry key ≠ 0

def markIfNew (ttl : Ttl) (now : ℤ) (entry : Entry String) (key : String) : Bool × Entry String :=
  let (added, entry) := sadd entry key
  let (_, entry) := pexpire now entry (millis ttl) true
  (added ≠ 0, entry)

def markProcessed (ttl : Ttl) (now : ℤ) (entry : Entry String) (key : String) : Entry String :=
  (markIfNew millis ttl now entry key).2

/-- A call whose commands take effect at one instant, on what the server then holds. -/
def call (ttl : Ttl) (now : ℤ) (entry : Entry String) : Call → Answer × Entry String
  | .isProcessed key => (.bool (isProcessed (evict now entry) key), evict now entry)
  | .markProcessed key => (.none, markProcessed millis ttl now (evict now entry) key)
  | .markIfNew key => (markIfNew millis ttl now (evict now entry) key).map Answer.bool id

end RedisIdempotencyStore

end IdempotencyStore
