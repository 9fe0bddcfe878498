import MessageBrokerPatterns.PyDict

/-!
# The message envelope

`Envelope` puts four tracing headers around the flat fields of a message. Its constructor rejects a
naive instant and a payload that uses the key of a header, turns the instant to UTC and lets the
correlation id default to the message id: these are the fields of the structure. On the wire headers
and payload share one mapping, which `from_fields` reads from text or from bytes.

`PyDatetime` is what the envelope asks of Python's `datetime`, with `fromisoformat` undoing
`isoformat` on UTC instants.
-/

namespace Entities
open PyText PyDict

class PyDatetime (D : Type) where
  isNaive : D → Bool
  repr : D → String
  astimezoneUtc : D → Except PyExc D
  isoformat : D → String
  fromisoformat : String → Except PyExc D
  aware_utc : ∀ d u, astimezoneUtc d = .ok u → isNaive u = false
  astimezone_utc : ∀ d u, astimezoneUtc d = .ok u → astimezoneUtc u = .ok u
  fromisoformat_utc : ∀ d u, astimezoneUtc d = .ok u → fromisoformat (isoformat u) = .ok u

/-- `HEADER_FIELDS`, sorted. -/
def headerFields : List String := ["causation_id", "correlation_id", "message_id", "occurred_at"]

structure Envelope (D : Type) [PyDatetime D] where
  messageId : String
  correlationId : String
  causationId : String
  occurredAt : D
  payload : Dict String String
  utc : PyDatetime.astimezoneUtc occurredAt = .ok occurredAt
  nodup : (keys payload).Nodup
  apart : ∀ k ∈ keys payload, k ∉ headerFields
  correlated : correlationId = "" → messageId = ""

/-- A key or a value of a mapping that Redis or `to_fields` has returned. -/
inductive Wire where
  | bytes (b : ByteArray)
  | str (s : String)

/-- `_decode`. -/
def Wire.decode : Wire → Except PyExc String
  | bytes b => utf8Decode b
  | str s => .ok s

/-- `{_decode(k): _decode(v) for k, v in fields.items()}`, from the entries that are there. -/
def decodeInto (d : Dict String String) : List (Wire × Wire) → Except PyExc (Dict String String)
  | [] => .ok d
  | e :: fields => do
      let k ← e.1.decode
      let v ← e.2.decode
      decodeInto (assign d k v) fields

def asStr (d : Dict String String) : List (Wire × Wire) := d.map fun e => (.str e.1, .str e.2)

def asBytes (d : Dict String String) : List (Wire × Wire) :=
  (encodeFields d).map fun e => (.bytes e.1, .bytes e.2)

namespace Envelope
variable {D : Type} [PyDatetime D]

def collisions (payload : Dict String String) : List String :=
  headerFields.filter fun h => h ∈ keys payload

theorem collisions_eq_nil {payload : Dict String String} :
    collisions payload = [] ↔ ∀ k ∈ keys payload, k ∉ headerFields := by
  rw [collisions, List.filter_eq_nil_iff]
  constructor
  · intro h k hk hh
    exact h k hh (decide_eq_true hk)
  · intro h k hh hk
    exact h k (of_decide_eq_true hk) hh

def naiveInstant (d : D) : PyExc :=
  valueError ("occurred_at must be timezone-aware (UTC); got naive " ++ PyDatetime.repr d)

def headerCollision (names : List String) : PyExc :=
  valueError ("payload keys collide with envelope headers: " ++ ", ".intercalate names)

/-- The generated `__init__` with `__post_init__` behind it. -/
def new (messageId correlationId causationId : String) (occurredAt : D)
    (payload : Dict String String) : Except PyExc (Envelope D) :=
  if PyDatetime.isNaive occurredAt then .error (naiveInstant occurredAt)
  else if hc : collisions payload = [] then
    match hu : PyDatetime.astimezoneUtc occurredAt with
    | .error e => .error e
    | .ok utc => .ok {
        messageId, causationId
        correlationId := if correlationId = "" then messageId else correlationId
        occurredAt := utc
        payload := merge [] payload
        utc := PyDatetime.astimezone_utc _ _ hu
        nodup := nodup_keys_merge_nil payload
        apart := fun k hk => collisions_eq_nil.mp hc k (mem_keys_merge_nil.mp hk)
        correlated := fun h => by
          split_ifs at h
          · exact h
          · contradiction }
  else .error (headerCollision (collisions payload))

variable (e : Envelope D)

def headers : Dict String String :=
  [("message_id", e.messageId), ("correlation_id", e.correlationId),
    ("causation_id", e.causationId), ("occurred_at", PyDatetime.isoformat e.occurredAt)]

def toFields : Dict String String := merge e.headers e.payload

def fromFields (fields : List (Wire × Wire)) : Except PyExc (Envelope D) := do
  let decoded ← decodeInto [] fields
  let occurredAt ← PyDatetime.fromisoformat (← getItem decoded "occurred_at")
  let messageId ← getItem decoded "message_id"
  let correlationId ← getItem decoded "correlation_id"
  let causationId ← getItem decoded "causation_id"
  new messageId correlationId causationId occurredAt
    (decoded.filter fun f => f.1 ∉ headerFields)

variable {e}

theorem keys_headers : keys e.headers = ["message_id", "correlation_id", "causation_id", "occurred_at"] :=
  rfl

theorem mem_keys_headers {k : String} : k ∈ keys e.headers ↔ k ∈ headerFields := by
  simp only [keys_headers, headerFields, List.mem_cons, List.not_mem_nil, or_false]
  tauto

/-- Nothing is shadowed on the wire. -/
theorem toFields_eq : e.toFields = e.headers ++ e.payload :=
  merge_eq_append e.nodup fun k hk hh => e.apart k hk (mem_keys_headers.mp hh)

theorem nodup_keys_toFields : (keys e.toFields).Nodup := by
  apply nodup_keys_merge
  rw [keys_headers]
  decide

theorem filter_toFields : (e.toFields.filter fun f => f.1 ∉ headerFields) = e.payload := by
  have hheaders : (e.headers.filter fun f => f.1 ∉ headerFields) = [] := by
    rw [List.filter_eq_nil_iff]
    intro f hf
    simpa using mem_keys_headers.mp (List.mem_map_of_mem hf)
  have hpayload : (e.payload.filter fun f => f.1 ∉ headerFields) = e.payload := by
    rw [List.filter_eq_self]
    intro f hf
    simpa using e.apart f.1 (List.mem_map_of_mem hf)
  rw [toFields_eq, List.filter_append, hheaders, hpayload, List.nil_append]

theorem new_eq_ok {messageId correlationId causationId : String} {occurredAt : D}
    {payload : Dict String String} :
    new messageId correlationId causationId occurredAt payload = .ok e ↔
      PyDatetime.isNaive occurredAt = false ∧ (∀ k ∈ keys payload, k ∉ headerFields) ∧
        PyDatetime.astimezoneUtc occurredAt = .ok e.occurredAt ∧ e.messageId = messageId ∧
        e.correlationId = (if correlationId = "" then messageId else correlationId) ∧
        e.causationId = causationId ∧ e.payload = merge [] payload := by
  rw [← collisions_eq_nil]
  unfold new
  by_cases hnaive : PyDatetime.isNaive occurredAt = true
  · simp [hnaive]
  · rw [if_neg hnaive]
    by_cases hc : collisions payload = []
    · rw [dif_pos hc]
      split
      · rename_i exc hu
        simp [hu]
      · rename_i u hu
        obtain ⟨m, c, cause, occurred, pl, _, _, _, _⟩ := e
        simp only [Bool.not_eq_true] at hnaive
        simp only [Except.ok.injEq, mk.injEq, hnaive, hc, hu, true_and]
        constructor
        · rintro ⟨rfl, rfl, rfl, rfl, rfl⟩
          exact ⟨rfl, rfl, rfl, rfl, rfl⟩
        · rintro ⟨rfl, rfl, rfl, rfl, rfl⟩
          exact ⟨rfl, rfl, rfl, rfl, rfl⟩
    · simp [hc]

theorem new_self :
    new e.messageId e.correlationId e.causationId e.occurredAt e.payload = .ok e := by
  rw [new_eq_ok]
  refine ⟨PyDatetime.aware_utc _ _ e.utc, e.apart, e.utc, rfl, ?_, rfl, (merge_nil e.nodup).symm⟩
  split_ifs with h
  · rw [h, e.correlated h]
  · rfl

theorem fromFields_of_decodeInto {fields : List (Wire × Wire)}
    (h : decodeInto [] fields = .ok e.toFields) : fromFields fields = .ok e := by
  have hget (k v : String) (hk : get? e.headers k = some v) : getItem e.toFields k = .ok v := by
    have hheader : k ∈ keys e.headers :=
      List.mem_map_of_mem ((mem_iff_get? (by rw [keys_headers]; decide)).mpr hk)
    rw [getItem_eq_ok, toFields, get?_merge_of_forall_ne, hk]
    rintro p hp rfl
    exact e.apart p.1 (List.mem_map_of_mem hp) (mem_keys_headers.mp hheader)
  have hocc := PyDatetime.fromisoformat_utc _ _ e.utc
  simp only [fromFields, h, bind, Except.bind, hget "occurred_at" _ rfl, hocc,
    hget "message_id" e.messageId rfl, hget "correlation_id" e.correlationId rfl,
    hget "causation_id" e.causationId rfl, filter_toFields]
  exact new_self

end Envelope

theorem decodeInto_asStr (d d' : Dict String String) : decodeInto d (asStr d') = .ok (merge d d') := by
  induction d' generalizing d with
  | nil => rfl
  | cons f d' ih =>
    rw [merge_cons]
    exact ih (assign d f.1 f.2)

theorem decodeInto_asBytes (d d' : Dict String String) :
    decodeInto d (asBytes d') = .ok (merge d d') := by
  induction d' generalizing d with
  | nil => rfl
  | cons f d' ih =>
    have hcons : asBytes (f :: d') =
        (.bytes (utf8Encode f.1), .bytes (utf8Encode f.2)) :: asBytes d' := rfl
    rw [merge_cons, ← ih (assign d f.1 f.2), hcons]
    simp only [decodeInto, Wire.decode, utf8Decode_utf8Encode]
    rfl

namespace Envelope
variable {D : Type} [PyDatetime D]

theorem fromFields_asStr (e : Envelope D) : fromFields (asStr e.toFields) = .ok e :=
  fromFields_of_decodeInto (by rw [decodeInto_asStr, merge_nil nodup_keys_toFields])

theorem fromFields_asBytes (e : Envelope D) : fromFields (asBytes e.toFields) = .ok e :=
  fromFields_of_decodeInto (by rw [decodeInto_asBytes, merge_nil nodup_keys_toFields])

/-- An envelope can be constructed for every aware instant and every payload without header keys, and
is read back from its own fields as text and as bytes: these are the headers and the payload. Writing
again what has been read changes nothing more. -/
theorem wire_round_trip :
    (∀ (messageId correlationId causationId : String) (occurredAt : D) (payload : Dict String String),
      ((∃ e : Envelope D, new messageId correlationId causationId occurredAt payload = .ok e) ↔
        PyDatetime.isNaive occurredAt = false ∧ (∀ k ∈ keys payload, k ∉ headerFields) ∧
          ∃ u, PyDatetime.astimezoneUtc occurredAt = .ok u) ∧
      ∀ e : Envelope D, new messageId correlationId causationId occurredAt payload = .ok e →
        fromFields (asStr e.toFields) = .ok e ∧ fromFields (asBytes e.toFields) = .ok e ∧
        e.toFields = e.headers ++ merge [] payload ∧ (keys e.toFields).Nodup ∧
        ((keys payload).Nodup → merge [] payload = payload)) ∧
    ∀ (fields : List (Wire × Wire)) (e : Envelope D), fromFields fields = .ok e →
      ∀ again ∈ [asStr e.toFields, asBytes e.toFields],
        ∃ e' : Envelope D, fromFields again = .ok e' ∧ e'.toFields = e.toFields := by
  constructor
  · intro messageId correlationId causationId occurredAt payload
    constructor
    · constructor
      · rintro ⟨e, he⟩
        obtain ⟨haware, hapart, hutc, -⟩ := new_eq_ok.mp he
        exact ⟨haware, hapart, _, hutc⟩
      · rintro ⟨haware, hapart, u, hu⟩
        unfold new
        rw [if_neg (by simp [haware]), dif_pos (collisions_eq_nil.mpr hapart)]
        split
        · rename_i exc hexc
          rw [hu] at hexc
          cases hexc
        · exact ⟨_, rfl⟩
    · intro e he
      obtain ⟨-, -, -, -, -, -, hpayload⟩ := new_eq_ok.mp he
      exact ⟨e.fromFields_asStr, e.fromFields_asBytes, hpayload ▸ toFields_eq, nodup_keys_toFields,
        merge_nil⟩
  · intro fields e _ again hagain
    refine ⟨e, ?_, rfl⟩
    rcases List.mem_cons.mp hagain with rfl | hagain
    · exact e.fromFields_asStr
    · rw [List.mem_singleton.mp hagain]
      exact e.fromFields_asBytes

end Envelope

/-- The beginning of a year: a naive instant, the same in Berlin, and that turned to UTC. -/
inductive NewYear where
  | naive
  | berlin
  | utc

instance newYear : PyDatetime NewYear where
  isNaive d := match d with
    | .naive => true
    | .berlin => false
    | .utc => false
  repr d := match d with
    | .naive => "datetime.datetime(2026, 1, 1, 0, 0)"
    | .berlin => "datetime.datetime(2026, 1, 1, 0, 0, tzinfo=zoneinfo.ZoneInfo(key='Europe/Berlin'))"
    | .utc => "datetime.datetime(2025, 12, 31, 23, 0, tzinfo=datetime.timezone.utc)"
  astimezoneUtc _ := .ok .utc
  isoformat d := match d with
    | .naive => "2026-01-01T00:00:00"
    | .berlin => "2026-01-01T00:00:00+01:00"
    | .utc => "2025-12-31T23:00:00+00:00"
  fromisoformat text :=
    if text = "2025-12-31T23:00:00+00:00" then .ok .utc
    else if text = "2026-01-01T00:00:00+01:00" then .ok .berlin
    else if text = "2026-01-01T00:00:00" then .ok .naive
    else .error (valueError ("Invalid isoformat string: '" ++ text ++ "'"))
  aware_utc d u h := by
    cases h
    rfl
  astimezone_utc d u h := by
    cases h
    rfl
  fromisoformat_utc d u h := by
    cases h
    rfl

/-- A root message with an empty key and a value outside of ASCII. -/
theorem Envelope.wire_round_trip_new_year : ∃ e : Envelope NewYear,
    new "m-1" "" "" .berlin [("", "größe")] = .ok e ∧ e.correlationId = "m-1" ∧
      e.toFields = [("message_id", "m-1"), ("correlation_id", "m-1"), ("causation_id", ""),
        ("occurred_at", "2025-12-31T23:00:00+00:00"), ("", "größe")] ∧
      fromFields (asBytes e.toFields) = .ok e := by
  obtain ⟨e, he, hc, hf⟩ : ∃ e : Envelope NewYear,
      new "m-1" "" "" .berlin [("", "größe")] = .ok e ∧ e.correlationId = "m-1" ∧
        e.toFields = [("message_id", "m-1"), ("correlation_id", "m-1"), ("causation_id", ""),
          ("occurred_at", "2025-12-31T23:00:00+00:00"), ("", "größe")] := ⟨_, rfl, rfl, rfl⟩
  exact ⟨e, he, hc, hf, ((wire_round_trip.1 _ _ _ _ _).2 e he).2.1⟩

end Entities
