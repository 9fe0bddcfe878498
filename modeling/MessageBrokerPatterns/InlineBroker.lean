import MessageBrokerPatterns.ClaimCheck
import MessageBrokerPatterns.JsonText

/-!
# The inline-payload baseline

`publish_payload_inline` sends a JSON header, a newline and the payload itself through the broker, which
refuses what is over its limit. The header is printable ASCII whatever the names are, so a message says in one
way only which payload it carries, newlines in the data included.

The JSON texts are built here character by character; the length that the claim check's own module counts is
that of its text.
-/

namespace ClaimCheckPattern.Inline
open PyText PyDict ActionRun JsonText

def jsonString (s : String) : List Char := '"' :: (escape s.toList ++ ['"'])

/-- `json.dumps` of the three fields that the header and a claim check have in common, without the braces. -/
def describe (contentType originalName : String) (sizeBytes : ℕ) : List Char :=
  "\"content_type\": ".toList ++ jsonString contentType ++ ", \"original_name\": ".toList ++
    jsonString originalName ++ ", \"size_bytes\": ".toList ++ (pyStr sizeBytes).toList

def header (payload : Payload) : List Char :=
  '\x7b' :: (describe payload.contentType payload.originalName payload.sizeBytes ++ ['\x7d'])

def newline : ByteArray := ⟨#[10]⟩

def encodeInline (payload : Payload) : ByteArray :=
  utf8Encode (String.ofList (header payload)) ++ newline ++ payload.data

/-- What `wire_size_bytes` passes to `len`. -/
def claimText (c : ClaimCheck) : List Char :=
  "\x7b\"claim_id\": ".toList ++ jsonString c.claimId ++ ", ".toList ++
    describe c.contentType c.originalName c.sizeBytes ++ ", \"created_at\": ".toList ++
    jsonString c.createdAt ++ ['\x7d']

structure InlinePayloadBroker where
  queue : List ByteArray := []
  maxMessageBytes : ℤ := 1048576
  bytesTransferred : ℕ := 0

namespace InlinePayloadBroker
variable (b : InlinePayloadBroker)

def messageTooLargeError (message : ByteArray) : PyExc :=
  ⟨"MessageTooLargeError", "message of " ++ pyStr message.size ++
    " bytes exceeds the broker limit of " ++ pyStr b.maxMessageBytes ++ " bytes"⟩

def publish (message : ByteArray) : Except PyExc ℕ × InlinePayloadBroker :=
  if (message.size : ℤ) > b.maxMessageBytes then (.error (b.messageTooLargeError message), b)
  else (.ok message.size, { b with
    queue := b.queue ++ [message]
    bytesTransferred := b.bytesTransferred + message.size })

def publishPayloadInline (payload : Payload) : Except PyExc ℕ × InlinePayloadBroker :=
  b.publish (encodeInline payload)

end InlinePayloadBroker

/-- The broker, the calls of `publish_payload_inline` with what they returned or raised, and the messages
that calls of `get` have returned. -/
structure World where
  broker : InlinePayloadBroker
  calls : List (Payload × Except PyExc ℕ) := []
  got : List ByteArray := []

inductive Action
  | publish (payload : Payload)
  | get

def step (w : World) : Action → Option World
  | .publish payload =>
      let r := w.broker.publishPayloadInline payload
      some { w with broker := r.2, calls := w.calls ++ [(payload, r.1)] }
  | .get =>
      match w.broker.queue with
      | [] => none
      | message :: rest => some { w with
          broker.queue := rest
          got := w.got ++ [message] }

/-! ### The texts -/

theorem printable_jsonString (s : String) : Printable (jsonString s) := by
  have hquote : Printable ['"'] := by simp [Printable]
  exact hquote.append ((printable_escape _).append hquote)

theorem printable_pyStr (n : ℕ) : Printable (pyStr n).toList := by
  intro c hc
  have hdigits : (pyStr n).toList = Nat.toDigits 10 n := Nat.toList_repr
  rw [hdigits] at hc
  obtain ⟨h48, h57⟩ := toNat_of_isDigit (Nat.isDigit_of_mem_toDigits (by decide) (by decide) hc)
  omega

theorem printable_describe (contentType originalName : String) (sizeBytes : ℕ) :
    Printable (describe contentType originalName sizeBytes) := by
  unfold describe
  refine Printable.append (.append (.append (.append (.append ?_ (printable_jsonString _)) ?_)
    (printable_jsonString _)) ?_) (printable_pyStr _)
  iterate 3 · decide

theorem printable_header (payload : Payload) : Printable (header payload) := by
  have hbrace (c : Char) (h : 32 ≤ c.toNat ∧ c.toNat ≤ 126) : Printable [c] := by
    simpa [Printable] using h
  exact (hbrace '\x7b' (by decide)).append ((printable_describe _ _ _).append
    (hbrace '\x7d' (by decide)))

theorem printable_claimText (c : ClaimCheck) : Printable (claimText c) := by
  unfold claimText
  refine Printable.append (.append (.append (.append (.append (.append ?_ (printable_jsonString _)) ?_)
    (printable_describe _ _ _)) ?_) (printable_jsonString _)) ?_
  iterate 4 · decide

theorem bytes_of_printable {s : List Char} (h : Printable s) :
    (utf8Encode (String.ofList s)).data.toList = s.map fun c => c.val.toUInt8 := by
  change (String.ofList s).toByteArray.data.toList = _
  rw [String.toByteArray_ofList]
  induction s with
  | nil => rfl
  | cons c s ih =>
    have hc := h c List.mem_cons_self
    have hval : c.val ≤ 0x7f := by
      rw [UInt32.le_iff_toNat_le]
      exact hc.2.trans (by decide)
    have hsize : c.utf8Size = 1 := by
      unfold Char.utf8Size
      exact if_pos hval
    rw [List.utf8Encode_cons, ByteArray.toList_data_append, ih fun d hd => h d (List.mem_cons_of_mem _ hd),
      List.utf8Encode_singleton, String.utf8EncodeChar_eq_singleton hsize, List.toList_data_toByteArray]
    rfl

theorem size_of_printable {s : List Char} (h : Printable s) :
    (utf8Encode (String.ofList s)).size = s.length := by
  rw [← ByteArray.size_data, ← Array.length_toList, bytes_of_printable h, List.length_map]

theorem jsonCharLength_eq (c : Char) : jsonCharLength c = (escapeChar c).length := by
  have hchar (d : Char) : c = d ↔ c.toNat = d.toNat := by
    rw [Char.ext_iff, ← UInt32.toNat_inj]
    rfl
  have hshort (h : c.toNat ∈ [34, 92, 8, 9, 10, 12, 13]) : jsonCharLength c = 2 := if_pos h
  unfold escapeChar
  split_ifs with hq hb hn hr ht hf hbs hp hu
  · exact hshort (by rw [hq]; decide)
  · exact hshort (by rw [hb]; decide)
  · exact hshort (by rw [hn]; decide)
  · exact hshort (by rw [hr]; decide)
  · exact hshort (by rw [ht]; decide)
  · exact hshort (by rw [hf]; decide)
  · exact hshort (by rw [hbs]; decide)
  all_goals
    rw [hchar] at hq hb hn hr ht
    have hlong : c.toNat ∉ [34, 92, 8, 9, 10, 12, 13] := by
      simp only [List.mem_cons, List.not_mem_nil, or_false, not_or]
      exact ⟨hq, hb, hbs, ht, hn, hf, hr⟩
    rw [jsonCharLength, if_neg hlong]
  · rw [if_pos hp]
    rfl
  · rw [if_neg hp, if_pos hu]
    rfl
  · rw [if_neg hp, if_neg hu]
    rfl

theorem jsonLength_eq (s : String) : jsonLength s = (jsonString s).length := by
  have hsum : (s.toList.map jsonCharLength).sum = (escape s.toList).length := by
    rw [escape, List.length_flatMap]
    exact congrArg List.sum (List.map_congr_left fun c _ => jsonCharLength_eq c)
  rw [jsonLength, hsum, jsonString, List.length_cons, List.length_append, List.length_singleton]

theorem wireSizeBytes_eq_length (c : ClaimCheck) : c.wireSizeBytes = (claimText c).length := by
  have hcomma : ", \"content_type\": ".length = ", ".length + "\"content_type\": ".length := by decide
  have hbrace : "\x7d".length = 1 := by decide
  unfold ClaimCheck.wireSizeBytes claimText describe
  simp only [List.length_append, jsonLength_eq, String.length_toList, List.length_singleton]
  omega

/-- `wire_size_bytes` is the size of the text. -/
theorem wireSizeBytes_eq (c : ClaimCheck) :
    c.wireSizeBytes = (utf8Encode (String.ofList (claimText c))).size :=
  (wireSizeBytes_eq_length c).trans (size_of_printable (printable_claimText c)).symm

theorem jsonString_append_inj {s t : String} {r r' : List Char}
    (h : jsonString s ++ r = jsonString t ++ r') : s = t ∧ r = r' := by
  simp only [jsonString, List.cons_append, List.append_assoc, List.nil_append, List.cons.injEq,
    true_and] at h
  obtain ⟨hs, hr⟩ := escape_append_inj h
  exact ⟨String.toList_injective hs, hr⟩

/-- Two lists that are cut at their first separator. -/
theorem append_sep_inj {α : Type*} {sep : α} {l l' r r' : List α} (hl : sep ∉ l) (hl' : sep ∉ l')
    (h : l ++ sep :: r = l' ++ sep :: r') : l = l' ∧ r = r' := by
  induction l generalizing l' with
  | nil =>
    cases l' with
    | nil => exact ⟨rfl, (List.cons.inj h).2⟩
    | cons x l' => exact absurd ((List.cons.inj h).1 ▸ List.mem_cons_self) hl'
  | cons x l ih =>
    cases l' with
    | nil => exact absurd ((List.cons.inj h).1 ▸ List.mem_cons_self) hl
    | cons y l' =>
      obtain ⟨rfl, hrest⟩ := List.cons.inj h
      obtain ⟨rfl, hr⟩ := ih (fun hm => hl (List.mem_cons_of_mem _ hm))
        (fun hm => hl' (List.mem_cons_of_mem _ hm)) hrest
      exact ⟨rfl, hr⟩

theorem header_inj {p q : Payload} (h : header p = header q) :
    p.contentType = q.contentType ∧ p.originalName = q.originalName := by
  unfold header describe at h
  have hbody := (List.cons.inj h).2
  simp only [List.append_assoc] at hbody
  obtain ⟨htype, hrest⟩ := jsonString_append_inj (List.append_cancel_left hbody)
  exact ⟨htype, (jsonString_append_inj (List.append_cancel_left hrest)).1⟩

theorem bytes_encodeInline (p : Payload) : (encodeInline p).data.toList =
    ((header p).map fun c => c.val.toUInt8) ++ 10 :: p.data.data.toList := by
  unfold encodeInline
  rw [ByteArray.toList_data_append, ByteArray.toList_data_append, List.append_assoc]
  have hnewline : newline.data.toList = [10] := rfl
  have hheader := bytes_of_printable (printable_header p)
  generalize (utf8Encode (String.ofList (header p))).data.toList = bytes at hheader
  rw [hheader, hnewline, List.singleton_append]

theorem encodeInline_injective : Function.Injective encodeInline := by
  intro p q h
  have hsep (u : Payload) : (10 : UInt8) ∉ (header u).map fun c => c.val.toUInt8 := by
    intro hmem
    obtain ⟨c, hc, hten⟩ := List.mem_map.mp hmem
    obtain ⟨h32, h126⟩ := printable_header u c hc
    have hnat := congrArg UInt8.toNat hten
    rw [UInt32.toNat_toUInt8] at hnat
    have : c.val.toNat = c.toNat := rfl
    have : (10 : UInt8).toNat = 10 := rfl
    omega
  have hbytes := congrArg (fun b : ByteArray => b.data.toList) h
  simp only [bytes_encodeInline] at hbytes
  obtain ⟨hhead, hdata⟩ := append_sep_inj (hsep p) (hsep q) hbytes
  have hext {a b : ByteArray} (hab : a.data.toList = b.data.toList) : a = b :=
    ByteArray.ext (Array.toList_inj.mp hab)
  have hheader : header p = header q := by
    rw [← bytes_of_printable (printable_header p), ← bytes_of_printable (printable_header q)] at hhead
    exact String.ofList_injective (utf8Encode_injective (hext hhead))
  obtain ⟨htype, hname⟩ := header_inj hheader
  obtain ⟨data, contentType, originalName⟩ := p
  obtain ⟨data', contentType', originalName'⟩ := q
  obtain rfl : data = data' := hext hdata
  obtain rfl : contentType = contentType' := htype
  obtain rfl : originalName = originalName' := hname
  rfl

/-! ### The broker -/

def accepted (call : Payload × Except PyExc ℕ) : Option ByteArray :=
  match call.2 with
  | .ok _ => some (encodeInline call.1)
  | .error _ => none

def bytesOf (messages : List ByteArray) : ℕ := (messages.map ByteArray.size).sum

theorem bytesOf_append (messages : List ByteArray) (message : ByteArray) :
    bytesOf (messages ++ [message]) = bytesOf messages + message.size := by
  rw [bytesOf, bytesOf, List.map_append, List.sum_append, List.map_singleton, List.sum_singleton]

def answer (limit : ℤ) (payload : Payload) : Except PyExc ℕ :=
  let message := encodeInline payload
  if (message.size : ℤ) ≤ limit then .ok message.size
  else .error (InlinePayloadBroker.messageTooLargeError { maxMessageBytes := limit } message)

structure InlineInv (limit : ℤ) (w : World) : Prop where
  fixed : w.broker.maxMessageBytes = limit
  carried : w.got ++ w.broker.queue = w.calls.filterMap accepted
  bytes : w.broker.bytesTransferred = bytesOf (w.got ++ w.broker.queue)
  answers : ∀ call ∈ w.calls, call.2 = answer limit call.1

theorem publish_of_le {b : InlinePayloadBroker} {payload : Payload}
    (h : ((encodeInline payload).size : ℤ) ≤ b.maxMessageBytes) :
    b.publishPayloadInline payload = (.ok (encodeInline payload).size, { b with
      queue := b.queue ++ [encodeInline payload]
      bytesTransferred := b.bytesTransferred + (encodeInline payload).size }) :=
  if_neg (not_lt.mpr h)

theorem publish_of_not_le {b : InlinePayloadBroker} {payload : Payload}
    (h : ¬ ((encodeInline payload).size : ℤ) ≤ b.maxMessageBytes) :
    b.publishPayloadInline payload = (.error (b.messageTooLargeError (encodeInline payload)), b) :=
  if_pos (not_le.mp h)

theorem inlineInv_step {limit : ℤ} (w : World) (a : Action) (w' : World) (h : InlineInv limit w)
    (hw : step w a = some w') : InlineInv limit w' := by
  cases a with
  | get =>
    simp only [step] at hw
    split at hw
    · cases hw
    · rename_i message rest hq
      cases hw
      have hsame : w.got ++ [message] ++ rest = w.got ++ w.broker.queue := by
        rw [hq, List.append_assoc, List.singleton_append]
      exact ⟨h.fixed, hsame.trans h.carried, h.bytes.trans (congrArg bytesOf hsame.symm), h.answers⟩
  | publish payload =>
    simp only [step, Option.some.injEq] at hw
    subst hw
    have hanswers {r : Except PyExc ℕ} (hr : r = answer limit payload) :
        ∀ call ∈ w.calls ++ [(payload, r)], call.2 = answer limit call.1 := by
      intro call hcall
      rcases List.mem_append.mp hcall with hcall | hcall
      · exact h.answers call hcall
      · obtain rfl := List.mem_singleton.mp hcall
        exact hr
    by_cases hsize : ((encodeInline payload).size : ℤ) ≤ w.broker.maxMessageBytes
    · rw [publish_of_le hsize]
      refine ⟨h.fixed, ?_, ?_, hanswers (if_pos (h.fixed ▸ hsize)).symm⟩
      · rw [List.filterMap_append, ← h.carried, ← List.append_assoc]
        rfl
      · rw [h.bytes, ← List.append_assoc, bytesOf_append]
    · rw [publish_of_not_le hsize]
      refine ⟨h.fixed, ?_, h.bytes, hanswers ?_⟩
      · rw [List.filterMap_append, ← h.carried]
        exact (List.append_nil _).symm
      · rw [answer, if_neg (h.fixed ▸ hsize), InlinePayloadBroker.messageTooLargeError, h.fixed,
          InlinePayloadBroker.messageTooLargeError]

theorem inlineInv_init (limit : ℤ) : InlineInv limit { broker := { maxMessageBytes := limit } } :=
  ⟨rfl, rfl, rfl, fun call hcall => (by cases hcall)⟩

/-- In every run a call returns exactly when its whole message fits under the limit. The messages of the
calls that returned are handed out in their order, each is the encoding of one payload only, and all their
bytes are counted; the message of a call that raised is never on the broker. -/
theorem inline_broker_carries (limit : ℤ) (actions : List Action) (w : World)
    (hrun : run step { broker := { maxMessageBytes := limit } } actions = some w) :
    (∀ call ∈ w.calls, call.2 = answer limit call.1) ∧
      w.got ++ w.broker.queue = w.calls.filterMap accepted ∧
      w.broker.bytesTransferred = bytesOf (w.got ++ w.broker.queue) ∧
      (∀ message ∈ w.got, ∃! payload, message = encodeInline payload) ∧
      ∀ call ∈ w.calls, ∀ e, call.2 = .error e → encodeInline call.1 ∉ w.got ++ w.broker.queue := by
  have h : InlineInv limit w := run_invariant_of_step inlineInv_step (inlineInv_init limit) hrun
  have hback {message : ByteArray} (hm : message ∈ w.got ++ w.broker.queue) :
      ∃ call ∈ w.calls, (∃ n, call.2 = .ok n) ∧ message = encodeInline call.1 := by
    rw [h.carried] at hm
    obtain ⟨call, hcall, hacc⟩ := List.mem_filterMap.mp hm
    refine ⟨call, hcall, ?_⟩
    unfold accepted at hacc
    split at hacc
    · rename_i n hn
      exact ⟨⟨n, hn⟩, (Option.some.inj hacc).symm⟩
    · cases hacc
  refine ⟨h.answers, h.carried, h.bytes, fun message hm => ?_, fun call hcall e he hmem => ?_⟩
  · obtain ⟨call, -, -, rfl⟩ := hback (List.mem_append_left _ hm)
    exact ⟨call.1, rfl, fun payload hp => (encodeInline_injective hp).symm⟩
  · obtain ⟨other, hother, ⟨n, hn⟩, hsame⟩ := hback hmem
    -- the two calls are for one payload, and the limit answers by the payload alone
    have hpayload := encodeInline_injective hsame
    have hanswer := (h.answers call hcall).symm.trans he
    rw [hpayload, ← h.answers other hother, hn] at hanswer
    cases hanswer

def thumbnail : Payload := ⟨"PNG".toUTF8, "image/png", "tiny.png"⟩

def album : Payload := ⟨("PNG" ++ "PNG" ++ "PNG" ++ "PNG").toUTF8, "image/png", "album \"ä\".png"⟩

theorem run_refused {b : InlinePayloadBroker} {p q : Payload} (hb : b.queue = [])
    (hp : ((encodeInline p).size : ℤ) ≤ b.maxMessageBytes)
    (hq : ¬ ((encodeInline q).size : ℤ) ≤ b.maxMessageBytes) :
    ∃ w, run step { broker := b } [.publish p, .publish q, .get] = some w ∧
      w.got = [encodeInline p] ∧ w.broker.queue = [] ∧
      w.calls = [(p, .ok (encodeInline p).size), (q, .error (b.messageTooLargeError (encodeInline q)))] := by
  have hsecond := publish_of_not_le (b := { b with
    queue := b.queue ++ [encodeInline p]
    bytesTransferred := b.bytesTransferred + (encodeInline p).size }) hq
  rw [run_cons, step, publish_of_le hp, Option.bind_some, run_cons, step, hsecond, Option.bind_some]
  simp only [hb]
  exact ⟨_, rfl, rfl, rfl, rfl⟩

/-- The second payload is too big for the broker, by its name and its data. -/
theorem album_refused : ∃ w,
    run step { broker := { maxMessageBytes := 90 } } [.publish thumbnail, .publish album, .get] = some w ∧
    w.got = [encodeInline thumbnail] ∧ encodeInline album ∉ w.got ++ w.broker.queue ∧
    w.broker.bytesTransferred = bytesOf [encodeInline thumbnail] := by
  have hfits : ((encodeInline thumbnail).size : ℤ) ≤ 90 := by decide +kernel
  have hrefused : ¬ ((encodeInline album).size : ℤ) ≤ 90 := by decide +kernel
  obtain ⟨w, hw, hgot, hqueue, hcalls⟩ := run_refused (b := { maxMessageBytes := 90 }) rfl hfits hrefused
  obtain ⟨-, -, hbytes, -, hnever⟩ := inline_broker_carries 90 _ w hw
  rw [hgot, hqueue, List.append_nil] at hbytes
  have hcall := List.mem_cons_of_mem (thumbnail, Except.ok (encodeInline thumbnail).size)
    (List.mem_singleton_self (album, Except.error (InlinePayloadBroker.messageTooLargeError
      { maxMessageBytes := 90 } (encodeInline album))))
  rw [← hcalls] at hcall
  exact ⟨w, hw, hgot, hnever (album, _) hcall _ rfl, hbytes⟩

/-- On the wire a claim check is smaller than the message with the payload in it exactly when the payload has
more bytes than the claim id, the time and the 29 characters that go with them; the size of the payload is in
both texts, its bytes are in the second one only. -/
theorem claim_check_break_even (payload : Payload) (claimId createdAt : String) :
    (claimFor payload claimId createdAt).wireSizeBytes =
        (utf8Encode (String.ofList (claimText (claimFor payload claimId createdAt)))).size ∧
      ((claimFor payload claimId createdAt).wireSizeBytes < (encodeInline payload).size ↔
        29 + jsonLength claimId + jsonLength createdAt < payload.sizeBytes) := by
  refine ⟨wireSizeBytes_eq _, ?_⟩
  have hclaim := wireSizeBytes_eq_length (claimFor payload claimId createdAt)
  have hinline : (encodeInline payload).size = (header payload).length + 1 + payload.sizeBytes := by
    have hheader := size_of_printable (printable_header payload)
    unfold encodeInline
    rw [ByteArray.size_append, ByteArray.size_append, hheader]
    rfl
  have hlead : "\x7b\"claim_id\": ".length = 13 := by decide
  have hcomma : ", ".length = 2 := by decide
  have hcreated : ", \"created_at\": ".length = 16 := by decide
  unfold claimText at hclaim
  unfold header at hinline
  simp only [List.length_append, ← jsonLength_eq, String.length_toList, List.length_cons,
    hlead, hcomma, hcreated, claimFor] at hclaim hinline
  rw [claimFor] at *
  omega

end ClaimCheckPattern.Inline
