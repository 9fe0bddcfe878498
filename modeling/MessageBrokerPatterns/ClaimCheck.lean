import MessageBrokerPatterns.PyDict
import MessageBrokerPatterns.ActionRun
import Mathlib.Logic.Function.Basic

/-!
# The claim check, one await at a time

`ClaimCheckProducer.publish` writes a payload into a file store and puts a claim check for it on an
in-memory queue; `run_consumer` takes claims off the queue, reads the payload back and passes it to
the handler. The store is the directory of its root: a file name for each claim id. Calls of
`publish` and runs of `run_consumer` have numbers, and their program counters stand before the next
await. A poll of the queue may time out at any moment, and then takes nothing.

`uuid4` and the clock choose the claim id and the time of a claim check; the time is kept as the
text of `isoformat`. The history is what has been checked in, published, dequeued, passed to a
handler and let go of.
-/

namespace ClaimCheckPattern
open PyText PyDict

structure Payload where
  data : ByteArray
  contentType : String
  originalName : String

def Payload.sizeBytes (p : Payload) : ℕ := p.data.size

structure ClaimCheck where
  claimId : String
  contentType : String
  originalName : String
  sizeBytes : ℕ
  createdAt : String

/-- The length of a character in a JSON string of `json.dumps`: the quote, the backslash and five
control characters have short escapes, and all that is not printable ASCII has long ones. -/
def jsonCharLength (c : Char) : ℕ :=
  if c.toNat ∈ [34, 92, 8, 9, 10, 12, 13] then 2
  else if 32 ≤ c.toNat ∧ c.toNat ≤ 126 then 1
  else if c.toNat < 0x10000 then 6
  else 12

def jsonLength (s : String) : ℕ := (s.toList.map jsonCharLength).sum + 2

def ClaimCheck.wireSizeBytes (c : ClaimCheck) : ℕ :=
  "\x7b\"claim_id\": ".length + jsonLength c.claimId +
    ", \"content_type\": ".length + jsonLength c.contentType +
    ", \"original_name\": ".length + jsonLength c.originalName +
    ", \"size_bytes\": ".length + (pyStr c.sizeBytes).length +
    ", \"created_at\": ".length + jsonLength c.createdAt + "\x7d".length

/-- The files of the store's directory. -/
structure FilesystemPayloadStore where
  files : Dict String ByteArray := []

namespace FilesystemPayloadStore
variable (store : FilesystemPayloadStore)

def path (claimId : String) : String := claimId ++ ".bin"

def payloadNotFoundError (claimId : String) : PyExc := ⟨"PayloadNotFoundError", claimId⟩

/-- `put`, with the claim id that `uuid4` returns. -/
def put (claimId : String) (data : ByteArray) : FilesystemPayloadStore :=
  ⟨assign store.files (path claimId) data⟩

def get (claimId : String) : Except PyExc ByteArray :=
  match get? store.files (path claimId) with
  | some data => .ok data
  | none => .error (payloadNotFoundError claimId)

def delete (claimId : String) : FilesystemPayloadStore := ⟨erase store.files (path claimId)⟩

variable {store}

theorem path_inj {claimId other : String} : path claimId = path other ↔ claimId = other := by
  refine ⟨fun h => ?_, fun h => h ▸ rfl⟩
  have hlist := congrArg String.toList h
  simp only [path, String.toList_append] at hlist
  exact String.toList_injective (List.append_cancel_right hlist)

theorem get_eq_ok {claimId : String} {data : ByteArray} :
    store.get claimId = .ok data ↔ get? store.files (path claimId) = some data := by
  unfold get
  split
  · rename_i d hd
    simp [hd]
  · rename_i hd
    simp [hd]

theorem get_put (claimId other : String) (data : ByteArray) :
    (store.put claimId data).get other = if claimId = other then .ok data else store.get other := by
  simp only [get, put, get?_assign, path_inj]
  by_cases h : claimId = other
  · rw [if_pos h, if_pos h]
  · rw [if_neg h, if_neg h]

theorem get_delete_of_ne {claimId other : String} (h : other ≠ claimId) :
    (store.delete claimId).get other = store.get other := by
  simp only [get, delete, get?_erase, path_inj, if_neg h.symm]

end FilesystemPayloadStore

/-- The counters of the `claim_check` pattern in the metrics registry. -/
structure Registry where
  payloadsStored : ℕ := 0
  claimChecksPublished : ℕ := 0
  brokerBytesSaved : ℕ := 0
  payloadsRetrieved : ℕ := 0
  payloadsProcessed : ℕ := 0
  payloadsDeleted : ℕ := 0

/-- What has happened so far. -/
structure History where
  checkedIn : List (ClaimCheck × Payload) := []
  published : List ClaimCheck := []
  dequeued : List ClaimCheck := []
  passed : List (String × ClaimCheck × Payload) := []
  finished : List ClaimCheck := []

inductive Publish where
  | publishing (claim : ClaimCheck)
  | returned (claim : ClaimCheck)

inductive Pc where
  | top
  | polling
  | redeem (claim : ClaimCheck)
  | handler (claim : ClaimCheck) (payload : Payload)
  | returned
  | raised (e : PyExc)

structure Consumer where
  consumerId : String := "consumer-0"
  deleteAfter : Bool := true
  totalHandled : ℕ := 0
  pc : Pc := .top

def Consumer.inHand (k : Consumer) : Option ClaimCheck :=
  match k.pc with
  | .redeem claim => some claim
  | .handler claim _ => some claim
  | _ => none

structure World where
  store : FilesystemPayloadStore := {}
  queue : List ClaimCheck := []
  registry : Registry := {}
  publishes : ℕ → Option Publish := fun _ => none
  consumers : ℕ → Option Consumer := fun _ => none
  history : History := {}

inductive Action where
  | publish (i : ℕ) (payload : Payload) (claimId createdAt : String)
  | enqueue (i : ℕ)
  | runConsumer (j : ℕ) (consumerId : String) (deleteAfter : Bool)
  | stop (j : ℕ)
  | run (j : ℕ)
  | timeout (j : ℕ)
  | handler (j : ℕ) (failure : Option PyExc)

def claimFor (payload : Payload) (claimId createdAt : String) : ClaimCheck where
  claimId
  contentType := payload.contentType
  originalName := payload.originalName
  sizeBytes := payload.sizeBytes
  createdAt

namespace World
variable (w : World)

def setPublish (i : ℕ) (p : Publish) : World := { w with
  publishes := Function.update w.publishes i (some p) }

def setConsumer (j : ℕ) (k : Consumer) : World := { w with
  consumers := Function.update w.consumers j (some k) }

theorem setPublish_self {w : World} {i : ℕ} {p : Publish} : (w.setPublish i p).publishes i = some p :=
  Function.update_self ..

theorem setPublish_of_ne {w : World} {i l : ℕ} (h : l ≠ i) {p : Publish} :
    (w.setPublish i p).publishes l = w.publishes l :=
  Function.update_of_ne h ..

theorem setConsumer_self {w : World} {j : ℕ} {k : Consumer} : (w.setConsumer j k).consumers j = some k :=
  Function.update_self ..

theorem setConsumer_of_ne {w : World} {j l : ℕ} (h : l ≠ j) {k : Consumer} :
    (w.setConsumer j k).consumers l = w.consumers l :=
  Function.update_of_ne h ..

/-- `publish` up to its await: the payload is stored, and its claim check is made. -/
def checkIn (payload : Payload) (claimId createdAt : String) : World := { w with
  store := w.store.put claimId payload.data
  registry.payloadsStored := w.registry.payloadsStored + 1
  history.checkedIn := w.history.checkedIn ++ [(claimFor payload claimId createdAt, payload)] }

/-- `ClaimCheckBroker.publish`. -/
def enqueue (claim : ClaimCheck) : World := { w with
  queue := w.queue ++ [claim]
  registry.claimChecksPublished := w.registry.claimChecksPublished + 1
  registry.brokerBytesSaved :=
    w.registry.brokerBytesSaved + (claim.sizeBytes - claim.wireSizeBytes)
  history.published := w.history.published ++ [claim] }

def dequeue (claim : ClaimCheck) (rest : List ClaimCheck) : World := { w with
  queue := rest
  history.dequeued := w.history.dequeued ++ [claim] }

def retrieve (consumerId : String) (claim : ClaimCheck) (payload : Payload) : World := { w with
  registry.payloadsRetrieved := w.registry.payloadsRetrieved + 1
  history.passed := w.history.passed ++ [(consumerId, claim, payload)] }

def finish (claim : ClaimCheck) : World := { w with
  history.finished := w.history.finished ++ [claim] }

/-- What a consumer does when its handler has returned. -/
def process (claim : ClaimCheck) (deleteAfter : Bool) : World :=
  let w := { w.finish claim with
    registry.payloadsProcessed := w.registry.payloadsProcessed + 1 }
  if deleteAfter then { w with
    store := w.store.delete claim.claimId
    registry.payloadsDeleted := w.registry.payloadsDeleted + 1 }
  else w

/-- The next step of the consumer `j` up to its next await, its handler excepted. -/
def next (j : ℕ) (k : Consumer) : Option World :=
  match k.pc with
  | .top => some (w.setConsumer j { k with pc := .polling })
  | .polling =>
      match w.queue with
      | [] => none
      | claim :: rest => some ((w.dequeue claim rest).setConsumer j { k with pc := .redeem claim })
  | .redeem claim =>
      match w.store.get claim.claimId with
      | .ok data =>
          let payload : Payload := ⟨data, claim.contentType, claim.originalName⟩
          some ((w.retrieve k.consumerId claim payload).setConsumer j
            { k with pc := .handler claim payload })
      | .error e => some ((w.finish claim).setConsumer j { k with pc := .raised e })
  | .handler _ _ => none
  | .returned => none
  | .raised _ => none

/-- The handler of the consumer `j` returns, or raises an exception that ends the run. -/
def handlerEnds (j : ℕ) (k : Consumer) (failure : Option PyExc) : Option World :=
  match k.pc with
  | .handler claim _ =>
      match failure with
      | none => some ((w.process claim k.deleteAfter).setConsumer j
          { k with totalHandled := k.totalHandled + 1, pc := .top })
      | some e => some ((w.finish claim).setConsumer j { k with pc := .raised e })
  | _ => none

def step : Action → Option World
  | .publish i payload claimId createdAt =>
      match w.publishes i with
      | none => some ((w.checkIn payload claimId createdAt).setPublish i
          (.publishing (claimFor payload claimId createdAt)))
      | some _ => none
  | .enqueue i =>
      match w.publishes i with
      | some (.publishing claim) => some ((w.enqueue claim).setPublish i (.returned claim))
      | _ => none
  | .runConsumer j consumerId deleteAfter =>
      match w.consumers j with
      | none => some (w.setConsumer j { consumerId, deleteAfter })
      | some _ => none
  | .stop j =>
      match w.consumers j with
      | some k =>
          match k.pc with
          | .top => some (w.setConsumer j { k with pc := .returned })
          | _ => none
      | none => none
  | .run j => (w.consumers j).bind (w.next j)
  | .timeout j =>
      match w.consumers j with
      | some k =>
          match k.pc with
          | .polling => some (w.setConsumer j { k with pc := .top })
          | _ => none
      | none => none
  | .handler j failure => (w.consumers j).bind fun k => w.handlerEnds j k failure

/-- All that one action can do. -/
inductive Effect (w : World) : Action → World → Prop where
  | publish (i : ℕ) (payload : Payload) (claimId createdAt : String) (hnone : w.publishes i = none) :
      Effect w (.publish i payload claimId createdAt)
        ((w.checkIn payload claimId createdAt).setPublish i
          (.publishing (claimFor payload claimId createdAt)))
  | enqueue (i : ℕ) (claim : ClaimCheck) (hp : w.publishes i = some (.publishing claim)) :
      Effect w (.enqueue i) ((w.enqueue claim).setPublish i (.returned claim))
  | start (j : ℕ) (consumerId : String) (deleteAfter : Bool) (hnone : w.consumers j = none) :
      Effect w (.runConsumer j consumerId deleteAfter)
        (w.setConsumer j { consumerId, deleteAfter })
  | stop (j : ℕ) (k : Consumer) (hk : w.consumers j = some k) (hpc : k.pc = .top) :
      Effect w (.stop j) (w.setConsumer j { k with pc := .returned })
  | poll (j : ℕ) (k : Consumer) (hk : w.consumers j = some k) (hpc : k.pc = .top) :
      Effect w (.run j) (w.setConsumer j { k with pc := .polling })
  | timeout (j : ℕ) (k : Consumer) (hk : w.consumers j = some k) (hpc : k.pc = .polling) :
      Effect w (.timeout j) (w.setConsumer j { k with pc := .top })
  | dequeue (j : ℕ) (k : Consumer) (claim : ClaimCheck) (rest : List ClaimCheck)
      (hk : w.consumers j = some k) (hpc : k.pc = .polling) (hq : w.queue = claim :: rest) :
      Effect w (.run j) ((w.dequeue claim rest).setConsumer j { k with pc := .redeem claim })
  | redeem (j : ℕ) (k : Consumer) (claim : ClaimCheck) (data : ByteArray)
      (hk : w.consumers j = some k) (hpc : k.pc = .redeem claim)
      (hget : w.store.get claim.claimId = .ok data) :
      Effect w (.run j)
        ((w.retrieve k.consumerId claim ⟨data, claim.contentType, claim.originalName⟩).setConsumer j
          { k with pc := .handler claim ⟨data, claim.contentType, claim.originalName⟩ })
  | notFound (j : ℕ) (k : Consumer) (claim : ClaimCheck) (e : PyExc) (hk : w.consumers j = some k)
      (hpc : k.pc = .redeem claim) (hget : w.store.get claim.claimId = .error e) :
      Effect w (.run j) ((w.finish claim).setConsumer j { k with pc := .raised e })
  | returns (j : ℕ) (k : Consumer) (claim : ClaimCheck) (payload : Payload)
      (hk : w.consumers j = some k) (hpc : k.pc = .handler claim payload) :
      Effect w (.handler j none) ((w.process claim k.deleteAfter).setConsumer j
        { k with totalHandled := k.totalHandled + 1, pc := .top })
  | raises (j : ℕ) (k : Consumer) (claim : ClaimCheck) (payload : Payload) (e : PyExc)
      (hk : w.consumers j = some k) (hpc : k.pc = .handler claim payload) :
      Effect w (.handler j (some e)) ((w.finish claim).setConsumer j { k with pc := .raised e })

variable {w}

theorem Effect.of_next {w' : World} {j : ℕ} {k : Consumer} (hk : w.consumers j = some k)
    (h : w.next j k = some w') : Effect w (.run j) w' := by
  unfold next at h
  split at h
  · rename_i hpc
    cases h
    exact .poll j k hk hpc
  · rename_i hpc
    split at h
    · cases h
    · rename_i claim rest hq
      cases h
      exact .dequeue j k claim rest hk hpc hq
  · rename_i claim hpc
    split at h
    · rename_i data hget
      cases h
      exact .redeem j k claim data hk hpc hget
    · rename_i e hget
      cases h
      exact .notFound j k claim e hk hpc hget
  · cases h
  · cases h
  · cases h

theorem Effect.of_handlerEnds {w' : World} {j : ℕ} {k : Consumer} {failure : Option PyExc}
    (hk : w.consumers j = some k) (h : w.handlerEnds j k failure = some w') :
    Effect w (.handler j failure) w' := by
  unfold handlerEnds at h
  split at h
  · rename_i claim payload hpc
    cases failure with
    | none =>
      cases h
      exact .returns j k claim payload hk hpc
    | some e =>
      cases h
      exact .raises j k claim payload e hk hpc
  · cases h

theorem Effect.of_step {w' : World} {a : Action} (h : step w a = some w') : Effect w a w' := by
  cases a with
  | publish i payload claimId createdAt =>
    simp only [step] at h
    split at h
    · rename_i hnone
      cases h
      exact .publish i payload claimId createdAt hnone
    · cases h
  | enqueue i =>
    simp only [step] at h
    split at h
    · rename_i claim hp
      cases h
      exact .enqueue i claim hp
    · cases h
  | runConsumer j consumerId deleteAfter =>
    simp only [step] at h
    split at h
    · rename_i hnone
      cases h
      exact .start j consumerId deleteAfter hnone
    · cases h
  | stop j =>
    simp only [step] at h
    split at h
    · rename_i k hk
      split at h
      · rename_i hpc
        cases h
        exact .stop j k hk hpc
      · cases h
    · cases h
  | run j =>
    obtain ⟨k, hk, hn⟩ := Option.bind_eq_some_iff.mp h
    exact .of_next hk hn
  | timeout j =>
    simp only [step] at h
    split at h
    · rename_i k hk
      split at h
      · rename_i hpc
        cases h
        exact .timeout j k hk hpc
      · cases h
    · cases h
  | handler j failure =>
    obtain ⟨k, hk, hn⟩ := Option.bind_eq_some_iff.mp h
    exact .of_handlerEnds hk hn

end World
end ClaimCheckPattern
