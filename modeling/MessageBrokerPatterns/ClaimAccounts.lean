import MessageBrokerPatterns.ClaimCustody

/-!
# Where the stored payloads are

The counters of the `claim_check` pattern against the program: each payload is written once, and its claim
check passes from the publisher through the queue and a consumer's hands. A file outlives its claim check in
two ways only, a handler that raised and a consumer that keeps what it has handled, and both are counted.
`fates` tells of the claims that a run has let go of which way each went, so that the files can be named.
-/

namespace ClaimCheckPattern
open PyText PyDict ActionRun

namespace Consumer
variable (k : Consumer)

@[simp] def redeeming : ℕ :=
  match k.pc with
  | .redeem _ => 1
  | _ => 0

@[simp] def handling : ℕ :=
  match k.pc with
  | .handler _ _ => 1
  | _ => 0

@[simp] def failed : ℕ :=
  match k.pc with
  | .raised _ => 1
  | _ => 0

@[simp] def kept : ℕ := if k.deleteAfter then 0 else k.totalHandled

end Consumer

namespace World

def publishing (w : World) (S : Finset ℕ) : ℕ :=
  ∑ i ∈ S, match w.publishes i with
    | some (.publishing _) => 1
    | _ => 0

/-- The sum over the runs of `run_consumer` of what each run has. -/
def total (amount : Consumer → ℕ) (w : World) (S : Finset ℕ) : ℕ :=
  ∑ j ∈ S, ((w.consumers j).map amount).getD 0

/-- The sets have every call of `publish` and every run of `run_consumer`. -/
def Covers (w : World) (P C : Finset ℕ) : Prop :=
  (∀ i, w.publishes i ≠ none → i ∈ P) ∧ ∀ j, w.consumers j ≠ none → j ∈ C

def bytesSaved (claims : List ClaimCheck) : ℕ :=
  (claims.map fun c => c.sizeBytes - c.wireSizeBytes).sum

/-- Payloads on their way, from one counter to the next. -/
structure Flow (w : World) (P C : Finset ℕ) : Prop where
  stored : w.registry.payloadsStored = w.registry.claimChecksPublished + w.publishing P
  published : w.registry.claimChecksPublished =
    w.queue.length + w.total Consumer.redeeming C + w.registry.payloadsRetrieved
  retrieved : w.registry.payloadsRetrieved =
    w.registry.payloadsProcessed + w.total Consumer.handling C + w.total Consumer.failed C
  processed : w.registry.payloadsProcessed = w.total Consumer.totalHandled C
  deleted : w.registry.payloadsProcessed = w.registry.payloadsDeleted + w.total Consumer.kept C

structure Accounts (w : World) : Prop where
  flow : ∀ P C, w.Covers P C → w.Flow P C
  files : w.store.files.length + w.registry.payloadsDeleted = w.registry.payloadsStored
  saved : w.registry.brokerBytesSaved = bytesSaved w.history.published
  distinct : (keys w.store.files).Nodup
  minted : ∀ name ∈ keys w.store.files, ∃ id, name = FilesystemPayloadStore.path id ∧ w.Minted id

theorem total_setConsumer {w : World} {j : ℕ} {S : Finset ℕ} (hj : j ∈ S) (k : Consumer)
    (amount : Consumer → ℕ) : (w.setConsumer j k).total amount S +
      ((w.consumers j).map amount).getD 0 = w.total amount S + amount k :=
  Slots.sum_update (fun ko : Option Consumer => (ko.map amount).getD 0) hj

theorem covers_setConsumer {w : World} {j : ℕ} {k : Consumer} {P C : Finset ℕ}
    (h : (w.setConsumer j k).Covers P C) : j ∈ C ∧ w.Covers P C := by
  have hj : j ∈ C := h.2 j (by simp [setConsumer_self])
  refine ⟨hj, h.1, fun l hl => ?_⟩
  by_cases hlj : l = j
  · rwa [hlj]
  · exact h.2 l (by rwa [setConsumer_of_ne hlj])

theorem publishing_setPublish {w : World} {i : ℕ} {S : Finset ℕ} (hi : i ∈ S) (p : Publish) :
    (w.setPublish i p).publishing S + (match w.publishes i with | some (.publishing _) => 1 | _ => 0) =
      w.publishing S + match p with | .publishing _ => 1 | .returned _ => 0 := by
  have hsum := Slots.sum_update (f := w.publishes) (i := i) (k := p)
    (fun po : Option Publish => match po with | some (.publishing _) => 1 | _ => 0) hi
  cases p <;> exact hsum

theorem covers_setPublish {w : World} {i : ℕ} {p : Publish} {P C : Finset ℕ}
    (h : (w.setPublish i p).Covers P C) : i ∈ P ∧ w.Covers P C := by
  have hi : i ∈ P := h.1 i (by simp [setPublish_self])
  refine ⟨hi, fun l hl => ?_, h.2⟩
  by_cases hli : l = i
  · rwa [hli]
  · exact h.1 l (by rwa [setPublish_of_ne hli])

/-- What a step of one run of `run_consumer` does to the counters and to the run. -/
structure Turn (w v : World) (j : ℕ) (k : Consumer) : Prop where
  publishes : v.publishes = w.publishes
  consumers : v.consumers = w.consumers
  stored : v.registry.payloadsStored = w.registry.payloadsStored
  published : v.registry.claimChecksPublished = w.registry.claimChecksPublished
  saved : v.registry.brokerBytesSaved = w.registry.brokerBytesSaved
  history : v.history.published = w.history.published
  checkedIn : v.history.checkedIn = w.history.checkedIn
  files : (keys v.store.files).Sublist (keys w.store.files)
  dequeued : v.queue.length + v.registry.payloadsRetrieved + k.redeeming =
    w.queue.length + w.registry.payloadsRetrieved + ((w.consumers j).map Consumer.redeeming).getD 0
  retrieved : v.registry.payloadsRetrieved + w.registry.payloadsProcessed +
      ((w.consumers j).map Consumer.handling).getD 0 + ((w.consumers j).map Consumer.failed).getD 0 =
    w.registry.payloadsRetrieved + v.registry.payloadsProcessed + k.handling + k.failed
  processed : v.registry.payloadsProcessed + ((w.consumers j).map Consumer.totalHandled).getD 0 =
    w.registry.payloadsProcessed + k.totalHandled
  deleted : v.registry.payloadsProcessed + w.registry.payloadsDeleted +
      ((w.consumers j).map Consumer.kept).getD 0 =
    w.registry.payloadsProcessed + v.registry.payloadsDeleted + k.kept
  removed : v.store.files.length + v.registry.payloadsDeleted =
    w.store.files.length + w.registry.payloadsDeleted

theorem Turn.accounts {w v : World} {j : ℕ} {k : Consumer} (t : Turn w v j k) (h : Accounts w) :
    Accounts (v.setConsumer j k) where
  flow P C hcover := by
    obtain ⟨hj, hcover⟩ := covers_setConsumer hcover
    rw [Covers, t.publishes, t.consumers] at hcover
    obtain ⟨hstored, hpublished, hretrieved, hprocessed, hdeleted⟩ := h.flow P C hcover
    have hsum (amount : Consumer → ℕ) : (v.setConsumer j k).total amount C +
        ((w.consumers j).map amount).getD 0 = w.total amount C + amount k := by
      have hset := total_setConsumer (w := v) hj k amount
      rwa [total, total, t.consumers] at hset
    have hpub : (v.setConsumer j k).publishing P = w.publishing P := by
      rw [publishing, publishing, ← t.publishes]
      rfl
    have hr := hsum Consumer.redeeming
    have hh := hsum Consumer.handling
    have hf := hsum Consumer.failed
    have ht := hsum Consumer.totalHandled
    have hk := hsum Consumer.kept
    have h1 := t.dequeued
    have h2 := t.retrieved
    have h3 := t.processed
    have h4 := t.deleted
    refine ⟨?_, ?_, ?_, ?_, ?_⟩
    · rw [hpub]
      exact t.stored.trans (hstored.trans (by rw [← t.published]; rfl))
    · change v.registry.claimChecksPublished = v.queue.length + _ + v.registry.payloadsRetrieved
      rw [t.published]
      omega
    · change v.registry.payloadsRetrieved = v.registry.payloadsProcessed + _ + _
      omega
    · change v.registry.payloadsProcessed = _
      omega
    · change v.registry.payloadsProcessed = v.registry.payloadsDeleted + _
      omega
  files := by
    have hf := h.files
    have hr := t.removed
    change v.store.files.length + v.registry.payloadsDeleted = v.registry.payloadsStored
    rw [t.stored]
    omega
  saved := t.saved.trans (h.saved.trans (by rw [← t.history]; rfl))
  distinct := h.distinct.sublist t.files
  minted name hname := by
    obtain ⟨id, hid, e, he, hide⟩ := h.minted name (t.files.subset hname)
    exact ⟨id, hid, e, t.checkedIn ▸ he, hide⟩

theorem accounts_init : Accounts {} where
  flow P C _ := by
    constructor <;> simp [publishing, total]
  files := rfl
  saved := rfl
  distinct := List.nodup_nil
  minted name hname := by cases hname

theorem accounts_publish {w : World} (h : Accounts w) {i : ℕ} {payload : Payload}
    {claimId createdAt : String} (hfresh : ¬ w.Minted claimId) (hnone : w.publishes i = none) :
    Accounts ((w.checkIn payload claimId createdAt).setPublish i
      (.publishing (claimFor payload claimId createdAt))) where
  flow P C hcover := by
    obtain ⟨hi, hcover⟩ := covers_setPublish hcover
    obtain ⟨hstored, hpublished, hretrieved, hprocessed, hdeleted⟩ := h.flow P C hcover
    have hsum := publishing_setPublish (w := w.checkIn payload claimId createdAt) hi
      (.publishing (claimFor payload claimId createdAt))
    have hold : (w.checkIn payload claimId createdAt).publishes i = none := hnone
    rw [hold] at hsum
    refine ⟨?_, hpublished, hretrieved, hprocessed, hdeleted⟩
    change w.registry.payloadsStored + 1 = w.registry.claimChecksPublished + _
    have hsame : (w.checkIn payload claimId createdAt).publishing P = w.publishing P := rfl
    simp only [hsame] at hsum
    omega
  files := by
    have hnew : FilesystemPayloadStore.path claimId ∉ keys w.store.files := by
      intro hmem
      obtain ⟨id, hid, hmint⟩ := h.minted _ hmem
      rw [FilesystemPayloadStore.path_inj] at hid
      exact hfresh (hid ▸ hmint)
    change (assign w.store.files (FilesystemPayloadStore.path claimId) payload.data).length +
      w.registry.payloadsDeleted = w.registry.payloadsStored + 1
    rw [assign_of_notMem hnew, List.length_append, List.length_singleton, ← h.files]
    omega
  saved := h.saved
  distinct := nodup_keys_assign h.distinct _ _
  minted name hname := by
    rcases mem_keys_assign.mp hname with rfl | hname
    · exact ⟨claimId, rfl, _, List.mem_append_right _ (List.mem_singleton.mpr rfl), rfl⟩
    · obtain ⟨id, rfl, e, he, hid⟩ := h.minted name hname
      exact ⟨id, rfl, e, List.mem_append_left _ he, hid⟩

theorem accounts_enqueue {w : World} (h : Accounts w) {i : ℕ} {claim : ClaimCheck}
    (hp : w.publishes i = some (.publishing claim)) :
    Accounts ((w.enqueue claim).setPublish i (.returned claim)) where
  flow P C hcover := by
    obtain ⟨hi, hcover⟩ := covers_setPublish hcover
    obtain ⟨hstored, hpublished, hretrieved, hprocessed, hdeleted⟩ := h.flow P C hcover
    have hsum := publishing_setPublish (w := w.enqueue claim) hi (.returned claim)
    have hold : (w.enqueue claim).publishes i = some (.publishing claim) := hp
    have hsame : (w.enqueue claim).publishing P = w.publishing P := rfl
    rw [hold] at hsum
    simp only [hsame] at hsum
    refine ⟨?_, ?_, hretrieved, hprocessed, hdeleted⟩
    · change w.registry.payloadsStored = w.registry.claimChecksPublished + 1 + _
      omega
    · change w.registry.claimChecksPublished + 1 =
        (w.queue ++ [claim]).length + w.total Consumer.redeeming C + w.registry.payloadsRetrieved
      rw [List.length_append, List.length_singleton]
      omega
  files := h.files
  saved := by
    change w.registry.brokerBytesSaved + _ = bytesSaved (w.history.published ++ [claim])
    rw [h.saved, bytesSaved, bytesSaved, List.map_append, List.sum_append]
    rfl
  distinct := h.distinct
  minted := h.minted

theorem turn_idle {w : World} {j : ℕ} {k : Consumer}
    (hr : k.redeeming = ((w.consumers j).map Consumer.redeeming).getD 0)
    (hh : k.handling = ((w.consumers j).map Consumer.handling).getD 0)
    (hf : k.failed = ((w.consumers j).map Consumer.failed).getD 0)
    (ht : k.totalHandled = ((w.consumers j).map Consumer.totalHandled).getD 0)
    (hk : k.kept = ((w.consumers j).map Consumer.kept).getD 0) : Turn w w j k := by
  constructor <;> first | rfl | omega

theorem turn_idle_of {w : World} {j : ℕ} {k k' : Consumer} (hk : w.consumers j = some k)
    (hr : k'.redeeming = k.redeeming) (hh : k'.handling = k.handling) (hf : k'.failed = k.failed)
    (ht : k'.totalHandled = k.totalHandled) (hd : k'.deleteAfter = k.deleteAfter) : Turn w w j k' := by
  have hkept : k'.kept = k.kept := by rw [Consumer.kept, Consumer.kept, ht, hd]
  apply turn_idle <;> rw [hk, Option.map_some, Option.getD_some] <;> assumption

theorem mem_files {w : World} (hc : Custody w) {j : ℕ} {k : Consumer} {claim : ClaimCheck}
    {payload : Payload} (hk : w.consumers j = some k) (hpc : k.pc = .handler claim payload) :
    FilesystemPayloadStore.path claim.claimId ∈ keys w.store.files := by
  obtain ⟨stored, -, hget⟩ :=
    hc.redeemable claim (.inHand hk (by simp only [Consumer.inHand, hpc]))
  exact mem_keys_of_get? hget

theorem turn_returns {w : World} (hc : Custody w) (h : Accounts w) {j : ℕ} {k : Consumer}
    {claim : ClaimCheck} {payload : Payload} (hk : w.consumers j = some k)
    (hpc : k.pc = .handler claim payload) : Turn w (w.process claim k.deleteAfter) j
      { k with totalHandled := k.totalHandled + 1, pc := .top } := by
  have hlen := length_erase_of_mem h.distinct (mem_files hc hk hpc)
  cases hdel : k.deleteAfter with
  | true =>
    constructor <;> first
      | rfl
      | exact keys_erase_sublist _ _
      | simp [process, finish, hk, hpc, hdel, FilesystemPayloadStore.delete] <;> omega
  | false =>
    constructor <;> first
      | rfl
      | exact List.Sublist.refl _
      | simp [process, finish, hk, hpc, hdel] <;> omega

theorem accounts_step (w : World) (a : Action) (w' : World) (hc : Custody w) (h : Accounts w)
    (hfresh : w.Fresh a) (hs : step w a = some w') : Accounts w' := by
  cases Effect.of_step hs with
  | publish i payload claimId createdAt hnone => exact accounts_publish h hfresh hnone
  | enqueue i claim hp => exact accounts_enqueue h hp
  | start j consumerId deleteAfter hnone =>
    exact Turn.accounts (turn_idle (by simp [hnone]) (by simp [hnone]) (by simp [hnone])
      (by simp [hnone]) (by simp [hnone])) h
  | stop j k hk hpc =>
    exact Turn.accounts (turn_idle_of hk (by simp [hpc]) (by simp [hpc]) (by simp [hpc]) rfl rfl) h
  | poll j k hk hpc =>
    exact Turn.accounts (turn_idle_of hk (by simp [hpc]) (by simp [hpc]) (by simp [hpc]) rfl rfl) h
  | timeout j k hk hpc =>
    exact Turn.accounts (turn_idle_of hk (by simp [hpc]) (by simp [hpc]) (by simp [hpc]) rfl rfl) h
  | dequeue j k claim rest hk hpc hq =>
    refine Turn.accounts ?_ h
    constructor <;> first
      | rfl
      | exact List.Sublist.refl _
      | simp [dequeue, hk, hpc, hq] <;> omega
  | redeem j k claim data hk hpc hget =>
    refine Turn.accounts ?_ h
    constructor <;> first
      | rfl
      | exact List.Sublist.refl _
      | simp [retrieve, hk, hpc] <;> omega
  | notFound j k claim e hk hpc hget =>
    obtain ⟨payload, -, hok⟩ :=
      hc.redeemable claim (.inHand hk (by simp only [Consumer.inHand, hpc]))
    rw [hget] at hok
    cases hok
  | returns j k claim payload hk hpc => exact (turn_returns hc h hk hpc).accounts h
  | raises j k claim payload e hk hpc =>
    refine Turn.accounts ?_ h
    constructor <;> first
      | rfl
      | exact List.Sublist.refl _
      | simp [finish, hk, hpc]

/-- How a handler's claim is let go of. -/
inductive Fate where
  | failed
  | kept
  | deleted
  deriving DecidableEq

/-- The claim whose handler an action ends, and what becomes of it. -/
def fate (w : World) : Action → List (String × Fate)
  | .handler j failure =>
      match w.consumers j with
      | some k =>
          match k.pc with
          | .handler claim _ => [(claim.claimId, match failure with
              | some _ => .failed
              | none => if k.deleteAfter then .deleted else .kept)]
          | _ => []
      | none => []
  | _ => []

def fates (w : World) : List Action → List (String × Fate)
  | [] => []
  | a :: acts => w.fate a ++ match w.step a with
      | some w' => w'.fates acts
      | none => []

/-- The claims let go of have one fate each, and the files are those of the claims not deleted. -/
structure Named (w : World) (gone : List (String × Fate)) : Prop where
  finished : ∀ id, w.Finished id ↔ id ∈ gone.map Prod.fst
  nodup : (gone.map Prod.fst).Nodup
  named : ∀ name, name ∈ keys w.store.files ↔
    ∃ id, name = FilesystemPayloadStore.path id ∧ w.Minted id ∧ (id, .deleted) ∉ gone

theorem named_init : Named {} [] where
  finished id := by simp [Finished]
  nodup := List.nodup_nil
  named name := by simp [Minted, keys]

theorem Named.same {w v : World} {gone : List (String × Fate)} (h : Named w gone)
    (hfin : v.history.finished = w.history.finished)
    (hins : v.history.checkedIn = w.history.checkedIn) (hfiles : v.store.files = w.store.files) :
    Named v (gone ++ []) := by
  rw [List.append_nil]
  refine ⟨fun id => ?_, h.nodup, fun name => ?_⟩
  · rw [← h.finished, Finished, Finished, hfin]
  · rw [hfiles, h.named]
    simp only [Minted, hins]

theorem Named.letGo {w v : World} {gone : List (String × Fate)} (h : Named w gone)
    {claim : ClaimCheck} (hnot : ¬ w.Finished claim.claimId) (f : Fate)
    (hhist : v.history = (w.finish claim).history)
    (hfiles : keys v.store.files = keys (if f = .deleted then
      erase w.store.files (FilesystemPayloadStore.path claim.claimId) else w.store.files)) :
    Named v (gone ++ [(claim.claimId, f)]) := by
  refine ⟨fun id => ?_, ?_, fun name => ?_⟩
  · rw [List.map_append, List.mem_append, ← h.finished, Finished, hhist]
    simp only [finish, Finished, List.mem_append, List.mem_singleton, List.map_cons, List.map_nil]
    constructor
    · rintro ⟨c, hc | rfl, rfl⟩
      · exact Or.inl ⟨c, hc, rfl⟩
      · exact Or.inr rfl
    · rintro (⟨c, hc, rfl⟩ | rfl)
      · exact ⟨c, Or.inl hc, rfl⟩
      · exact ⟨claim, Or.inr rfl, rfl⟩
  · rw [List.map_append, List.map_singleton, ← List.concat_eq_append, List.nodup_concat]
    exact ⟨fun hmem => hnot ((h.finished _).mpr hmem), h.nodup⟩
  · have hminted : v.Minted = w.Minted := by
      funext id
      rw [Minted, hhist]
      rfl
    simp only [hminted, List.mem_append, List.mem_singleton, Prod.mk.injEq, not_or]
    rw [hfiles]
    split_ifs with hf
    · subst hf
      rw [mem_keys_erase, h.named]
      constructor
      · rintro ⟨⟨id, rfl, hid, hdel⟩, hne⟩
        exact ⟨id, rfl, hid, hdel, fun he => hne (by rw [he.1])⟩
      · rintro ⟨id, rfl, hid, hdel, hne⟩
        refine ⟨⟨id, rfl, hid, hdel⟩, fun he => hne ⟨?_, rfl⟩⟩
        exact FilesystemPayloadStore.path_inj.mp he
    · rw [h.named]
      apply exists_congr
      intro id
      simp [Ne.symm hf]

theorem Named.publish {w : World} {gone : List (String × Fate)} (h : Named w gone)
    (hc : Custody w) (i : ℕ) (payload : Payload) {claimId : String} (createdAt : String)
    (hfresh : ¬ w.Minted claimId) :
    Named ((w.checkIn payload claimId createdAt).setPublish i
      (.publishing (claimFor payload claimId createdAt))) (gone ++ []) := by
  have hnew : (claimId, Fate.deleted) ∉ gone := fun hmem =>
    hfresh (hc.ledger.bounded _ ((h.finished _).mpr (List.mem_map_of_mem hmem)))
  have hminted (id : String) : ((w.checkIn payload claimId createdAt).setPublish i
      (.publishing (claimFor payload claimId createdAt))).Minted id ↔ id = claimId ∨ w.Minted id := by
    simp only [Minted, setPublish, checkIn, List.mem_append, List.mem_singleton]
    constructor
    · rintro ⟨e, he | rfl, rfl⟩
      · exact Or.inr ⟨e, he, rfl⟩
      · exact Or.inl rfl
    · rintro (rfl | ⟨e, he, rfl⟩)
      · exact ⟨_, Or.inr rfl, rfl⟩
      · exact ⟨e, Or.inl he, rfl⟩
  rw [List.append_nil]
  refine ⟨h.finished, h.nodup, fun name => ?_⟩
  change name ∈ keys (assign w.store.files (FilesystemPayloadStore.path claimId) payload.data) ↔ _
  rw [mem_keys_assign, h.named]
  simp only [hminted]
  constructor
  · rintro (rfl | ⟨id, rfl, hid, hdel⟩)
    · exact ⟨claimId, rfl, Or.inl rfl, hnew⟩
    · exact ⟨id, rfl, Or.inr hid, hdel⟩
  · rintro ⟨id, rfl, rfl | hid, hdel⟩
    · exact Or.inl rfl
    · exact Or.inr ⟨id, rfl, hid, hdel⟩

theorem named_step {w w' : World} {a : Action} {gone : List (String × Fate)} (h : Named w gone)
    (hc : Custody w) (hfresh : w.Fresh a) (hs : step w a = some w') :
    Named w' (gone ++ w.fate a) := by
  have hnot {j : ℕ} {k : Consumer} {claim : ClaimCheck} {payload : Payload}
      (hk : w.consumers j = some k) (hpc : k.pc = .handler claim payload) :
      ¬ w.Finished claim.claimId :=
    (hc.ledger.not_finished (.inHand hk (by simp only [Consumer.inHand, hpc]))).2
  cases Effect.of_step hs with
  | publish i payload claimId createdAt hnone => exact h.publish hc i payload createdAt hfresh
  | notFound j k claim e hk hpc hget =>
    obtain ⟨payload, -, hok⟩ :=
      hc.redeemable claim (.inHand hk (by simp only [Consumer.inHand, hpc]))
    rw [hget] at hok
    cases hok
  | returns j k claim payload hk hpc =>
    have hfate : w.fate (.handler j none) =
        [(claim.claimId, if k.deleteAfter then .deleted else .kept)] := by
      simp only [fate, hk, hpc]
    rw [hfate]
    refine h.letGo (hnot hk hpc) _ ?_ ?_
    · exact history_process claim k.deleteAfter
    · change keys (w.process claim k.deleteAfter).store.files = _
      cases k.deleteAfter <;> rfl
  | raises j k claim payload e hk hpc =>
    have hfate : w.fate (.handler j (some e)) = [(claim.claimId, .failed)] := by
      simp only [fate, hk, hpc]
    rw [hfate]
    exact h.letGo (hnot hk hpc) _ rfl rfl
  | _ => exact h.same rfl rfl rfl

theorem named_run {w w' : World} {acts : List Action} {gone : List (String × Fate)}
    (h : Named w gone) (hc : Custody w) (hfresh : Along step Fresh w acts)
    (hrun : run step w acts = some w') : Named w' (gone ++ w.fates acts) := by
  induction acts generalizing w gone with
  | nil =>
    cases hrun
    rw [fates, List.append_nil]
    exact h
  | cons a acts ih =>
    obtain ⟨u, hu, hrun⟩ := run_cons_eq_some.mp hrun
    obtain ⟨ha, hrest⟩ := (along_cons hu).mp hfresh
    have hnext := ih (named_step h hc ha hu) (custody_step w a u hc ha hu) hrest hrun
    rw [fates, hu]
    rwa [List.append_assoc] at hnext

/-- Every claim check that has been made is alive or has its fate, so that a file belongs to one that is
alive, or to one that failed or was kept. -/
theorem Named.mem_files_iff {w : World} {gone : List (String × Fate)} (h : Named w gone)
    (hc : Custody w) (name : String) : name ∈ keys w.store.files ↔
      ∃ id, name = FilesystemPayloadStore.path id ∧
        ((∃ claim, w.Alive claim ∧ claim.claimId = id) ∨ (id, .failed) ∈ gone ∨
          (id, .kept) ∈ gone) := by
  rw [h.named]
  apply exists_congr
  intro id
  rw [and_congr_right_iff]
  rintro -
  constructor
  · rintro ⟨hminted, hdel⟩
    rcases hc.ledger.cover id hminted with hfin | ⟨x, hx⟩
    · obtain ⟨⟨_, f⟩, hf, rfl⟩ := List.mem_map.mp ((h.finished id).mp hfin)
      cases f with
      | failed => exact Or.inr (Or.inl hf)
      | kept => exact Or.inr (Or.inr hf)
      | deleted => exact absurd hf hdel
    · exact Or.inl (alive_of_held hx)
  · have hgone {f : Fate} (hf : (id, f) ∈ gone) (hne : f ≠ .deleted) :
        w.Minted id ∧ (id, .deleted) ∉ gone := by
      refine ⟨hc.ledger.bounded id ((h.finished id).mpr (List.mem_map_of_mem hf)), fun hdel => ?_⟩
      exact hne (congrArg Prod.snd (List.inj_on_of_nodup_map h.nodup hf hdel rfl))
    rintro (⟨claim, halive, rfl⟩ | hf | hf)
    · obtain ⟨hminted, hnot⟩ := hc.ledger.not_finished halive
      exact ⟨hminted, fun hdel => hnot ((h.finished _).mpr (List.mem_map_of_mem hdel))⟩
    · exact hgone hf (by decide)
    · exact hgone hf (by decide)

/-- As long as `uuid4` repeats no id, every stored payload is accounted for: the files are those of the
claim checks that are being published, queued or in a consumer's hands, that a handler raised for, or that
were handled by a consumer that keeps them. The counters of the pattern are the stations of this way. -/
theorem stored_payloads_accounted (acts : List Action) (w : World) (hrun : run step {} acts = some w)
    (hfresh : Along step Fresh {} acts) (P C : Finset ℕ) (hcover : w.Covers P C) :
    w.Flow P C ∧
      (∀ name, name ∈ keys w.store.files ↔ ∃ id, name = FilesystemPayloadStore.path id ∧
        ((∃ claim, w.Alive claim ∧ claim.claimId = id) ∨ (id, .failed) ∈ fates {} acts ∨
          (id, .kept) ∈ fates {} acts)) ∧
      w.store.files.length = w.publishing P + w.queue.length + w.total Consumer.redeeming C +
        w.total Consumer.handling C + w.total Consumer.failed C + w.total Consumer.kept C ∧
      w.registry.brokerBytesSaved = bytesSaved w.history.published := by
  obtain ⟨hc, h⟩ : Custody w ∧ Accounts w :=
    run_invariant (I := fun v => Custody v ∧ Accounts v) (fun v a v' hv hf hs => ⟨custody_step v a v' hv.1 hf hs,
      accounts_step v a v' hv.1 hv.2 hf hs⟩) ⟨custody_init, accounts_init⟩ hfresh hrun
  have hnamed : Named w (fates {} acts) := named_run named_init custody_init hfresh hrun
  obtain ⟨hstored, hpublished, hretrieved, -, hdeleted⟩ := h.flow P C hcover
  have hfiles := h.files
  exact ⟨h.flow P C hcover, hnamed.mem_files_iff hc, by omega, h.saved⟩

/-- One handler raises, and another consumer keeps what it has handled. -/
def leftBehind : List Action :=
  [.publish 0 scan "0a" "2026-08-01T09:00:00+00:00", .enqueue 0,
    .publish 1 note "1b" "2026-08-01T09:00:01+00:00", .enqueue 1, .runConsumer 0 "consumer-0" true,
    .run 0, .run 0, .run 0, .handler 0 (some (valueError "unreadable scan")),
    .runConsumer 1 "consumer-1" false, .run 1, .run 1, .run 1, .handler 1 none]

theorem leftBehind_accounted : ∃ w, run step {} leftBehind = some w ∧ w.queue = [] ∧
    w.total Consumer.failed {0, 1} = 1 ∧ w.total Consumer.kept {0, 1} = 1 ∧
    w.store.files.length = 2 ∧ "0a.bin" ∈ keys w.store.files := by
  obtain ⟨w, hw, hqueue, hpublishes, hconsumers, hfailed, hkept, hrest⟩ :
      ∃ w, run step {} leftBehind = some w ∧ w.queue = [] ∧
      (∀ i, w.publishes i ≠ none → i ∈ ({0, 1} : Finset ℕ)) ∧
      (∀ j, w.consumers j ≠ none → j ∈ ({0, 1} : Finset ℕ)) ∧
      w.total Consumer.failed {0, 1} = 1 ∧ w.total Consumer.kept {0, 1} = 1 ∧
      w.publishing {0, 1} + w.total Consumer.redeeming {0, 1} + w.total Consumer.handling {0, 1} = 0 := by
    refine ⟨_, rfl, rfl, fun i hi => ?_, fun j hj => ?_, rfl, rfl, rfl⟩
    · by_contra hne
      simp only [Finset.mem_insert, Finset.mem_singleton, not_or] at hne
      exact hi (by simp [setPublish, setConsumer, checkIn, enqueue, dequeue, retrieve, finish,
        process, hne])
    · by_contra hne
      simp only [Finset.mem_insert, Finset.mem_singleton, not_or] at hne
      exact hj (by simp [setPublish, setConsumer, checkIn, enqueue, dequeue, retrieve, finish,
        process, hne])
  have hfresh : Along step Fresh {} leftBehind := by
    refine (along_cons rfl).mpr ⟨?_, (along_cons rfl).mpr ⟨trivial, (along_cons rfl).mpr ⟨?_,
      along_of_forall ?_ _⟩⟩⟩
    · rintro ⟨e, he, -⟩
      cases he
    · rintro ⟨e, he, hid⟩
      obtain rfl := List.mem_singleton.mp he
      exact absurd hid (by decide)
    · simp [Fresh]
  obtain ⟨-, hnames, hfiles, -⟩ := stored_payloads_accounted leftBehind w hw hfresh {0, 1} {0, 1}
    ⟨hpublishes, hconsumers⟩
  refine ⟨w, hw, hqueue, hfailed, hkept, ?_, ?_⟩
  · rw [hqueue, List.length_nil, hfailed, hkept] at hfiles
    omega
  · exact (hnames _).mpr ⟨"0a", rfl, Or.inr (Or.inl (by decide))⟩

end World
end ClaimCheckPattern
