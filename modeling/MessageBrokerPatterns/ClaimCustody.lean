import MessageBrokerPatterns.ClaimCheck
import MessageBrokerPatterns.ClaimLedger
import MessageBrokerPatterns.Slots

/-!
# Every queued claim is redeemable

A claim that has been checked in is held by its publisher, by the queue or by one consumer, until
that consumer lets go of it: the claims are the pieces of a claim ledger whose workers hand them
on. A consumer deletes the file of the claim in its own hand only, so that the file of a claim that
somebody holds is there, with the bytes that were published.
-/

namespace ClaimCheckPattern
open PyText PyDict ActionRun

/-- Who may hold a claim. -/
inductive Holder where
  | publish (i : ℕ)
  | queue
  | consumer (j : ℕ)

namespace World

def held (w : World) : Holder → List String
  | .publish i =>
      match w.publishes i with
      | some (.publishing claim) => [claim.claimId]
      | _ => []
  | .queue => w.queue.map ClaimCheck.claimId
  | .consumer j =>
      match w.consumers j with
      | some k => (k.inHand.map ClaimCheck.claimId).toList
      | none => []

/-- The claim is being published, queued or in the hands of a consumer. -/
inductive Alive (w : World) : ClaimCheck → Prop where
  | publishing {i : ℕ} {claim : ClaimCheck} (h : w.publishes i = some (.publishing claim)) :
      Alive w claim
  | queued {claim : ClaimCheck} (h : claim ∈ w.queue) : Alive w claim
  | inHand {j : ℕ} {k : Consumer} {claim : ClaimCheck} (hk : w.consumers j = some k)
      (h : k.inHand = some claim) : Alive w claim

def Finished (w : World) (claimId : String) : Prop :=
  ∃ c ∈ w.history.finished, c.claimId = claimId

/-- The id of a claim check that has been made. -/
def Minted (w : World) (claimId : String) : Prop :=
  ∃ e ∈ w.history.checkedIn, e.1.claimId = claimId

/-- `uuid4` does not repeat an id. -/
def Fresh (w : World) : Action → Prop
  | .publish _ _ claimId _ => ¬ w.Minted claimId
  | _ => True

theorem Alive.held {w : World} {claim : ClaimCheck} (h : w.Alive claim) :
    ∃ x, claim.claimId ∈ w.held x := by
  cases h with
  | @publishing i _ hp => exact ⟨.publish i, by simp [World.held, hp]⟩
  | queued hq => exact ⟨.queue, List.mem_map.mpr ⟨_, hq, rfl⟩⟩
  | @inHand j k _ hk hin => exact ⟨.consumer j, by simp [World.held, hk, hin]⟩

theorem alive_of_held {w : World} {x : Holder} {claimId : String} (h : claimId ∈ w.held x) :
    ∃ claim, w.Alive claim ∧ claim.claimId = claimId := by
  cases x with
  | publish i =>
    simp only [World.held] at h
    split at h
    · rename_i claim hp
      exact ⟨claim, .publishing hp, (List.mem_singleton.mp h).symm⟩
    · cases h
  | queue =>
    obtain ⟨claim, hq, rfl⟩ := List.mem_map.mp h
    exact ⟨claim, .queued hq, rfl⟩
  | consumer j =>
    simp only [World.held] at h
    split at h
    · rename_i k hk
      obtain ⟨claim, hin, rfl⟩ := Option.map_eq_some_iff.mp (Option.mem_toList.mp h)
      exact ⟨claim, .inHand hk hin, rfl⟩
    · cases h

section
variable {w : World} {i j : ℕ} {p : Publish} {k : Consumer}

theorem held_consumer (hk : w.consumers j = some k) :
    w.held (.consumer j) = (k.inHand.map ClaimCheck.claimId).toList := by
  simp only [held, hk]

theorem held_setConsumer_self :
    (w.setConsumer j k).held (.consumer j) = (k.inHand.map ClaimCheck.claimId).toList :=
  held_consumer setConsumer_self

theorem held_setConsumer_of_ne {x : Holder} (hx : x ≠ .consumer j) :
    (w.setConsumer j k).held x = w.held x := by
  cases x with
  | publish l => rfl
  | queue => rfl
  | consumer l =>
    have hl : l ≠ j := fun h => hx (h ▸ rfl)
    simp only [held, setConsumer_of_ne hl]

theorem held_setPublish_of_ne {x : Holder} (hx : x ≠ .publish i) :
    (w.setPublish i p).held x = w.held x := by
  cases x with
  | publish l =>
    have hl : l ≠ i := fun h => hx (h ▸ rfl)
    simp only [held, setPublish_of_ne hl]
  | queue => rfl
  | consumer l => rfl

theorem held_setConsumer (h : (k.inHand.map ClaimCheck.claimId).toList = w.held (.consumer j)) :
    (w.setConsumer j k).held = w.held := by
  funext x
  by_cases hx : x = .consumer j
  · subst hx
    rw [held_setConsumer_self, h]
  · exact held_setConsumer_of_ne hx

theorem held_checkIn (payload : Payload) (claimId createdAt : String) :
    (w.checkIn payload claimId createdAt).held = w.held := by
  funext x
  cases x <;> rfl

theorem held_retrieve (consumerId : String) (claim : ClaimCheck) (payload : Payload) :
    (w.retrieve consumerId claim payload).held = w.held := by
  funext x
  cases x <;> rfl

theorem held_finish (claim : ClaimCheck) : (w.finish claim).held = w.held := by
  funext x
  cases x <;> rfl

theorem held_process (claim : ClaimCheck) (deleteAfter : Bool) :
    (w.process claim deleteAfter).held = w.held := by
  funext x
  cases deleteAfter <;> cases x <;> rfl

theorem history_process (claim : ClaimCheck) (deleteAfter : Bool) :
    (w.process claim deleteAfter).history = (w.finish claim).history := by
  cases deleteAfter <;> rfl

theorem consumers_process (claim : ClaimCheck) (deleteAfter : Bool) :
    (w.process claim deleteAfter).consumers = w.consumers := by
  cases deleteAfter <;> rfl

theorem held_enqueue_of_ne (claim : ClaimCheck) {x : Holder} (hx : x ≠ .queue) :
    (w.enqueue claim).held x = w.held x := by
  cases x with
  | queue => exact absurd rfl hx
  | publish l => rfl
  | consumer l => rfl

theorem held_dequeue_of_ne (claim : ClaimCheck) (rest : List ClaimCheck) {x : Holder}
    (hx : x ≠ .queue) : (w.dequeue claim rest).held x = w.held x := by
  cases x with
  | queue => exact absurd rfl hx
  | publish l => rfl
  | consumer l => rfl

end

/-- Every claim check has one holder until it is let go of. -/
def Ledger (w : World) : Prop := Claimed w.held w.Finished w.Minted

theorem ledger_init : Ledger {} := by
  have hh : ({} : World).held = fun _ => [] := by
    funext x
    cases x <;> rfl
  have hf : ({} : World).Finished = fun _ => False := by
    funext claimId
    exact eq_false (by rintro ⟨c, h, -⟩; cases h)
  have hm : ({} : World).Minted = fun _ => False := by
    funext claimId
    exact eq_false (by rintro ⟨e, h, -⟩; cases h)
  rw [Ledger, hh, hf, hm]
  exact Claimed.empty

theorem ledger_publish {w : World} (hl : Ledger w) {i : ℕ} (payload : Payload)
    {claimId : String} (createdAt : String) (hnone : w.publishes i = none)
    (hfresh : ¬ w.Minted claimId) :
    Ledger ((w.checkIn payload claimId createdAt).setPublish i
      (.publishing (claimFor payload claimId createdAt))) := by
  refine hl.issue (i := .publish i) (by simp only [held, hnone]) (fun x hx => ?_) ?_
    (List.nodup_singleton claimId) (fun a ha => ?_) fun a => ?_
  · rw [held_setPublish_of_ne hx, held_checkIn]
  · simp only [held, setPublish_self]
    rfl
  · obtain rfl := List.mem_singleton.mp ha
    exact hfresh
  · simp only [Minted, setPublish, checkIn, List.mem_append, List.mem_singleton]
    constructor
    · rintro ⟨e, he | rfl, rfl⟩
      · exact Or.inl ⟨e, he, rfl⟩
      · exact Or.inr rfl
    · rintro (⟨e, he, rfl⟩ | rfl)
      · exact ⟨e, Or.inl he, rfl⟩
      · exact ⟨_, Or.inr rfl, rfl⟩

theorem ledger_enqueue {w : World} (hl : Ledger w) {i : ℕ} {claim : ClaimCheck}
    (hp : w.publishes i = some (.publishing claim)) :
    Ledger ((w.enqueue claim).setPublish i (.returned claim)) := by
  have hheld : w.held (.publish i) = [claim.claimId] := by simp only [held, hp]
  refine hl.transfer (i := .publish i) (j := .queue) nofun hheld (fun x hx hq => ?_)
    (by simp only [held, setPublish_self]) ?_
  · rw [held_setPublish_of_ne hx, held_enqueue_of_ne claim hq]
  · exact List.map_append

theorem ledger_dequeue {w : World} (hl : Ledger w) {j : ℕ} {k : Consumer} {claim : ClaimCheck}
    {rest : List ClaimCheck} (hk : w.consumers j = some k) (hpc : k.pc = .polling)
    (hq : w.queue = claim :: rest) :
    Ledger ((w.dequeue claim rest).setConsumer j { k with pc := .redeem claim }) := by
  have hnone : w.held (.consumer j) = [] := by
    rw [held_consumer hk, Consumer.inHand, hpc]
    rfl
  refine hl.transfer (i := .queue) (j := .consumer j) nofun (a := claim.claimId)
    (by rw [held, hq]; rfl) (fun x hx hj => ?_) rfl ?_
  · rw [held_setConsumer_of_ne hj, held_dequeue_of_ne claim rest hx]
  · rw [held_setConsumer_self, hnone]
    rfl

theorem ledger_finish {w v : World} (hl : Ledger w) {j : ℕ} {k k' : Consumer} {claim : ClaimCheck}
    (hk : w.consumers j = some k) (hin : k.inHand = some claim) (hout : k'.inHand = none)
    (hheld : v.held = w.held) (hhist : v.history = (w.finish claim).history) :
    Ledger (v.setConsumer j k') := by
  have hminted : (v.setConsumer j k').Minted = w.Minted := by
    change (fun claimId => ∃ e ∈ v.history.checkedIn, e.1.claimId = claimId) = _
    rw [hhist]
    rfl
  have h : Claimed (v.setConsumer j k').held (v.setConsumer j k').Finished w.Minted := by
    have hin' : w.held (.consumer j) = [claim.claimId] := by
      rw [held_consumer hk, hin]
      rfl
    refine hl.complete hin' (fun x hx => ?_) ?_ fun claimId => ?_
    · rw [held_setConsumer_of_ne hx, hheld]
    · rw [held_setConsumer_self, hout]
      rfl
    · change (∃ c ∈ v.history.finished, c.claimId = claimId) ↔ _
      rw [hhist]
      simp only [finish, Finished, List.mem_append, List.mem_singleton]
      constructor
      · rintro ⟨c, hc | rfl, rfl⟩
        · exact Or.inl ⟨c, hc, rfl⟩
        · exact Or.inr rfl
      · rintro (⟨c, hc, rfl⟩ | rfl)
        · exact ⟨c, Or.inl hc, rfl⟩
        · exact ⟨claim, Or.inr rfl, rfl⟩
  rw [Ledger, hminted]
  exact h

theorem ledger_setConsumer {w v : World} (hl : Ledger w) {j : ℕ} {k : Consumer}
    (hin : (k.inHand.map ClaimCheck.claimId).toList = w.held (.consumer j))
    (hheld : v.held = w.held) (hfin : v.Finished = w.Finished) (hmint : v.Minted = w.Minted) :
    Ledger (v.setConsumer j k) := by
  have h : (v.setConsumer j k).held = w.held := by
    rw [← hheld]
    exact held_setConsumer (hin.trans (congrFun hheld.symm _))
  have h' : Claimed (v.setConsumer j k).held v.Finished v.Minted := by
    rw [h, hfin, hmint]
    exact hl
  exact h'

theorem ledger_step {w w' : World} {a : Action} (hl : Ledger w) (hfresh : w.Fresh a)
    (h : step w a = some w') : Ledger w' := by
  have hsame {j : ℕ} {k k' : Consumer} (hk : w.consumers j = some k) (hin : k'.inHand = k.inHand) :
      (k'.inHand.map ClaimCheck.claimId).toList = w.held (.consumer j) := by
    rw [held_consumer hk, hin]
  cases Effect.of_step h with
  | publish i payload claimId createdAt hnone =>
    exact ledger_publish hl payload createdAt hnone hfresh
  | enqueue i claim hp => exact ledger_enqueue hl hp
  | start j consumerId deleteAfter hnone =>
    exact ledger_setConsumer hl (by simp only [held, hnone]; rfl) rfl rfl rfl
  | stop j k hk hpc =>
    exact ledger_setConsumer hl (hsame hk (by simp only [Consumer.inHand, hpc])) rfl rfl rfl
  | poll j k hk hpc =>
    exact ledger_setConsumer hl (hsame hk (by simp only [Consumer.inHand, hpc])) rfl rfl rfl
  | timeout j k hk hpc =>
    exact ledger_setConsumer hl (hsame hk (by simp only [Consumer.inHand, hpc])) rfl rfl rfl
  | dequeue j k claim rest hk hpc hq => exact ledger_dequeue hl hk hpc hq
  | redeem j k claim data hk hpc hget =>
    exact ledger_setConsumer hl (hsame hk (by simp only [Consumer.inHand, hpc]))
      (held_retrieve ..) rfl rfl
  | notFound j k claim e hk hpc hget =>
    exact ledger_finish hl hk (by simp only [Consumer.inHand, hpc]) rfl (held_finish claim) rfl
  | returns j k claim payload hk hpc =>
    exact ledger_finish hl hk (by simp only [Consumer.inHand, hpc]) rfl
      (held_process claim k.deleteAfter) (history_process claim k.deleteAfter)
  | raises j k claim payload e hk hpc =>
    exact ledger_finish hl hk (by simp only [Consumer.inHand, hpc]) rfl (held_finish claim) rfl

theorem alive_setConsumer {w : World} {j : ℕ} {k : Consumer} {claim : ClaimCheck}
    (h : (w.setConsumer j k).Alive claim) : w.Alive claim ∨ k.inHand = some claim := by
  cases h with
  | publishing hp => exact Or.inl (.publishing hp)
  | queued hq => exact Or.inl (.queued hq)
  | inHand hk hin =>
    rcases Slots.cases_update hk with ⟨-, rfl⟩ | ⟨-, hk⟩
    · exact Or.inr hin
    · exact Or.inl (.inHand hk hin)

theorem alive_setPublish {w : World} {i : ℕ} {p : Publish} {claim : ClaimCheck}
    (h : (w.setPublish i p).Alive claim) : w.Alive claim ∨ p = .publishing claim := by
  cases h with
  | publishing hp =>
    rcases Slots.cases_update hp with ⟨-, rfl⟩ | ⟨-, hp⟩
    · exact Or.inr rfl
    · exact Or.inl (.publishing hp)
  | queued hq => exact Or.inl (.queued hq)
  | inHand hk hin => exact Or.inl (.inHand hk hin)

theorem Alive.of_eq {w v : World} {claim : ClaimCheck} (h : v.Alive claim)
    (hp : v.publishes = w.publishes) (hq : v.queue = w.queue) (hk : v.consumers = w.consumers) :
    w.Alive claim := by
  cases h with
  | publishing h => exact .publishing (hp ▸ h)
  | queued h => exact .queued (hq ▸ h)
  | inHand h hin => exact .inHand (hk ▸ h) hin

theorem alive_step {w w' : World} {a : Action} (h : step w a = some w') {claim : ClaimCheck}
    (hc : w'.Alive claim) : w.Alive claim ∨ ∃ i payload claimId createdAt,
      a = .publish i payload claimId createdAt ∧ claim = claimFor payload claimId createdAt := by
  have hout {v : World} {j : ℕ} {k : Consumer} (hc : (v.setConsumer j k).Alive claim)
      (hk : k.inHand = none) : v.Alive claim := by
    rcases alive_setConsumer hc with hc | hin
    · exact hc
    · rw [hk] at hin
      cases hin
  cases Effect.of_step h with
  | publish i payload claimId createdAt hnone =>
    rcases alive_setPublish hc with hc | heq
    · exact Or.inl (hc.of_eq rfl rfl rfl)
    · cases heq
      exact Or.inr ⟨i, payload, claimId, createdAt, rfl, rfl⟩
  | enqueue i c hp =>
    rcases alive_setPublish hc with hc | heq
    · cases hc with
      | publishing h => exact Or.inl (.publishing h)
      | queued h =>
        rcases List.mem_append.mp h with h | h
        · exact Or.inl (.queued h)
        · obtain rfl := List.mem_singleton.mp h
          exact Or.inl (.publishing hp)
      | inHand h hin => exact Or.inl (.inHand h hin)
    · cases heq
  | start j consumerId deleteAfter hnone => exact Or.inl (hout hc rfl)
  | stop j k hk hpc => exact Or.inl (hout hc rfl)
  | poll j k hk hpc => exact Or.inl (hout hc rfl)
  | timeout j k hk hpc => exact Or.inl (hout hc rfl)
  | dequeue j k c rest hk hpc hq =>
    rcases alive_setConsumer hc with hc | hin
    · cases hc with
      | publishing h => exact Or.inl (.publishing h)
      | queued h => exact Or.inl (.queued (hq ▸ List.mem_cons_of_mem c h))
      | inHand h hin => exact Or.inl (.inHand h hin)
    · obtain rfl := Option.some.inj hin
      exact Or.inl (.queued (hq ▸ List.mem_cons_self))
  | redeem j k c data hk hpc hget =>
    rcases alive_setConsumer hc with hc | hin
    · exact Or.inl (hc.of_eq rfl rfl rfl)
    · obtain rfl := Option.some.inj hin
      exact Or.inl (.inHand hk (by simp only [Consumer.inHand, hpc]))
  | notFound j k c e hk hpc hget => exact Or.inl ((hout hc rfl).of_eq rfl rfl rfl)
  | returns j k c payload hk hpc =>
    have hv := hout hc rfl
    refine Or.inl (hv.of_eq ?_ ?_ (consumers_process c k.deleteAfter))
    · cases k.deleteAfter <;> rfl
    · cases k.deleteAfter <;> rfl
  | raises j k c payload e hk hpc => exact Or.inl ((hout hc rfl).of_eq rfl rfl rfl)

def Describes (claim : ClaimCheck) (payload : Payload) : Prop :=
  claim.contentType = payload.contentType ∧ claim.originalName = payload.originalName ∧
    claim.sizeBytes = payload.data.size

/-- The claim check was made for the payload, and its file has the payload's bytes. -/
def Redeemable (w : World) (claim : ClaimCheck) : Prop :=
  ∃ payload, (claim, payload) ∈ w.history.checkedIn ∧
    w.store.get claim.claimId = .ok payload.data

structure Custody (w : World) : Prop where
  ledger : Ledger w
  ids : (w.history.checkedIn.map fun e => e.1.claimId).Nodup
  described : ∀ e ∈ w.history.checkedIn, Describes e.1 e.2
  redeemable : ∀ claim, w.Alive claim → w.Redeemable claim
  inOrder : w.history.published = w.history.dequeued ++ w.queue

def checkIns (acts : List Action) : List (ClaimCheck × Payload) :=
  acts.filterMap fun a => match a with
    | .publish _ payload claimId createdAt => some (claimFor payload claimId createdAt, payload)
    | _ => none

theorem checkIns_cases (a : Action) : checkIns [a] = [] ∨ ∃ i payload claimId createdAt,
    a = .publish i payload claimId createdAt := by
  cases a with
  | publish i payload claimId createdAt => exact Or.inr ⟨i, payload, claimId, createdAt, rfl⟩
  | _ => exact Or.inl rfl

theorem checkedIn_step {w w' : World} {a : Action} (h : step w a = some w') :
    w'.history.checkedIn = w.history.checkedIn ++ checkIns [a] := by
  cases Effect.of_step h with
  | publish i payload claimId createdAt hnone => rfl
  | returns j k claim payload hk hpc =>
    change (w.process claim k.deleteAfter).history.checkedIn = _
    rw [history_process]
    exact (List.append_nil _).symm
  | _ => exact (List.append_nil _).symm

theorem checkedIn_mono {w w' : World} {a : Action} (h : step w a = some w')
    {e : ClaimCheck × Payload} (he : e ∈ w.history.checkedIn) : e ∈ w'.history.checkedIn :=
  checkedIn_step h ▸ List.mem_append_left _ he

/-- A step changes the file of a claim only if it makes the claim or lets go of it. -/
theorem store_step {w w' : World} {a : Action} (h : step w a = some w') (id : String) :
    w'.store.get id = w.store.get id ∨ w'.Finished id ∨
      ∃ i payload createdAt, a = .publish i payload id createdAt ∧
        w'.store.get id = .ok payload.data := by
  cases Effect.of_step h with
  | publish i payload claimId createdAt hnone =>
    change (w.store.put claimId payload.data).get id = _ ∨ _
    by_cases hid : claimId = id
    · subst hid
      refine Or.inr (Or.inr ⟨i, payload, createdAt, rfl, ?_⟩)
      exact (FilesystemPayloadStore.get_put ..).trans (if_pos rfl)
    · exact Or.inl ((FilesystemPayloadStore.get_put ..).trans (if_neg hid))
  | returns j k claim payload hk hpc =>
    by_cases hid : id = claim.claimId
    · refine Or.inr (Or.inl ⟨claim, ?_, hid.symm⟩)
      change claim ∈ (w.process claim k.deleteAfter).history.finished
      rw [history_process]
      exact List.mem_append_right _ (List.mem_singleton.mpr rfl)
    · refine Or.inl ?_
      change (w.process claim k.deleteAfter).store.get id = _
      cases k.deleteAfter with
      | false => rfl
      | true => exact FilesystemPayloadStore.get_delete_of_ne hid
  | _ => exact Or.inl rfl

theorem inOrder_step {w w' : World} {a : Action}
    (hi : w.history.published = w.history.dequeued ++ w.queue) (h : step w a = some w') :
    w'.history.published = w'.history.dequeued ++ w'.queue := by
  cases Effect.of_step h with
  | enqueue i claim hp =>
    change w.history.published ++ [claim] = w.history.dequeued ++ (w.queue ++ [claim])
    rw [hi, List.append_assoc]
  | dequeue j k claim rest hk hpc hq =>
    change w.history.published = w.history.dequeued ++ [claim] ++ rest
    rw [hi, hq, List.append_assoc, List.singleton_append]
  | returns j k claim payload hk hpc =>
    change (w.process claim k.deleteAfter).history.published =
      (w.process claim k.deleteAfter).history.dequeued ++ (w.process claim k.deleteAfter).queue
    cases k.deleteAfter <;> exact hi
  | _ => exact hi

theorem Ledger.not_finished {w : World} (hl : Ledger w) {claim : ClaimCheck}
    (hc : w.Alive claim) : w.Minted claim.claimId ∧ ¬ w.Finished claim.claimId := by
  obtain ⟨x, hx⟩ := hc.held
  exact Claimed.held hl x _ hx

theorem custody_init : Custody {} where
  ledger := ledger_init
  ids := List.nodup_nil
  described e h := by cases h
  redeemable claim hc := by
    cases hc with
    | publishing h => cases h
    | queued h => cases h
    | inHand h _ => cases h
  inOrder := rfl

theorem custody_step (w : World) (a : Action) (w' : World) (hi : Custody w) (hfresh : w.Fresh a)
    (h : step w a = some w') : Custody w' := by
  have hl := ledger_step hi.ledger hfresh h
  have hins := checkedIn_step h
  refine ⟨hl, ?_, ?_, fun claim hc => ?_, inOrder_step hi.inOrder h⟩
  · rw [hins]
    rcases checkIns_cases a with hnil | ⟨i, payload, claimId, createdAt, rfl⟩
    · rw [hnil, List.append_nil]
      exact hi.ids
    · have hone : checkIns [.publish i payload claimId createdAt] =
          [(claimFor payload claimId createdAt, payload)] := rfl
      rw [hone, List.map_append, List.map_singleton, ← List.concat_eq_append, List.nodup_concat]
      refine ⟨fun hmem => ?_, hi.ids⟩
      obtain ⟨e, he, hid⟩ := List.mem_map.mp hmem
      exact hfresh ⟨e, he, hid⟩
  · rw [hins]
    intro e he
    rcases List.mem_append.mp he with he | he
    · exact hi.described e he
    · rcases checkIns_cases a with hnil | ⟨i, payload, claimId, createdAt, rfl⟩
      · rw [hnil] at he
        cases he
      · obtain rfl := List.mem_singleton.mp he
        exact ⟨rfl, rfl, rfl⟩
  · have hnot := (hl.not_finished hc).2
    rcases alive_step h hc with hold | ⟨i, payload, claimId, createdAt, rfl, rfl⟩
    · obtain ⟨payload, hmem, hget⟩ := hi.redeemable claim hold
      refine ⟨payload, ?_, ?_⟩
      · exact checkedIn_mono h hmem
      · rcases store_step h claim.claimId with heq | hfin | ⟨i, payload', createdAt, rfl, -⟩
        · exact heq.trans hget
        · exact absurd hfin hnot
        · exact absurd (hi.ledger.not_finished hold).1 hfresh
    · cases Effect.of_step h with
      | publish _ _ _ _ hnone =>
        refine ⟨payload, List.mem_append_right _ (List.mem_singleton.mpr rfl), ?_⟩
        exact (FilesystemPayloadStore.get_put ..).trans (if_pos rfl)

theorem finished_step {w w' : World} {a : Action} (h : step w a = some w') {id : String}
    (hf : w.Finished id) : w'.Finished id := by
  obtain ⟨c, hc, rfl⟩ := hf
  refine ⟨c, ?_, rfl⟩
  cases Effect.of_step h with
  | notFound j k claim e hk hpc hget => exact List.mem_append_left _ hc
  | raises j k claim payload e hk hpc => exact List.mem_append_left _ hc
  | returns j k claim payload hk hpc =>
    change c ∈ (w.process claim k.deleteAfter).history.finished
    rw [history_process]
    exact List.mem_append_left _ hc
  | _ => exact hc

theorem handler_step {w w' : World} {a : Action} (h : step w a = some w') {l : ℕ} {k₀ : Consumer}
    {c : ClaimCheck} {p : Payload} (hk₀ : w.consumers l = some k₀) (hpc₀ : k₀.pc = .handler c p) :
    w'.Finished c.claimId ∨ ∃ k, w'.consumers l = some k ∧ k.pc = .handler c p := by
  have hkeep {v : World} {j : ℕ} {k k' : Consumer} (hv : v.consumers = w.consumers)
      (hk : w.consumers j = some k) (hne : k.pc ≠ .handler c p) :
      ∃ k₁, (v.setConsumer j k').consumers l = some k₁ ∧ k₁.pc = .handler c p := by
    have hlj : l ≠ j := by
      rintro rfl
      obtain rfl := Option.some.inj (hk.symm.trans hk₀)
      exact hne hpc₀
    exact ⟨k₀, (setConsumer_of_ne hlj).trans (hv ▸ hk₀), hpc₀⟩
  have hlet {v : World} {j : ℕ} {k k' : Consumer} {claim : ClaimCheck} {payload : Payload}
      (hv : v.consumers = w.consumers) (hh : v.history = (w.finish claim).history)
      (hk : w.consumers j = some k) (hpc : k.pc = .handler claim payload) :
      (v.setConsumer j k').Finished c.claimId ∨
        ∃ k₁, (v.setConsumer j k').consumers l = some k₁ ∧ k₁.pc = .handler c p := by
    by_cases heq : k.pc = .handler c p
    · obtain ⟨rfl, -⟩ := Pc.handler.inj (hpc.symm.trans heq)
      refine Or.inl ⟨claim, ?_, rfl⟩
      change claim ∈ v.history.finished
      rw [hh]
      exact List.mem_append_right _ (List.mem_singleton.mpr rfl)
    · exact Or.inr (hkeep hv hk heq)
  cases Effect.of_step h with
  | publish i payload claimId createdAt hnone => exact Or.inr ⟨k₀, hk₀, hpc₀⟩
  | enqueue i claim hp => exact Or.inr ⟨k₀, hk₀, hpc₀⟩
  | start j consumerId deleteAfter hnone =>
    have hlj : l ≠ j := by
      rintro rfl
      rw [hnone] at hk₀
      cases hk₀
    exact Or.inr ⟨k₀, (setConsumer_of_ne hlj).trans hk₀, hpc₀⟩
  | stop j k hk hpc => exact Or.inr (hkeep rfl hk (by simp [hpc]))
  | poll j k hk hpc => exact Or.inr (hkeep rfl hk (by simp [hpc]))
  | timeout j k hk hpc => exact Or.inr (hkeep rfl hk (by simp [hpc]))
  | dequeue j k claim rest hk hpc hq => exact Or.inr (hkeep rfl hk (by simp [hpc]))
  | redeem j k claim data hk hpc hget => exact Or.inr (hkeep rfl hk (by simp [hpc]))
  | notFound j k claim e hk hpc hget => exact Or.inr (hkeep rfl hk (by simp [hpc]))
  | returns j k claim payload hk hpc =>
    exact hlet (consumers_process claim k.deleteAfter) (history_process claim k.deleteAfter) hk hpc
  | raises j k claim payload e hk hpc => exact hlet rfl rfl hk hpc

/-- What the handlers have been passed. -/
structure PassedInv (w : World) : Prop where
  once : (w.history.passed.map fun e => e.2.1.claimId).Nodup
  intact : ∀ e ∈ w.history.passed, (e.2.1, e.2.2) ∈ w.history.checkedIn
  gone : ∀ e ∈ w.history.passed, w.Finished e.2.1.claimId ∨
    ∃ j k p, w.consumers j = some k ∧ k.pc = .handler e.2.1 p

theorem Custody.rebuilt {w : World} (hi : Custody w) {claim : ClaimCheck} (hc : w.Alive claim)
    {data : ByteArray} (hget : w.store.get claim.claimId = .ok data) :
    (claim, (⟨data, claim.contentType, claim.originalName⟩ : Payload)) ∈ w.history.checkedIn := by
  obtain ⟨payload, hmem, hp⟩ := hi.redeemable claim hc
  obtain ⟨hct, hon, -⟩ := hi.described _ hmem
  obtain rfl := Except.ok.inj (hget.symm.trans hp)
  change claim.contentType = payload.contentType at hct
  change claim.originalName = payload.originalName at hon
  rw [hct, hon]
  exact hmem

theorem passedInv_step (w : World) (a : Action) (w' : World) (hi : Custody w) (hp : PassedInv w)
    (h : step w a = some w') : PassedInv w' := by
  have hgone (e : String × ClaimCheck × Payload) (he : e ∈ w.history.passed) :
      w'.Finished e.2.1.claimId ∨ ∃ j k p, w'.consumers j = some k ∧ k.pc = .handler e.2.1 p := by
    rcases hp.gone e he with hf | ⟨j, k, p, hk, hpc⟩
    · exact Or.inl (finished_step h hf)
    · rcases handler_step h hk hpc with hf | ⟨k', hk', hpc'⟩
      · exact Or.inl hf
      · exact Or.inr ⟨j, k', p, hk', hpc'⟩
  have hsame (heq : w'.history.passed = w.history.passed) : PassedInv w' :=
    ⟨heq ▸ hp.once, fun e he => checkedIn_mono h (hp.intact e (heq ▸ he)), fun e he => hgone e (heq ▸ he)⟩
  cases Effect.of_step h with
  | redeem j k claim data hk hpc hget =>
    have halive : w.Alive claim := .inHand hk (by simp only [Consumer.inHand, hpc])
    have hnew : claim.claimId ∉ w.history.passed.map fun e => e.2.1.claimId := by
      intro hmem
      obtain ⟨e, he, hid⟩ := List.mem_map.mp hmem
      rcases hp.gone e he with hf | ⟨l, k', p, hk', hpc'⟩
      · exact (hi.ledger.not_finished halive).2 (hid ▸ hf)
      · have h₁ : claim.claimId ∈ w.held (.consumer j) := by
          simp [held_consumer hk, Consumer.inHand, hpc]
        have h₂ : claim.claimId ∈ w.held (.consumer l) := by
          simp [held_consumer hk', Consumer.inHand, hpc', ← hid]
        obtain rfl := Holder.consumer.inj (Claimed.lone hi.ledger _ _ _ h₁ h₂)
        obtain rfl := Option.some.inj (hk.symm.trans hk')
        rw [hpc] at hpc'
        cases hpc'
    refine ⟨?_, fun e he => ?_, fun e he => ?_⟩
    · change ((w.history.passed ++ [(k.consumerId, claim, _)]).map
        fun e : String × ClaimCheck × Payload => e.2.1.claimId).Nodup
      rw [List.map_append, List.map_singleton, ← List.concat_eq_append, List.nodup_concat]
      exact ⟨hnew, hp.once⟩
    · rcases List.mem_append.mp he with he | he
      · exact hp.intact e he
      · obtain rfl := List.mem_singleton.mp he
        exact hi.rebuilt halive hget
    · rcases List.mem_append.mp he with he | he
      · exact hgone e he
      · obtain rfl := List.mem_singleton.mp he
        exact Or.inr ⟨j, _, _, setConsumer_self, rfl⟩
  | returns j k claim payload hk hpc =>
    apply hsame
    change (w.process claim k.deleteAfter).history.passed = _
    rw [history_process]
    rfl
  | _ => exact hsame rfl

/-- What a run is made of in which no handler raises and all consumers delete. -/
def Tidying : Action → Prop
  | .runConsumer _ _ deleteAfter => deleteAfter = true
  | .handler _ (some _) => False
  | _ => True

/-- Every file is that of a claim which nobody has let go of. -/
structure Tidy (w : World) : Prop where
  deletes : ∀ j k, w.consumers j = some k → k.deleteAfter = true
  files : ∀ name ∈ keys w.store.files, ∃ id, name = FilesystemPayloadStore.path id ∧
    w.Minted id ∧ ¬ w.Finished id

theorem mem_keys_of_get? {store : FilesystemPayloadStore} {claimId : String} {data : ByteArray}
    (h : store.get claimId = .ok data) :
    FilesystemPayloadStore.path claimId ∈ keys store.files := by
  have hget := FilesystemPayloadStore.get_eq_ok.mp h
  obtain ⟨e, he, -⟩ := Option.map_eq_some_iff.mp hget
  exact List.mem_map.mpr ⟨e, List.mem_of_find?_eq_some he, by simpa using List.find?_some he⟩

theorem tidy_publish {w : World} (hc : Custody w) (hi : Tidy w) {i : ℕ} {payload : Payload}
    {claimId createdAt : String} (hfresh : ¬ w.Minted claimId) :
    Tidy ((w.checkIn payload claimId createdAt).setPublish i
      (.publishing (claimFor payload claimId createdAt))) := by
  refine ⟨hi.deletes, fun name hname => ?_⟩
  rcases mem_keys_assign.mp hname with rfl | hname
  · refine ⟨claimId, rfl, ⟨_, List.mem_append_right _ (List.mem_singleton.mpr rfl), rfl⟩, ?_⟩
    exact fun hf => hfresh (Claimed.bounded hc.ledger claimId hf)
  · obtain ⟨id, rfl, ⟨e, he, hid⟩, hnot⟩ := hi.files name hname
    exact ⟨id, rfl, ⟨e, List.mem_append_left _ he, hid⟩, hnot⟩

theorem tidy_returns {w : World} (hi : Tidy w) {j : ℕ} {k : Consumer} (claim : ClaimCheck)
    (hk : w.consumers j = some k) :
    Tidy ((w.process claim k.deleteAfter).setConsumer j
      { k with totalHandled := k.totalHandled + 1, pc := .top }) := by
  have hdel := hi.deletes j k hk
  rw [hdel]
  refine ⟨Slots.forall_update hi.deletes rfl, fun name hname => ?_⟩
  obtain ⟨e, he, rfl⟩ := List.mem_map.mp hname
  obtain ⟨he, hne⟩ := List.mem_filter.mp he
  obtain ⟨id, hid, hmint, hnot⟩ := hi.files e.1 (List.mem_map.mpr ⟨e, he, rfl⟩)
  refine ⟨id, hid, hmint, ?_⟩
  rintro ⟨c, hc, rfl⟩
  rcases List.mem_append.mp hc with hc | hc
  · exact hnot ⟨c, hc, rfl⟩
  · obtain rfl := List.mem_singleton.mp hc
    simp [hid] at hne

theorem tidy_step (w : World) (a : Action) (w' : World) (hc : Custody w) (hfresh : w.Fresh a)
    (hi : Tidy w) (ha : Tidying a) (h : step w a = some w') : Tidy w' := by
  have hset {j : ℕ} {k k' : Consumer} (hk : w.consumers j = some k)
      (hdel : k'.deleteAfter = k.deleteAfter) :
      ∀ l k₁, (w.setConsumer j k').consumers l = some k₁ → k₁.deleteAfter = true :=
    Slots.forall_update hi.deletes (hdel.trans (hi.deletes j k hk))
  cases Effect.of_step h with
  | publish i payload claimId createdAt hnone => exact tidy_publish hc hi hfresh
  | enqueue i claim hp => exact ⟨hi.deletes, hi.files⟩
  | start j consumerId deleteAfter hnone => exact ⟨Slots.forall_update hi.deletes ha, hi.files⟩
  | stop j k hk hpc => exact ⟨hset hk rfl, hi.files⟩
  | poll j k hk hpc => exact ⟨hset hk rfl, hi.files⟩
  | timeout j k hk hpc => exact ⟨hset hk rfl, hi.files⟩
  | dequeue j k claim rest hk hpc hq => exact ⟨hset hk rfl, hi.files⟩
  | redeem j k claim data hk hpc hget => exact ⟨hset hk rfl, hi.files⟩
  | notFound j k claim e hk hpc hget =>
    obtain ⟨payload, -, hok⟩ :=
      hc.redeemable claim (.inHand hk (by simp only [Consumer.inHand, hpc]))
    rw [hget] at hok
    cases hok
  | returns j k claim payload hk hpc => exact tidy_returns hi claim hk
  | raises j k claim payload e hk hpc => exact ha.elim

/-- The files of a tidy store are those of the claims that somebody holds. -/
theorem Tidy.files_iff {w : World} (hi : Tidy w) (hc : Custody w) (name : String) :
    name ∈ keys w.store.files ↔
      ∃ claim, w.Alive claim ∧ name = FilesystemPayloadStore.path claim.claimId := by
  constructor
  · intro hname
    obtain ⟨id, rfl, hmint, hnot⟩ := hi.files name hname
    obtain ⟨x, hx⟩ := (Claimed.cover hc.ledger id hmint).resolve_left hnot
    obtain ⟨claim, halive, rfl⟩ := alive_of_held hx
    exact ⟨claim, halive, rfl⟩
  · rintro ⟨claim, halive, rfl⟩
    obtain ⟨payload, -, hget⟩ := hc.redeemable claim halive
    exact mem_keys_of_get? hget

/-- What holds at every moment of a run in which no id is repeated. -/
structure Sound (acts : List Action) (w : World) : Prop where
  checkedIn : w.history.checkedIn = checkIns acts
  minted : (w.history.checkedIn.map fun e => e.1.claimId).Nodup
  queued : ∀ claim ∈ w.queue, w.Redeemable claim
  redeems : ∀ j k claim, w.consumers j = some k → k.pc = .redeem claim → w.Redeemable claim
  inOrder : w.history.published = w.history.dequeued ++ w.queue
  passedOnce : (w.history.passed.map fun e => e.2.1.claimId).Nodup
  intact : ∀ e ∈ w.history.passed,
    (e.2.1, e.2.2) ∈ w.history.checkedIn ∧ Describes e.2.1 e.2.2

theorem checkedIn_run {w w' : World} {acts : List Action} (h : run step w acts = some w') :
    w'.history.checkedIn = w.history.checkedIn ++ checkIns acts := by
  induction acts generalizing w with
  | nil =>
    obtain rfl := Option.some.inj h
    exact (List.append_nil _).symm
  | cons a acts ih =>
    obtain ⟨v, hv, hrun⟩ := run_cons_eq_some.mp h
    rw [ih hrun, checkedIn_step hv, List.append_assoc, checkIns, checkIns, checkIns,
      ← List.filterMap_append, List.singleton_append]

/-- As long as `uuid4` repeats no id, every claim on the queue and in a consumer's hands can be
redeemed for the published bytes, claims are dequeued in the order of their publishing, and every
payload is passed to at most one handler, unchanged. If moreover no handler raises and all
consumers delete, the store has the files of the claims that are still alive. -/
theorem claims_redeemable (acts : List Action) (w : World) (hrun : run step {} acts = some w)
    (hfresh : Along step Fresh {} acts) :
    Sound acts w ∧ ((∀ a ∈ acts, Tidying a) → ∀ name, name ∈ keys w.store.files ↔
      ∃ claim, w.Alive claim ∧ name = FilesystemPayloadStore.path claim.claimId) := by
  have hstep (v : World) (a : Action) (v' : World) (hi : Custody v ∧ PassedInv v) (hf : v.Fresh a)
      (h : step v a = some v') : Custody v' ∧ PassedInv v' :=
    ⟨custody_step v a v' hi.1 hf h, passedInv_step v a v' hi.1 hi.2 h⟩
  have hinit : Custody {} ∧ PassedInv {} :=
    ⟨custody_init, List.nodup_nil, fun e he => (by cases he), fun e he => (by cases he)⟩
  obtain ⟨hc, hp⟩ : Custody w ∧ PassedInv w := run_invariant hstep hinit hfresh hrun
  refine ⟨⟨checkedIn_run hrun, hc.ids, fun claim hq => hc.redeemable claim (.queued hq),
    fun j k claim hk hpc => hc.redeemable claim (.inHand hk (by simp only [Consumer.inHand, hpc])),
    hc.inOrder, hp.once, fun e he => ⟨hp.intact e he, hc.described _ (hp.intact e he)⟩⟩,
    fun htidy => ?_⟩
  have hboth : Along step (fun v a => v.Fresh a ∧ Tidying a) {} acts :=
    along_and.mpr ⟨hfresh, along_of_forall (fun a ha _ => htidy a ha) _⟩
  have htidy_step (v : World) (a : Action) (v' : World) (hi : Custody v ∧ Tidy v)
      (ha : v.Fresh a ∧ Tidying a) (h : step v a = some v') : Custody v' ∧ Tidy v' :=
    ⟨custody_step v a v' hi.1 ha.1 h, tidy_step v a v' hi.1 ha.1 hi.2 ha.2 h⟩
  have htidy_init : Custody {} ∧ Tidy {} :=
    ⟨custody_init, fun j k hk => (by cases hk), fun name hname => (by cases hname)⟩
  have ht : Custody w ∧ Tidy w := run_invariant htidy_step htidy_init hboth hrun
  exact ht.2.files_iff hc

def scan : Payload := ⟨"scanned pages".toUTF8, "application/pdf", "scan.pdf"⟩

def note : Payload := ⟨"a note".toUTF8, "text/plain", "note.txt"⟩

/-- The second payload overtakes the first, and is handled and deleted while the first waits. -/
def overtaken : List Action :=
  [.publish 0 scan "0a" "2026-08-01T09:00:00+00:00", .publish 1 note "1b" "2026-08-01T09:00:01+00:00",
    .enqueue 1, .enqueue 0, .runConsumer 0 "consumer-0" true, .run 0, .run 0, .run 0,
    .handler 0 none]

theorem overtaken_redeemable : ∃ w, run step {} overtaken = some w ∧
    w.queue = [claimFor scan "0a" "2026-08-01T09:00:00+00:00"] ∧
    w.history.passed = [("consumer-0", claimFor note "1b" "2026-08-01T09:00:01+00:00", note)] ∧
    Sound overtaken w ∧ ∀ name, name ∈ keys w.store.files ↔
      ∃ claim, w.Alive claim ∧ name = FilesystemPayloadStore.path claim.claimId := by
  obtain ⟨w, hw, hqueue, hpassed⟩ : ∃ w, run step {} overtaken = some w ∧
      w.queue = [claimFor scan "0a" "2026-08-01T09:00:00+00:00"] ∧
      w.history.passed = [("consumer-0", claimFor note "1b" "2026-08-01T09:00:01+00:00", note)] :=
    ⟨_, rfl, rfl, rfl⟩
  have hfresh : Along step Fresh {} overtaken := by
    refine (along_cons rfl).mpr ⟨?_, (along_cons rfl).mpr ⟨?_, along_of_forall ?_ _⟩⟩
    · rintro ⟨e, he, -⟩
      cases he
    · rintro ⟨e, he, hid⟩
      obtain rfl := List.mem_singleton.mp he
      exact absurd hid (by decide)
    · simp [Fresh]
  obtain ⟨hsound, hfiles⟩ := claims_redeemable overtaken w hw hfresh
  exact ⟨w, hw, hqueue, hpassed, hsound, hfiles (by simp [overtaken, Tidying])⟩

end World
end ClaimCheckPattern
