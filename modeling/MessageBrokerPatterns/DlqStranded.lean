import MessageBrokerPatterns.DlqLedger

/-!
# Who finishes the work of a consumer that is gone

Consumers come and go under any names, and at last one consumer works alone until it finds nothing
new and nothing of its own pending. An entry is open while it is undelivered, pending, or between the
two commands of `move_to_dlq`; it stops being open with one of its three outcomes, or with a crash
between the two commands. `read_pending` returns the reader's own backlog only, so that what another
name has left pending stays pending.
-/

namespace Dlq
open PyText PyDict RedisStream ActionRun

def Event.loses (id : ℕ) : Event → Bool
  | .lost _ i _ => i = id
  | _ => false

/-- The entry has an outcome, or its move to the dead-letter stream is cut. -/
def Event.finishes (id : ℕ) (e : Event) : Bool := e.settles id || e.loses id

/-- The entry that the consumer has acknowledged and not yet added to the dead-letter stream. -/
def Consumer.moving (k : Consumer) : Option ℕ :=
  match k.pc with
  | .busy m (.dlqAdd _ _) => some m.id
  | _ => none

/-- The entry is undelivered or pending. -/
def Server.Open (s : Server) (id : ℕ) : Prop :=
  s.main.delivered < id ∨ (s.main.owner? id).isSome

/-- What a step of a consumer means for one entry. -/
inductive Course (c : String) (k : Consumer) (s : Server) (k' : Consumer) (s' : Server)
    (evs : List Event) (id : ℕ) : Prop where
  | keeps (ho : s'.Open id ∨ k'.moving = some id ↔ s.Open id ∨ k.moving = some id)
      (hm : k'.moving = some id → k.moving = some id ∨ s.main.owner? id = some c)
      (he : evs.countP (Event.finishes id) = 0)
  | finishes (hwas : s.main.owner? id = some c ∨ k.moving = some id)
      (hnot : ¬ (s'.Open id ∨ k'.moving = some id)) (he : evs.countP (Event.finishes id) = 1)

theorem Consumer.moving_forBatch (k : Consumer) (batch : List (ℕ × Fields)) :
    (k.forBatch batch).moving = none := by
  cases batch with
  | nil => rfl
  | cons e rest =>
    simp only [forBatch]
    split
    · rfl
    · rfl

theorem Consumer.moving_of_ended {k : Consumer} (h : k.ended = true) : k.moving = none := by
  unfold ended at h
  split at h
  · rename_i hpc
    simp only [moving, hpc]
  · rename_i e hpc
    simp only [moving, hpc]
  · cases h

theorem World.countP_crashEvents (c : String) (k : Consumer) (id : ℕ) :
    (World.crashEvents c k).countP (Event.finishes id) = if k.moving = some id then 1 else 0 := by
  unfold crashEvents
  split
  · rename_i m reason attempt hpc
    simp [Consumer.moving, hpc, Event.finishes, Event.settles, Event.loses]
  · rename_i hpc
    have hnone : k.moving = none := by
      unfold Consumer.moving
      split
      · rename_i m reason attempt hmov
        exact absurd hmov (hpc m reason attempt)
      · rfl
    rw [hnone]
    rfl

theorem Server.open_congr {s s' : Server} (h : s'.main = s.main) {id : ℕ} :
    s'.Open id ↔ s.Open id := by
  rw [Open, Open, h]

theorem Server.open_readNew (s : Server) (c : String) (count id : ℕ) :
    (s.readNew c count).2.Open id ↔ s.Open id := by
  change s.main.delivered + s.main.newCount count < id ∨
    ((s.main.readNew c () count).owner? id).isSome ↔ _
  rw [GroupStream.owner?_readNew, Server.Open]
  split_ifs with hid
  · simp only [Option.isSome_some, or_true, true_iff]
    exact Or.inl hid.1
  · constructor
    · rintro (h | h)
      · exact Or.inl (by omega)
      · exact Or.inr h
    · rintro (h | h)
      · exact Or.inl (by omega)
      · exact Or.inr h

theorem Server.open_readPending (s : Server) (c : String) (count id : ℕ) :
    (s.readPending c count).2.Open id ↔ s.Open id := by
  change _ ∨ ((s.main.readPending c () count).owner? id).isSome ↔ _
  rw [GroupStream.owner?_readPending]
  rfl

theorem Server.open_ack {s : Server} {i id : ℕ} (h : id ≠ i) : (s.ack i).Open id ↔ s.Open id := by
  change _ ∨ ((s.main.xack i).owner? id).isSome ↔ _
  rw [GroupStream.owner?_xack, if_neg h]
  rfl

theorem Server.not_open_ack {s : Server} {i : ℕ} (h : i ≤ s.main.delivered) : ¬ (s.ack i).Open i := by
  rintro (hi | hi)
  · exact absurd hi (not_lt.mpr h)
  · change ((s.main.xack i).owner? i).isSome at hi
    rw [GroupStream.owner?_xack, if_pos rfl] at hi
    cases hi

namespace Move
variable {c : String} {k k' : Consumer} {s s' : Server} {evs : List Event}

theorem course_ack {m : Held} {stage : Stage} (ho : m.Owned c s stage) (hst : stage.moving = false)
    (hk : k.moving = none) (hk' : k'.moving = none) (hs : s'.main = (s.ack m.id).main)
    (hev : ∀ id, evs.countP (Event.finishes id) = if id = m.id then 1 else 0) (id : ℕ) :
    Course c k s k' s' evs id := by
  by_cases hid : id = m.id
  · subst hid
    refine .finishes (Or.inl ?_) ?_ ((hev m.id).trans (if_pos rfl))
    · rw [ho.owner, hst]
      rfl
    · rw [hk', Server.open_congr hs]
      simpa using Server.not_open_ack ho.delivered
  · refine .keeps ?_ (fun h => ?_) ((hev id).trans (if_neg hid))
    · rw [hk, hk', Server.open_congr hs, Server.open_ack hid]
    · rw [hk'] at h
      cases h

theorem course_same (hs : ∀ id, s'.Open id ↔ s.Open id) (hk : k.moving = none)
    (hk' : k'.moving = none) (hev : ∀ id, evs.countP (Event.finishes id) = 0) (id : ℕ) :
    Course c k s k' s' evs id := by
  refine .keeps ?_ (fun h => ?_) (hev id)
  · rw [hk, hk', hs]
  · rw [hk'] at h
    cases h

theorem course_dlqAck {m : Held} {stage : Stage} (ho : m.Owned c s stage)
    (hst : stage.moving = false) (hk : k.moving = none) (reason : String) (attempt id : ℕ) :
    Course c k s { k with pc := .busy m (.dlqAdd reason attempt) } (s.moveToDlqAck m.id) [] id := by
  have hmoving : ({ k with pc := .busy m (.dlqAdd reason attempt) } : Consumer).moving =
      some m.id := rfl
  have howner : s.main.owner? m.id = some c := by
    rw [ho.owner, hst]
    rfl
  have hopen : s.Open m.id := by
    apply Or.inr
    rw [howner]
    rfl
  refine .keeps ?_ (fun h => Or.inr ?_) rfl
  · rw [hmoving, hk]
    by_cases hid : id = m.id
    · subst hid
      simp [hopen]
    · change (s.ack m.id).Open id ∨ _ ↔ _
      rw [Server.open_ack hid]
      simp [Ne.symm hid]
  · obtain rfl := Option.some.inj (hmoving.symm.trans h)
    exact howner

theorem course_dlqAdd {m : Held} {reason : String} {attempt : ℕ}
    (ho : m.Owned c s (.dlqAdd reason attempt)) (hpc : k.pc = .busy m (.dlqAdd reason attempt))
    (id : ℕ) :
    Course c k s ((k.dropAttempts m.id).forBatch m.rest) (s.moveToDlqAdd m.payment reason attempt)
      [.deadLettered c m.id m.payment reason attempt] id := by
  have hmoving : k.moving = some m.id := by simp only [Consumer.moving, hpc]
  have hdone := Consumer.moving_forBatch (k.dropAttempts m.id) m.rest
  by_cases hid : id = m.id
  · subst hid
    refine .finishes (Or.inr hmoving) ?_ ?_
    · rw [hdone]
      rintro ((h | h) | h)
      · exact absurd h (not_lt.mpr ho.delivered)
      · change (s.main.owner? m.id).isSome at h
        rw [ho.owner] at h
        cases h
      · cases h
    · simp [Event.finishes, Event.settles]
  · refine .keeps ?_ (fun h => ?_) ?_
    · rw [hdone, hmoving]
      simp only [reduceCtorEq, or_false, Option.some.injEq, Ne.symm hid]
      rfl
    · rw [hdone] at h
      cases h
    · simp [Event.finishes, Event.settles, Event.loses, Ne.symm hid]

theorem course (hm : Move c k s k' s' evs) (hh : k.Holds c s) (id : ℕ) :
    Course c k s k' s' evs id := by
  have hstay {m : Held} {stage : Stage} (hpc : k.pc = .busy m stage) (hst : stage.moving = false) :
      k.moving = none := by
    cases stage <;> simp_all [Consumer.moving, Stage.moving]
  cases hm with
  | readNew hpc hne =>
    exact course_same (s.open_readNew c _) (by simp [Consumer.moving, hpc])
      (k.moving_forBatch _) (fun _ => rfl) id
  | noNew hpc hnil =>
    exact course_same (s.open_readNew c _) (by simp [Consumer.moving, hpc]) rfl (fun _ => rfl) id
  | readPending hpc hne =>
    exact course_same (s.open_readPending c _) (by simp [Consumer.moving, hpc])
      (k.moving_forBatch _) (fun _ => rfl) id
  | noPending hpc hnil =>
    exact course_same (s.open_readPending c _) (by simp [Consumer.moving, hpc]) rfl (fun _ => rfl) id
  | wake hpc =>
    exact course_same (fun _ => Iff.rfl) (by simp [Consumer.moving, hpc]) rfl (fun _ => rfl) id
  | hit m hpc hp => exact course_same (fun _ => Iff.rfl) (hstay hpc rfl) rfl (fun _ => rfl) id
  | miss m hpc hp => exact course_same (fun _ => Iff.rfl) (hstay hpc rfl) rfl (fun _ => rfl) id
  | skip m hpc =>
    refine course_ack (hh m _ hpc) rfl (hstay hpc rfl) (k.moving_forBatch _) ?_ (fun i => ?_) id
    · rfl
    · simp [Event.finishes, Event.settles, Event.loses, List.countP_singleton, eq_comm]
  | returns m hpc =>
    apply course_same (fun _ => Iff.rfl) (hstay hpc rfl) rfl
    intro i
    simp [Event.finishes, Event.settles, Event.loses]
  | retry m exc hpc hlt =>
    apply course_same (fun _ => Iff.rfl) (hstay hpc rfl) (Consumer.moving_forBatch _ _)
    intro i
    simp [Event.finishes, Event.settles, Event.loses]
  | exhaust m exc hpc hge =>
    apply course_same (fun _ => Iff.rfl) (hstay hpc rfl) rfl
    intro i
    simp [Event.finishes, Event.settles, Event.loses]
  | mark m hpc =>
    refine course_same (fun _ => Server.open_congr ?_) (hstay hpc rfl) rfl (fun _ => ?_) id
    · rfl
    · rfl
  | ack m hpc =>
    refine course_ack (hh m _ hpc) rfl (hstay hpc rfl) (Consumer.moving_forBatch _ _) ?_
      (fun i => ?_) id
    · rfl
    · simp [Event.finishes, Event.settles, Event.loses, List.countP_singleton, eq_comm]
  | dlqAck m reason attempt hpc =>
    exact course_dlqAck (hh m _ hpc) rfl (hstay hpc rfl) reason attempt id
  | dlqAdd m reason attempt hpc => exact course_dlqAdd (hh m _ hpc) hpc id

theorem owner?_of_other (hm : Move c k s k' s' evs) (hh : k.Holds c s) {id : ℕ}
    (hd : id ≤ s.main.delivered) (ho : s.main.owner? id ≠ some c) :
    s'.main.owner? id = s.main.owner? id := by
  have hread (n : ℕ) : (s.readNew c n).2.main.owner? id = s.main.owner? id := by
    change (s.main.readNew c () n).owner? id = _
    rw [GroupStream.owner?_readNew, if_neg (by omega)]
  have hpend (n : ℕ) : (s.readPending c n).2.main.owner? id = s.main.owner? id :=
    GroupStream.owner?_readPending c () n id
  have hack {m : Held} {stage : Stage} (hpc : k.pc = .busy m stage) (hst : stage.moving = false) :
      (s.ack m.id).main.owner? id = s.main.owner? id := by
    have hne : id ≠ m.id := by
      rintro rfl
      rw [(hh m stage hpc).owner, hst] at ho
      exact ho rfl
    exact (GroupStream.owner?_xack m.id id).trans (if_neg hne)
  cases hm with
  | readNew hpc hne => exact hread _
  | noNew hpc hnil => exact hread _
  | readPending hpc hne => exact hpend _
  | noPending hpc hnil => exact hpend _
  | skip m hpc => exact hack hpc rfl
  | ack m hpc => exact hack hpc rfl
  | dlqAck m reason attempt hpc => exact hack hpc rfl
  | _ => rfl

theorem no_lost (hm : Move c k s k' s' evs) {d : String} {id : ℕ} {p : Payment} :
    Event.lost d id p ∉ evs := by
  cases hm with
  | skip m hpc => simp
  | returns m hpc => simp
  | retry m exc hpc hlt => simp
  | exhaust m exc hpc hge => simp
  | ack m hpc => simp
  | dlqAdd m reason attempt hpc => simp
  | _ => exact List.not_mem_nil

theorem delivered_le (hm : Move c k s k' s' evs) : s.main.delivered ≤ s'.main.delivered := by
  have hread (n : ℕ) : s.main.delivered ≤ (s.readNew c n).2.main.delivered := Nat.le_add_right _ _
  cases hm with
  | readNew hpc hne => exact hread _
  | noNew hpc hnil => exact hread _
  | _ => exact le_rfl

end Move

namespace World

/-- Some consumer other than `c` is moving the entry. -/
def MovedByOther (w : World) (c : String) (id : ℕ) : Prop :=
  ∃ d k, d ≠ c ∧ w.consumers d = some k ∧ k.moving = some id

/-- The entry is undelivered, pending, or between the two commands of `move_to_dlq`. -/
def Open (w : World) (id : ℕ) : Prop :=
  w.server.Open id ∨ ∃ d k, w.consumers d = some k ∧ k.moving = some id

/-- How often the entry has had an outcome or been lost. -/
def finished (w : World) (id : ℕ) : ℕ := w.trace.countP (Event.finishes id)

/-- Every entry is open, or it has had one outcome or has been lost once. -/
structure FateInv (w : World) : Prop where
  faithful : ∀ d k, w.consumers d = some k → k.Faithful w.server
  holds : ∀ d k, w.consumers d = some k → k.Holds d w.server
  lone : ∀ d e k l id, w.consumers d = some k → w.consumers e = some l → k.moving = some id →
    l.moving = some id → d = e
  lost : ∀ d id p, Event.lost d id p ∈ w.trace → ∃ f, entryAt w.server.main.entries id = some f
  opened : ∀ id, w.Open id → w.finished id = 0
  closed : ∀ id, 1 ≤ id → ¬ w.Open id → w.finished id = 1

theorem fateInv_init : FateInv {} where
  faithful d k hk := by cases hk
  holds d k hk := by cases hk
  lone d e k l id hk := by cases hk
  lost d id p h := by cases h
  opened id h := rfl
  closed id hid h := absurd (Or.inl (Or.inl hid)) h

theorem open_iff {w : World} (c : String) {id : ℕ} :
    w.Open id ↔ (w.server.Open id ∨ ∃ k, w.consumers c = some k ∧ k.moving = some id) ∨
      w.MovedByOther c id := by
  constructor
  · rintro (h | ⟨d, k, hk, hm⟩)
    · exact Or.inl (Or.inl h)
    · by_cases hd : d = c
      · subst hd
        exact Or.inl (Or.inr ⟨k, hk, hm⟩)
      · exact Or.inr ⟨d, k, hd, hk, hm⟩
  · rintro ((h | ⟨k, hk, hm⟩) | ⟨d, k, -, hk, hm⟩)
    · exact Or.inl h
    · exact Or.inr ⟨c, k, hk, hm⟩
    · exact Or.inr ⟨d, k, hk, hm⟩

theorem open_iff_of_run {w : World} {c : String} {k : Consumer} (hk : w.consumers c = some k)
    {id : ℕ} : w.Open id ↔ (w.server.Open id ∨ k.moving = some id) ∨ w.MovedByOther c id := by
  rw [open_iff c, hk]
  simp only [Option.some.injEq, exists_eq_left']

theorem movedByOther_setConsumer (w : World) (c : String) (ko : Option Consumer) (id : ℕ) :
    (w.setConsumer c ko).MovedByOther c id ↔ w.MovedByOther c id := by
  constructor
  · rintro ⟨d, k, hd, hk, hm⟩
    exact ⟨d, k, hd, (w.setConsumer_of_ne hd ko).symm.trans hk, hm⟩
  · rintro ⟨d, k, hd, hk, hm⟩
    exact ⟨d, k, hd, (w.setConsumer_of_ne hd ko).trans hk, hm⟩

theorem FateInv.of_moving {w : World} (hi : FateInv w) {d : String} {k : Consumer} {id : ℕ}
    (hk : w.consumers d = some k) (hm : k.moving = some id) :
    id ≤ w.server.main.delivered ∧ w.server.main.owner? id = none := by
  unfold Consumer.moving at hm
  split at hm
  · rename_i m reason attempt hpc
    obtain rfl := Option.some.inj hm
    have ho := hi.holds d k hk m _ hpc
    exact ⟨ho.delivered, ho.owner⟩
  · cases hm

theorem FateInv.not_open_of_moving {w : World} (hi : FateInv w) {d : String} {k : Consumer} {id : ℕ}
    (hk : w.consumers d = some k) (hm : k.moving = some id) : ¬ w.server.Open id := by
  obtain ⟨hle, hnone⟩ := hi.of_moving hk hm
  rintro (h | h)
  · omega
  · rw [hnone] at h
    cases h

/-- What is moved by one consumer is neither pending for another nor moved by it. -/
theorem FateInv.not_movedByOther {w : World} (hi : FateInv w) {c : String} {k : Consumer} {id : ℕ}
    (hk : w.consumers c = some k) (h : w.server.main.owner? id = some c ∨ k.moving = some id) :
    ¬ w.MovedByOther c id := by
  rintro ⟨d, l, hd, hl, hm⟩
  rcases h with h | h
  · rw [(hi.of_moving hl hm).2] at h
    cases h
  · exact hd (hi.lone d c l k id hl hk hm h)

/-- Another consumer's step leaves the batch of `d` owned by `d`. -/
theorem owned_of_other {c d : String} {k k' : Consumer} {s s' : Server} {evs : List Event}
    (hm : Move c k s k' s' evs) (hh : k.Holds c s) (hd : d ≠ c) {l : Consumer} (hl : l.Holds d s) :
    l.Holds d s' := by
  intro m stage hpc
  have ho := hl m stage hpc
  constructor
  · exact ho.nodup
  · exact ho.delivered.trans hm.delivered_le
  · rw [hm.owner?_of_other hh ho.delivered, ho.owner]
    rw [ho.owner]
    split_ifs
    · simp
    · simpa using hd
  · intro e he
    have hrest := ho.rest e he
    rw [hm.owner?_of_other hh (GroupStream.owner?_some_range hrest).2, hrest]
    rw [hrest]
    simpa using hd

theorem fateInv_append {w w' : World} (hi : FateInv w) (f : Fields)
    (hs : w'.server.main = w.server.main.xadd f) (hp : w'.server.processed = w.server.processed)
    (hq : w'.server.dlq = w.server.dlq) (hc : w'.consumers = w.consumers)
    (ht : w'.trace = w.trace) : FateInv w' := by
  have hle : w.server.Le w'.server := by
    refine ⟨fun id g hg => ?_, hp ▸ fun _ h => h, hq ▸ fun _ h => h⟩
    rw [hs]
    exact (Server.Le.xadd w.server f).entries id g hg
  have ho (id : ℕ) : w'.server.main.owner? id = w.server.main.owner? id := by
    rw [hs, GroupStream.owner?_xadd]
  have hd : w'.server.main.delivered = w.server.main.delivered := by
    rw [hs, GroupStream.delivered_xadd]
  have hopen (id : ℕ) : w'.Open id ↔ w.Open id := by
    simp only [Open, Server.Open, ho, hd, hc]
  have hfin (id : ℕ) : w'.finished id = w.finished id := by
    rw [finished, finished, ht]
  constructor
  · intro d k hk
    exact (hi.faithful d k (hc ▸ hk)).mono hle
  · intro d k hk m stage hpc
    have hown := hi.holds d k (hc ▸ hk) m stage hpc
    exact ⟨hown.nodup, hd ▸ hown.delivered, (ho _).trans hown.owner,
      fun e he => (ho _).trans (hown.rest e he)⟩
  · intro d e k l id hk hl
    exact hi.lone d e k l id (hc ▸ hk) (hc ▸ hl)
  · intro d id p hmem
    obtain ⟨g, hg⟩ := hi.lost d id p (ht ▸ hmem)
    exact ⟨g, hle.entries id g hg⟩
  · intro id h
    rw [hfin]
    exact hi.opened id ((hopen id).mp h)
  · intro id hid h
    rw [hfin]
    exact hi.closed id hid (mt (hopen id).mpr h)

theorem FateInv.setConsumer {w : World} (hi : FateInv w) (c : String) {ko : Option Consumer}
    (hko : ∀ k, ko = some k → k.Faithful w.server ∧ k.Holds c w.server ∧ k.moving = none)
    {evs : List Event} (hlost : ∀ d id p, Event.lost d id p ∈ evs →
      ∃ f, entryAt w.server.main.entries id = some f)
    (hevs : ∀ id, evs.countP (Event.finishes id) =
      if (w.consumers c).bind Consumer.moving = some id then 1 else 0) :
    FateInv { (w.setConsumer c ko) with trace := w.trace ++ evs } := by
  have hself : (w.setConsumer c ko).consumers c = ko := w.setConsumer_self c ko
  have hnone {k : Consumer} {id : ℕ} (hk : (w.setConsumer c ko).consumers c = some k) :
      k.moving ≠ some id := by
    rw [(hko k (hself.symm.trans hk)).2.2]
    simp
  have hopen (id : ℕ) : World.Open { (w.setConsumer c ko) with trace := w.trace ++ evs } id ↔
      w.server.Open id ∨ w.MovedByOther c id := by
    rw [← movedByOther_setConsumer w c ko]
    rw [open_iff c]
    constructor
    · rintro ((h | ⟨k, hk, hm⟩) | h)
      · exact Or.inl h
      · exact absurd hm (hnone hk)
      · exact Or.inr h
    · rintro (h | h)
      · exact Or.inl (Or.inl h)
      · exact Or.inr h
  have hfin (id : ℕ) : World.finished { (w.setConsumer c ko) with trace := w.trace ++ evs } id =
      w.finished id + if (w.consumers c).bind Consumer.moving = some id then 1 else 0 := by
    rw [← hevs]
    exact List.countP_append
  have hkeep {id : ℕ} (h : w.server.Open id ∨ w.MovedByOther c id) : w.Open id := by
    rcases h with h | ⟨d, k, -, hk, hm⟩
    · exact Or.inl h
    · exact Or.inr ⟨d, k, hk, hm⟩
  constructor
  · exact faithful_setConsumer hi.faithful c fun k hk => (hko k hk).1
  · intro d k hk
    by_cases hd : d = c
    · subst hd
      exact (hko k (hself.symm.trans hk)).2.1
    · exact hi.holds d k ((w.setConsumer_of_ne hd ko).symm.trans hk)
  · intro d e k l id hk hl hkm hlm
    by_cases hd : d = c
    · subst hd
      exact absurd hkm (hnone hk)
    · by_cases he : e = c
      · subst he
        exact absurd hlm (hnone hl)
      · exact hi.lone d e k l id ((w.setConsumer_of_ne hd ko).symm.trans hk)
          ((w.setConsumer_of_ne he ko).symm.trans hl) hkm hlm
  · intro d id p hmem
    rcases List.mem_append.mp hmem with hmem | hmem
    · exact hi.lost d id p hmem
    · exact hlost d id p hmem
  · intro id h
    rw [hopen] at h
    rw [hfin, hi.opened id (hkeep h), if_neg]
    intro hb
    obtain ⟨k, hk, hm⟩ := Option.bind_eq_some_iff.mp hb
    rcases h with h | h
    · exact hi.not_open_of_moving hk hm h
    · exact hi.not_movedByOther hk (Or.inr hm) h
  · intro id hid h
    rw [hopen] at h
    rw [hfin]
    by_cases hb : (w.consumers c).bind Consumer.moving = some id
    · obtain ⟨k, hk, hm⟩ := Option.bind_eq_some_iff.mp hb
      rw [if_pos hb, hi.opened id (Or.inr ⟨c, k, hk, hm⟩)]
    · rw [if_neg hb, hi.closed id hid]
      rw [open_iff c]
      rintro ((hs | ⟨k, hk, hm⟩) | ho)
      · exact h (Or.inl hs)
      · exact hb (Option.bind_eq_some_iff.mpr ⟨k, hk, hm⟩)
      · exact h (Or.inr ho)

theorem FateInv.moved {w : World} (hi : FateInv w) {c : String} {k k' : Consumer} {s' : Server}
    {evs : List Event} (hk : w.consumers c = some k) (hm : Move c k w.server k' s' evs) :
    FateInv (w.moved c k' s' evs) := by
  have hh := hi.holds c k hk
  have hself : (w.moved c k' s' evs).consumers c = some k' := w.setConsumer_self c _
  have hother {d : String} (hd : d ≠ c) :
      (w.moved c k' s' evs).consumers d = w.consumers d := w.setConsumer_of_ne hd _
  have hnot {id : ℕ} (h : k'.moving = some id) : ¬ w.MovedByOther c id := by
    cases hm.course hh id with
    | keeps _ hmov _ => exact hi.not_movedByOther hk (hmov h).symm
    | finishes _ hnot _ => exact absurd (Or.inr h) hnot
  have hmoved (id : ℕ) : (w.moved c k' s' evs).MovedByOther c id ↔ w.MovedByOther c id :=
    movedByOther_setConsumer w c (some k') id
  have hfin (id : ℕ) : (w.moved c k' s' evs).finished id =
      w.finished id + evs.countP (Event.finishes id) := List.countP_append
  constructor
  · exact faithful_setConsumer (fun d l hl => (hi.faithful d l hl).mono hm.le) c fun l hl => by
      cases hl
      exact hm.faithful (hi.faithful c k hk)
  · intro d l hl
    by_cases hd : d = c
    · subst hd
      obtain rfl := Option.some.inj (hself.symm.trans hl)
      exact hm.holds hh
    · exact owned_of_other hm hh hd (hi.holds d l ((hother hd).symm.trans hl))
  · intro d e l j id hl hj hlm hjm
    by_cases hd : d = c
    · subst hd
      obtain rfl := Option.some.inj (hself.symm.trans hl)
      by_contra hne
      exact hnot hlm ⟨e, j, Ne.symm hne, (hother (Ne.symm hne)).symm.trans hj, hjm⟩
    · by_cases he : e = c
      · subst he
        obtain rfl := Option.some.inj (hself.symm.trans hj)
        exact absurd ⟨d, l, hd, (hother hd).symm.trans hl, hlm⟩ (hnot hjm)
      · exact hi.lone d e l j id ((hother hd).symm.trans hl) ((hother he).symm.trans hj) hlm hjm
  · intro d id p hmem
    rcases List.mem_append.mp hmem with hmem | hmem
    · obtain ⟨f, hf⟩ := hi.lost d id p hmem
      exact ⟨f, hm.le.entries id f hf⟩
    · exact absurd hmem hm.no_lost
  · intro id h
    rw [open_iff_of_run hself, hmoved] at h
    rw [hfin]
    cases hm.course hh id with
    | keeps ho _ he =>
      rw [he, hi.opened id]
      rw [open_iff_of_run hk]
      exact h.imp_left ho.mp
    | finishes hwas hnot _ =>
      rcases h with h | h
      · exact absurd h hnot
      · exact absurd h (hi.not_movedByOther hk hwas)
  · intro id hid h
    rw [open_iff_of_run hself, hmoved] at h
    rw [hfin]
    cases hm.course hh id with
    | keeps ho _ he =>
      rw [he, hi.closed id hid]
      rw [open_iff_of_run hk]
      exact fun h' => h (h'.imp_left ho.mpr)
    | finishes hwas _ he =>
      have hopen : w.Open id := by
        rw [open_iff_of_run hk]
        apply Or.inl
        rcases hwas with hown | hmov
        · exact Or.inl (Or.inr (by rw [hown]; rfl))
        · exact Or.inr hmov
      rw [he, hi.opened id hopen]

theorem fateInv_step (w : World) (a : Action) (w' : World) (hi : FateInv w)
    (h : step w a = some w') : FateInv w' := by
  have hsame {c : String} {k : Consumer} (hf : k.Faithful w.server) (hh : k.Holds c w.server)
      (hm : k.moving = none) (hold : (w.consumers c).bind Consumer.moving = none) :
      FateInv (w.setConsumer c (some k)) := by
    have h : FateInv { (w.setConsumer c (some k)) with trace := w.trace ++ [] } := by
      apply hi.setConsumer c
      · rintro l ⟨⟩
        exact ⟨hf, hh, hm⟩
      · intro d id p hmem
        cases hmem
      · intro id
        rw [hold]
        rfl
    rwa [List.append_nil] at h
  cases Effect.of_step h with
  | publish p => exact fateInv_append hi _ rfl rfl rfl rfl rfl
  | xadd f => exact fateInv_append hi f rfl rfl rfl rfl rfl
  | start c maxAttempts count hend =>
    refine hsame trivial (Consumer.holds_idle (by simp)) rfl ?_
    cases hk : w.consumers c with
    | none => rfl
    | some k =>
      exact Consumer.moving_of_ended (hend k hk)
  | stop c k hk hpc =>
    refine hsame trivial (Consumer.holds_idle (by simp)) rfl ?_
    rw [hk, Option.bind_some, Consumer.moving, hpc]
  | move _ c k k' s' evs _ hk hm => exact hi.moved hk hm
  | crash c k hk hend =>
    refine hi.setConsumer c (fun l hl => by cases hl) ?_ ?_
    · intro d id p hmem
      unfold crashEvents at hmem
      split at hmem
      · rename_i m reason attempt hpc
        cases List.mem_singleton.mp hmem
        obtain ⟨f, hf, -⟩ := ((hi.faithful c k hk).busy hpc).1
        exact ⟨f, hf⟩
      · cases hmem
    · intro id
      rw [hk, Option.bind_some]
      exact countP_crashEvents c k id

theorem countP_finishes (tr : List Event) (id : ℕ) :
    tr.countP (Event.finishes id) = tr.countP (Event.settles id) + tr.countP (Event.loses id) := by
  induction tr with
  | nil => rfl
  | cons e tr ih =>
    rw [List.countP_cons, List.countP_cons, List.countP_cons, ih]
    have he : (if e.finishes id then 1 else 0) =
        (if e.settles id then 1 else 0) + if e.loses id then 1 else 0 := by
      cases e <;> simp [Event.finishes, Event.settles, Event.loses]
    omega

theorem FateInv.not_settled_of_lost {w : World} (hi : FateInv w) {d : String} {id : ℕ} {p : Payment}
    (hlost : Event.lost d id p ∈ w.trace) : ∀ e ∈ w.trace, ¬ e.settles id := by
  intro e he hset
  obtain ⟨f, hf⟩ := hi.lost d id p hlost
  have hone : w.finished id ≤ 1 := by
    by_cases h : w.Open id
    · rw [hi.opened id h]
      exact Nat.zero_le 1
    · rw [hi.closed id (entryAt_some_le hf).1 h]
  have h₁ : 0 < w.trace.countP (Event.settles id) := List.countP_pos_iff.mpr ⟨e, he, hset⟩
  have h₂ : 0 < w.trace.countP (Event.loses id) :=
    List.countP_pos_iff.mpr ⟨_, hlost, by simp [Event.loses]⟩
  rw [finished, countP_finishes] at hone
  omega

/-- What a run of the consumer `c` on its own is made of. -/
def OnlyRuns (c : String) : Action → Prop
  | .run d => d = c
  | .handler d _ => d = c
  | _ => False

/-- What holds while the consumer `c` works alone, since the state `u` in which it started. -/
structure LastInv (u : World) (c : String) (w : World) (k : Consumer) : Prop where
  fate : FateInv w
  self : w.consumers c = some k
  count_pos : 1 ≤ k.count
  rest : ∀ d l, d ≠ c → w.consumers d = some l → l.moving = none
  looked : k.pc = .readPending ∨ k.pc = .sleep →
    w.server.main.delivered = w.server.main.entries.length
  own : k.pc = .sleep → ∀ id, w.server.main.owner? id ≠ some c
  stays : ∀ id d, d ≠ c → u.server.main.owner? id = some d → w.server.main.owner? id = some d
  owned : u.server.OwnedBy c → w.server.OwnedBy c
  lost : ∀ d id p, Event.lost d id p ∈ w.trace ↔ Event.lost d id p ∈ u.trace

/-- A consumer looks into its backlog when there is nothing new, and falls asleep when there is
nothing in it. -/
theorem Move.looked {c : String} {k k' : Consumer} {s s' : Server} {evs : List Event}
    (hm : Move c k s k' s' evs) (hcount : 1 ≤ k.count)
    (hl : k.pc = .readPending ∨ k.pc = .sleep → s.main.delivered = s.main.entries.length) :
    (k'.pc = .readPending ∨ k'.pc = .sleep → s'.main.delivered = s'.main.entries.length) ∧
      (k'.pc = .sleep → ∀ id, s'.main.owner? id ≠ some c) := by
  have hbatch (l : Consumer) (batch : List (ℕ × Fields)) :
      ¬ ((l.forBatch batch).pc = .readPending ∨ (l.forBatch batch).pc = .sleep) := by
    cases batch with
    | nil => simp [Consumer.forBatch]
    | cons e rest =>
      simp only [Consumer.forBatch]
      split
      · simp
      · simp
  have hoff {l : Consumer} {t : Server} (h : ¬ (l.pc = .readPending ∨ l.pc = .sleep)) :
      (l.pc = .readPending ∨ l.pc = .sleep → t.main.delivered = t.main.entries.length) ∧
        (l.pc = .sleep → ∀ id, t.main.owner? id ≠ some c) :=
    ⟨fun h' => absurd h' h, fun h' => absurd (Or.inr h') h⟩
  cases hm with
  | readNew hpc hne => exact hoff (hbatch _ _)
  | noNew hpc hnil =>
    refine ⟨fun _ => ?_, fun h => by cases h⟩
    have hzero := GroupStream.newBatch_eq_nil.mp hnil
    have hle := s.main.delivered_le
    change s.main.delivered + s.main.newCount k.count = s.main.entries.length
    simp only [GroupStream.newCount] at hzero ⊢
    omega
  | readPending hpc hne => exact hoff (hbatch _ _)
  | noPending hpc hnil =>
    refine ⟨fun _ => hl (Or.inl hpc), fun _ id => ?_⟩
    have hids : s.main.ownIds c k.count = [] := by
      rw [← GroupStream.map_fst_pendingBatch, hnil, List.map_nil]
    change (s.main.readPending c () k.count).owner? id ≠ some c
    rw [GroupStream.owner?_readPending]
    exact (GroupStream.ownIds_eq_nil hcount).mp hids id
  | wake hpc => exact hoff (by simp)
  | hit m hpc hp => exact hoff (by simp)
  | miss m hpc hp => exact hoff (by simp)
  | skip m hpc => exact hoff (hbatch _ _)
  | returns m hpc => exact hoff (by simp)
  | retry m exc hpc hlt => exact hoff (hbatch _ _)
  | exhaust m exc hpc hge => exact hoff (by simp)
  | mark m hpc => exact hoff (by simp)
  | ack m hpc => exact hoff (hbatch _ _)
  | dlqAck m reason attempt hpc => exact hoff (by simp)
  | dlqAdd m reason attempt hpc => exact hoff (hbatch _ _)

theorem LastInv.moved {u w : World} {c : String} {k k' : Consumer} {s' : Server} {evs : List Event}
    (h : LastInv u c w k) (hm : Move c k w.server k' s' evs) :
    LastInv u c (w.moved c k' s' evs) k' := by
  have hh := h.fate.holds c k h.self
  obtain ⟨hlooked, hown⟩ := Move.looked hm h.count_pos h.looked
  constructor
  · exact h.fate.moved h.self hm
  · exact w.setConsumer_self c _
  · rw [hm.count_eq]
    exact h.count_pos
  · intro d l hd hl
    exact h.rest d l hd ((w.setConsumer_of_ne hd _).symm.trans hl)
  · exact hlooked
  · exact hown
  · intro id d hd hu
    have hw := h.stays id d hd hu
    have hne : w.server.main.owner? id ≠ some c := by
      rw [hw]
      simpa using hd
    exact (hm.owner?_of_other hh (GroupStream.owner?_some_range hw).2 hne).trans hw
  · intro hu
    exact hm.ownedBy (h.owned hu)
  · intro d id p
    rw [← h.lost d id p]
    change _ ∈ w.trace ++ evs ↔ _
    rw [List.mem_append]
    simp only [hm.no_lost, or_false]

theorem lastInv_step {u w w' : World} {c : String} {a : Action} (h : ∃ k, LastInv u c w k)
    (ha : OnlyRuns c a) (hw : step w a = some w') : ∃ k, LastInv u c w' k := by
  obtain ⟨k, h⟩ := h
  cases Effect.of_step hw with
  | move _ d l k' s' evs hact hl hm =>
    obtain rfl : d = c := by
      rcases hact with rfl | ⟨failure, m, rfl, _⟩
      · exact ha
      · exact ha
    obtain rfl := Option.some.inj (h.self.symm.trans hl)
    exact ⟨k', h.moved hm⟩
  | publish p => exact absurd ha id
  | xadd f => exact absurd ha id
  | start d maxAttempts count hend => exact absurd ha id
  | stop d l hl hpc => exact absurd ha id
  | crash d l hl hend => exact absurd ha id

theorem lastInv_start {u v : World} {c : String} {maxAttempts : ℤ} {count : ℕ} (hi : FateInv u)
    (hends : ∀ d k, u.consumers d = some k → k.ended = true) (hcount : 1 ≤ count)
    (hv : step u (.start c maxAttempts count) = some v) :
    LastInv u c v { maxAttempts, count } := by
  have hfate := fateInv_step u _ v hi hv
  cases Effect.of_step hv with
  | start _ _ _ _ =>
    constructor
    · exact hfate
    · exact u.setConsumer_self c _
    · exact hcount
    · intro d l hd hl
      exact Consumer.moving_of_ended (hends d l ((u.setConsumer_of_ne hd _).symm.trans hl))
    · intro h
      simp at h
    · intro h
      cases h
    · intro id d hd hu
      exact hu
    · exact id
    · intro d id p
      exact Iff.rfl
  | move _ d l k' s' evs hact hl hm =>
    rcases hact with h | ⟨failure, m, h, _⟩
    · cases h
    · cases h

/-- Nothing is delivered and unacknowledged, and every entry has been processed, skipped as a
duplicate or dead-lettered. -/
def AllSettled (w : World) : Prop :=
  w.server.main.pel = [] ∧
    ∀ id, 1 ≤ id → id ≤ w.server.main.entries.length → ∃ e ∈ w.trace, e.settles id

/-- When at last one consumer works alone until both its reads find nothing, every entry is settled
exactly if all that was pending before was left under the consumer's own name, and no earlier run
was cut between the two commands of `move_to_dlq`. -/
theorem allSettled_iff_own_backlog (before during : List Action) (c : String) (maxAttempts : ℤ)
    (count : ℕ) (hcount : 1 ≤ count) (hduring : ∀ a ∈ during, OnlyRuns c a) (u w : World)
    (hu : run step {} before = some u) (hends : ∀ d k, u.consumers d = some k → k.ended = true)
    (hw : run step u (.start c maxAttempts count :: during) = some w)
    (hsleep : ∃ k, w.consumers c = some k ∧ k.pc = .sleep) :
    w.AllSettled ↔
      (∀ p ∈ u.server.main.pel, p.owner = c) ∧ ∀ d id p, Event.lost d id p ∉ u.trace := by
  have hi : FateInv u := run_invariant_of_step fateInv_step fateInv_init hu
  obtain ⟨v, hv, hrun⟩ := run_cons_eq_some.mp hw
  obtain ⟨k, h⟩ : ∃ k, LastInv u c w k :=
    run_invariant (fun _ _ _ h ha hw => lastInv_step h ha hw)
      ⟨_, lastInv_start hi hends hcount hv⟩ (along_of_forall (fun a ha _ => hduring a ha) _) hrun
  obtain ⟨k', hk', hpc⟩ := hsleep
  obtain rfl := Option.some.inj (h.self.symm.trans hk')
  constructor
  · rintro ⟨hpel, hall⟩
    constructor
    · intro p hp
      by_contra hne
      have howner := h.stays p.id p.owner hne (GroupStream.owner?_eq_some.mpr ⟨p, hp, rfl, rfl⟩)
      obtain ⟨q, hq, -⟩ := GroupStream.owner?_eq_some.mp howner
      rw [hpel] at hq
      cases hq
    · intro d id p hlost
      have hlost' := (h.lost d id p).mpr hlost
      obtain ⟨f, hf⟩ := h.fate.lost d id p hlost'
      have hrange := entryAt_some_le hf
      obtain ⟨e, he, hset⟩ := hall id hrange.1 hrange.2
      exact h.fate.not_settled_of_lost hlost' e he hset
  · rintro ⟨hown, hlost⟩
    have howned : w.server.OwnedBy c := by
      apply h.owned
      intro id d hd
      obtain ⟨p, hp, -, rfl⟩ := GroupStream.owner?_eq_some.mp hd
      exact hown p hp
    have hnone (id : ℕ) : w.server.main.owner? id = none := by
      apply Option.eq_none_iff_forall_ne_some.mpr
      intro d hd
      exact h.own hpc id (howned id d hd ▸ hd)
    refine ⟨GroupStream.pel_eq_nil hnone, ?_⟩
    intro id h₁ h₂
    have hclosed : ¬ w.Open id := by
      rintro ((hdel | hpend) | ⟨d, l, hl, hm⟩)
      · rw [h.looked (Or.inr hpc)] at hdel
        omega
      · rw [hnone id] at hpend
        cases hpend
      · by_cases hd : d = c
        · subst hd
          obtain rfl := Option.some.inj (h.self.symm.trans hl)
          simp [Consumer.moving, hpc] at hm
        · rw [h.rest d l hd hl] at hm
          cases hm
    have hone := h.fate.closed id h₁ hclosed
    have hpos : 0 < w.trace.countP (Event.finishes id) := by
      rw [← finished, hone]
      exact Nat.one_pos
    obtain ⟨e, he, hfin⟩ := List.countP_pos_iff.mp hpos
    rcases Bool.or_eq_true_iff.mp hfin with hset | hlose
    · exact ⟨e, he, hset⟩
    · cases e with
      | lost d i p => exact absurd ((h.lost d i p).mp he) (hlost d i p)
      | handled _ _ _ _ => cases hlose
      | processed _ _ _ => cases hlose
      | skipped _ _ _ => cases hlose
      | deadLettered _ _ _ _ _ => cases hlose

/-- The first worker is stopped while a payment has two of its three attempts left. -/
def stoppedMidRetry : List Action :=
  [.publish rent, .start "worker-1" 3 10, .run "worker-1", .run "worker-1",
    .handler "worker-1" (some ⟨"PaymentError", "declined"⟩), .stop "worker-1"]

theorem stoppedMidRetry_ended {u : World} (hu : run step {} stoppedMidRetry = some u) (d : String)
    (k : Consumer) (hk : u.consumers d = some k) : k.ended = true := by
  cases hu
  by_cases hd : d = "worker-1"
  · subst hd
    cases hk
    rfl
  · have hnone := (setConsumer_of_ne _ hd _).symm.trans hk
    simp [moved, setConsumer, hd] at hnone

/-- The second worker finds nothing new and nothing of its own. -/
def findsNothing (c : String) : List Action := [.run c, .run c]

theorem stoppedMidRetry_stranded :
    ∃ u w, run step {} stoppedMidRetry = some u ∧
      (∀ d k, u.consumers d = some k → k.ended = true) ∧
      run step u (.start "worker-2" 3 10 :: findsNothing "worker-2") = some w ∧
      (∃ k, w.consumers "worker-2" = some k ∧ k.pc = .sleep) ∧ ¬ w.AllSettled := by
  refine ⟨_, _, rfl, stoppedMidRetry_ended rfl, rfl, ⟨_, rfl, rfl⟩, ?_⟩
  rintro ⟨hpel, -⟩
  cases hpel

/-- The first worker comes back under its own name and finishes what it left. -/
def comesBack : List Action :=
  [.run "worker-1", .run "worker-1", .run "worker-1", .handler "worker-1" none, .run "worker-1",
    .run "worker-1", .run "worker-1", .run "worker-1"]

theorem comesBack_settles :
    ∃ u w, run step {} stoppedMidRetry = some u ∧
      run step u (.start "worker-1" 3 10 :: comesBack) = some w ∧ w.AllSettled := by
  refine ⟨_, _, rfl, rfl, ?_⟩
  refine (allSettled_iff_own_backlog stoppedMidRetry comesBack "worker-1" 3 10 (by decide)
    (by simp [comesBack, OnlyRuns]) _ _ rfl (stoppedMidRetry_ended rfl) rfl ⟨_, rfl, rfl⟩).mpr ⟨?_, ?_⟩
  · intro p hp
    cases List.mem_singleton.mp hp
    rfl
  · intro d id p hlost
    cases List.mem_singleton.mp hlost

end World
end Dlq
