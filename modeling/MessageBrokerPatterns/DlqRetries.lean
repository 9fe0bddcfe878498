import MessageBrokerPatterns.DlqCrew

/-!
# Which retries the counters stand for

Between two iterations of a consumer's loop each key of `attempts` should be the id of an entry that
is pending for the consumer, with a budget left. Every exit from the body of the loop keeps it so
but one: an entry that has failed and is then acknowledged as a duplicate leaves its counter behind,
and as its id never comes back, the counter stays for as long as the consumer runs.
-/

namespace Dlq
open PyText PyDict RedisStream ActionRun

namespace Consumer

/-- The counters stand for live retries, and are no more than the entries pending for `c`. -/
structure RetriesLive (k : Consumer) (c : String) (s : Server) : Prop where
  live : ∀ id n, k.attempts id = some n →
    s.main.owner? id = some c ∧ 1 ≤ n ∧ (n : ℤ) < k.maxAttempts
  bounded : ∀ ids : List ℕ, ids.Nodup → (∀ id ∈ ids, k.attempts id ≠ none) →
    ids.length ≤ s.main.pel.countP fun p => p.owner = c

/-- The next command acknowledges an entry as a duplicate that has failed before. -/
def StaleSkip (k : Consumer) : Prop :=
  ∃ m, k.pc = .busy m .skipAck ∧ k.attempts m.id ≠ none

/-- The entry whose budget is exhausted and that is on its way to the dead-letter stream. -/
def leaving (k : Consumer) : Option ℕ :=
  match k.pc with
  | .busy m (.dlqAck _ _) => some m.id
  | .busy m (.dlqAdd _ _) => some m.id
  | _ => none

/-- A counter belongs to a delivered entry and is below the budget, except on the way out. -/
structure Counted (k : Consumer) (s : Server) : Prop where
  delivered : ∀ id n, k.attempts id = some n → id ≤ s.main.delivered
  pos : ∀ id n, k.attempts id = some n → 1 ≤ n
  below : ∀ id n, k.attempts id = some n → (n : ℤ) < k.maxAttempts ∨ k.leaving = some id

/-- A counter's entry is pending for `c`, or between the two commands of `move_to_dlq`. -/
def Tracked (k : Consumer) (c : String) (s : Server) : Prop :=
  ∀ id n, k.attempts id = some n → s.main.owner? id = some c ∨ k.moving = some id

@[simp] theorem attempts_forBatch (k : Consumer) (batch : List (ℕ × Fields)) :
    (k.forBatch batch).attempts = k.attempts := by
  cases batch with
  | nil => rfl
  | cons e rest =>
    simp only [forBatch]
    split <;> rfl

@[simp] theorem maxAttempts_forBatch (k : Consumer) (batch : List (ℕ × Fields)) :
    (k.forBatch batch).maxAttempts = k.maxAttempts := by
  cases batch with
  | nil => rfl
  | cons e rest =>
    simp only [forBatch]
    split <;> rfl

theorem attempts_bump (k : Consumer) (i id : ℕ) :
    (k.bump i).attempts id = if id = i then some (k.spent i + 1) else k.attempts id := by
  by_cases h : id = i
  · subst h
    simp [bump]
  · simp [bump, h]

theorem attempts_dropAttempts (k : Consumer) (i id : ℕ) :
    (k.dropAttempts i).attempts id = if id = i then none else k.attempts id := by
  by_cases h : id = i
  · subst h
    simp [dropAttempts]
  · simp [dropAttempts, h]

theorem Counted.mono {k : Consumer} {s s' : Server} (h : k.Counted s)
    (hd : s.main.delivered ≤ s'.main.delivered) : k.Counted s' :=
  ⟨fun id n hn => (h.delivered id n hn).trans hd, h.pos, h.below⟩

/-- The entry in hand is pending, or between the two commands of `move_to_dlq`. -/
theorem Holds.place {k : Consumer} {c : String} {s : Server} (h : k.Holds c s) {m : Held}
    {stage : Stage} (hpc : k.pc = .busy m stage) :
    s.main.owner? m.id = some c ∨ k.moving = some m.id := by
  have hown := (h m stage hpc).owner
  cases stage with
  | dlqAdd reason attempt => exact Or.inr (by simp only [moving, hpc])
  | _ => exact Or.inl hown

theorem retriesLive_iff {k : Consumer} {c : String} {s : Server} (h : k.Counted s)
    (hpc : k.pc = .readNew) : k.RetriesLive c s ↔ k.Tracked c s := by
  have hmoving : k.moving = none := by simp only [moving, hpc]
  have hleaving : k.leaving = none := by simp only [leaving, hpc]
  constructor
  · exact fun hl id n hn => Or.inl (hl.live id n hn).1
  · intro ht
    have howner : ∀ id n, k.attempts id = some n → s.main.owner? id = some c := by
      intro id n hn
      simpa [hmoving] using ht id n hn
    refine ⟨fun id n hn => ⟨howner id n hn, h.pos id n hn, ?_⟩, fun ids hnodup hids => ?_⟩
    · simpa [hleaving] using h.below id n hn
    · have hsub : ids ⊆ (s.main.pel.filter fun p => p.owner = c).map (·.id) := by
        intro id hid
        obtain ⟨n, hn⟩ := Option.ne_none_iff_exists'.mp (hids id hid)
        obtain ⟨p, hp, hpid, hpown⟩ := GroupStream.owner?_eq_some.mp (howner id n hn)
        exact List.mem_map.mpr ⟨p, List.mem_filter.mpr ⟨hp, by simpa using hpown⟩, hpid⟩
      have hle := (List.subperm_of_subset hnodup hsub).length_le
      rwa [List.length_map, ← List.countP_eq_length_filter] at hle

end Consumer

namespace Move
variable {c : String} {k k' : Consumer} {s s' : Server} {evs : List Event}

theorem maxAttempts_eq (hm : Move c k s k' s' evs) : k'.maxAttempts = k.maxAttempts := by
  cases hm <;> first
    | rfl
    | exact Consumer.maxAttempts_forBatch _ _

theorem attempts_of_ne (hm : Move c k s k' s' evs) {id : ℕ}
    (hne : ∀ m stage, k.pc = .busy m stage → id ≠ m.id) : k'.attempts id = k.attempts id := by
  cases hm with
  | retry m exc hpc hlt =>
    rw [Consumer.attempts_forBatch, Consumer.attempts_bump, if_neg (hne m _ hpc)]
  | exhaust m exc hpc hge => exact (k.attempts_bump _ _).trans (if_neg (hne m _ hpc))
  | ack m hpc =>
    rw [Consumer.attempts_forBatch]
    exact (k.attempts_dropAttempts _ _).trans (if_neg (hne m _ hpc))
  | dlqAdd m reason attempt hpc =>
    rw [Consumer.attempts_forBatch, Consumer.attempts_dropAttempts, if_neg (hne m _ hpc)]
  | readNew hpc hnil => rw [Consumer.attempts_forBatch]
  | readPending hpc hnil => rw [Consumer.attempts_forBatch]
  | skip m hpc => rw [Consumer.attempts_forBatch]
  | _ => rfl

/-- The counter of the entry in hand is raised by a failure, dropped with the last command for the
entry, and left alone by everything else. -/
theorem attempts_self (hm : Move c k s k' s' evs) {m : Held} {stage : Stage}
    (hpc : k.pc = .busy m stage) :
    k'.attempts m.id = k.attempts m.id ∨
      stage = .handler ∧ k'.attempts m.id = some (k.spent m.id + 1) ∧
        (((k.spent m.id + 1 : ℕ) : ℤ) < k.maxAttempts ∨ k'.leaving = some m.id) ∨
      k'.attempts m.id = none := by
  cases hm with
  | retry m' exc hpc' hlt =>
    cases hpc.symm.trans hpc'
    refine Or.inr (Or.inl ⟨rfl, ?_, Or.inl hlt⟩)
    rw [Consumer.attempts_forBatch, Consumer.attempts_bump, if_pos rfl]
  | exhaust m' exc hpc' hge =>
    cases hpc.symm.trans hpc'
    refine Or.inr (Or.inl ⟨rfl, ?_, Or.inr rfl⟩)
    exact (k.attempts_bump _ _).trans (if_pos rfl)
  | ack m' hpc' =>
    cases hpc.symm.trans hpc'
    refine Or.inr (Or.inr ?_)
    rw [Consumer.attempts_forBatch]
    exact (k.attempts_dropAttempts _ _).trans (if_pos rfl)
  | dlqAdd m' reason attempt hpc' =>
    cases hpc.symm.trans hpc'
    refine Or.inr (Or.inr ?_)
    rw [Consumer.attempts_forBatch, Consumer.attempts_dropAttempts, if_pos rfl]
  | skip m' hpc' =>
    rw [Consumer.attempts_forBatch]
    exact Or.inl rfl
  | readNew hpc' hne => cases hpc.symm.trans hpc'
  | readPending hpc' hne => cases hpc.symm.trans hpc'
  | _ => exact Or.inl rfl

theorem leaving_of_leaving (hm : Move c k s k' s' evs) {id : ℕ} (hl : k.leaving = some id) :
    k'.leaving = some id ∨ k'.attempts id = none := by
  unfold Consumer.leaving at hl
  split at hl
  · rename_i m reason attempt hpc
    obtain rfl := Option.some.inj hl
    cases hm with
    | dlqAck m' reason' attempt' hpc' =>
      obtain ⟨rfl, -⟩ := Pc.busy.inj (hpc.symm.trans hpc')
      exact Or.inl rfl
    | _ => simp_all
  · rename_i m reason attempt hpc
    obtain rfl := Option.some.inj hl
    cases hm with
    | dlqAdd m' reason' attempt' hpc' =>
      obtain ⟨rfl, -⟩ := Pc.busy.inj (hpc.symm.trans hpc')
      refine Or.inr ?_
      rw [Consumer.attempts_forBatch, Consumer.attempts_dropAttempts, if_pos rfl]
    | _ => simp_all
  · cases hl

theorem counted (hm : Move c k s k' s' evs) (hh : k.Holds c s) (hc : k.Counted s) :
    k'.Counted s' := by
  have hkeep {id n : ℕ} (h : k.attempts id = some n) (h' : k'.attempts id = some n) :
      id ≤ s'.main.delivered ∧ 1 ≤ n ∧ ((n : ℤ) < k'.maxAttempts ∨ k'.leaving = some id) := by
    refine ⟨(hc.delivered id n h).trans hm.delivered_le, hc.pos id n h, ?_⟩
    rcases hc.below id n h with hlt | hl
    · exact Or.inl (hm.maxAttempts_eq ▸ hlt)
    · rcases hm.leaving_of_leaving hl with hl' | hnone
      · exact Or.inr hl'
      · rw [hnone] at h'
        cases h'
  have hall (id n : ℕ) (h' : k'.attempts id = some n) :
      id ≤ s'.main.delivered ∧ 1 ≤ n ∧ ((n : ℤ) < k'.maxAttempts ∨ k'.leaving = some id) := by
    by_cases hhand : ∃ m stage, k.pc = .busy m stage ∧ id = m.id
    · obtain ⟨m, stage, hpc, rfl⟩ := hhand
      rcases hm.attempts_self hpc with hsame | ⟨rfl, hbump, hbelow⟩ | hnone
      · exact hkeep (hsame ▸ h') h'
      · obtain rfl := Option.some.inj (hbump.symm.trans h')
        refine ⟨(hh m _ hpc).delivered.trans hm.delivered_le, Nat.le_add_left _ _, ?_⟩
        rw [hm.maxAttempts_eq]
        exact hbelow
      · rw [hnone] at h'
        cases h'
    · push Not at hhand
      exact hkeep (hm.attempts_of_ne hhand ▸ h') h'
  exact ⟨fun id n h => (hall id n h).1, fun id n h => (hall id n h).2.1,
    fun id n h => (hall id n h).2.2⟩

theorem moving_cases (hm : Move c k s k' s' evs) {id : ℕ} (h : k'.moving = some id) :
    ∃ m reason attempt, k.pc = .busy m (.dlqAck reason attempt) ∧ m.id = id := by
  cases hm with
  | dlqAck m reason attempt hpc => exact ⟨m, reason, attempt, hpc, Option.some.inj h⟩
  | readNew hpc hne => simp [Consumer.moving_forBatch] at h
  | readPending hpc hne => simp [Consumer.moving_forBatch] at h
  | skip m hpc => simp [Consumer.moving_forBatch] at h
  | retry m exc hpc hlt => simp [Consumer.moving_forBatch] at h
  | ack m hpc => simp [Consumer.moving_forBatch] at h
  | dlqAdd m reason attempt hpc => simp [Consumer.moving_forBatch] at h
  | hit m hpc hp => simp [Consumer.moving] at h
  | miss m hpc hp => simp [Consumer.moving] at h
  | returns m hpc => simp [Consumer.moving] at h
  | exhaust m exc hpc hge => simp [Consumer.moving] at h
  | mark m hpc => simp [Consumer.moving] at h
  | noNew hpc hnil => simp [Consumer.moving] at h
  | noPending hpc hnil => simp [Consumer.moving] at h
  | wake hpc => simp [Consumer.moving] at h

theorem place_of_ne (hm : Move c k s k' s' evs) (hh : k.Holds c s) {id : ℕ}
    (hd : id ≤ s.main.delivered) (hne : ∀ m stage, k.pc = .busy m stage → id ≠ m.id) :
    s'.main.owner? id = s.main.owner? id ∧ (k'.moving = some id ↔ k.moving = some id) := by
  constructor
  · rw [hm.owner?_eq, if_neg (by omega), if_neg]
    intro hack
    obtain ⟨⟨m, stage, hpc, hid⟩, -⟩ := hh.acking hack
    exact hne m stage hpc hid.symm
  · constructor
    · intro h
      obtain ⟨m, reason, attempt, hpc, hid⟩ := hm.moving_cases h
      exact absurd hid.symm (hne m _ hpc)
    · intro h
      obtain ⟨m, stage, hpc, hid⟩ := Consumer.busy_of_moving h
      exact absurd hid.symm (hne m stage hpc)

theorem tracked_self_iff (hm : Move c k s k' s' evs) (hh : k.Holds c s) {m : Held} {stage : Stage}
    (hpc : k.pc = .busy m stage) :
    (∀ n, k'.attempts m.id = some n → s'.main.owner? m.id = some c ∨ k'.moving = some m.id) ↔
      ¬ k.StaleSkip := by
  have hown := (hh m stage hpc).owner
  have hstale : k.StaleSkip ↔ stage = .skipAck ∧ k.attempts m.id ≠ none := by
    simp only [Consumer.StaleSkip, hpc, Pc.busy.injEq]
    constructor
    · rintro ⟨m', ⟨rfl, rfl⟩, h⟩
      exact ⟨rfl, h⟩
    · rintro ⟨rfl, h⟩
      exact ⟨m, ⟨rfl, rfl⟩, h⟩
  have hkept (hst : stage.moving = false) (hs : s'.main.owner? m.id = s.main.owner? m.id)
      (hne : stage ≠ .skipAck) :
      (∀ n, k'.attempts m.id = some n → s'.main.owner? m.id = some c ∨ k'.moving = some m.id) ↔
        ¬ k.StaleSkip := by
    rw [hstale, hs, hown, hst]
    simp [hne]
  have hdropped (hnone : k'.attempts m.id = none) (hne : stage ≠ .skipAck) :
      (∀ n, k'.attempts m.id = some n → s'.main.owner? m.id = some c ∨ k'.moving = some m.id) ↔
        ¬ k.StaleSkip := by
    rw [hstale, hnone]
    simp [hne]
  cases hm with
  | hit m' hpc' hp =>
    cases hpc.symm.trans hpc'
    exact hkept rfl rfl (by simp)
  | miss m' hpc' hp =>
    cases hpc.symm.trans hpc'
    exact hkept rfl rfl (by simp)
  | returns m' hpc' =>
    cases hpc.symm.trans hpc'
    exact hkept rfl rfl (by simp)
  | retry m' exc hpc' hlt =>
    cases hpc.symm.trans hpc'
    exact hkept rfl rfl (by simp)
  | exhaust m' exc hpc' hge =>
    cases hpc.symm.trans hpc'
    exact hkept rfl rfl (by simp)
  | mark m' hpc' =>
    cases hpc.symm.trans hpc'
    exact hkept rfl rfl (by simp)
  | skip m' hpc' =>
    cases hpc.symm.trans hpc'
    have hgone : (s.ack m.id).main.owner? m.id = none :=
      (GroupStream.owner?_xack m.id m.id).trans (if_pos rfl)
    change (∀ n, (k.forBatch m.rest).attempts m.id = some n →
      (s.ack m.id).main.owner? m.id = some c ∨ _) ↔ _
    rw [hstale, hgone, Consumer.attempts_forBatch, Consumer.moving_forBatch]
    simp [Option.eq_none_iff_forall_ne_some]
  | ack m' hpc' =>
    cases hpc.symm.trans hpc'
    refine hdropped ?_ (by simp)
    rw [Consumer.attempts_forBatch]
    exact (k.attempts_dropAttempts _ _).trans (if_pos rfl)
  | dlqAck m' reason attempt hpc' =>
    cases hpc.symm.trans hpc'
    rw [hstale]
    simp [Consumer.moving]
  | dlqAdd m' reason attempt hpc' =>
    cases hpc.symm.trans hpc'
    refine hdropped ?_ (by simp)
    rw [Consumer.attempts_forBatch, Consumer.attempts_dropAttempts, if_pos rfl]
  | readNew hpc' hne => cases hpc.symm.trans hpc'
  | noNew hpc' hnil => cases hpc.symm.trans hpc'
  | readPending hpc' hne => cases hpc.symm.trans hpc'
  | noPending hpc' hnil => cases hpc.symm.trans hpc'
  | wake hpc' => cases hpc.symm.trans hpc'

/-- A step keeps the counters tracked unless it skips an entry that has one, and it never tracks a
counter again that has been left behind. -/
theorem tracked_iff (hm : Move c k s k' s' evs) (hh : k.Holds c s) (hc : k.Counted s) :
    k'.Tracked c s' ↔ k.Tracked c s ∧ ¬ k.StaleSkip := by
  have hother {id n : ℕ} (hne : ∀ m stage, k.pc = .busy m stage → id ≠ m.id)
      (hn : k.attempts id = some n) : (s'.main.owner? id = some c ∨ k'.moving = some id) ↔
        (s.main.owner? id = some c ∨ k.moving = some id) := by
    obtain ⟨hown, hmoving⟩ := hm.place_of_ne hh (hc.delivered id n hn) hne
    rw [hown, hmoving]
  by_cases hbusy : ∃ m stage, k.pc = .busy m stage
  · obtain ⟨m, stage, hpc⟩ := hbusy
    rw [← hm.tracked_self_iff hh hpc]
    have hne {id : ℕ} (hid : id ≠ m.id) : ∀ m' stage', k.pc = .busy m' stage' → id ≠ m'.id := by
      intro m' stage' hpc'
      obtain ⟨rfl, -⟩ := Pc.busy.inj (hpc.symm.trans hpc')
      exact hid
    constructor
    · intro ht
      refine ⟨fun id n hn => ?_, fun n hn => ht m.id n hn⟩
      by_cases hid : id = m.id
      · subst hid
        exact hh.place hpc
      · exact (hother (hne hid) hn).mp (ht id n ((hm.attempts_of_ne (hne hid)).trans hn))
    · rintro ⟨ht, hself⟩ id n hn
      by_cases hid : id = m.id
      · subst hid
        exact hself n hn
      · rw [hm.attempts_of_ne (hne hid)] at hn
        exact (hother (hne hid) hn).mpr (ht id n hn)
  · push Not at hbusy
    have hne {id : ℕ} : ∀ m stage, k.pc = .busy m stage → id ≠ m.id :=
      fun m stage hpc => absurd hpc (hbusy m stage)
    have hstale : ¬ k.StaleSkip := fun ⟨m, hpc, _⟩ => hbusy m _ hpc
    rw [and_iff_left hstale]
    constructor
    · exact fun ht id n hn => (hother hne hn).mp (ht id n ((hm.attempts_of_ne hne).trans hn))
    · intro ht id n hn
      rw [hm.attempts_of_ne hne] at hn
      exact (hother hne hn).mpr (ht id n hn)

theorem tracked_other_iff {d : String} {l : Consumer} (hm : Move d l s k' s' evs)
    (hh : l.Holds d s) (hd : d ≠ c) (hc : k.Counted s) : k.Tracked c s' ↔ k.Tracked c s := by
  have hsame {id n : ℕ} (hn : k.attempts id = some n) :
      s'.main.owner? id = some c ↔ s.main.owner? id = some c := by
    have hle := hc.delivered id n hn
    by_cases hown : s.main.owner? id = some d
    · have hnot : s'.main.owner? id ≠ some c := by
        rw [hm.owner?_eq, if_neg (by omega), hown]
        split <;> simp [hd]
      rw [hown]
      simp [hnot, hd]
    · rw [hm.owner?_of_other hh hle hown]
  constructor
  · exact fun ht id n hn => (ht id n hn).imp_left (hsame hn).mp
  · exact fun ht id n hn => (ht id n hn).imp_left (hsame hn).mpr

end Move

/-- The run of the consumer `c` is neither cut off nor followed by another one. -/
def Action.Outlives (c : String) : Action → Prop
  | .start d _ _ => d ≠ c
  | .crash d => d ≠ c
  | _ => True

namespace World

def RetryInv (w : World) : Prop :=
  FateInv w ∧ ∀ d k, w.consumers d = some k → k.Counted w.server

/-- The consumer `c`, if it runs, tracks its counters. -/
def Tracked (c : String) (w : World) : Prop :=
  ∀ k, w.consumers c = some k → k.Tracked c w.server

/-- The action does not acknowledge as a duplicate what the consumer `c` has failed on before. -/
def NoStaleSkip (c : String) (w : World) (a : Action) : Prop :=
  ¬ (a = .run c ∧ ∃ k, w.consumers c = some k ∧ k.StaleSkip)

theorem retryInv_init : RetryInv {} := ⟨fateInv_init, fun d k hk => by cases hk⟩

theorem retryInv_step (w : World) (a : Action) (w' : World) (hi : RetryInv w)
    (h : step w a = some w') : RetryInv w' := by
  refine ⟨fateInv_step w a w' hi.1 h, ?_⟩
  have hset {c : String} {ko : Option Consumer} {s : Server} {tr : List Event}
      (hd : w.server.main.delivered ≤ s.main.delivered) (hko : ∀ k, ko = some k → k.Counted s) :
      ∀ d k, World.consumers { (w.setConsumer c ko) with server := s, trace := tr } d = some k →
        k.Counted s := by
    intro d k hk
    by_cases hdc : d = c
    · subst hdc
      exact hko k ((w.setConsumer_self d ko).symm.trans hk)
    · exact (hi.2 d k ((w.setConsumer_of_ne hdc ko).symm.trans hk)).mono hd
  cases Effect.of_step h with
  | publish p => exact fun d k hk => (hi.2 d k hk).mono le_rfl
  | xadd f => exact fun d k hk => (hi.2 d k hk).mono le_rfl
  | start c maxAttempts count hend =>
    refine hset le_rfl ?_
    rintro k ⟨⟩
    exact ⟨fun _ _ hn => (nomatch hn), fun _ _ hn => (nomatch hn), fun _ _ hn => (nomatch hn)⟩
  | stop c k hk hpc =>
    refine hset le_rfl ?_
    rintro k' ⟨⟩
    have hc := hi.2 c k hk
    refine ⟨hc.delivered, hc.pos, fun id n hn => (hc.below id n hn).imp_right fun hl => ?_⟩
    simp [Consumer.leaving, hpc] at hl
  | move _ c k k' s' evs ha hk hm =>
    refine hset hm.delivered_le ?_
    rintro l ⟨⟩
    exact hm.counted (hi.1.holds c k hk) (hi.2 c k hk)
  | crash c k hk he => exact hset le_rfl (by simp)

theorem tracked_congr {c : String} {w w' : World} (hc : w'.consumers c = w.consumers c)
    (ho : ∀ id, w'.server.main.owner? id = w.server.main.owner? id) :
    w'.Tracked c ↔ w.Tracked c := by
  simp only [Tracked, Consumer.Tracked, hc, ho]

theorem tracked_iff_of_run {c : String} {w : World} {k : Consumer} (hk : w.consumers c = some k) :
    w.Tracked c ↔ k.Tracked c w.server := by
  simp only [Tracked, hk, Option.some.injEq, forall_eq']

theorem tracked_step_iff {c : String} (w : World) (a : Action) (w' : World) (hi : RetryInv w)
    (ha : a.Outlives c) (h : step w a = some w') :
    w'.Tracked c ↔ w.Tracked c ∧ w.NoStaleSkip c a := by
  have hquiet (hne : a ≠ .run c) : w.NoStaleSkip c a := fun hs => hne hs.1
  cases Effect.of_step h with
  | publish p =>
    rw [and_iff_left (hquiet (by simp))]
    exact tracked_congr rfl fun id => rfl
  | xadd f =>
    rw [and_iff_left (hquiet (by simp))]
    exact tracked_congr rfl fun id => rfl
  | start d maxAttempts count hend =>
    rw [and_iff_left (hquiet (by simp))]
    exact tracked_congr (w.setConsumer_of_ne (Ne.symm ha) _) fun id => rfl
  | crash d k hk he =>
    rw [and_iff_left (hquiet (by simp))]
    exact tracked_congr (w.setConsumer_of_ne (Ne.symm ha) _) fun id => rfl
  | stop d k hk hpc =>
    rw [and_iff_left (hquiet (by simp))]
    by_cases hd : d = c
    · subst hd
      rw [tracked_iff_of_run hk, tracked_iff_of_run (w.setConsumer_self d _)]
      have hmoving : k.moving = none := by simp only [Consumer.moving, hpc]
      simp only [Consumer.Tracked, hmoving]
      rfl
    · exact tracked_congr (w.setConsumer_of_ne (Ne.symm hd) _) fun id => rfl
  | move _ d k k' s' evs ha' hk hm =>
    by_cases hd : d = c
    · subst hd
      have hk' : (w.moved d k' s' evs).consumers d = some k' := w.setConsumer_self d _
      rw [tracked_iff_of_run hk, tracked_iff_of_run hk']
      change k'.Tracked d s' ↔ _
      rw [hm.tracked_iff (hi.1.holds d k hk) (hi.2 d k hk)]
      refine and_congr_right fun _ => ?_
      rcases ha' with rfl | ⟨failure, m, rfl, hpc⟩
      · simp [NoStaleSkip, hk]
      · have hnot : ¬ k.StaleSkip := by
          rintro ⟨m', hpc', -⟩
          cases hpc.symm.trans hpc'
        simp [NoStaleSkip, hnot]
    · have hne : a ≠ .run c := by
        rintro rfl
        rcases ha' with heq | ⟨failure, m, heq, -⟩
        · exact hd (Action.run.inj heq).symm
        · cases heq
      rw [and_iff_left (hquiet hne)]
      have hc : (w.moved d k' s' evs).consumers c = w.consumers c :=
        w.setConsumer_of_ne (Ne.symm hd) _
      simp only [Tracked, hc]
      refine forall_congr' fun l => forall_congr' fun hl => ?_
      exact hm.tracked_other_iff (hi.1.holds d k hk) hd (hi.2 c l hl)

/-- At an iteration boundary of a consumer's run its counters stand for live retries exactly if
no entry with a counter has been acknowledged as a duplicate in this run. -/
theorem retriesLive_iff_no_stale_skip (c : String) (maxAttempts : ℤ) (count : ℕ)
    (before during : List Action) (w₀ w₁ w : World) (k : Consumer)
    (hbefore : run step {} before = some w₀)
    (hstart : step w₀ (.start c maxAttempts count) = some w₁)
    (houtlives : ∀ a ∈ during, a.Outlives c) (hduring : run step w₁ during = some w)
    (hk : w.consumers c = some k) (hpc : k.pc = .readNew) :
    k.RetriesLive c w.server ↔ Along step (NoStaleSkip c) w₁ during := by
  have hinv₀ : RetryInv w₀ := run_invariant_of_step retryInv_step retryInv_init hbefore
  have hinv₁ : RetryInv w₁ := retryInv_step w₀ _ w₁ hinv₀ hstart
  have hinv : RetryInv w := run_invariant_of_step retryInv_step hinv₁ hduring
  have htracked : w₁.Tracked c := by
    cases Effect.of_step hstart with
    | start _ _ _ hend =>
      rw [tracked_iff_of_run (w₀.setConsumer_self c _)]
      exact fun id n hn => by cases hn
    | move _ _ _ _ _ _ ha _ _ =>
      rcases ha with ha | ⟨_, _, ha, _⟩
      · cases ha
      · cases ha
  have hrun := iff_and_along_of (fun s a t hs _ h => retryInv_step s a t hs h)
    (tracked_step_iff (c := c)) hinv₁ (along_of_forall (fun a ha _ => houtlives a ha) w₁) hduring
  rw [Consumer.retriesLive_iff (hinv.2 c k hk) hpc, ← tracked_iff_of_run hk, hrun,
    and_iff_right htracked]

def lunch : Payment := ⟨"pay-9", 1200, "cust-9", "EUR"⟩

/-- The handler fails once, and the entry waits for its next delivery. -/
def failedOnce : List Action :=
  [.run "c", .run "c", .handler "c" (some ⟨"PaymentError", "declined"⟩)]

theorem failedOnce_live :
    ∃ w₁ w k, run step {} [.publish lunch, .start "c" 3 10] = some w₁ ∧
      run step w₁ failedOnce = some w ∧ w.consumers "c" = some k ∧ k.attempts 1 = some 1 ∧
      k.RetriesLive "c" w.server := by
  refine ⟨_, _, _, rfl, rfl, rfl, rfl, ?_⟩
  refine (retriesLive_iff_no_stale_skip "c" 3 10 [.publish lunch] failedOnce _ _ _ _ rfl rfl
    (by simp [failedOnce, Action.Outlives]) rfl rfl rfl).mpr ?_
  refine (along_cons rfl).mpr ⟨?_, (along_cons rfl).mpr ⟨?_, (along_cons rfl).mpr ⟨?_, trivial⟩⟩⟩
  · rintro ⟨-, k, hk, m, hpc, -⟩
    cases hk
    cases hpc
  · rintro ⟨-, k, hk, m, hpc, -⟩
    cases hk
    cases hpc
  · rintro ⟨ha, -⟩
    cases ha

/-! ### A payment that is published twice -/

/-- The same payment twice, in one batch. -/
def publishedTwice : List Action := [.publish lunch, .publish lunch]

/-- The handler fails on the first entry and returns for the second, whose payment id is then known
when the first comes back. -/
def failedThenDuplicate : List Action :=
  [.run "c", .run "c", .handler "c" (some ⟨"PaymentError", "declined"⟩), .run "c",
    .handler "c" none, .run "c", .run "c", .run "c", .run "c", .run "c", .run "c"]

/-- Nothing is pending any more, and the counter of the first entry is still there. -/
theorem failedThenDuplicate_keeps_counter :
    ∃ w k, run step {} (publishedTwice ++ .start "c" 3 10 :: failedThenDuplicate) = some w ∧
      w.consumers "c" = some k ∧ k.pc = .readNew ∧ w.server.main.pel = [] ∧
      k.attempts 1 = some 1 ∧ ¬ k.RetriesLive "c" w.server := by
  refine ⟨_, _, rfl, rfl, rfl, rfl, rfl, fun h => ?_⟩
  have hown := (h.live 1 1 rfl).1
  exact absurd hown (by decide +kernel)

end World

end Dlq
