import MessageBrokerPatterns.ScatterIsolation
import MessageBrokerPatterns.TopicHistory

/-!
# Searches leave the subscriptions as they were

An action edits the subscriptions in one place at most: it registers a new queue, or it takes one
away. A search registers its queue at its start and takes it away when it ends, whether it returns,
times out, raises or is cancelled. Once it has ended the subscriptions of every topic are what the
other tasks alone have made of them.
-/

namespace ScatterGather
open ActionRun

/-- What an action does to the subscriptions. -/
inductive Edit where
  | keep
  | add (topic : String) (queue : ℕ)
  | remove (topic : String) (queue : ℕ)

namespace Edit

def queue : Edit → Option ℕ
  | .keep => none
  | .add _ queue => some queue
  | .remove _ queue => some queue

/-- The queues registered for the topic `t` after the edit. -/
def apply (t : String) (queues : List ℕ) : Edit → List ℕ
  | .keep => queues
  | .add topic queue => if topic = t then queues ++ [queue] else queues
  | .remove topic queue => if topic = t then queues.erase queue else queues

end Edit

def without (q : ℕ) (queues : List ℕ) : List ℕ := queues.filter fun p => p ≠ q

theorem without_of_notMem {q : ℕ} {queues : List ℕ} (h : q ∉ queues) : without q queues = queues := by
  rw [without, List.filter_eq_self]
  intro p hp
  exact decide_eq_true fun hpq => h (hpq ▸ hp)

theorem Edit.without_apply {e : Edit} {q : ℕ} (h : e.queue ≠ some q) (t : String)
    (queues : List ℕ) : without q (e.apply t queues) = e.apply t (without q queues) := by
  cases e with
  | keep => rfl
  | add topic p =>
    have hp : p ≠ q := fun heq => h (congrArg some heq)
    simp only [apply]
    split_ifs
    · rw [without, List.filter_append, ← without]
      exact congrArg (without q queues ++ ·) (List.filter_cons_of_pos (decide_eq_true hp))
    · rfl
  | remove topic p =>
    simp only [apply]
    split_ifs
    · exact List.erase_filter.symm
    · rfl

theorem Edit.without_apply_self {e : Edit} {q : ℕ} (h : e.queue = none ∨ e.queue = some q) (t : String)
    (queues : List ℕ) : without q (e.apply t queues) = without q queues := by
  cases e with
  | keep => rfl
  | add topic p =>
    obtain rfl : p = q := by simpa [queue] using h
    simp only [apply]
    split_ifs
    · simp [without]
    · rfl
  | remove topic p =>
    obtain rfl : p = q := by simpa [queue] using h
    simp only [apply]
    split_ifs
    · rw [without, ← List.erase_filter, List.erase_of_not_mem (by simp)]
      rfl
    · rfl

/-- What a search does to the subscriptions by a step that leaves it as `s`. -/
def Search.edit (s : Search) : Edit := if s.ended then .remove s.call.topic s.queue else .keep

def Action.search : Action → Option ℕ
  | .scatterGather i _ => some i
  | a => a.mover

theorem Action.search_of_mover {a : Action} {i : ℕ} (h : a.mover = some i) : a.search = some i := by
  cases a with
  | scatterGather j call => cases h
  | _ => exact h

/-- What the action does to the subscriptions, as it leads from `w` to `w'`. -/
def World.edit (w : World) (a : Action) (w' : World) : Edit :=
  match a.mover.bind w'.searches with
  | some s => s.edit
  | none =>
    match a with
    | .scatterGather _ call => .add call.topic w.hub.broker.created
    | .subscribe topic => .add topic w.hub.broker.created
    | .unsubscribe topic queue => .remove topic queue
    | _ => .keep

namespace Search
variable {s : Search} {now : ℤ} {hub : Hub} {r : Search × Hub}

theorem keep_ended (s : Search) (deadline : ℤ) (c : List Message) (m : Message) :
    (s.keep deadline c m).ended = false := by
  unfold Search.keep
  split_ifs <;> rfl

theorem Move.subscribed (hm : s.Move now hub r) (t : String) :
    r.2.broker.subscribed t = r.1.edit.apply t (hub.broker.subscribed t) := by
  have hget {m : Message} {hub' : Hub} (h : hub.get s.queue = some (m, hub')) :
      hub'.broker.subscribed t = hub.broker.subscribed t :=
    congrArg (queuesOf · t) (InMemoryTopicBroker.get_eq_some (Hub.get_eq_some h).1).2.2.1
  have hgone (hub : Hub) : (hub.unsubscribe s.call.topic s.queue).broker.subscribed t =
      (Edit.remove s.call.topic s.queue).apply t (hub.broker.subscribed t) := by
    change (hub.broker.unsubscribe s.call.topic s.queue).subscribed t = _
    rw [InMemoryTopicBroker.subscribed_unsubscribe, Edit.apply]
    split_ifs with ht
    · rw [ht]
    · rfl
  cases hm with
  | broadcast hpc hs =>
    exact InMemoryTopicBroker.subscribed_publish s.call.coordinator.broadcastTopic t _
  | noRecipients hpc hs hr => exact hgone hub
  | address recipients hpc hs hr => rfl
  | recipient airline left hpc =>
    exact InMemoryTopicBroker.subscribed_publish (recipientRequestTopic airline) t _
  | addressed hpc => rfl
  | stop deadline collected hpc hstop => exact hgone _
  | take deadline collected m hub' hpc hroom htime hg =>
    rw [edit, keep_ended]
    exact hget hg
  | wait deadline collected hpc hroom htime hg => rfl
  | woken deadline collected m hub' hpc hg =>
    rw [edit, keep_ended]
    exact hget hg
  | timeout deadline collected hpc => exact hgone _
  | cancel hend => exact hgone hub

theorem Move.not_ended (hm : s.Move now hub r) : s.ended = false := by
  cases hm with
  | cancel hend => exact hend
  | broadcast hpc hs => simp [ended, hpc]
  | noRecipients hpc hs hr => simp [ended, hpc]
  | address recipients hpc hs hr => simp [ended, hpc]
  | recipient airline left hpc => simp [ended, hpc]
  | addressed hpc => simp [ended, hpc]
  | stop deadline collected hpc hstop => simp [ended, hpc]
  | take deadline collected m hub' hpc hroom htime hg => simp [ended, hpc]
  | wait deadline collected hpc hroom htime hg => simp [ended, hpc]
  | woken deadline collected m hub' hpc hg => simp [ended, hpc]
  | timeout deadline collected hpc => simp [ended, hpc]

end Search

namespace World
open InMemoryTopicBroker (Op after subscriptions delivered SubscribedBy)

theorem edit_moved (w : World) {a : Action} {i : ℕ} (ha : a.mover = some i) (r : Search × Hub) :
    w.edit a (w.moved i r) = r.1.edit := by
  have hfound : a.mover.bind (w.moved i r).searches = some r.1 := by
    rw [ha]
    exact Function.update_self ..
  unfold edit
  rw [hfound]

/-- An action edits the subscriptions of every topic as `edit` says. -/
theorem subscribed_step {w w' : World} {a : Action} (h : step w a = some w') (t : String) :
    w'.hub.broker.subscribed t = (w.edit a w').apply t (w.hub.broker.subscribed t) := by
  have hadd (topic : String) : (w.hub.subscribe topic).2.broker.subscribed t =
      (Edit.add topic w.hub.broker.created).apply t (w.hub.broker.subscribed t) := by
    change (w.hub.broker.subscribe topic).2.subscribed t = _
    rw [InMemoryTopicBroker.subscribed_subscribe, Edit.apply]
    split_ifs with ht
    · rw [ht]
    · rfl
  cases Effect.of_step h with
  | start i call hnone => exact hadd call.topic
  | search _ i s r ha hs hm =>
    rw [edit_moved w ha]
    exact hm.subscribed t
  | tick d => rfl
  | publish topic message => exact InMemoryTopicBroker.subscribed_publish topic t message
  | subscribe topic => exact hadd topic
  | unsubscribe topic queue hq =>
    change (w.hub.broker.unsubscribe topic queue).subscribed t =
      (Edit.remove topic queue).apply t (w.hub.broker.subscribed t)
    rw [InMemoryTopicBroker.subscribed_unsubscribe, Edit.apply]
    split_ifs with ht
    · rw [ht]
    · rfl
  | get queue r hq hget =>
    exact congrArg (queuesOf · t) (InMemoryTopicBroker.get_eq_some (Hub.get_eq_some hget).1).2.2.1

/-- What the tasks other than the search `i` do to the subscriptions in the course of a run. -/
def othersDid (i : ℕ) : World → List Action → List Edit
  | _, [] => []
  | w, a :: acts =>
    match step w a with
    | none => []
    | some w' =>
      if a.search = some i then othersDid i w' acts else w.edit a w' :: othersDid i w' acts

theorem edit_queue_of_other {w w' : World} {a : Action} {i : ℕ} {s : Search} (ho : Owned w)
    (hs : w.searches i = some s) (h : step w a = some w') (ha : a.search ≠ some i) :
    (w.edit a w').queue ≠ some s.queue := by
  have hmade := ho.made i s hs
  cases Effect.of_step h with
  | start j call hnone => exact fun heq => hmade.ne (Option.some.inj heq).symm
  | search _ j t r hj ht hm =>
    rw [edit_moved w hj, Search.edit]
    split_ifs
    · intro heq
      have hq : t.queue = s.queue := hm.call_queue.2.symm.trans (Option.some.inj heq)
      obtain rfl := ho.distinct j i t s ht hs hq
      exact ha (Action.search_of_mover hj)
    · exact nofun
  | tick d => exact nofun
  | publish topic message => exact nofun
  | subscribe topic => exact fun heq => hmade.ne (Option.some.inj heq).symm
  | unsubscribe topic queue hq => exact fun heq => ho.hidden i s hs (Option.some.inj heq ▸ hq)
  | get queue r hq hget => exact nofun

theorem edit_queue_of_own {w w' : World} {a : Action} {i : ℕ} {s : Search}
    (hs : w.searches i = some s) (h : step w a = some w') (ha : a.search = some i) :
    (w.edit a w').queue = none ∨ (w.edit a w').queue = some s.queue := by
  cases Effect.of_step h with
  | start j call hnone =>
    obtain rfl : j = i := Option.some.inj ha
    exact absurd (hs.symm.trans hnone) nofun
  | search _ j t r hj ht hm =>
    obtain rfl : j = i := Option.some.inj ((Action.search_of_mover hj).symm.trans ha)
    obtain rfl := Option.some.inj (hs.symm.trans ht)
    rw [edit_moved w hj, Search.edit, hm.call_queue.2]
    split_ifs
    · exact Or.inr rfl
    · exact Or.inl rfl
  | tick d => exact Or.inl rfl
  | publish topic message => exact Or.inl rfl
  | subscribe topic => cases ha
  | unsubscribe topic queue hq => cases ha
  | get queue r hq hget => exact Or.inl rfl

/-- The search has its own queue, which is registered nowhere once the search has ended. -/
structure Closed (i q : ℕ) (w : World) : Prop where
  owned : Owned w
  search : ∃ s, w.searches i = some s ∧ s.queue = q ∧
    (s.ended = false → q ∈ w.hub.broker.subscribed s.call.topic) ∧
    (s.ended = true → ∀ t, q ∉ w.hub.broker.subscribed t)

theorem mem_apply_iff {e : Edit} {q : ℕ} (he : e.queue ≠ some q) (t : String) (queues : List ℕ) :
    q ∈ e.apply t queues ↔ q ∈ queues := by
  cases e with
  | keep => rfl
  | add topic p =>
    have hp : q ≠ p := fun heq => he (congrArg some heq.symm)
    rw [Edit.apply]
    split_ifs
    · simp [hp]
    · rfl
  | remove topic p =>
    have hp : q ≠ p := fun heq => he (congrArg some heq.symm)
    rw [Edit.apply]
    split_ifs
    · exact List.mem_erase_of_ne hp
    · rfl

theorem searches_of_other {w w' : World} {a : Action} {i : ℕ} (h : step w a = some w')
    (ha : a.search ≠ some i) : w'.searches i = w.searches i := by
  cases Effect.of_step h with
  | start j call hnone => exact Function.update_of_ne (fun hij => ha (congrArg some hij.symm)) _ _
  | search _ j t r hj ht hm =>
    refine Function.update_of_ne (fun hij => ha ?_) _ _
    exact hij ▸ Action.search_of_mover hj
  | _ => rfl

theorem closed_move {w : World} {s : Search} {r : Search × Hub} (hm : s.Move w.now w.hub r)
    (hlive : s.queue ∈ w.hub.broker.subscribed s.call.topic) :
    (r.1.ended = false → s.queue ∈ r.2.broker.subscribed s.call.topic) ∧
      (r.1.ended = true → ∀ t, s.queue ∉ r.2.broker.subscribed t) := by
  constructor
  · intro hend
    rw [hm.subscribed, Search.edit, hend]
    exact hlive
  · intro hend t hq
    rw [hm.subscribed, Search.edit, hend, if_pos rfl, hm.call_queue.1, hm.call_queue.2,
      Edit.apply] at hq
    split_ifs at hq with ht
    · subst ht
      exact ((w.hub.broker.nodup_subscribed _).mem_erase_iff.mp hq).1 rfl
    · exact ht (w.hub.broker.registered.alone _ t s.queue hlive hq)

theorem closed_step {i q : ℕ} (w : World) (a : Action) (w' : World) (hc : Closed i q w)
    (h : step w a = some w') : Closed i q w' := by
  obtain ⟨s, hs, rfl, hlive, hdead⟩ := hc.search
  refine ⟨owned_step w a w' hc.owned h, ?_⟩
  by_cases ha : a.search = some i
  · cases Effect.of_step h with
    | start j call hnone =>
      obtain rfl : j = i := Option.some.inj ha
      exact absurd (hs.symm.trans hnone) nofun
    | search _ j t r hj ht hm =>
      obtain rfl : j = i := Option.some.inj ((Action.search_of_mover hj).symm.trans ha)
      obtain rfl := Option.some.inj (hs.symm.trans ht)
      refine ⟨r.1, Function.update_self .., hm.call_queue.2, ?_⟩
      rw [hm.call_queue.1]
      exact closed_move hm (hlive hm.not_ended)
    | tick d => cases ha
    | publish topic message => cases ha
    | subscribe topic => cases ha
    | unsubscribe topic queue hq => cases ha
    | get queue r hq hget => cases ha
  · have hother := edit_queue_of_other hc.owned hs h ha
    refine ⟨s, (searches_of_other h ha).trans hs, rfl, fun hend => ?_, fun hend t => ?_⟩
    · rw [subscribed_step h, mem_apply_iff hother]
      exact hlive hend
    · rw [subscribed_step h, mem_apply_iff hother]
      exact hdead hend t

theorem closed_start {u v : World} {i : ℕ} {call : Call} (ho : Owned u)
    (h : step u (.scatterGather i call) = some v) : Closed i u.hub.broker.created v := by
  have hadd := subscribed_step h call.topic
  have hnext := owned_step u _ v ho h
  cases Effect.of_step h with
  | search _ j t r hj ht hm => cases hj
  | start _ _ hnone =>
    refine ⟨hnext, _, Function.update_self .., rfl, fun _ => ?_, nofun⟩
    rw [hadd]
    change u.hub.broker.created ∈ if call.topic = call.topic then _ else _
    rw [if_pos rfl]
    exact List.mem_append_right _ (List.mem_singleton.mpr rfl)

/-- Without the queue of the search, a run does to the subscriptions what the other tasks do. -/
theorem without_run {i q : ℕ} {w w' : World} {acts : List Action} (hc : Closed i q w)
    (h : run step w acts = some w') (t : String) :
    without q (w'.hub.broker.subscribed t) =
      (othersDid i w acts).foldl (fun queues e => e.apply t queues)
        (without q (w.hub.broker.subscribed t)) := by
  induction acts generalizing w with
  | nil =>
    obtain rfl := Option.some.inj h
    rfl
  | cons a acts ih =>
    obtain ⟨v, hv, hrun⟩ := run_cons_eq_some.mp h
    obtain ⟨s, hs, rfl, -⟩ := hc.search
    rw [ih (closed_step w a v hc hv) hrun, subscribed_step hv t, othersDid, hv]
    by_cases ha : a.search = some i
    · rw [Edit.without_apply_self (edit_queue_of_own hs hv ha)]
      simp only [ha, if_true]
    · rw [Edit.without_apply (edit_queue_of_other hc.owned hs hv ha)]
      simp only [ha, if_false]
      rfl

/-- A search leaves the subscriptions of every topic as they were before it started, apart from
what the other tasks did meanwhile, however it has ended. -/
theorem subscribed_eq_othersDid {i : ℕ} {call : Call} {before acts : List Action} {u v w : World}
    (hu : run step {} before = some u) (hv : step u (.scatterGather i call) = some v)
    (hw : run step v acts = some w) {s : Search} (hs : w.searches i = some s)
    (hend : s.ended = true) (t : String) :
    w.hub.broker.subscribed t =
      (othersDid i v acts).foldl (fun queues e => e.apply t queues) (u.hub.broker.subscribed t) := by
  have ho : Owned u := run_invariant_of_step owned_step owned_init hu
  have hstart := closed_start ho hv
  have hclosed := run_invariant_of_step closed_step hstart hw
  obtain ⟨s', hs', -, -, hdead⟩ := hclosed.search
  obtain rfl := Option.some.inj (hs.symm.trans hs')
  have hfresh : u.hub.broker.created ∉ u.hub.broker.subscribed t :=
    fun hq => (u.hub.broker.registered.fresh t _ hq).ne rfl
  have hnew : without u.hub.broker.created (v.hub.broker.subscribed t) =
      u.hub.broker.subscribed t := by
    rw [subscribed_step hv, Edit.without_apply_self (Or.inr rfl), without_of_notMem hfresh]
  rw [← without_of_notMem (hdead hend t), without_run hstart hw, hnew]

/-- The fan-out over whole histories. No call of a history takes from a queue, so the content of a
queue is all that was ever put there. -/
theorem fan_out (μ : Type*) :
    (∀ (before later : List (Op μ)) (t : String),
      (after (before ++ .subscribe t :: later)).queues (subscriptions before) =
        delivered t (subscriptions before) later) ∧
    (∀ (ops : List (Op μ)) (t : String) (m : μ),
      ((after ops).publish t m).1 = Set.ncard {q | SubscribedBy ops t q}) ∧
    (∀ (ops : List (Op μ)) (op : Op μ) (t : String), op.topic ≠ t →
      (after (ops ++ [op])).subscribed t = (after ops).subscribed t) ∧
    (∀ (before later : List (Op μ)) (op : Op μ) (t : String), op.topic ≠ t →
      (after (before ++ .subscribe t :: (later ++ [op]))).queues (subscriptions before) =
        (after (before ++ .subscribe t :: later)).queues (subscriptions before)) ∧
    ∀ (i : ℕ) (call : Call) (before acts : List Action) (u v w : World) (s : Search),
      run step {} before = some u → step u (.scatterGather i call) = some v →
      run step v acts = some w → w.searches i = some s → s.ended = true →
      ∀ t, w.hub.broker.subscribed t =
        (othersDid i v acts).foldl (fun queues e => e.apply t queues) (u.hub.broker.subscribed t) := by
  refine ⟨fun before later t => InMemoryTopicBroker.queues_after before later t,
    fun ops t m => InMemoryTopicBroker.publish_after ops t m, fun ops op t h => ?_,
    fun before later op t h => InMemoryTopicBroker.other_topic before later t h,
    fun i call before acts u v w s hu hv hw hs hend t => subscribed_eq_othersDid hu hv hw hs hend t⟩
  rw [InMemoryTopicBroker.after_append]
  exact InMemoryTopicBroker.subscribed_perform_of_ne (after ops) h

/-- The first search times out, the second one goes on listening. -/
theorem fan_out_crossedSearches : ∃ v w,
    run step {} [.subscribe broadcastRequestTopic, .scatterGather 0 (searchFor "search-A")] = some v ∧
      run step v crossedSearches = some w ∧
      w.hub.broker.subscribed responseTopicDefault = [2] ∧
      w.hub.broker.subscribed responseTopicDefault =
        (othersDid 0 v crossedSearches).foldl
          (fun queues e => e.apply responseTopicDefault queues) [] := by
  obtain ⟨u, v, w, hu, hv, hw, hrun, hnil, s, hs, hend, hsub⟩ : ∃ u v w,
      run step {} [.subscribe broadcastRequestTopic] = some u ∧
      step u (.scatterGather 0 (searchFor "search-A")) = some v ∧
      run step v crossedSearches = some w ∧
      run step {} [.subscribe broadcastRequestTopic, .scatterGather 0 (searchFor "search-A")] = some v ∧
      u.hub.broker.subscribed responseTopicDefault = [] ∧
      ∃ s, w.searches 0 = some s ∧ s.ended = true ∧
        w.hub.broker.subscribed responseTopicDefault = [2] :=
    ⟨_, _, _, rfl, rfl, rfl, rfl, rfl, _, rfl, rfl, rfl⟩
  refine ⟨v, w, hrun, hw, hsub, ?_⟩
  rw [(fan_out ℕ).2.2.2.2 0 (searchFor "search-A") _ _ u v w s hu hv hw hs hend, hnil]

end World
end ScatterGather
