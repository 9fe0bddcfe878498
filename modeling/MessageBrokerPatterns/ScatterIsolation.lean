import MessageBrokerPatterns.ScatterGather
import MessageBrokerPatterns.Slots

/-!
# Searches are isolated and lose nothing

What a search has taken from its queue, followed by what is still on it, is everything that was
published to its response topic since it subscribed: publishing extends the queue and the log
alike, and nobody else takes from the queue. The quotes of a search are therefore the first ones of
its correlation id, whatever other searches and tasks do.
-/

namespace ScatterGather
open PyText PyDict ActionRun

/-- What has been published to a topic behind the first `n` messages of the log. -/
def Hub.since (hub : Hub) (n : ℕ) (topic : String) : List Message :=
  ((hub.log.drop n).filter fun e => e.1 = topic).map Prod.snd

def Hub.Listens (hub : Hub) (queue : ℕ) (topic : String) : Prop :=
  queue ∈ hub.broker.subscribed topic

/-- The queue has got what was published to the topic, in order, and stays registered. -/
def Hub.Carries (hub hub' : Hub) (queue : ℕ) (topic : String) : Prop :=
  hub'.Listens queue topic ∧ ∃ es, hub'.log = hub.log ++ es ∧
    hub'.broker.queues queue =
      hub.broker.queues queue ++ (es.filter fun e => e.1 = topic).map Prod.snd

theorem Hub.since_append {hub hub' : Hub} {n : ℕ} (hn : n ≤ hub.log.length)
    {es : List (String × Message)} (h : hub'.log = hub.log ++ es) (topic : String) :
    hub'.since n topic = hub.since n topic ++ (es.filter fun e => e.1 = topic).map Prod.snd := by
  rw [since, h, List.drop_append_of_le_length hn, List.filter_append, List.map_append, ← since]

/-- What the holder of some queues, and of no others, can do to the hub. -/
inductive Hub.Step (holds : ℕ → Prop) (hub : Hub) : Hub → Prop where
  | quiet {hub' : Hub} (hb : hub'.broker = hub.broker) (hl : hub'.log = hub.log) :
      Step holds hub hub'
  | subscribe (topic : String) : Step holds hub (hub.subscribe topic).2
  | publish {hub' : Hub} (topic : String) (message : Message)
      (hb : hub'.broker = (hub.broker.publish topic message).2)
      (hl : hub'.log = hub.log ++ [(topic, message)]) : Step holds hub hub'
  | unsubscribe {hub' : Hub} (topic : String) (queue : ℕ) (hq : holds queue)
      (hb : hub'.broker = hub.broker.unsubscribe topic queue) (hl : hub'.log = hub.log) :
      Step holds hub hub'
  | get {hub' : Hub} (queue : ℕ) (message : Message) (hq : holds queue)
      (hb : hub.broker.get queue = some (message, hub'.broker)) (hl : hub'.log = hub.log) :
      Step holds hub hub'

namespace Hub
variable {hub hub' : Hub} {holds : ℕ → Prop}

theorem get_eq_some {queue : ℕ} {m : Message} (h : hub.get queue = some (m, hub')) :
    hub.broker.get queue = some (m, hub'.broker) ∧ hub'.log = hub.log := by
  obtain ⟨r, hr, heq⟩ := Option.map_eq_some_iff.mp h
  obtain ⟨rfl, rfl⟩ := Prod.mk.inj heq
  exact ⟨hr, rfl⟩

theorem Step.created_le (h : Step holds hub hub') : hub.broker.created ≤ hub'.broker.created := by
  cases h with
  | quiet hb hl => exact (congrArg _ hb).ge
  | subscribe topic => exact Nat.le_succ _
  | publish topic message hb hl => exact ((congrArg _ hb).trans (by simp)).ge
  | unsubscribe topic queue hq hb hl => exact ((congrArg _ hb).trans (by simp)).ge
  | get queue message hq hb hl => exact (InMemoryTopicBroker.get_eq_some hb).2.2.2.ge

theorem Step.log_prefix (h : Step holds hub hub') : hub.log <+: hub'.log := by
  cases h with
  | quiet hb hl => exact hl ▸ List.prefix_rfl
  | subscribe topic => exact List.prefix_rfl
  | publish topic message hb hl => exact hl ▸ List.prefix_append _ _
  | unsubscribe topic queue hq hb hl => exact hl ▸ List.prefix_rfl
  | get queue message hq hb hl => exact hl ▸ List.prefix_rfl

theorem Step.carries (h : Step holds hub hub') {queue : ℕ} {topic : String}
    (hq : hub.Listens queue topic) (hnot : ¬ holds queue) : hub.Carries hub' queue topic := by
  have hlt := hub.broker.registered.fresh topic queue hq
  cases h with
  | quiet hb hl =>
    refine ⟨by rwa [Listens, hb], [], by rw [hl, List.append_nil], ?_⟩
    rw [hb]
    exact (List.append_nil _).symm
  | subscribe t =>
    refine ⟨?_, [], (List.append_nil _).symm, ?_⟩
    · change queue ∈ (hub.broker.subscribe t).2.subscribed topic
      rw [InMemoryTopicBroker.subscribed_subscribe]
      split_ifs with ht
      · subst ht
        exact List.mem_append_left _ hq
      · exact hq
    · change (hub.broker.subscribe t).2.queues queue = _
      rw [InMemoryTopicBroker.queues_subscribe, if_neg hlt.ne]
      exact (List.append_nil _).symm
  | publish t message hb hl =>
    refine ⟨by rwa [Listens, hb, InMemoryTopicBroker.subscribed_publish], [(t, message)], hl, ?_⟩
    rw [hb, InMemoryTopicBroker.queues_publish]
    by_cases ht : t = topic
    · subst ht
      have hmem : queue ∈ hub.broker.subscribed t := hq
      simp [hmem]
    · have hmem : queue ∉ hub.broker.subscribed t :=
        fun hmem => ht (hub.broker.registered.alone t topic queue hmem hq)
      simp [hmem, ht]
  | unsubscribe t p hp hb hl =>
    have hne : queue ≠ p := fun heq => hnot (heq ▸ hp)
    refine ⟨?_, [], by rw [hl, List.append_nil], ?_⟩
    · rw [Listens, hb, InMemoryTopicBroker.subscribed_unsubscribe]
      split_ifs with ht
      · subst ht
        exact (List.mem_erase_of_ne hne).mpr hq
      · exact hq
    · rw [hb, InMemoryTopicBroker.queues_unsubscribe]
      exact (List.append_nil _).symm
  | get p message hp hb hl =>
    have hne : queue ≠ p := fun heq => hnot (heq ▸ hp)
    obtain ⟨-, hother, hsub, -⟩ := InMemoryTopicBroker.get_eq_some hb
    refine ⟨?_, [], by rw [hl, List.append_nil], ?_⟩
    · rw [Listens, InMemoryTopicBroker.subscribed, hsub]
      exact hq
    · rw [hother queue hne]
      exact (List.append_nil _).symm

end Hub

/-- The messages of the search's own correlation id. -/
def Call.own (call : Call) (ms : List Message) : List Message :=
  ms.filter fun m => m.correlationId = call.request.correlationId

namespace Search

def collected (s : Search) : List Message :=
  match s.pc with
  | .gather _ collected => collected
  | .get _ collected => collected
  | .returned quotes => quotes
  | _ => []

/-- What a search that subscribed at the length `n` of the log has taken from its queue, and what
is still on it. -/
structure Law (s : Search) (n : ℕ) (hub : Hub) : Prop where
  behind : n ≤ hub.log.length
  room : (s.collected.length : ℤ) ≤ max s.call.expected 0
  waits : ∀ deadline c, s.pc = .get deadline c → (c.length : ℤ) < s.call.expected
  listens : s.ended = false → hub.Listens s.queue s.call.topic
  taken : ∃ got, got <+: hub.since n s.call.topic ∧ s.collected = s.call.own got ∧
    (s.ended = false → got ++ hub.broker.queues s.queue = hub.since n s.call.topic)

variable {s : Search} {n : ℕ} {hub hub' : Hub}

theorem Law.frame (h : s.Law n hub) {holds : ℕ → Prop} (hstep : hub.Step holds hub')
    (hnot : ¬ holds s.queue) : s.Law n hub' := by
  have hle := hstep.log_prefix
  obtain ⟨es, hes⟩ := hle
  have hsince := Hub.since_append h.behind hes.symm s.call.topic
  obtain ⟨got, hpre, hcol, hlive⟩ := h.taken
  refine ⟨h.behind.trans hstep.log_prefix.length_le, h.room, h.waits,
    fun hend => (hstep.carries (h.listens hend) hnot).1, got,
    hpre.trans (hsince ▸ List.prefix_append _ _), hcol, fun hend => ?_⟩
  obtain ⟨-, es', hes', hq⟩ := hstep.carries (h.listens hend) hnot
  rw [hq, ← List.append_assoc, hlive hend, Hub.since_append h.behind hes']

theorem Law.same (h : s.Law n hub) {s' : Search} (hcall : s'.call = s.call)
    (hqueue : s'.queue = s.queue) (hcol : s'.collected = s.collected)
    (hend : s'.ended = false → s.ended = false)
    (hwaits : ∀ deadline c, s'.pc = .get deadline c → (c.length : ℤ) < s.call.expected) :
    s'.Law n hub := by
  refine ⟨h.behind, by rw [hcol, hcall]; exact h.room, by rw [hcall]; exact hwaits,
    fun he => ?_, ?_⟩
  · rw [hqueue, hcall]
    exact h.listens (hend he)
  · obtain ⟨got, hpre, hgot, hlive⟩ := h.taken
    rw [hcol, hqueue, hcall]
    exact ⟨got, hpre, hgot, fun he => hlive (hend he)⟩

theorem Law.close (h : s.Law n hub) {s' : Search} (hlog : hub'.log = hub.log)
    (hcall : s'.call = s.call) (hend : s'.ended = true)
    (hcol : s'.collected = s.collected ∨ s'.collected = []) : s'.Law n hub' := by
  have hsince : hub'.since n s.call.topic = hub.since n s.call.topic := by
    rw [Hub.since, hlog, ← Hub.since]
  have hlive {P : Prop} (he : s'.ended = false) : P := by
    rw [hend] at he
    cases he
  have hwaits (deadline : ℤ) (c : List Message) (hpc : s'.pc = .get deadline c) :
      (c.length : ℤ) < s'.call.expected :=
    hlive (by simp only [ended, hpc])
  obtain ⟨got, hpre, hgot, -⟩ := h.taken
  rcases hcol with hcol | hcol
  · refine ⟨hlog ▸ h.behind, by rw [hcol, hcall]; exact h.room, hwaits, fun he => hlive he, got, ?_,
      ?_, fun he => hlive he⟩
    · rw [hcall, hsince]
      exact hpre
    · rw [hcol, hcall, hgot]
  · exact ⟨hlog ▸ h.behind, by rw [hcol]; exact le_max_right _ _, hwaits, fun he => hlive he, [],
      List.nil_prefix, hcol, fun he => hlive he⟩

theorem own_append (call : Call) (ms : List Message) (m : Message) :
    call.own (ms ++ [m]) = call.own ms ++
      if m.correlationId = call.request.correlationId then [m] else [] := by
  rw [Call.own, List.filter_append, ← Call.own]
  by_cases hm : m.correlationId = call.request.correlationId
  · simp [hm]
  · simp [hm]

theorem Law.keep (h : s.Law n hub) {deadline : ℤ} {m : Message}
    (hget : hub.get s.queue = some (m, hub')) (hend : s.ended = false)
    (hroom : (s.collected.length : ℤ) < s.call.expected) :
    (s.keep deadline s.collected m).Law n hub' := by
  obtain ⟨hb, hlog⟩ := Hub.get_eq_some hget
  obtain ⟨hq, -, hsub, -⟩ := InMemoryTopicBroker.get_eq_some hb
  have hsince : hub'.since n s.call.topic = hub.since n s.call.topic := by
    rw [Hub.since, hlog, ← Hub.since]
  obtain ⟨got, -, hgot, hlive⟩ := h.taken
  have hall : (got ++ [m]) ++ hub'.broker.queues s.queue = hub'.since n s.call.topic := by
    rw [hsince, ← hlive hend, hq, List.append_assoc, List.singleton_append]
  have hcall : (s.keep deadline s.collected m).call = s.call ∧
      (s.keep deadline s.collected m).queue = s.queue := by
    unfold Search.keep
    split_ifs <;> exact ⟨rfl, rfl⟩
  have hcol : (s.keep deadline s.collected m).collected = s.call.own (got ++ [m]) := by
    rw [own_append, ← hgot, Search.keep]
    by_cases hm : m.correlationId = s.call.request.correlationId
    · simp [hm, collected]
    · simp [hm, collected]
  have hlen : (s.keep deadline s.collected m).collected.length ≤ s.collected.length + 1 := by
    rw [hcol, own_append, ← hgot, List.length_append]
    split_ifs
    · exact le_rfl
    · exact Nat.le_succ _
  refine ⟨hlog ▸ h.behind, ?_, ?_, fun _ => ?_, got ++ [m], ?_, ?_, fun _ => ?_⟩
  · rw [hcall.1]
    omega
  · intro d c hpc
    unfold Search.keep at hpc
    split_ifs at hpc
  · rw [hcall.1, hcall.2, Hub.Listens, InMemoryTopicBroker.subscribed, hsub]
    exact h.listens hend
  · rw [hcall.1, ← hall]
    exact List.prefix_append _ _
  · rw [hcall.1]
    exact hcol
  · rw [hcall.1, hcall.2]
    exact hall

theorem Move.hub_step {now : ℤ} {r : Search × Hub} (hm : s.Move now hub r) :
    hub.Step (fun q => q = s.queue) r.2 := by
  cases hm with
  | broadcast hpc hs => exact .publish s.call.coordinator.broadcastTopic (.request s.call.request) rfl rfl
  | noRecipients hpc hs hr => exact .unsubscribe s.call.topic s.queue rfl rfl rfl
  | address recipients hpc hs hr => exact .quiet rfl rfl
  | recipient airline left hpc =>
    exact .publish (recipientRequestTopic airline) (.request s.call.request) rfl rfl
  | addressed hpc => exact .quiet rfl rfl
  | stop deadline collected hpc hstop => exact .unsubscribe s.call.topic s.queue rfl rfl rfl
  | take deadline collected m hub' hpc hroom htime hget =>
    obtain ⟨hb, hl⟩ := Hub.get_eq_some hget
    exact .get s.queue m rfl hb hl
  | wait deadline collected hpc hroom htime hget => exact .quiet rfl rfl
  | woken deadline collected m hub' hpc hget =>
    obtain ⟨hb, hl⟩ := Hub.get_eq_some hget
    exact .get s.queue m rfl hb hl
  | timeout deadline collected hpc => exact .unsubscribe s.call.topic s.queue rfl rfl rfl
  | cancel hend => exact .unsubscribe s.call.topic s.queue rfl rfl rfl

theorem Move.call_queue {now : ℤ} {r : Search × Hub} (hm : s.Move now hub r) :
    r.1.call = s.call ∧ r.1.queue = s.queue := by
  have hkeep (deadline : ℤ) (c : List Message) (m : Message) :
      (s.keep deadline c m).call = s.call ∧ (s.keep deadline c m).queue = s.queue := by
    unfold Search.keep
    split_ifs <;> exact ⟨rfl, rfl⟩
  cases hm with
  | take deadline collected m hub' hpc hroom htime hget => exact hkeep deadline collected m
  | woken deadline collected m hub' hpc hget => exact hkeep deadline collected m
  | _ => exact ⟨rfl, rfl⟩

theorem Move.law {now : ℤ} {r : Search × Hub} (hm : s.Move now hub r) (h : s.Law n hub) :
    r.1.Law n r.2 := by
  cases hm with
  | broadcast hpc hs =>
    have hstep : hub.Step (fun _ => False)
        (hub.publish s.call.coordinator.broadcastTopic (.request s.call.request)).2.countScattered :=
      .publish s.call.coordinator.broadcastTopic (.request s.call.request) rfl rfl
    exact (h.frame hstep id).same rfl rfl (by simp [scattered, collected, hpc])
      (fun _ => by simp [ended, hpc]) nofun
  | noRecipients hpc hs hr => exact h.close rfl rfl rfl (Or.inr rfl)
  | address recipients hpc hs hr =>
    exact h.same rfl rfl (by simp [collected, hpc]) (fun _ => by simp [ended, hpc]) nofun
  | recipient airline left hpc =>
    have hstep : hub.Step (fun _ => False)
        (hub.publish (recipientRequestTopic airline) (.request s.call.request)).2 :=
      .publish (recipientRequestTopic airline) (.request s.call.request) rfl rfl
    exact (h.frame hstep id).same rfl rfl (by simp [collected, hpc]) (fun _ => by simp [ended, hpc])
      nofun
  | addressed hpc =>
    have hstep : hub.Step (fun _ => False) hub.countScattered := .quiet rfl rfl
    exact (h.frame hstep id).same rfl rfl (by simp [scattered, collected, hpc])
      (fun _ => by simp [ended, hpc]) nofun
  | stop deadline c hpc hstop =>
    exact h.close rfl rfl rfl (Or.inl (by simp [gathered, collected, hpc]))
  | take deadline c m hub' hpc hroom htime hget =>
    have hc : s.collected = c := by simp only [collected, hpc]
    exact hc ▸ h.keep hget (by simp [ended, hpc]) (hc.symm ▸ hroom)
  | wait deadline c hpc hroom htime hget =>
    refine h.same rfl rfl (by simp [collected, hpc]) (fun _ => by simp [ended, hpc]) ?_
    intro d c' hpc'
    cases hpc'
    exact hroom
  | woken deadline c m hub' hpc hget =>
    have hc : s.collected = c := by simp only [collected, hpc]
    exact hc ▸ h.keep hget (by simp [ended, hpc]) (hc.symm ▸ h.waits deadline c hpc)
  | timeout deadline c hpc =>
    exact h.close rfl rfl rfl (Or.inl (by simp [gathered, collected, hpc]))
  | cancel hend => exact h.close rfl rfl rfl (Or.inr rfl)

/-- What a search has collected are the first messages of its correlation id. -/
theorem Law.collected_eq_take (h : s.Law n hub) :
    s.collected = (s.call.own (hub.since n s.call.topic)).take s.collected.length := by
  obtain ⟨got, hpre, hgot, -⟩ := h.taken
  have hown : s.collected <+: s.call.own (hub.since n s.call.topic) := by
    rw [hgot]
    exact hpre.filter _
  exact List.prefix_iff_eq_take.mp hown

end Search

namespace World

/-- Every queue has one user. -/
structure Owned (w : World) : Prop where
  othersMade : ∀ q ∈ w.others, q < w.hub.broker.created
  made : ∀ i s, w.searches i = some s → s.queue < w.hub.broker.created
  hidden : ∀ i s, w.searches i = some s → s.queue ∉ w.others
  distinct : ∀ i j s t, w.searches i = some s → w.searches j = some t → s.queue = t.queue → i = j

/-- The search `i` obeys the law of a search that subscribed at the length `n` of the log. -/
def SearchLaw (i : ℕ) (call : Call) (n : ℕ) (w : World) : Prop :=
  ∃ s, w.searches i = some s ∧ s.call = call ∧ s.Law n w.hub

theorem owned_init : Owned {} where
  othersMade q h := by cases h
  made i s h := by cases h
  hidden i s h := by cases h
  distinct i j s t h := by cases h

theorem owned_moved {w : World} (hi : Owned w) {i : ℕ} {r : Search × Hub}
    (hle : w.hub.broker.created ≤ r.2.broker.created) (hmade : r.1.queue < r.2.broker.created)
    (hhidden : r.1.queue ∉ w.others)
    (hnew : ∀ j t, j ≠ i → w.searches j = some t → r.1.queue ≠ t.queue) : Owned (w.moved i r) := by
  have hothers (j : ℕ) (t : Search) (ht : w.searches j = some t) :
      t.queue < r.2.broker.created := (hi.made j t ht).trans_le hle
  exact ⟨fun q hq => (hi.othersMade q hq).trans_le hle, Slots.forall_update hothers hmade,
    Slots.forall_update hi.hidden hhidden, Slots.injective_update Search.queue hi.distinct hnew⟩

theorem owned_step (w : World) (a : Action) (w' : World) (hi : Owned w)
    (h : step w a = some w') : Owned w' := by
  cases Effect.of_step h with
  | start i call hnone =>
    exact owned_moved hi (Nat.le_succ _) (Nat.lt_succ_self _)
      (fun hq => (hi.othersMade _ hq).ne rfl) fun j t _ ht heq => (hi.made j t ht).ne heq.symm
  | search _ i s r _ hs hm =>
    have hle := hm.hub_step.created_le
    have hq := hm.call_queue.2
    refine owned_moved hi hle (hq ▸ (hi.made i s hs).trans_le hle) (hq ▸ hi.hidden i s hs) ?_
    intro j t hj ht heq
    exact hj (hi.distinct j i t s ht hs (heq.symm.trans hq))
  | tick d => exact ⟨hi.othersMade, hi.made, hi.hidden, hi.distinct⟩
  | publish topic message =>
    have hle : w.hub.broker.created ≤ (w.hub.publish topic message).2.broker.created :=
      (InMemoryTopicBroker.created_publish topic message).ge
    exact ⟨fun q hq => (hi.othersMade q hq).trans_le hle,
      fun i s hs => (hi.made i s hs).trans_le hle, hi.hidden, hi.distinct⟩
  | subscribe topic =>
    refine ⟨fun q hq => ?_, fun i s hs => Nat.lt_succ_of_lt (hi.made i s hs), fun i s hs hq => ?_,
      hi.distinct⟩
    · rcases List.mem_append.mp hq with hq | hq
      · exact Nat.lt_succ_of_lt (hi.othersMade q hq)
      · exact (List.mem_singleton.mp hq).trans_lt (Nat.lt_succ_self _)
    · rcases List.mem_append.mp hq with hq | hq
      · exact hi.hidden i s hs hq
      · exact (hi.made i s hs).ne (List.mem_singleton.mp hq)
  | unsubscribe topic queue hq =>
    have hc : (w.hub.unsubscribe topic queue).broker.created = w.hub.broker.created :=
      InMemoryTopicBroker.created_unsubscribe topic queue
    exact ⟨fun q hq => (hi.othersMade q hq).trans_le hc.ge,
      fun i s hs => (hi.made i s hs).trans_le hc.ge, hi.hidden, hi.distinct⟩
  | get queue r hq hget =>
    have hc := (InMemoryTopicBroker.get_eq_some (Hub.get_eq_some hget).1).2.2.2
    exact ⟨fun q hq => (hi.othersMade q hq).trans_le hc.ge,
      fun i s hs => (hi.made i s hs).trans_le hc.ge, hi.hidden, hi.distinct⟩

theorem searchLaw_start {u v : World} {i : ℕ} {call : Call}
    (h : step u (.scatterGather i call) = some v) : SearchLaw i call u.hub.log.length v := by
  cases Effect.of_step h with
  | search _ j s r ha hs hm => cases ha
  | start _ _ hnone =>
    have hnil (t : String) : (u.hub.subscribe call.topic).2.since u.hub.log.length t = [] := by
      rw [Hub.since, Hub.subscribe, List.drop_length]
      rfl
    refine ⟨_, Function.update_self .., rfl, le_rfl, le_max_right _ _, nofun, fun _ => ?_, [],
      List.nil_prefix, rfl, fun _ => ?_⟩
    · change u.hub.broker.created ∈ (u.hub.broker.subscribe call.topic).2.subscribed call.topic
      rw [InMemoryTopicBroker.subscribed_subscribe, if_pos rfl]
      exact List.mem_append_right _ (List.mem_singleton.mpr rfl)
    · change [] ++ (u.hub.broker.subscribe call.topic).2.queues u.hub.broker.created =
        (u.hub.subscribe call.topic).2.since u.hub.log.length call.topic
      rw [InMemoryTopicBroker.queues_subscribe, if_pos rfl, hnil]
      rfl

theorem searchLaw_step {i : ℕ} {call : Call} {n : ℕ} (w : World) (a : Action) (w' : World)
    (hi : Owned w ∧ SearchLaw i call n w) (h : step w a = some w') :
    Owned w' ∧ SearchLaw i call n w' := by
  obtain ⟨ho, s, hs, hcall, hlaw⟩ := hi
  refine ⟨owned_step w a w' ho h, ?_⟩
  have hframe {holds : ℕ → Prop} {hub' : Hub} (hstep : w.hub.Step holds hub')
      (hnot : ¬ holds s.queue) : s.Law n hub' := hlaw.frame hstep hnot
  cases Effect.of_step h with
  | start j call' hnone =>
    have hne : i ≠ j := by
      rintro rfl
      rw [hs] at hnone
      cases hnone
    have hstep : w.hub.Step (fun _ => False) (w.hub.subscribe call'.topic).2 := .subscribe _
    exact ⟨s, (Function.update_of_ne hne ..).trans hs, hcall, hframe hstep id⟩
  | search _ j t r _ ht hm =>
    by_cases hij : i = j
    · subst hij
      obtain rfl := Option.some.inj (hs.symm.trans ht)
      exact ⟨r.1, Function.update_self .., hm.call_queue.1.trans hcall, hm.law hlaw⟩
    · have hnot : ¬ s.queue = t.queue := fun heq => hij (ho.distinct i j s t hs ht heq)
      exact ⟨s, (Function.update_of_ne hij ..).trans hs, hcall, hframe hm.hub_step hnot⟩
  | tick d => exact ⟨s, hs, hcall, hlaw⟩
  | publish topic message =>
    have hstep : w.hub.Step (fun _ => False) (w.hub.publish topic message).2 :=
      .publish topic message rfl rfl
    exact ⟨s, hs, hcall, hframe hstep id⟩
  | subscribe topic =>
    have hstep : w.hub.Step (fun _ => False) (w.hub.subscribe topic).2 := .subscribe topic
    exact ⟨s, hs, hcall, hframe hstep id⟩
  | unsubscribe topic queue hq =>
    have hstep : w.hub.Step (fun q => q ∈ w.others) (w.hub.unsubscribe topic queue) :=
      .unsubscribe topic queue hq rfl rfl
    exact ⟨s, hs, hcall, hframe hstep (ho.hidden i s hs)⟩
  | get queue r hq hget =>
    obtain ⟨hb, hl⟩ := Hub.get_eq_some hget
    have hstep : w.hub.Step (fun q => q ∈ w.others) r.2 := .get queue r.1 hq hb hl
    exact ⟨s, hs, hcall, hframe hstep (ho.hidden i s hs)⟩

/-- The messages of the search's correlation id that were published to its response topic after
the world `u`, where it was started. -/
def responses (u w : World) (call : Call) : List Message :=
  call.own (w.hub.since u.hub.log.length call.topic)

/-- The search `i` is started in `u` and has returned the quotes by `w`. -/
structure Returns (i : ℕ) (call : Call) (u w : World) (quotes : List Message) : Prop where
  before : ∃ acts, run step {} acts = some u
  started : ∃ v acts, step u (.scatterGather i call) = some v ∧ run step v acts = some w
  result : ∃ s, w.searches i = some s ∧ s.pc = .returned quotes

theorem Returns.law {i : ℕ} {call : Call} {u w : World} {quotes : List Message}
    (h : Returns i call u w quotes) :
    ∃ s : Search, s.call = call ∧ s.collected = quotes ∧ s.Law u.hub.log.length w.hub := by
  obtain ⟨acts, hacts⟩ := h.before
  obtain ⟨v, rest, hv, hrest⟩ := h.started
  obtain ⟨s, hs, hpc⟩ := h.result
  have hu : Owned u := run_invariant_of_step owned_step owned_init hacts
  obtain ⟨-, t, ht, hcall, hlaw⟩ := run_invariant_of_step searchLaw_step
    ⟨owned_step u _ v hu hv, searchLaw_start hv⟩ hrest
  obtain rfl := Option.some.inj (hs.symm.trans ht)
  exact ⟨s, hcall, by simp only [Search.collected, hpc], hlaw⟩

theorem Returns.eq_take {i : ℕ} {call : Call} {u w : World} {quotes : List Message}
    (h : Returns i call u w quotes) : quotes = (responses u w call).take quotes.length := by
  obtain ⟨s, rfl, rfl, hlaw⟩ := h.law
  exact hlaw.collected_eq_take

/-- A search returns the first messages of its correlation id that are published to its response
topic after it subscribed. Which these are depends on what is published there alone: of two
results for the same messages, one continues the other. -/
theorem returns_first_responses {i : ℕ} {call : Call} {u w : World} {quotes : List Message}
    (h : Returns i call u w quotes) :
    (∀ m ∈ quotes, m.correlationId = call.request.correlationId) ∧
      quotes = (responses u w call).take quotes.length ∧
      (quotes.length : ℤ) ≤ max call.expected 0 ∧
      ∀ j call' u' w' quotes', Returns j call' u' w' quotes' →
        responses u' w' call' = responses u w call →
        quotes.take quotes'.length = quotes'.take quotes.length := by
  have htake := h.eq_take
  refine ⟨fun m hm => ?_, htake, ?_, fun j call' u' w' quotes' h' heq => ?_⟩
  · rw [htake] at hm
    simpa using (List.mem_filter.mp (List.mem_of_mem_take hm)).2
  · obtain ⟨s, rfl, rfl, hlaw⟩ := h.law
    exact hlaw.room
  · have htake' := h'.eq_take
    rw [heq] at htake'
    calc quotes.take quotes'.length
        = (responses u w call).take (min quotes'.length quotes.length) := by
          rw [← List.take_take, ← htake]
      _ = (responses u w call).take (min quotes.length quotes'.length) := by rw [Nat.min_comm]
      _ = quotes'.take quotes.length := by rw [← List.take_take, ← htake']

def searchFor (correlationId : String) : Call where
  request := { correlationId, origin := "LHR", destination := "JFK", departureDate := "2026-08-01"
               createdAt := 0 }
  strategy := .publishSubscribe
  expected := 2
  timeout := 10

def quoteFor (correlationId airline : String) : Message :=
  .quote ⟨correlationId, airline, "AL100", 10000, 0⟩

/-- Another search listens and collects, and the first one times out after its first quote. -/
def crossedSearches : List Action :=
  [.scatterGather 1 (searchFor "search-B"), .run 0, .run 1,
    .publish responseTopicDefault (quoteFor "search-B" "alpha"),
    .publish responseTopicDefault (quoteFor "search-A" "alpha"), .run 0, .run 1, .run 0, .run 0,
    .timeout 0, .publish responseTopicDefault (quoteFor "search-A" "beta")]

theorem crossedSearches_isolated : ∃ u w,
    Returns 0 (searchFor "search-A") u w [quoteFor "search-A" "alpha"] ∧
      responses u w (searchFor "search-A") =
        [quoteFor "search-A" "alpha", quoteFor "search-A" "beta"] ∧
      [quoteFor "search-A" "alpha"] = (responses u w (searchFor "search-A")).take 1 := by
  obtain ⟨u, v, w, hu, hv, hw, hpc, hres⟩ : ∃ u v w,
      run step {} [.subscribe broadcastRequestTopic] = some u ∧
      step u (.scatterGather 0 (searchFor "search-A")) = some v ∧
      run step v crossedSearches = some w ∧
      (∃ s, w.searches 0 = some s ∧ s.pc = .returned [quoteFor "search-A" "alpha"]) ∧
      responses u w (searchFor "search-A") =
        [quoteFor "search-A" "alpha", quoteFor "search-A" "beta"] :=
    ⟨_, _, _, rfl, rfl, rfl, ⟨_, rfl, rfl⟩, rfl⟩
  have h : Returns 0 (searchFor "search-A") u w [quoteFor "search-A" "alpha"] :=
    ⟨⟨_, hu⟩, ⟨v, _, hv, hw⟩, hpc⟩
  exact ⟨u, w, h, hres, (returns_first_responses h).2.1⟩

end World
end ScatterGather
