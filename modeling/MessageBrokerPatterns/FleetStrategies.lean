import MessageBrokerPatterns.AirlineService
import MessageBrokerPatterns.ScatterSubscriptions

/-!
# Both distribution strategies gather the same quotes

Whatever the strategy, the topics that a search addresses are each published to once, and each
service listens to one of them. So every service gets the request once and answers it once, and
what lies on the response topic are the quotes of the services that have answered. The search
returns when it has as many as there are successful lookups, hence all of them.
-/

namespace ScatterGather
open ActionRun

def Call.requestTopic (call : Call) (airline : Airline) : String :=
  call.coordinator.requestTopic call.strategy airline

/-- The topics that `scatter` publishes the request to. -/
def Call.targets (call : Call) : List String :=
  match call.strategy with
  | .publishSubscribe => [call.coordinator.broadcastTopic]
  | .recipientList => (call.recipients.getD []).map recipientRequestTopic

def Fleet.listeners (fleet : Fleet) (call : Call) (t : String) : ℕ :=
  fleet.airlines.countP fun airline => call.requestTopic airline = t

/-- The call asks the whole fleet, every airline once, and waits for all that it can get. -/
structure Fleet.Asked (fleet : Fleet) (call : Call) : Prop where
  expected : call.expected = (fleet.quotes call.request).length
  timeout : 0 < call.timeout
  recipients : call.strategy = .recipientList → call.recipients ≠ none
  apart : ∀ t ∈ call.targets, t ≠ call.topic
  once : ∀ airline ∈ fleet.airlines, call.targets.count (call.requestTopic airline) = 1
  whole : (call.targets.map (fleet.listeners call)).sum = fleet.airlines.length

def Search.unsent (s : Search) : List String :=
  match s.pc with
  | .scatter => s.call.targets
  | .recipients left => left.map recipientRequestTopic
  | _ => []

/-- Each service listens to its topic and has received what was published there, in order. -/
structure Serving (fleet : Fleet) (call : Call) (hub : Hub) (others : List ℕ)
    (services : List AirlineService) : Prop where
  airlines : services.map AirlineService.airline = fleet.airlines
  topics : ∀ x ∈ services, x.requestTopic = call.requestTopic x.airline ∧ x.responseTopic = call.topic
  owned : ∀ x ∈ services, x.queue ∈ others
  distinct : (services.map AirlineService.queue).Nodup
  listens : ∀ x ∈ services, hub.Listens x.queue x.requestTopic
  listeners : ∀ t, t ≠ call.topic → (hub.broker.subscribed t).length = fleet.listeners call t
  got : ∀ x ∈ services, x.received ++ hub.broker.queues x.queue = hub.since 0 x.requestTopic

/-- Where the search stands with its scatter, and when it may have returned. -/
structure Phase (fleet : Fleet) (call : Call) (now : ℤ) (s : Search) : Prop where
  call_eq : s.call = call
  reached : s.reached + (s.unsent.map (fleet.listeners call)).sum = fleet.airlines.length
  ahead : ∀ deadline c, s.pc = .gather deadline c ∨ s.pc = .get deadline c → now < deadline
  full : ∀ quotes, s.pc = .returned quotes → call.expected ≤ quotes.length
  runs : ∀ e, s.pc ≠ .raised e
  lives : s.pc ≠ .cancelled

/-- What the log says of requests and of answers. -/
structure Posted (call : Call) (s : Search) (hub : Hub) (services : List AirlineService) : Prop where
  sent : (hub.log.filter fun e => e.1 ≠ call.topic) ++ s.unsent.map (·, .request call.request) =
    call.targets.map (·, .request call.request)
  replies : (hub.since 0 call.topic).Perm
    (services.flatMap fun x => x.handled.flatMap x.airline.reply)

structure FleetInv (fleet : Fleet) (call : Call) (w : FleetWorld) : Prop where
  owned : World.Owned w.world
  serving : Serving fleet call w.world.hub w.world.others w.services
  search : ∃ s, w.world.searches 0 = some s ∧ s.Law 0 w.world.hub ∧
    Phase fleet call w.world.now s ∧ Posted call s w.world.hub w.services

variable {fleet : Fleet} {call : Call}

theorem Serving.frame {hub hub' : Hub} {others : List ℕ} {services : List AirlineService}
    (h : Serving fleet call hub others services)
    (hcarry : ∀ x ∈ services, hub.Carries hub' x.queue x.requestTopic)
    (hsub : ∀ t, t ≠ call.topic → hub'.broker.subscribed t = hub.broker.subscribed t) :
    Serving fleet call hub' others services := by
  refine ⟨h.airlines, h.topics, h.owned, h.distinct, fun x hx => (hcarry x hx).1, fun t ht => ?_,
    fun x hx => ?_⟩
  · rw [hsub t ht]
    exact h.listeners t ht
  · obtain ⟨-, es, hlog, hq⟩ := hcarry x hx
    rw [hq, ← List.append_assoc, h.got x hx, Hub.since_append (Nat.zero_le _) hlog]

theorem Posted.same {s s' : Search} {hub hub' : Hub} {services : List AirlineService}
    (h : Posted call s hub services) (hlog : hub'.log = hub.log) (hun : s'.unsent = s.unsent) :
    Posted call s' hub' services := by
  refine ⟨?_, ?_⟩
  · rw [hlog, hun]
    exact h.sent
  · rw [Hub.since, hlog, ← Hub.since]
    exact h.replies

theorem Posted.publish {s s' : Search} {hub hub' : Hub} {services : List AirlineService} {t : String}
    (h : Posted call s hub services) (hlog : hub'.log = hub.log ++ [(t, .request call.request)])
    (hun : s.unsent = t :: s'.unsent) (ht : t ≠ call.topic) : Posted call s' hub' services := by
  refine ⟨?_, ?_⟩
  · have hsent := h.sent
    rw [hun] at hsent
    rw [hlog, List.filter_append, List.append_assoc, ← hsent]
    simp [ht]
  · rw [Hub.since_append (Nat.zero_le _) hlog]
    simpa [ht] using h.replies

theorem Phase.scatter {now : ℤ} {s s' : Search} (h : Phase fleet call now s)
    (hcall : s'.call = s.call)
    (hreached : s'.reached + (s'.unsent.map (fleet.listeners call)).sum =
      s.reached + (s.unsent.map (fleet.listeners call)).sum)
    (hpc : (∃ left, s'.pc = .recipients left) ∨ ∃ deadline c, now < deadline ∧
      (s'.pc = .gather deadline c ∨ s'.pc = .get deadline c)) : Phase fleet call now s' := by
  refine ⟨hcall.trans h.call_eq, hreached.trans h.reached, fun deadline c hgather => ?_,
    fun quotes hq => ?_, fun e he => ?_, fun hc => ?_⟩
  · rcases hpc with ⟨left, hpc⟩ | ⟨d, c', hlt, hpc | hpc⟩
    · simp [hpc] at hgather
    · simp only [hpc, Pc.gather.injEq, reduceCtorEq, or_false] at hgather
      exact hgather.1 ▸ hlt
    · simp only [hpc, Pc.get.injEq, reduceCtorEq, false_or] at hgather
      exact hgather.1 ▸ hlt
  · rcases hpc with ⟨left, hpc⟩ | ⟨d, c', -, hpc | hpc⟩ <;> simp [hpc] at hq
  · rcases hpc with ⟨left, hpc⟩ | ⟨d, c', -, hpc | hpc⟩ <;> simp [hpc] at he
  · rcases hpc with ⟨left, hpc⟩ | ⟨d, c', -, hpc | hpc⟩ <;> simp [hpc] at hc

theorem Search.keep_pc (s : Search) (deadline : ℤ) (c : List Message) (m : Message) :
    ∃ c', (s.keep deadline c m).pc = .gather deadline c' := by
  unfold Search.keep
  split_ifs
  · exact ⟨_, rfl⟩
  · exact ⟨_, rfl⟩

theorem Search.keep_reached (s : Search) (deadline : ℤ) (c : List Message) (m : Message) :
    (s.keep deadline c m).reached = s.reached := by
  unfold Search.keep
  split_ifs
  · rfl
  · rfl

theorem Search.next_lives {s : Search} {now : ℤ} {hub : Hub} {r : Search × Hub}
    (h : s.next now hub = some r) : r.1.pc ≠ .cancelled := by
  have hkeep (deadline : ℤ) (c : List Message) (m : Message) :
      (s.keep deadline c m).pc ≠ .cancelled := by
    obtain ⟨c', hc'⟩ := s.keep_pc deadline c m
    rw [hc']
    exact nofun
  unfold Search.next at h
  split at h
  · split at h
    · cases h
      exact nofun
    · split at h
      · cases h
        exact nofun
      · cases h
        exact nofun
  · cases h
    exact nofun
  · cases h
    exact nofun
  · split_ifs at h
    · cases h
      exact nofun
    · split at h
      · cases h
        exact hkeep _ _ _
      · cases h
        exact nofun
    · cases h
      exact nofun
  · obtain ⟨⟨m, hub'⟩, -, rfl⟩ := Option.map_eq_some_iff.mp h
    exact hkeep _ _ _
  · cases h
  · cases h
  · cases h

theorem phase_keep {now deadline : ℤ} {s : Search} {hub hub' : Hub} {services : List AirlineService}
    {c : List Message} {m : Message} (hp : Phase fleet call now s) (hl : Posted call s hub services)
    (hpc : s.pc = .gather deadline c ∨ s.pc = .get deadline c)
    (hget : hub.get s.queue = some (m, hub')) :
    Phase fleet call now (s.keep deadline c m) ∧ Posted call (s.keep deadline c m) hub' services := by
  obtain ⟨c', hc'⟩ := s.keep_pc deadline c m
  have hcall : (s.keep deadline c m).call = s.call := by
    unfold Search.keep
    split_ifs <;> rfl
  have hun : (s.keep deadline c m).unsent = s.unsent := by
    rcases hpc with hpc | hpc <;> simp [Search.unsent, hpc, hc']
  refine ⟨hp.scatter hcall ?_ (Or.inr ⟨deadline, c', hp.ahead deadline c hpc, Or.inl hc'⟩),
    hl.same (Hub.get_eq_some hget).2 hun⟩
  rw [hun, Search.keep_reached]

theorem phase_next {now : ℤ} {s : Search} {hub : Hub} {others : List ℕ}
    {services : List AirlineService} {r : Search × Hub} (ha : fleet.Asked call)
    (hs : Serving fleet call hub others services) (hp : Phase fleet call now s)
    (hl : Posted call s hub services) (h : s.next now hub = some r) :
    Phase fleet call now r.1 ∧ Posted call r.1 r.2 services := by
  obtain rfl := hp.call_eq
  cases Search.Move.of_next h with
  | broadcast hpc hstrategy =>
    have htargets : s.call.targets = [s.call.coordinator.broadcastTopic] := by
      rw [Call.targets, hstrategy]
    have hun : s.unsent = [s.call.coordinator.broadcastTopic] := by
      rw [Search.unsent, hpc]
      exact htargets
    have hne := ha.apart s.call.coordinator.broadcastTopic (by simp [htargets])
    have hwhole := ha.whole
    have hreached := hp.reached
    rw [htargets] at hwhole
    rw [hun] at hreached
    refine ⟨hp.scatter rfl ?_ (Or.inr ⟨_, _, ?_, Or.inl rfl⟩), hl.publish rfl hun hne⟩
    · have hlisten := hs.listeners _ hne
      rw [hun]
      change (hub.broker.subscribed s.call.coordinator.broadcastTopic).length + 0 = _
      simp only [List.map_cons, List.map_nil, List.sum_cons, List.sum_nil] at hwhole hreached ⊢
      omega
    · have := ha.timeout
      show now < now + s.call.timeout
      omega
  | noRecipients hpc hstrategy hr => exact absurd hr (ha.recipients hstrategy)
  | address recipients hpc hstrategy hr =>
    have hun : ({ s with pc := .recipients recipients } : Search).unsent = s.unsent := by
      simp [Search.unsent, hpc, Call.targets, hstrategy, hr]
    exact ⟨hp.scatter rfl (by rw [hun]) (Or.inl ⟨recipients, rfl⟩), hl.same rfl hun⟩
  | recipient airline left hpc =>
    have hun : s.unsent = recipientRequestTopic airline :: left.map recipientRequestTopic := by
      simp [Search.unsent, hpc]
    have hmem : recipientRequestTopic airline ∈ s.call.targets := by
      have hsent := hl.sent
      rw [hun] at hsent
      have : (recipientRequestTopic airline, Message.request s.call.request) ∈
          s.call.targets.map (·, Message.request s.call.request) := by
        rw [← hsent]
        simp
      simpa using this
    have hne := ha.apart _ hmem
    have hlisten := hs.listeners _ hne
    refine ⟨hp.scatter rfl ?_ (Or.inl ⟨left, rfl⟩), hl.publish rfl hun hne⟩
    rw [hun]
    change s.reached + (hub.broker.subscribed (recipientRequestTopic airline)).length +
      ((left.map recipientRequestTopic).map (fleet.listeners s.call)).sum = _
    rw [hlisten, List.map_cons, List.sum_cons]
    omega
  | addressed hpc =>
    have hun : (s.scattered now hub).1.unsent = s.unsent := by simp [Search.unsent, hpc, Search.scattered]
    have := ha.timeout
    refine ⟨hp.scatter rfl ?_ (Or.inr ⟨now + s.call.timeout, [], by omega, Or.inl rfl⟩),
      hl.same rfl hun⟩
    rw [hun]
    rfl
  | stop deadline c hpc hstop =>
    have hun : (s.gathered hub c).1.unsent = s.unsent := by simp [Search.unsent, hpc, Search.gathered]
    have hahead := hp.ahead deadline c (Or.inl hpc)
    refine ⟨⟨rfl, ?_, ?_, ?_, ?_, ?_⟩, hl.same rfl hun⟩
    · rw [hun]
      exact hp.reached
    · intro deadline c hpc
      rcases hpc with hpc | hpc
      · cases hpc
      · cases hpc
    · intro quotes hq
      cases hq
      rcases hstop with hfull | hlate
      · exact hfull
      · omega
    · intro e he
      cases he
    · intro hc
      cases hc
  | take deadline c m hub' hpc hroom htime hget => exact phase_keep hp hl (Or.inl hpc) hget
  | wait deadline c hpc hroom htime hget =>
    have hun : ({ s with pc := .get deadline c } : Search).unsent = s.unsent := by
      simp [Search.unsent, hpc]
    refine ⟨hp.scatter rfl (by rw [hun]) (Or.inr ⟨deadline, c, by omega, Or.inr rfl⟩), hl.same rfl hun⟩
  | woken deadline c m hub' hpc hget => exact phase_keep hp hl (Or.inr hpc) hget
  | timeout deadline c hpc =>
    rw [Search.next, hpc] at h
    obtain ⟨⟨m, hub'⟩, -, heq⟩ := Option.map_eq_some_iff.mp h
    have hended := congrArg (fun r : Search × Hub => r.1.ended) heq
    exact absurd ((s.keep_ended deadline c m).symm.trans hended) Bool.false_ne_true
  | cancel hend => exact absurd rfl (Search.next_lives h)

theorem exists_split {α : Type*} {l : List α} {j : ℕ} {x : α} (h : l[j]? = some x) (x' : α) :
    ∃ l₁ l₂, l = l₁ ++ x :: l₂ ∧ l.set j x' = l₁ ++ x' :: l₂ := by
  induction l generalizing j with
  | nil => cases h
  | cons a l ih =>
    cases j with
    | zero =>
      obtain rfl := Option.some.inj h
      exact ⟨[], l, rfl, rfl⟩
    | succ j =>
      obtain ⟨l₁, l₂, hl, hset⟩ := ih h
      exact ⟨a :: l₁, l₂, congrArg (a :: ·) hl, congrArg (a :: ·) hset⟩

/-- The new state of a service differs from the old one in what it has done alone. -/
structure AirlineService.Same (x x' : AirlineService) : Prop where
  airline : x'.airline = x.airline
  requestTopic : x'.requestTopic = x.requestTopic
  responseTopic : x'.responseTopic = x.responseTopic
  queue : x'.queue = x.queue

theorem Serving.set {hub hub' : Hub} {others : List ℕ} {services : List AirlineService} {j : ℕ}
    {x x' : AirlineService} (h : Serving fleet call hub others services)
    (hj : services[j]? = some x) (hx : x.Same x')
    (hcarry : ∀ y ∈ services, y.queue ≠ x.queue → hub.Carries hub' y.queue y.requestTopic)
    (hlisten : hub'.Listens x.queue x.requestTopic)
    (hgot : x'.received ++ hub'.broker.queues x.queue = hub'.since 0 x.requestTopic)
    (hsub : ∀ t, t ≠ call.topic → hub'.broker.subscribed t = hub.broker.subscribed t) :
    Serving fleet call hub' others (services.set j x') := by
  obtain ⟨l₁, l₂, rfl, hset⟩ := exists_split hj x'
  have hmem : x ∈ l₁ ++ x :: l₂ := by simp
  have hrest {y : AirlineService} (hy : y ∈ l₁ ∨ y ∈ l₂) :
      y ∈ l₁ ++ x :: l₂ ∧ y.queue ≠ x.queue := by
    refine ⟨by rcases hy with hy | hy <;> simp [hy], fun hq => ?_⟩
    have hnodup := h.distinct
    rw [List.map_append, List.map_cons, List.nodup_middle, List.nodup_cons, ← List.map_append] at hnodup
    exact hnodup.1 (List.mem_map.mpr ⟨y, List.mem_append.mpr hy, hq⟩)
  have hcases {P : AirlineService → Prop} (hnew : P x')
      (hold : ∀ y ∈ l₁ ++ x :: l₂, y.queue ≠ x.queue → P y) : ∀ y ∈ l₁ ++ x' :: l₂, P y := by
    intro y hy
    rcases List.mem_append.mp hy with hy | hy
    · exact hold y (hrest (Or.inl hy)).1 (hrest (Or.inl hy)).2
    · rcases List.mem_cons.mp hy with rfl | hy
      · exact hnew
      · exact hold y (hrest (Or.inr hy)).1 (hrest (Or.inr hy)).2
  rw [hset]
  refine ⟨?_, hcases ?_ fun y hy _ => h.topics y hy, hcases ?_ fun y hy _ => h.owned y hy, ?_,
    hcases ?_ fun y hy hne => (hcarry y hy hne).1, fun t ht => ?_, hcases ?_ fun y hy hne => ?_⟩
  · rw [← h.airlines, List.map_append, List.map_cons, List.map_append, List.map_cons, hx.airline]
  · rw [hx.requestTopic, hx.responseTopic, hx.airline]
    exact h.topics x hmem
  · rw [hx.queue]
    exact h.owned x hmem
  · have hdistinct := h.distinct
    rw [List.map_append, List.map_cons] at hdistinct ⊢
    rw [hx.queue]
    exact hdistinct
  · rw [hx.queue, hx.requestTopic]
    exact hlisten
  · rw [hsub t ht]
    exact h.listeners t ht
  · rw [hx.queue, hx.requestTopic]
    exact hgot
  · obtain ⟨-, es, hlog, hq⟩ := hcarry y hy hne
    rw [hq, ← List.append_assoc, h.got y hy, Hub.since_append (Nat.zero_le _) hlog]

/-- What a service can do: take a message off its queue, answer one with a quote, or with nothing. -/
inductive AirlineService.Move (x : AirlineService) (hub : Hub) : AirlineService × Hub → Prop where
  | receive (m : Message) (hub' : Hub) (hidle : x.inHand = none)
      (hget : hub.get x.queue = some (m, hub')) : Move x hub ({ x with inHand := some m }, hub')
  | quoted (m : Message) (quote : FlightQuote) (hm : x.inHand = some m)
      (hquote : x.airline.quote m = .ok quote) : Move x hub
        ({ x with handled := x.handled ++ [m], inHand := none, served := x.served + 1 },
          (hub.publish x.responseTopic (.quote quote)).2)
  | failed (m : Message) (e : PyText.PyExc) (hm : x.inHand = some m)
      (hquote : x.airline.quote m = .error e) : Move x hub ({ x with
        handled := x.handled ++ [m], inHand := none, serviceFailures := x.serviceFailures + 1 }, hub)

theorem AirlineService.Move.of_receive {x : AirlineService} {hub : Hub} {r : AirlineService × Hub}
    (h : x.receive hub = some r) : x.Move hub r := by
  unfold AirlineService.receive at h
  split at h
  · cases h
  · rename_i hidle
    obtain ⟨⟨m, hub'⟩, hget, rfl⟩ := Option.map_eq_some_iff.mp h
    exact .receive m hub' hidle hget

theorem AirlineService.Move.of_answer {x : AirlineService} {hub : Hub} {r : AirlineService × Hub}
    (h : x.answer hub = some r) : x.Move hub r := by
  unfold AirlineService.answer at h
  split at h
  · cases h
  · rename_i m hm
    split at h
    · rename_i quote hquote
      cases h
      exact .quoted m quote hm hquote
    · rename_i e hquote
      cases h
      exact .failed m e hm hquote

theorem Serving.move {hub : Hub} {others : List ℕ} {services : List AirlineService} {j : ℕ}
    {x : AirlineService} {r : AirlineService × Hub} (h : Serving fleet call hub others services)
    (hj : services[j]? = some x) (hm : x.Move hub r) :
    Serving fleet call r.2 others (services.set j r.1) := by
  have hmem : x ∈ services := List.mem_of_getElem? hj
  have hgot := h.got x hmem
  have hlisten := h.listens x hmem
  cases hm with
  | receive m hub' hidle hget =>
    obtain ⟨hb, hlog⟩ := Hub.get_eq_some hget
    obtain ⟨hq, -, hsub, -⟩ := InMemoryTopicBroker.get_eq_some hb
    have hstep : hub.Step (fun q => q = x.queue) hub' := .get x.queue m rfl hb hlog
    refine h.set hj ⟨rfl, rfl, rfl, rfl⟩ (fun y hy hne => hstep.carries (h.listens y hy) hne) ?_ ?_
      fun t _ => congrArg (queuesOf · t) hsub
    · rw [Hub.Listens, InMemoryTopicBroker.subscribed, hsub]
      exact hlisten
    · rw [Hub.since, hlog, ← Hub.since, ← hgot, hq, AirlineService.received,
        AirlineService.received, hidle]
      simp
  | quoted m quote hin hquote =>
    have hstep : hub.Step (fun _ => False) (hub.publish x.responseTopic (.quote quote)).2 :=
      .publish x.responseTopic (.quote quote) rfl rfl
    obtain ⟨hlisten', es, hlog, hq⟩ := hstep.carries hlisten id
    refine h.set hj ⟨rfl, rfl, rfl, rfl⟩ (fun y hy _ => hstep.carries (h.listens y hy) id) hlisten' ?_
      fun t _ => InMemoryTopicBroker.subscribed_publish x.responseTopic t _
    rw [hq, Hub.since_append (Nat.zero_le _) hlog, ← hgot, AirlineService.received,
      AirlineService.received, hin]
    simp
  | failed m e hin hquote =>
    have hstep : hub.Step (fun _ => False) hub := .quiet rfl rfl
    refine h.set hj ⟨rfl, rfl, rfl, rfl⟩ (fun y hy _ => hstep.carries (h.listens y hy) id) hlisten ?_
      fun t _ => rfl
    rw [← hgot, AirlineService.received, AirlineService.received, hin]
    simp

theorem perm_flatMap_set {α β : Type*} {l : List α} {j : ℕ} {x y : α} {f : α → List β} {b : List β}
    (hj : l[j]? = some x) (hy : f y = f x ++ b) : (l.flatMap f ++ b).Perm ((l.set j y).flatMap f) := by
  obtain ⟨l₁, l₂, rfl, hset⟩ := exists_split hj y
  rw [hset]
  simp only [List.flatMap_append, List.flatMap_cons, hy, List.append_assoc]
  exact ((List.perm_append_comm).append_left (f x)).append_left (l₁.flatMap f)

theorem Posted.move {hub : Hub} {others : List ℕ} {services : List AirlineService} {j : ℕ}
    {x : AirlineService} {r : AirlineService × Hub} {s : Search}
    (hs : Serving fleet call hub others services) (h : Posted call s hub services)
    (hj : services[j]? = some x) (hm : x.Move hub r) :
    Posted call s r.2 (services.set j r.1) := by
  have hmem : x ∈ services := List.mem_of_getElem? hj
  cases hm with
  | receive m hub' hidle hget =>
    have hlog := (Hub.get_eq_some hget).2
    have hrest := perm_flatMap_set (y := { x with inHand := some m }) (b := [])
      (f := fun x : AirlineService => x.handled.flatMap x.airline.reply) hj (by simp)
    rw [List.append_nil] at hrest
    have hsame : Posted call s hub' services := h.same hlog rfl
    exact ⟨hsame.sent, hsame.replies.trans hrest⟩
  | quoted m quote hin hquote =>
    have hlog : (hub.publish x.responseTopic (.quote quote)).2.log =
        hub.log ++ [(call.topic, .quote quote)] := by
      rw [← (hs.topics x hmem).2]
      rfl
    have hrest := perm_flatMap_set (y := ({ x with
        handled := x.handled ++ [m], inHand := none, served := x.served + 1 } : AirlineService))
      (b := [Message.quote quote])
      (f := fun x : AirlineService => x.handled.flatMap x.airline.reply) hj
      (by simp [Airline.reply, hquote])
    refine ⟨?_, ?_⟩
    · rw [hlog, List.filter_append, ← h.sent]
      simp
    · rw [Hub.since_append (Nat.zero_le _) hlog]
      simpa using (h.replies.append_right [Message.quote quote]).trans hrest
  | failed m e hin hquote =>
    have hrest := perm_flatMap_set (y := ({ x with
        handled := x.handled ++ [m], inHand := none
        serviceFailures := x.serviceFailures + 1 } : AirlineService)) (b := [])
      (f := fun x : AirlineService => x.handled.flatMap x.airline.reply) hj
      (by simp [Airline.reply, hquote])
    rw [List.append_nil] at hrest
    exact ⟨h.sent, h.replies.trans hrest⟩

theorem World.searches_moved (w : World) (i : ℕ) (r : Search × Hub) :
    (w.moved i r).searches i = some r.1 :=
  Function.update_self ..

namespace FleetWorld

theorem tick_eq_some {w w' : World} {d : ℕ} {s : Search} (hs : w.searches 0 = some s)
    (h : tick w d = some w') :
    w' = { w with now := w.now + d } ∧ ∀ deadline ∈ s.deadline, w.now + d < deadline := by
  rw [tick, hs, Option.bind_some] at h
  cases hd : s.deadline with
  | none =>
    rw [hd] at h
    exact ⟨(Option.some.inj h).symm, nofun⟩
  | some deadline =>
    simp only [hd] at h
    split_ifs at h with hlt
    refine ⟨(Option.some.inj h).symm, fun deadline' h' => ?_⟩
    obtain rfl := Option.some.inj h'
    exact hlt

theorem inv_search (ha : fleet.Asked call) {w : FleetWorld} (hi : FleetInv fleet call w) {v : World}
    (h : World.step w.world (.run 0) = some v) : FleetInv fleet call { w with world := v } := by
  obtain ⟨s, hs, hlaw, hphase, hposted⟩ := hi.search
  have howned := World.owned_step w.world (.run 0) v hi.owned h
  simp only [World.step, hs] at h
  obtain ⟨r, hr, rfl⟩ := Option.map_eq_some_iff.mp h
  have hm : s.Move w.world.now w.world.hub r := .of_next hr
  obtain ⟨hphase', hposted'⟩ := phase_next ha hi.serving hphase hposted hr
  have hslot := w.world.searches_moved 0 r
  refine ⟨howned, hi.serving.frame (fun x hx => ?_) fun t ht => ?_, r.1, hslot, hm.law hlaw, hphase',
    hposted'⟩
  · refine hm.hub_step.carries (hi.serving.listens x hx) fun hq => ?_
    exact hi.owned.hidden 0 s hs (hq ▸ hi.serving.owned x hx)
  · have hedit := hm.subscribed t
    rw [Search.edit, hm.call_queue.1] at hedit
    refine hedit.trans ?_
    split_ifs
    · exact if_neg fun htopic => ht (htopic.symm.trans (congrArg Call.topic hphase.call_eq))
    · rfl

theorem inv_tick {w : FleetWorld} (hi : FleetInv fleet call w) {v : World} {d : ℕ}
    (h : tick w.world d = some v) : FleetInv fleet call { w with world := v } := by
  obtain ⟨s, hs, hlaw, hphase, hposted⟩ := hi.search
  obtain ⟨rfl, hlt⟩ := tick_eq_some hs h
  refine ⟨⟨hi.owned.othersMade, hi.owned.made, hi.owned.hidden, hi.owned.distinct⟩, hi.serving, s, hs,
    hlaw, ⟨hphase.call_eq, hphase.reached, fun deadline c hpc => hlt deadline ?_, hphase.full,
      hphase.runs, hphase.lives⟩, hposted⟩
  rcases hpc with hpc | hpc
  · rw [Search.deadline, hpc]
    rfl
  · rw [Search.deadline, hpc]
    rfl

theorem world_step_of_move {w : World} {x : AirlineService} {r : AirlineService × Hub}
    (hown : x.queue ∈ w.others) (hm : x.Move w.hub r) :
    r.2 = w.hub ∨ ∃ a, a.mover = none ∧ World.step w a = some { w with hub := r.2 } := by
  cases hm with
  | receive m hub' hidle hget =>
    exact Or.inr ⟨.get x.queue, rfl, by simp [World.step, hown, hget]⟩
  | quoted m quote hin hquote =>
    exact Or.inr ⟨.publish x.responseTopic (.quote quote), rfl, rfl⟩
  | failed m e hin hquote => exact Or.inl rfl

theorem inv_service {w : FleetWorld} (hi : FleetInv fleet call w) {j : ℕ} {x : AirlineService}
    {r : AirlineService × Hub} (hj : w.services[j]? = some x) (hm : x.Move w.world.hub r) :
    FleetInv fleet call ⟨{ w.world with hub := r.2 }, w.services.set j r.1⟩ := by
  obtain ⟨s, hs, hlaw, hphase, hposted⟩ := hi.search
  have hown := hi.serving.owned x (List.mem_of_getElem? hj)
  have hnext : World.Owned { w.world with hub := r.2 } ∧
      World.SearchLaw 0 s.call 0 { w.world with hub := r.2 } := by
    rcases world_step_of_move hown hm with hsame | ⟨a, -, hstep⟩
    · rw [hsame]
      exact ⟨hi.owned, s, hs, rfl, hlaw⟩
    · exact World.searchLaw_step w.world a _ ⟨hi.owned, s, hs, rfl, hlaw⟩ hstep
  obtain ⟨howned, s', hs', -, hlaw'⟩ := hnext
  obtain rfl := Option.some.inj (hs.symm.trans hs')
  exact ⟨howned, hi.serving.move hj hm, s, hs, hlaw', hphase, hposted.move hi.serving hj hm⟩

/-- Every action keeps the invariant of the fleet. -/
theorem inv_step (ha : fleet.Asked call) (w : FleetWorld) (a : FleetAction) (w' : FleetWorld)
    (hi : FleetInv fleet call w) (h : step w a = some w') : FleetInv fleet call w' := by
  have hserved {j : ℕ} {f : AirlineService → Hub → Option (AirlineService × Hub)}
      (hf : ∀ x hub r, f x hub = some r → x.Move hub r) (h : w.served j f = some w') :
      FleetInv fleet call w' := by
    unfold served at h
    split at h
    · cases h
    · rename_i x hj
      obtain ⟨r, hr, rfl⟩ := Option.map_eq_some_iff.mp h
      exact inv_service hi hj (hf x w.world.hub r hr)
  cases a with
  | search =>
    obtain ⟨v, hv, rfl⟩ := Option.map_eq_some_iff.mp h
    exact inv_search ha hi hv
  | tick d =>
    obtain ⟨v, hv, rfl⟩ := Option.map_eq_some_iff.mp h
    exact inv_tick hi hv
  | receive j => exact hserved (fun x hub r => .of_receive) h
  | answer j => exact hserved (fun x hub r => .of_answer) h

end FleetWorld

/-- What the construction of some services does to a world. -/
structure Constructed (topic : Airline → String) (responseTopic : String) (airlines : List Airline)
    (w : World) (made : List AirlineService × World) : Prop where
  all : made.1.map AirlineService.airline = airlines
  fresh : ∀ x ∈ made.1, x.requestTopic = topic x.airline ∧ x.responseTopic = responseTopic ∧
    x.handled = [] ∧ x.inHand = none ∧ made.2.hub.broker.queues x.queue = []
  others : made.2.others = w.others ++ made.1.map AirlineService.queue
  queues : made.1.map AirlineService.queue = List.range' w.hub.broker.created airlines.length
  listens : ∀ x ∈ made.1, made.2.hub.Listens x.queue x.requestTopic
  keeps : ∀ q t, w.hub.Listens q t →
    made.2.hub.Listens q t ∧ made.2.hub.broker.queues q = w.hub.broker.queues q
  listeners : ∀ t, (made.2.hub.broker.subscribed t).length =
    (w.hub.broker.subscribed t).length + airlines.countP fun airline => topic airline = t
  log : made.2.hub.log = w.hub.log
  searches : made.2.searches = w.searches
  reached : ∃ acts, run World.step w acts = some made.2

theorem constructed (topic : Airline → String) (responseTopic : String) (airlines : List Airline)
    (w : World) :
    Constructed topic responseTopic airlines w (construct topic responseTopic airlines w) := by
  induction airlines generalizing w with
  | nil =>
    exact ⟨rfl, nofun, (List.append_nil _).symm, rfl, nofun, fun q t h => ⟨h, rfl⟩, fun t => rfl, rfl,
      rfl, [], rfl⟩
  | cons airline rest ih =>
    have hstep : w.hub.Step (fun _ => False) (w.hub.subscribe (topic airline)).2 := .subscribe _
    have hih := ih { w with
      hub := (w.hub.subscribe (topic airline)).2
      others := w.others ++ [(w.hub.subscribe (topic airline)).1] }
    have hnew : (w.hub.subscribe (topic airline)).2.Listens w.hub.broker.created (topic airline) := by
      change w.hub.broker.created ∈ (w.hub.broker.subscribe (topic airline)).2.subscribed (topic airline)
      rw [InMemoryTopicBroker.subscribed_subscribe, if_pos rfl]
      exact List.mem_append_right _ (List.mem_singleton.mpr rfl)
    have hempty : (w.hub.subscribe (topic airline)).2.broker.queues w.hub.broker.created = [] := by
      change (w.hub.broker.subscribe (topic airline)).2.queues w.hub.broker.created = []
      rw [InMemoryTopicBroker.queues_subscribe, if_pos rfl]
    obtain ⟨hlistens, hqueue⟩ := hih.keeps _ _ hnew
    obtain ⟨acts, hacts⟩ := hih.reached
    refine ⟨congrArg (airline :: ·) hih.all, ?_, ?_, ?_, ?_, fun q t hq => ?_, fun t => ?_,
      hih.log, hih.searches, .subscribe (topic airline) :: acts, ?_⟩
    · intro x hx
      rcases List.mem_cons.mp hx with rfl | hx
      · exact ⟨rfl, rfl, rfl, rfl, hqueue.trans hempty⟩
      · exact hih.fresh x hx
    · exact hih.others.trans (List.append_assoc ..)
    · exact congrArg (w.hub.broker.created :: ·) hih.queues
    · intro x hx
      rcases List.mem_cons.mp hx with rfl | hx
      · exact hlistens
      · exact hih.listens x hx
    · obtain ⟨hq', es, hlog, hcontent⟩ := hstep.carries hq id
      have hes : es = [] := List.self_eq_append_right.mp hlog
      subst hes
      obtain ⟨hkeep, hcontent'⟩ := hih.keeps q t hq'
      exact ⟨hkeep, hcontent'.trans (hcontent.trans (List.append_nil _))⟩
    · rw [List.countP_cons]
      have hcount := hih.listeners t
      have hadd : ((w.hub.subscribe (topic airline)).2.broker.subscribed t).length =
          (w.hub.broker.subscribed t).length + if topic airline = t then 1 else 0 := by
        change ((w.hub.broker.subscribe (topic airline)).2.subscribed t).length = _
        rw [InMemoryTopicBroker.subscribed_subscribe]
        split_ifs with ht
        · rw [List.length_append, List.length_singleton, ht]
        · rfl
      refine hcount.trans ?_
      rw [hadd]
      simp only [decide_eq_true_eq]
      omega
    · exact run_cons_eq_some.mpr ⟨_, rfl, hacts⟩

theorem Constructed.serving {made : List AirlineService × World}
    (h : Constructed call.requestTopic call.topic fleet.airlines {} made) :
    Serving fleet call made.2.hub made.2.others made.1 := by
  refine ⟨h.all, fun x hx => ?_, fun x hx => ?_, ?_, h.listens, fun t _ => ?_, fun x hx => ?_⟩
  · exact ⟨(h.fresh x hx).1, (h.fresh x hx).2.1⟩
  · rw [h.others]
    exact List.mem_append_right _ (List.mem_map_of_mem hx)
  · rw [h.queues]
    exact List.nodup_range'
  · exact (h.listeners t).trans (Nat.zero_add _)
  · obtain ⟨-, -, hhandled, hidle, hempty⟩ := h.fresh x hx
    rw [AirlineService.received, hhandled, hidle, hempty, Hub.since, h.log]
    rfl

theorem FleetWorld.inv_start (ha : fleet.Asked call) : FleetInv fleet call (start fleet call) := by
  have hmade := constructed call.requestTopic call.topic fleet.airlines {}
  have hstart : World.step (construct call.requestTopic call.topic fleet.airlines {}).2
      (.scatterGather 0 call) = some (start fleet call).world := by
    simp only [World.step, hmade.searches]
    rfl
  obtain ⟨acts, hacts⟩ := hmade.reached
  have hlog : (start fleet call).world.hub.log = [] := hmade.log
  have howned := run_invariant_of_step World.owned_step World.owned_init hacts
  have hslot : (start fleet call).world.searches 0 = some { call, queue := _ } :=
    World.searches_moved _ 0 _
  obtain ⟨s, hs, -, hlaw⟩ := World.searchLaw_start hstart
  obtain rfl := Option.some.inj (hslot.symm.trans hs)
  rw [hmade.log] at hlaw
  have hstep : (construct call.requestTopic call.topic fleet.airlines {}).2.hub.Step (fun _ => False)
      (start fleet call).world.hub := .subscribe call.topic
  refine ⟨World.owned_step _ _ _ howned hstart, hmade.serving.frame (fun x hx => ?_) (fun t ht => ?_),
    _, hslot, hlaw, ⟨rfl, ?_, ?_, ?_, ?_, ?_⟩, ?_, ?_⟩
  · exact hstep.carries (hmade.listens x hx) id
  · exact (InMemoryTopicBroker.subscribed_subscribe call.topic t).trans (if_neg ht.symm)
  · exact (Nat.zero_add _).trans ha.whole
  · intro deadline c hpc
    rcases hpc with hpc | hpc
    · cases hpc
    · cases hpc
  · intro quotes hq
    cases hq
  · intro e he
    cases he
  · intro hc
    cases hc
  · rw [hlog]
    rfl
  · have hnone : ((start fleet call).services.flatMap fun x => x.handled.flatMap x.airline.reply) =
        [] := by
      rw [List.flatMap_eq_nil_iff]
      intro x hx
      rw [(hmade.fresh x hx).2.2.1]
      rfl
    rw [hnone, Hub.since, hlog]
    exact List.Perm.nil

theorem filter_map_pair (m : Message) (t : String) (l : List String) :
    ((l.map fun u => (u, m)).filter fun e => e.1 = t).map Prod.snd = List.replicate (l.count t) m := by
  induction l with
  | nil => rfl
  | cons u l ih =>
    by_cases hu : u = t
    · simp [hu, ih, List.replicate_succ]
    · simp [hu, ih]

theorem Posted.since_target {s : Search} {hub : Hub} {services : List AirlineService}
    (h : Posted call s hub services) {t : String} (ht : t ≠ call.topic) :
    hub.since 0 t ++ List.replicate (s.unsent.count t) (.request call.request) =
      List.replicate (call.targets.count t) (.request call.request) := by
  have hsent := congrArg (fun l : List (String × Message) => (l.filter fun e => e.1 = t).map Prod.snd)
    h.sent
  simp only [List.filter_append, List.map_append, filter_map_pair, List.filter_filter] at hsent
  rw [← hsent, Hub.since, List.drop_zero]
  congr 2
  apply List.filter_congr
  intro e _
  by_cases he : e.1 = t
  · simp [he, ht]
  · simp [he]

theorem Fleet.Asked.mem_targets (ha : fleet.Asked call) {airline : Airline}
    (h : airline ∈ fleet.airlines) : call.requestTopic airline ∈ call.targets :=
  List.count_pos_iff.mp (by rw [ha.once airline h]; exact Nat.one_pos)

theorem Serving.mem_airlines {hub : Hub} {others : List ℕ} {services : List AirlineService}
    (h : Serving fleet call hub others services) {x : AirlineService} (hx : x ∈ services) :
    x.airline ∈ fleet.airlines :=
  h.airlines ▸ List.mem_map_of_mem hx

/-- A service receives the request once: it has had it, or has it in hand, or finds it on its queue,
or will be sent it. -/
theorem received_once (ha : fleet.Asked call) {s : Search} {hub : Hub} {others : List ℕ}
    {services : List AirlineService} (hs : Serving fleet call hub others services)
    (hl : Posted call s hub services) {x : AirlineService} (hx : x ∈ services) :
    x.received ++ hub.broker.queues x.queue ++
      List.replicate (s.unsent.count x.requestTopic) (.request call.request) =
        [.request call.request] := by
  have hmem := hs.mem_airlines hx
  have hne := ha.apart _ (ha.mem_targets hmem)
  rw [hs.got x hx, (hs.topics x hx).1, hl.since_target hne, ha.once x.airline hmem]
  rfl

theorem handled_cases (ha : fleet.Asked call) {s : Search} {hub : Hub} {others : List ℕ}
    {services : List AirlineService} (hs : Serving fleet call hub others services)
    (hl : Posted call s hub services) {x : AirlineService} (hx : x ∈ services) :
    x.handled = [] ∨ x.handled = [.request call.request] := by
  have hpre : x.handled <+: [.request call.request] := by
    rw [← received_once ha hs hl hx, AirlineService.received, List.append_assoc, List.append_assoc]
    exact List.prefix_append _ _
  rcases List.prefix_cons_iff.mp hpre with hnone | ⟨rest, hone, hrest⟩
  · exact Or.inl hnone
  · rw [List.prefix_nil.mp hrest] at hone
    exact Or.inr hone

theorem sublist_flatMap {α β : Type*} {l : List α} {f g : α → List β}
    (h : ∀ x ∈ l, (f x).Sublist (g x)) : (l.flatMap f).Sublist (l.flatMap g) := by
  induction l with
  | nil => exact List.Sublist.refl _
  | cons x l ih =>
    rw [List.flatMap_cons, List.flatMap_cons]
    exact (h x List.mem_cons_self).append (ih fun y hy => h y (List.mem_cons_of_mem x hy))

theorem answers_sublist (ha : fleet.Asked call) {s : Search} {hub : Hub} {others : List ℕ}
    {services : List AirlineService} (hs : Serving fleet call hub others services)
    (hl : Posted call s hub services) :
    (services.flatMap fun x => x.handled.flatMap x.airline.reply).Sublist
      (fleet.quotes call.request) := by
  have hquotes : fleet.quotes call.request =
      services.flatMap fun x => x.airline.reply (.request call.request) := by
    rw [Fleet.quotes, ← hs.airlines, List.flatMap_map]
  rw [hquotes]
  apply sublist_flatMap
  intro x hx
  rcases handled_cases ha hs hl hx with hnone | hone
  · rw [hnone]
    exact List.nil_sublist _
  · rw [hone, List.flatMap_singleton]

theorem own_since (ha : fleet.Asked call) {s : Search} {hub : Hub} {others : List ℕ}
    {services : List AirlineService} (hs : Serving fleet call hub others services)
    (hl : Posted call s hub services) :
    ∀ m ∈ hub.since 0 call.topic, m.correlationId = call.request.correlationId := by
  intro m hm
  have hm := (answers_sublist ha hs hl).subset (hl.replies.subset hm)
  obtain ⟨airline, -, hm⟩ := List.mem_flatMap.mp hm
  simp only [Airline.reply, Airline.quote] at hm
  cases hquote : airline.lookup call.request with
  | error e => simp [hquote] at hm
  | ok quote =>
    simp only [hquote, List.mem_singleton] at hm
    subst hm
    exact airline.tagged call.request quote hquote

/-- The search has collected a prefix of the answers, and the rest is on its queue. -/
theorem collected_append (ha : fleet.Asked call) {s : Search} {hub : Hub} {others : List ℕ}
    {services : List AirlineService} (hs : Serving fleet call hub others services)
    (hl : Posted call s hub services) (hcall : s.call = call) (hlaw : s.Law 0 hub) :
    s.collected <+: hub.since 0 call.topic ∧
      (s.ended = false → s.collected ++ hub.broker.queues s.queue = hub.since 0 call.topic) := by
  obtain ⟨got, hpre, hgot, hlive⟩ := hlaw.taken
  subst hcall
  have hown : s.call.own got = got := by
    rw [Call.own, List.filter_eq_self]
    intro m hm
    exact decide_eq_true (own_since ha hs hl m (hpre.subset hm))
  rw [hgot, hown]
  exact ⟨hpre, hlive⟩

theorem FleetInv.returned (ha : fleet.Asked call) {w : FleetWorld} (hi : FleetInv fleet call w)
    {s : Search} {quotes : List Message} (hs : w.world.searches 0 = some s)
    (hpc : s.pc = .returned quotes) :
    quotes.Perm (fleet.quotes call.request) ∧ s.reached = fleet.airlines.length ∧
      ∀ x ∈ w.services, x.received ++ w.world.hub.broker.queues x.queue = [.request call.request] := by
  obtain ⟨s', hs', hlaw, hphase, hposted⟩ := hi.search
  obtain rfl := Option.some.inj (hs.symm.trans hs')
  have hun : s.unsent = [] := by rw [Search.unsent, hpc]
  have hpre := (collected_append ha hi.serving hposted hphase.call_eq hlaw).1
  have hcol : s.collected = quotes := by rw [Search.collected, hpc]
  have hfull := hphase.full quotes hpc
  have hsub := answers_sublist ha hi.serving hposted
  have hlen := hposted.replies.length_eq
  rw [hcol] at hpre
  rw [ha.expected] at hfull
  have hquotes : quotes = w.world.hub.since 0 call.topic := by
    apply hpre.eq_of_length_le
    rw [hlen]
    exact hsub.length_le.trans (by exact_mod_cast hfull)
  refine ⟨?_, ?_, fun x hx => ?_⟩
  · rw [← hsub.eq_of_length_le, hquotes]
    · exact hposted.replies
    · rw [← hlen, ← hquotes]
      exact_mod_cast hfull
  · have hreached := hphase.reached
    rw [hun] at hreached
    exact hreached
  · have honce := received_once ha hi.serving hposted hx
    rw [hun] at honce
    rw [← honce, List.count_nil, List.replicate_zero, List.append_nil]

def FleetAction.works : FleetAction → Bool
  | .tick _ => false
  | _ => true

def AirlineService.work (x : AirlineService) : ℕ := 2 - 2 * x.handled.length - x.inHand.toList.length

def Search.work (s : Search) : ℕ :=
  match s.pc with
  | .scatter => 2 * s.call.expected.toNat + s.call.targets.length + 4
  | .recipients left => 2 * s.call.expected.toNat + left.length + 3
  | .gather _ c => 2 * (s.call.expected.toNat - c.length) + 2
  | .get _ c => 2 * (s.call.expected.toNat - c.length) + 1
  | _ => 0

theorem Search.work_pos (s : Search) (h : s.ended = false) : 0 < s.work := by
  cases hpc : s.pc with
  | returned quotes => simp [ended, hpc] at h
  | raised e => simp [ended, hpc] at h
  | cancelled => simp [ended, hpc] at h
  | _ =>
    simp only [work, hpc]
    omega

def FleetWorld.work (w : FleetWorld) : ℕ :=
  ((w.world.searches 0).map Search.work).getD 0 + (w.services.map AirlineService.work).sum

theorem work_keep (ha : fleet.Asked call) {now deadline : ℤ} {s : Search} {hub hub' : Hub}
    {others : List ℕ} {services : List AirlineService} {c : List Message} {m : Message}
    (hs : Serving fleet call hub others services) (hp : Phase fleet call now s)
    (hl : Posted call s hub services) (hlaw : s.Law 0 hub) (hend : s.ended = false)
    (hget : hub.get s.queue = some (m, hub')) :
    (s.keep deadline c m).work = 2 * (s.call.expected.toNat - (c.length + 1)) + 2 := by
  obtain ⟨hq, -⟩ := InMemoryTopicBroker.get_eq_some (Hub.get_eq_some hget).1
  have hall := (collected_append ha hs hl hp.call_eq hlaw).2 hend
  have hown : m.correlationId = s.call.request.correlationId := by
    rw [hp.call_eq]
    apply own_since ha hs hl m
    rw [← hall, hq]
    simp
  rw [Search.keep, if_neg (not_not.mpr hown)]
  simp only [Search.work, List.length_append, List.length_singleton]

theorem work_next (ha : fleet.Asked call) {now : ℤ} {s : Search} {hub : Hub} {others : List ℕ}
    {services : List AirlineService} {r : Search × Hub}
    (hs : Serving fleet call hub others services) (hp : Phase fleet call now s)
    (hl : Posted call s hub services) (hlaw : s.Law 0 hub) (hm : s.Move now hub r) :
    r.1.work < s.work := by
  have hpos : s.ended = false → 0 < s.work := s.work_pos
  cases hm with
  | broadcast hpc hstrategy =>
    simp only [Search.scattered, Search.work, hpc, List.length_nil]
    omega
  | noRecipients hpc hstrategy hr => exact hpos (by simp [Search.ended, hpc])
  | address recipients hpc hstrategy hr =>
    have htargets : s.call.targets.length = recipients.length := by
      simp [Call.targets, hstrategy, hr]
    simp only [Search.work, hpc]
    omega
  | recipient airline left hpc =>
    simp only [Search.work, hpc, List.length_cons]
    omega
  | addressed hpc =>
    simp only [Search.scattered, Search.work, hpc, List.length_nil]
    omega
  | stop deadline c hpc hstop => exact hpos (by simp [Search.ended, hpc])
  | take deadline c m hub' hpc hroom htime hget =>
    rw [work_keep ha hs hp hl hlaw (by simp [Search.ended, hpc]) hget]
    simp only [Search.work, hpc]
    omega
  | wait deadline c hpc hroom htime hget =>
    simp only [Search.work, hpc]
    omega
  | woken deadline c m hub' hpc hget =>
    have hroom := hlaw.waits deadline c hpc
    rw [work_keep ha hs hp hl hlaw (by simp [Search.ended, hpc]) hget]
    simp only [Search.work, hpc]
    omega
  | timeout deadline c hpc => exact hpos (by simp [Search.ended, hpc])
  | cancel hend => exact hpos hend

theorem work_move (ha : fleet.Asked call) {s : Search} {hub : Hub} {others : List ℕ}
    {services : List AirlineService} {x : AirlineService} {r : AirlineService × Hub}
    (hs : Serving fleet call hub others services) (hl : Posted call s hub services)
    (hx : x ∈ services) (hm : x.Move hub r) : r.1.work < x.work := by
  have honce := congrArg List.length (received_once ha hs hl hx)
  simp only [AirlineService.received, List.length_append, List.length_singleton,
    List.length_replicate] at honce
  cases hm with
  | receive m hub' hidle hget =>
    have hq := congrArg List.length (InMemoryTopicBroker.get_eq_some (Hub.get_eq_some hget).1).1
    simp only [AirlineService.work, hidle, Option.toList_some, Option.toList_none, List.length_nil,
      List.length_cons] at honce hq ⊢
    omega
  | quoted m quote hin hquote =>
    simp only [AirlineService.work, hin, Option.toList_some, Option.toList_none, List.length_nil,
      List.length_singleton, List.length_append] at honce ⊢
    omega
  | failed m e hin hquote =>
    simp only [AirlineService.work, hin, Option.toList_some, Option.toList_none, List.length_nil,
      List.length_singleton, List.length_append] at honce ⊢
    omega

theorem Search.next_eq_none {s : Search} {now : ℤ} {hub : Hub} (h : s.next now hub = none) :
    (∃ quotes, s.pc = .returned quotes) ∨ (∃ e, s.pc = .raised e) ∨ s.pc = .cancelled ∨
      ∃ deadline c, s.pc = .get deadline c ∧ hub.get s.queue = none := by
  unfold Search.next at h
  split at h
  · split at h
    · cases h
    · split at h
      · cases h
      · cases h
  · cases h
  · cases h
  · split_ifs at h
    split at h
    · cases h
    · cases h
  · rename_i deadline c hpc
    exact Or.inr (Or.inr (Or.inr ⟨deadline, c, hpc, Option.map_eq_none_iff.mp h⟩))
  · rename_i quotes hpc
    exact Or.inl ⟨quotes, hpc⟩
  · rename_i e hpc
    exact Or.inr (Or.inl ⟨e, hpc⟩)
  · rename_i hpc
    exact Or.inr (Or.inr (Or.inl hpc))

theorem Hub.get_eq_none {hub : Hub} {q : ℕ} (h : hub.get q = none) : hub.broker.queues q = [] := by
  rw [Hub.get, Option.map_eq_none_iff, InMemoryTopicBroker.get] at h
  split at h
  · rename_i hq
    exact hq
  · cases h

namespace FleetWorld

theorem work_eq {w : FleetWorld} {s : Search} (hs : w.world.searches 0 = some s) :
    w.work = s.work + (w.services.map AirlineService.work).sum := by
  rw [work, hs]
  rfl

theorem work_served (ha : fleet.Asked call) {w : FleetWorld} (hi : FleetInv fleet call w) {j : ℕ}
    {x : AirlineService} {r : AirlineService × Hub} (hj : w.services[j]? = some x)
    (hm : x.Move w.world.hub r) :
    FleetWorld.work ⟨{ w.world with hub := r.2 }, w.services.set j r.1⟩ < w.work := by
  obtain ⟨s, hs, -, -, hposted⟩ := hi.search
  have hlt := work_move ha hi.serving hposted (List.mem_of_getElem? hj) hm
  obtain ⟨l₁, l₂, hl, hset⟩ := exists_split hj r.1
  rw [work_eq (w := ⟨{ w.world with hub := r.2 }, w.services.set j r.1⟩) hs, work_eq hs]
  simp only [hset]
  rw [hl]
  simp only [List.map_append, List.map_cons, List.sum_append, List.sum_cons]
  omega

/-- A step other than a tick leaves less work, and a tick no more. -/
theorem work_step (ha : fleet.Asked call) (w : FleetWorld) (a : FleetAction) (w' : FleetWorld)
    (hi : FleetInv fleet call w) (h : step w a = some w') :
    w'.work + (if a.works then 1 else 0) ≤ w.work := by
  have hserved {j : ℕ} {f : AirlineService → Hub → Option (AirlineService × Hub)}
      (hf : ∀ x hub r, f x hub = some r → x.Move hub r) (h : w.served j f = some w') :
      w'.work < w.work := by
    unfold served at h
    split at h
    · cases h
    · rename_i x hj
      obtain ⟨r, hr, rfl⟩ := Option.map_eq_some_iff.mp h
      exact work_served ha hi hj (hf x w.world.hub r hr)
  obtain ⟨s, hs, hlaw, hphase, hposted⟩ := hi.search
  cases a with
  | search =>
    obtain ⟨v, hv, rfl⟩ := Option.map_eq_some_iff.mp h
    simp only [World.step, hs] at hv
    obtain ⟨r, hr, rfl⟩ := Option.map_eq_some_iff.mp hv
    have hlt := work_next ha hi.serving hphase hposted hlaw (.of_next hr)
    rw [work_eq (w := { w with world := w.world.moved 0 r }) (w.world.searches_moved 0 r), work_eq hs]
    change r.1.work + (w.services.map AirlineService.work).sum + 1 ≤ _
    omega
  | tick d =>
    obtain ⟨v, hv, rfl⟩ := Option.map_eq_some_iff.mp h
    obtain ⟨rfl, -⟩ := tick_eq_some hs hv
    exact le_refl w.work
  | receive j => exact hserved (fun x hub r => .of_receive) h
  | answer j => exact hserved (fun x hub r => .of_answer) h

theorem idle_of_rest {w : FleetWorld} (h : ∀ a, a.works = true → step w a = none)
    {x : AirlineService} (hx : x ∈ w.services) :
    x.inHand = none ∧ w.world.hub.broker.queues x.queue = [] := by
  obtain ⟨j, hj⟩ := List.mem_iff_getElem?.mp hx
  have hreceive := h (.receive j) rfl
  have hanswer := h (.answer j) rfl
  simp only [step, served, hj, Option.map_eq_none_iff] at hreceive hanswer
  have hidle : x.inHand = none := by
    cases hin : x.inHand with
    | none => rfl
    | some m =>
      simp only [AirlineService.answer, hin] at hanswer
      split at hanswer
      · cases hanswer
      · cases hanswer
  refine ⟨hidle, ?_⟩
  simp only [AirlineService.receive, hidle, Option.map_eq_none_iff] at hreceive
  exact Hub.get_eq_none hreceive

/-- When nothing is left to do but to let time pass, the search has returned and every service has
received the request. -/
theorem rest (ha : fleet.Asked call) {w : FleetWorld} (hi : FleetInv fleet call w)
    (h : ∀ a, a.works = true → step w a = none) :
    ∃ s quotes, w.world.searches 0 = some s ∧ s.pc = .returned quotes ∧
      ∀ x ∈ w.services, x.received = [.request call.request] := by
  obtain ⟨s, hs, hlaw, hphase, hposted⟩ := hi.search
  have hnext := h .search rfl
  simp only [step, World.step, hs, Option.map_eq_none_iff] at hnext
  have hreceived (hun : s.unsent = []) : ∀ x ∈ w.services, x.received = [.request call.request] := by
    intro x hx
    have honce := received_once ha hi.serving hposted hx
    rw [(idle_of_rest h hx).2, hun] at honce
    simpa using honce
  rcases Search.next_eq_none hnext with ⟨quotes, hpc⟩ | ⟨e, hpc⟩ | hpc | ⟨deadline, c, hpc, hempty⟩
  · exact ⟨s, quotes, hs, hpc, hreceived (by rw [Search.unsent, hpc])⟩
  · exact absurd hpc (hphase.runs e)
  · exact absurd hpc hphase.lives
  · -- every service has answered, so the answers are as many as the search waits for
    have hun : s.unsent = [] := by rw [Search.unsent, hpc]
    have hroom := hlaw.waits deadline c hpc
    have hall := (collected_append ha hi.serving hposted hphase.call_eq hlaw).2
      (by simp [Search.ended, hpc])
    rw [Hub.get_eq_none hempty, List.append_nil, Search.collected, hpc] at hall
    have hanswers : (w.services.flatMap fun x => x.handled.flatMap x.airline.reply) =
        fleet.quotes call.request := by
      rw [Fleet.quotes, ← hi.serving.airlines, List.flatMap_map]
      apply List.flatMap_congr
      intro x hx
      have hone := hreceived hun x hx
      rw [AirlineService.received, (idle_of_rest h hx).1, Option.toList_none, List.append_nil] at hone
      rw [hone, List.flatMap_singleton]
    have hlen := hposted.replies.length_eq
    rw [hanswers, ← hall] at hlen
    rw [hphase.call_eq, ha.expected, ← hlen] at hroom
    exact absurd hroom (lt_irrefl _)

end FleetWorld

theorem recipientRequestTopic_injective : Function.Injective recipientRequestTopic :=
  fun _ _ h => (String.append_right_inj _).mp h

theorem Fleet.listeners_recipient {call : Call} (hcall : call.strategy = .recipientList)
    {name : String} (h : name ∈ fleet.airlines.map Airline.name) :
    fleet.listeners call (recipientRequestTopic name) = 1 := by
  rw [← List.count_eq_one_of_mem fleet.distinct h, List.count, List.countP_map, listeners]
  apply List.countP_congr
  intro airline _
  simp only [Call.requestTopic, ScatterGatherCoordinator.requestTopic, hcall, decide_eq_true_eq,
    Function.comp_apply, beq_iff_eq]
  exact recipientRequestTopic_injective.eq_iff

theorem Fleet.asked_call (fleet : Fleet) (coordinator : ScatterGatherCoordinator)
    (request : SearchRequest) {timeout : ℤ} {recipients : List String} (htimeout : 0 < timeout)
    (hnames : recipients.Perm (fleet.airlines.map Airline.name))
    (hbroadcast : coordinator.broadcastTopic ≠ coordinator.responseTopic)
    (hrecipients : ∀ name ∈ recipients, recipientRequestTopic name ≠ coordinator.responseTopic)
    (strategy : DistributionStrategy) :
    fleet.Asked (fleet.call coordinator request timeout recipients strategy) := by
  cases strategy with
  | publishSubscribe =>
    refine ⟨rfl, htimeout, nofun, ?_, fun airline _ => ?_, ?_⟩
    · intro t ht
      rw [List.mem_singleton.mp ht]
      exact hbroadcast
    · exact List.count_singleton_self
    · exact (Nat.add_zero _).trans (List.countP_eq_length.mpr fun airline _ => decide_eq_true rfl)
  | recipientList =>
    refine ⟨rfl, htimeout, nofun, ?_, fun airline h => ?_, ?_⟩
    · intro t ht
      obtain ⟨name, hname, rfl⟩ := List.mem_map.mp ht
      exact hrecipients name hname
    · change (recipients.map recipientRequestTopic).count (recipientRequestTopic airline.name) = 1
      rw [List.count_map_of_injective _ _ recipientRequestTopic_injective, hnames.count_eq]
      exact List.count_eq_one_of_mem fleet.distinct (List.mem_map_of_mem h)
    · change ((recipients.map recipientRequestTopic).map _).sum = _
      have hone : ∀ name ∈ recipients, (fleet.listeners
          (fleet.call coordinator request timeout recipients .recipientList) ∘
            recipientRequestTopic) name = 1 :=
        fun name hname => Fleet.listeners_recipient rfl (hnames.subset hname)
      rw [List.map_map, List.map_congr_left hone, List.map_const', List.sum_replicate_nat,
        mul_one, hnames.length_eq, List.length_map]

/-- The search of a fleet runs in `w`, asked by the strategy. -/
def FleetWorld.Reached (fleet : Fleet) (call : Call) (acts : List FleetAction) (w : FleetWorld) : Prop :=
  run FleetWorld.step (FleetWorld.start fleet call) acts = some w

def FleetWorld.Returned (w : FleetWorld) (s : Search) (quotes : List Message) : Prop :=
  w.world.searches 0 = some s ∧ s.pc = .returned quotes

/-- Under either strategy and in every interleaving the search comes to rest, and it returns one
quote for every lookup that does not raise; every service receives the request once. The results of
both strategies agree up to their order. -/
theorem strategies_agree (fleet : Fleet) (coordinator : ScatterGatherCoordinator)
    (request : SearchRequest) (timeout : ℤ) (recipients : List String) (htimeout : 0 < timeout)
    (hnames : recipients.Perm (fleet.airlines.map Airline.name))
    (hbroadcast : coordinator.broadcastTopic ≠ coordinator.responseTopic)
    (hrecipients : ∀ name ∈ recipients, recipientRequestTopic name ≠ coordinator.responseTopic) :
    let call := fleet.call coordinator request timeout recipients
    (∀ strategy acts w, FleetWorld.Reached fleet (call strategy) acts w →
      acts.countP FleetAction.works + w.work ≤ (FleetWorld.start fleet (call strategy)).work ∧
      ((∀ a, a.works = true → w.step a = none) → ∃ s quotes, w.Returned s quotes ∧
        ∀ x ∈ w.services, x.received = [.request request]) ∧
      ∀ s quotes, w.Returned s quotes → quotes.Perm (fleet.quotes request) ∧
        s.reached = fleet.airlines.length ∧
        ∀ x ∈ w.services, x.received ++ w.world.hub.broker.queues x.queue = [.request request]) ∧
    ∀ acts w s quotes acts' w' s' quotes',
      FleetWorld.Reached fleet (call .publishSubscribe) acts w → w.Returned s quotes →
      FleetWorld.Reached fleet (call .recipientList) acts' w' → w'.Returned s' quotes' →
      quotes.Perm quotes' := by
  intro call
  have hasked (strategy : DistributionStrategy) : fleet.Asked (call strategy) :=
    fleet.asked_call coordinator request htimeout hnames hbroadcast hrecipients strategy
  have hinv {strategy : DistributionStrategy} {acts : List FleetAction} {w : FleetWorld}
      (h : FleetWorld.Reached fleet (call strategy) acts w) : FleetInv fleet (call strategy) w :=
    run_invariant_of_step (FleetWorld.inv_step (hasked strategy))
      (FleetWorld.inv_start (hasked strategy)) h
  refine ⟨fun strategy acts w h => ⟨?_, fun hrest => ?_, fun s quotes hr => ?_⟩, ?_⟩
  · exact countP_add_le FleetWorld.work
      (fun s a t hi hs => ⟨FleetWorld.inv_step (hasked strategy) s a t hi hs,
        FleetWorld.work_step (hasked strategy) s a t hi hs⟩)
      (FleetWorld.inv_start (hasked strategy)) h
  · obtain ⟨s, quotes, hs, hpc, hreceived⟩ := FleetWorld.rest (hasked strategy) (hinv h) hrest
    exact ⟨s, quotes, ⟨hs, hpc⟩, hreceived⟩
  · exact (hinv h).returned (hasked strategy) hr.1 hr.2
  · intro acts w s quotes acts' w' s' quotes' h hr h' hr'
    have hone := ((hinv h).returned (hasked _) hr.1 hr.2).1
    have hother := ((hinv h').returned (hasked _) hr'.1 hr'.2).1
    exact hone.trans hother.symm

theorem recipientRequestTopic_ne (name : String) :
    recipientRequestTopic name ≠ responseTopicDefault := by
  have hlists (l : List Char) :
      "flights:search:requests:".toList ++ l ≠ "flights:search:responses".toList := by simp
  unfold recipientRequestTopic responseTopicDefault
  rw [Ne, ← String.toList_inj, String.toList_append]
  exact hlists _

/-- Alpha quotes every search, beta has no availability. -/
def demoFleet : Fleet where
  airlines := [
    { name := "alpha"
      lookup := fun request => .ok ⟨request.correlationId, "alpha", "AL100", 30000, 0⟩
      tagged := fun request quote h => by
        cases h
        rfl },
    { name := "beta"
      lookup := fun _ => .error ⟨"RuntimeError", "no availability"⟩
      tagged := fun request quote h => by cases h }]
  distinct := by decide

def demoRequest : SearchRequest :=
  { correlationId := "corr-1", origin := "LHR", destination := "JFK", departureDate := "2026-08-01"
    createdAt := 0 }

theorem strategies_agree_demo : ∃ w s quotes,
    FleetWorld.Reached demoFleet (demoFleet.call {} demoRequest 10 ["beta", "alpha"] .publishSubscribe)
      [.search, .receive 1, .search, .answer 1, .tick 3, .receive 0, .answer 0, .search, .search] w ∧
      w.Returned s quotes ∧ quotes.Perm (demoFleet.quotes demoRequest) ∧ s.reached = 2 := by
  obtain ⟨w, s, quotes, hw, hr⟩ : ∃ w s quotes, FleetWorld.Reached demoFleet
      (demoFleet.call {} demoRequest 10 ["beta", "alpha"] .publishSubscribe)
      [.search, .receive 1, .search, .answer 1, .tick 3, .receive 0, .answer 0, .search, .search] w ∧
        w.Returned s quotes :=
    ⟨_, _, _, rfl, rfl, rfl⟩
  have hagree := (strategies_agree demoFleet {} demoRequest 10 ["beta", "alpha"] (by decide)
    (by decide) (by decide) fun name _ => recipientRequestTopic_ne name).1 _ _ _ hw
  obtain ⟨hperm, hreached, -⟩ := hagree.2.2 s quotes hr
  exact ⟨w, s, quotes, hw, hr, hperm, hreached⟩

end ScatterGather
