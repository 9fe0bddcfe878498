import MessageBrokerPatterns.TopicBroker
import MessageBrokerPatterns.ActionRun

/-!
# Scatter-gather searches, one await at a time

`ScatterGatherCoordinator.scatter_gather` subscribes a queue of its own to the response topic,
scatters the request, gathers the quotes of its correlation id off the queue and unsubscribes it,
however it ends. A search has a number, and its program counter stands before the next await. Time
is counted in ticks of the loop's clock. A wait for the queue may time out at any moment, also when
a message has arrived that the search has not yet been woken for: it then takes nothing.

Any other tasks publish what they like and use queues of their own; the queue of a search is known
to this search alone. The hub is the broker with the pattern's counters in the metrics registry and
a log of all that has been published.
-/

namespace ScatterGather
open PyText PyDict

inductive DistributionStrategy where
  | recipientList
  | publishSubscribe
  deriving DecidableEq, Repr

structure SearchRequest where
  correlationId : String
  origin : String
  destination : String
  departureDate : String
  passengers : ℤ := 1
  createdAt : ℤ
  deriving DecidableEq, Repr

structure FlightQuote where
  correlationId : String
  airline : String
  flightNumber : String
  priceCents : ℤ
  departAt : ℤ
  deriving DecidableEq, Repr

/-- What travels over the topics. -/
inductive Message where
  | request (r : SearchRequest)
  | quote (q : FlightQuote)
  deriving DecidableEq, Repr

def Message.correlationId : Message → String
  | .request r => r.correlationId
  | .quote q => q.correlationId

/-- The counters of the `scatter_gather` pattern in the metrics registry. -/
structure Registry where
  messagesPublished : ℕ := 0
  requestsScattered : ℕ := 0
  responsesGathered : ℕ := 0
  partialGathers : ℕ := 0

structure Hub where
  broker : InMemoryTopicBroker Message := .empty
  registry : Registry := {}
  log : List (String × Message) := []

namespace Hub
variable (hub : Hub)

def subscribe (topic : String) : ℕ × Hub :=
  ((hub.broker.subscribe topic).1, { hub with broker := (hub.broker.subscribe topic).2 })

def unsubscribe (topic : String) (queue : ℕ) : Hub :=
  { hub with broker := hub.broker.unsubscribe topic queue }

def publish (topic : String) (message : Message) : ℕ × Hub :=
  ((hub.broker.publish topic message).1, {
    broker := (hub.broker.publish topic message).2
    registry := { hub.registry with
      messagesPublished := hub.registry.messagesPublished + 1 }
    log := hub.log ++ [(topic, message)] })

def get (queue : ℕ) : Option (Message × Hub) :=
  (hub.broker.get queue).map fun r => (r.1, { hub with broker := r.2 })

/-- The counter that `scatter` increments at its end. -/
def countScattered : Hub := { hub with
  registry.requestsScattered := hub.registry.requestsScattered + 1 }

/-- The counters that `gather` increments at its end. -/
def countGathered (collected : List Message) (expected : ℤ) : Hub := { hub with
  registry.responsesGathered := hub.registry.responsesGathered + collected.length
  registry.partialGathers :=
    if collected.length < expected then hub.registry.partialGathers + 1
    else hub.registry.partialGathers }

end Hub

def responseTopicDefault : String := "flights:search:responses"

def broadcastRequestTopic : String := "flights:search:requests"

def recipientRequestTopic (airline : String) : String := "flights:search:requests:" ++ airline

structure ScatterGatherCoordinator where
  responseTopic : String := responseTopicDefault
  broadcastTopic : String := broadcastRequestTopic

/-- A coordinator and the arguments of its `scatter_gather`. -/
structure Call where
  coordinator : ScatterGatherCoordinator := {}
  request : SearchRequest
  strategy : DistributionStrategy
  expected : ℤ
  timeout : ℤ
  recipients : Option (List String) := none

def Call.topic (call : Call) : String := call.coordinator.responseTopic

def missingRecipients : PyExc :=
  valueError "recipient-list strategy requires an explicit recipients list"

inductive Pc where
  | scatter
  | recipients (left : List String)
  | gather (deadline : ℤ) (collected : List Message)
  | get (deadline : ℤ) (collected : List Message)
  | returned (quotes : List Message)
  | raised (e : PyExc)
  | cancelled

structure Search where
  call : Call
  queue : ℕ
  reached : ℕ := 0
  pc : Pc := .scatter

namespace Search

/-- The end of `scatter`, and `gather` up to its loop. -/
def scattered (s : Search) (now : ℤ) (hub : Hub) : Search × Hub :=
  ({ s with pc := .gather (now + s.call.timeout) [] }, hub.countScattered)

/-- The end of `gather`, with the `finally` block behind it. -/
def gathered (s : Search) (hub : Hub) (collected : List Message) : Search × Hub :=
  ({ s with pc := .returned collected },
    (hub.countGathered collected s.call.expected).unsubscribe s.call.topic s.queue)

/-- The loop of `gather` on a message that it has taken from the queue. -/
def keep (s : Search) (deadline : ℤ) (collected : List Message) (m : Message) : Search :=
  if m.correlationId ≠ s.call.request.correlationId then { s with pc := .gather deadline collected }
  else { s with pc := .gather deadline (collected ++ [m]) }

/-- The next step of the search; a search that waits in `get` goes on when its queue has a message. -/
def next (s : Search) (now : ℤ) (hub : Hub) : Option (Search × Hub) :=
  match s.pc with
  | .scatter =>
      match s.call.strategy with
      | .publishSubscribe =>
          let r := hub.publish s.call.coordinator.broadcastTopic (.request s.call.request)
          some ({ s with reached := r.1 }.scattered now r.2)
      | .recipientList =>
          match s.call.recipients with
          | none => some ({ s with pc := .raised missingRecipients },
              hub.unsubscribe s.call.topic s.queue)
          | some recipients => some ({ s with pc := .recipients recipients }, hub)
  | .recipients [] => some (s.scattered now hub)
  | .recipients (airline :: left) =>
      let r := hub.publish (recipientRequestTopic airline) (.request s.call.request)
      some ({ s with reached := s.reached + r.1, pc := .recipients left }, r.2)
  | .gather deadline collected =>
      if collected.length < s.call.expected then
        if deadline - now ≤ 0 then some (s.gathered hub collected)
        else match hub.get s.queue with
          | some (m, hub) => some (s.keep deadline collected m, hub)
          | none => some ({ s with pc := .get deadline collected }, hub)
      else some (s.gathered hub collected)
  | .get deadline collected => (hub.get s.queue).map fun r => (s.keep deadline collected r.1, r.2)
  | .returned _ => none
  | .raised _ => none
  | .cancelled => none

def timesOut (s : Search) (hub : Hub) : Option (Search × Hub) :=
  match s.pc with
  | .get _ collected => some (s.gathered hub collected)
  | _ => none

def ended (s : Search) : Bool :=
  match s.pc with
  | .returned _ => true
  | .raised _ => true
  | .cancelled => true
  | _ => false

def cancel (s : Search) (hub : Hub) : Option (Search × Hub) :=
  if s.ended then none
  else some ({ s with pc := .cancelled }, hub.unsubscribe s.call.topic s.queue)

/-- All that a step of a search can do, a time-out and a cancellation included. -/
inductive Move (s : Search) (now : ℤ) (hub : Hub) : Search × Hub → Prop where
  | broadcast (hpc : s.pc = .scatter) (hs : s.call.strategy = .publishSubscribe) :
      Move s now hub (Search.scattered { s with
          reached := (hub.publish s.call.coordinator.broadcastTopic (.request s.call.request)).1 } now
        (hub.publish s.call.coordinator.broadcastTopic (.request s.call.request)).2)
  | noRecipients (hpc : s.pc = .scatter) (hs : s.call.strategy = .recipientList)
      (hr : s.call.recipients = none) :
      Move s now hub ({ s with pc := .raised missingRecipients },
        hub.unsubscribe s.call.topic s.queue)
  | address (recipients : List String) (hpc : s.pc = .scatter)
      (hs : s.call.strategy = .recipientList) (hr : s.call.recipients = some recipients) :
      Move s now hub ({ s with pc := .recipients recipients }, hub)
  | recipient (airline : String) (left : List String) (hpc : s.pc = .recipients (airline :: left)) :
      Move s now hub ({ s with
          reached := s.reached +
            (hub.publish (recipientRequestTopic airline) (.request s.call.request)).1
          pc := .recipients left },
        (hub.publish (recipientRequestTopic airline) (.request s.call.request)).2)
  | addressed (hpc : s.pc = .recipients []) : Move s now hub (s.scattered now hub)
  | stop (deadline : ℤ) (collected : List Message) (hpc : s.pc = .gather deadline collected)
      (hstop : s.call.expected ≤ collected.length ∨ deadline - now ≤ 0) :
      Move s now hub (s.gathered hub collected)
  | take (deadline : ℤ) (collected : List Message) (m : Message) (hub' : Hub)
      (hpc : s.pc = .gather deadline collected) (hroom : collected.length < s.call.expected)
      (htime : 0 < deadline - now) (hget : hub.get s.queue = some (m, hub')) :
      Move s now hub (s.keep deadline collected m, hub')
  | wait (deadline : ℤ) (collected : List Message) (hpc : s.pc = .gather deadline collected)
      (hroom : collected.length < s.call.expected) (htime : 0 < deadline - now)
      (hget : hub.get s.queue = none) :
      Move s now hub ({ s with pc := .get deadline collected }, hub)
  | woken (deadline : ℤ) (collected : List Message) (m : Message) (hub' : Hub)
      (hpc : s.pc = .get deadline collected) (hget : hub.get s.queue = some (m, hub')) :
      Move s now hub (s.keep deadline collected m, hub')
  | timeout (deadline : ℤ) (collected : List Message) (hpc : s.pc = .get deadline collected) :
      Move s now hub (s.gathered hub collected)
  | cancel (hend : s.ended = false) :
      Move s now hub ({ s with pc := .cancelled }, hub.unsubscribe s.call.topic s.queue)

theorem Move.of_next {s : Search} {now : ℤ} {hub : Hub} {r : Search × Hub}
    (h : s.next now hub = some r) : Move s now hub r := by
  unfold next at h
  split at h
  · rename_i hpc
    split at h
    · rename_i hs
      cases h
      exact .broadcast hpc hs
    · rename_i hs
      split at h
      · rename_i hr
        cases h
        exact .noRecipients hpc hs hr
      · rename_i recipients hr
        cases h
        exact .address recipients hpc hs hr
  · rename_i hpc
    cases h
    exact .addressed hpc
  · rename_i airline left hpc
    cases h
    exact .recipient airline left hpc
  · rename_i deadline collected hpc
    split_ifs at h with hroom htime
    · cases h
      exact .stop deadline collected hpc (Or.inr htime)
    · split at h
      · rename_i m hub' hget
        cases h
        exact .take deadline collected m hub' hpc hroom (not_le.mp htime) hget
      · rename_i hget
        cases h
        exact .wait deadline collected hpc hroom (not_le.mp htime) hget
    · cases h
      exact .stop deadline collected hpc (Or.inl (not_lt.mp hroom))
  · rename_i deadline collected hpc
    obtain ⟨⟨m, hub'⟩, hget, rfl⟩ := Option.map_eq_some_iff.mp h
    exact .woken deadline collected m hub' hpc hget
  · cases h
  · cases h
  · cases h

theorem Move.of_timesOut {s : Search} {now : ℤ} {hub : Hub} {r : Search × Hub}
    (h : s.timesOut hub = some r) : Move s now hub r := by
  unfold timesOut at h
  split at h
  · rename_i deadline collected hpc
    cases h
    exact .timeout deadline collected hpc
  · cases h

theorem Move.of_cancel {s : Search} {now : ℤ} {hub : Hub} {r : Search × Hub}
    (h : s.cancel hub = some r) : Move s now hub r := by
  unfold Search.cancel at h
  split_ifs at h with hend
  cases h
  exact .cancel (by simpa using hend)

end Search

structure World where
  hub : Hub := {}
  searches : ℕ → Option Search := fun _ => none
  others : List ℕ := []
  now : ℤ := 0

inductive Action where
  | scatterGather (i : ℕ) (call : Call)
  | run (i : ℕ)
  | timeout (i : ℕ)
  | cancel (i : ℕ)
  | tick (d : ℕ)
  | publish (topic : String) (message : Message)
  | subscribe (topic : String)
  | unsubscribe (topic : String) (queue : ℕ)
  | get (queue : ℕ)

def Action.mover : Action → Option ℕ
  | .run i => some i
  | .timeout i => some i
  | .cancel i => some i
  | _ => none

namespace World

/-- The world after a step of the search `i`. -/
def moved (w : World) (i : ℕ) (r : Search × Hub) : World := { w with
  hub := r.2
  searches := Function.update w.searches i (some r.1) }

def step (w : World) : Action → Option World
  | .scatterGather i call =>
      match w.searches i with
      | none =>
          let r := w.hub.subscribe call.topic
          some (w.moved i ({ call, queue := r.1 }, r.2))
      | some _ => none
  | .run i =>
      match w.searches i with
      | some s => (s.next w.now w.hub).map (w.moved i)
      | none => none
  | .timeout i =>
      match w.searches i with
      | some s => (s.timesOut w.hub).map (w.moved i)
      | none => none
  | .cancel i =>
      match w.searches i with
      | some s => (s.cancel w.hub).map (w.moved i)
      | none => none
  | .tick d => some { w with now := w.now + d }
  | .publish topic message => some { w with hub := (w.hub.publish topic message).2 }
  | .subscribe topic =>
      let r := w.hub.subscribe topic
      some { w with hub := r.2, others := w.others ++ [r.1] }
  | .unsubscribe topic queue =>
      if queue ∈ w.others then some { w with hub := w.hub.unsubscribe topic queue } else none
  | .get queue =>
      if queue ∈ w.others then (w.hub.get queue).map fun r => { w with hub := r.2 } else none

/-- All that one action can do. -/
inductive Effect (w : World) : Action → World → Prop where
  | start (i : ℕ) (call : Call) (hnone : w.searches i = none) :
      Effect w (.scatterGather i call) (w.moved i
        ({ call, queue := (w.hub.subscribe call.topic).1 }, (w.hub.subscribe call.topic).2))
  | search (a : Action) (i : ℕ) (s : Search) (r : Search × Hub) (ha : a.mover = some i)
      (hs : w.searches i = some s) (hm : s.Move w.now w.hub r) : Effect w a (w.moved i r)
  | tick (d : ℕ) : Effect w (.tick d) { w with now := w.now + d }
  | publish (topic : String) (message : Message) :
      Effect w (.publish topic message) { w with hub := (w.hub.publish topic message).2 }
  | subscribe (topic : String) : Effect w (.subscribe topic) { w with
      hub := (w.hub.subscribe topic).2
      others := w.others ++ [(w.hub.subscribe topic).1] }
  | unsubscribe (topic : String) (queue : ℕ) (hq : queue ∈ w.others) :
      Effect w (.unsubscribe topic queue) { w with hub := w.hub.unsubscribe topic queue }
  | get (queue : ℕ) (r : Message × Hub) (hq : queue ∈ w.others) (hget : w.hub.get queue = some r) :
      Effect w (.get queue) { w with hub := r.2 }

theorem Effect.of_step {w w' : World} {a : Action} (h : step w a = some w') : Effect w a w' := by
  have hsearch {a : Action} {i : ℕ} {f : Search → Option (Search × Hub)} (ha : a.mover = some i)
      (hf : ∀ s r, f s = some r → s.Move w.now w.hub r)
      (h : (match w.searches i with
        | some s => (f s).map (w.moved i)
        | none => none) = some w') : Effect w a w' := by
    split at h
    · rename_i s hs
      obtain ⟨r, hr, rfl⟩ := Option.map_eq_some_iff.mp h
      exact .search a i s r ha hs (hf s r hr)
    · cases h
  cases a with
  | scatterGather i call =>
    simp only [step] at h
    split at h
    · rename_i hnone
      cases h
      exact .start i call hnone
    · cases h
  | run i => exact hsearch rfl (fun s r hr => .of_next hr) h
  | timeout i => exact hsearch rfl (fun s r hr => .of_timesOut hr) h
  | cancel i => exact hsearch rfl (fun s r hr => .of_cancel hr) h
  | tick d =>
    cases h
    exact .tick d
  | publish topic message =>
    cases h
    exact .publish topic message
  | subscribe topic =>
    cases h
    exact .subscribe topic
  | unsubscribe topic queue =>
    simp only [step] at h
    split_ifs at h with hq
    cases h
    exact .unsubscribe topic queue hq
  | get queue =>
    simp only [step] at h
    split_ifs at h with hq
    obtain ⟨r, hr, rfl⟩ := Option.map_eq_some_iff.mp h
    exact .get queue r hq hr

end World
end ScatterGather
