import MessageBrokerPatterns.ScatterIsolation

/-!
# A fleet of airline services behind one search

`AirlineService` subscribes to its request topic when it is built. Its loop `serve` takes a request
from the queue, sleeps through its latency, looks the request up and publishes the quote, or nothing
when the lookup raises. A poll that finds no request and a time-out of a poll change nothing; what
is left are two steps, `receive` and `answer`, and any time may pass between them. The stop event is
never set.

A `FleetWorld` is a world of one search and the services that were built before it. Its clock does
not reach the search's deadline.
-/

namespace ScatterGather
open PyText

/-- An airline and its lookup, which tags a quote with the correlation id of the request. -/
structure Airline where
  name : String
  lookup : SearchRequest → Except PyExc FlightQuote
  tagged : ∀ request quote, lookup request = .ok quote →
    quote.correlationId = request.correlationId

/-- Airlines with pairwise distinct names. -/
structure Fleet where
  airlines : List Airline
  distinct : (airlines.map Airline.name).Nodup

/-- A running service, with the requests that it has dealt with and the one it has in hand. -/
structure AirlineService where
  airline : Airline
  requestTopic : String
  responseTopic : String
  queue : ℕ
  handled : List Message := []
  inHand : Option Message := none
  served : ℕ := 0
  serviceFailures : ℕ := 0

/-- What the lookup of an airline makes of a message. -/
def Airline.quote (airline : Airline) : Message → Except PyExc FlightQuote
  | .request request => airline.lookup request
  | .quote _ => .error ⟨"AttributeError", "'FlightQuote' object is not a search request"⟩

def Airline.reply (airline : Airline) (m : Message) : List Message :=
  match airline.quote m with
  | .ok quote => [.quote quote]
  | .error _ => []

def Fleet.quotes (fleet : Fleet) (request : SearchRequest) : List Message :=
  fleet.airlines.flatMap fun airline => airline.reply (.request request)

namespace AirlineService

/-- `await self._queue.get()` in `serve`. -/
def receive (x : AirlineService) (hub : Hub) : Option (AirlineService × Hub) :=
  match x.inHand with
  | some _ => none
  | none => (hub.get x.queue).map fun r => ({ x with inHand := some r.1 }, r.2)

/-- `serve` from the lookup on. -/
def answer (x : AirlineService) (hub : Hub) : Option (AirlineService × Hub) :=
  match x.inHand with
  | none => none
  | some m =>
    match x.airline.quote m with
    | .ok quote => some ({ x with handled := x.handled ++ [m], inHand := none, served := x.served + 1 },
        (hub.publish x.responseTopic (.quote quote)).2)
    | .error _ => some ({ x with
        handled := x.handled ++ [m], inHand := none, serviceFailures := x.serviceFailures + 1 }, hub)

def received (x : AirlineService) : List Message := x.handled ++ x.inHand.toList

end AirlineService

structure FleetWorld where
  world : World
  services : List AirlineService

inductive FleetAction where
  | search
  | tick (d : ℕ)
  | receive (j : ℕ)
  | answer (j : ℕ)

def Search.deadline (s : Search) : Option ℤ :=
  match s.pc with
  | .gather deadline _ => some deadline
  | .get deadline _ => some deadline
  | _ => none

namespace FleetWorld

/-- The world after `d` ticks, as long as they do not reach the deadline. -/
def tick (w : World) (d : ℕ) : Option World :=
  match (w.searches 0).bind Search.deadline with
  | some deadline => if w.now + d < deadline then World.step w (.tick d) else none
  | none => World.step w (.tick d)

/-- The world after a step of the `j`-th service. -/
def served (s : FleetWorld) (j : ℕ) (f : AirlineService → Hub → Option (AirlineService × Hub)) :
    Option FleetWorld :=
  match s.services[j]? with
  | none => none
  | some x => (f x s.world.hub).map fun r =>
      ⟨{ s.world with hub := r.2 }, s.services.set j r.1⟩

def step (s : FleetWorld) : FleetAction → Option FleetWorld
  | .search => (World.step s.world (.run 0)).map fun w => { s with world := w }
  | .tick d => (tick s.world d).map fun w => { s with world := w }
  | .receive j => s.served j AirlineService.receive
  | .answer j => s.served j AirlineService.answer

end FleetWorld

def ScatterGatherCoordinator.requestTopic (coordinator : ScatterGatherCoordinator)
    (strategy : DistributionStrategy) (airline : Airline) : String :=
  match strategy with
  | .publishSubscribe => coordinator.broadcastTopic
  | .recipientList => recipientRequestTopic airline.name

/-- `AirlineService(name, broker, lookup, request_topic, response_topic)`, airline by airline. -/
def construct (topic : Airline → String) (responseTopic : String) :
    List Airline → World → List AirlineService × World
  | [], w => ([], w)
  | airline :: rest, w =>
      let r := w.hub.subscribe (topic airline)
      let made := construct topic responseTopic rest
        { w with hub := r.2, others := w.others ++ [r.1] }
      ({ airline, requestTopic := topic airline, responseTopic, queue := r.1 } :: made.1, made.2)

/-- The call of a fleet's search: as many quotes are expected as there are lookups that do not
raise, and a recipient list has the names of the fleet. -/
def Fleet.call (fleet : Fleet) (coordinator : ScatterGatherCoordinator) (request : SearchRequest)
    (timeout : ℤ) (recipients : List String) (strategy : DistributionStrategy) : Call where
  coordinator := coordinator
  request := request
  strategy := strategy
  expected := (fleet.quotes request).length
  timeout := timeout
  recipients := match strategy with
    | .publishSubscribe => none
    | .recipientList => some recipients

def FleetWorld.start (fleet : Fleet) (call : Call) : FleetWorld :=
  let made := construct (call.coordinator.requestTopic call.strategy) call.topic fleet.airlines {}
  let r := made.2.hub.subscribe call.topic
  ⟨made.2.moved 0 ({ call, queue := r.1 }, r.2), made.1⟩

end ScatterGather
