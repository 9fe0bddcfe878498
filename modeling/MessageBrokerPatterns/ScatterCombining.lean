import MessageBrokerPatterns.FleetStrategies
import MessageBrokerPatterns.StableSort

/-!
# Combining the gathered quotes

`sorted` is the stable sort by a key and `min` the first of the least elements. The strategies may be applied
in any order, and what they make of a search's quotes does not depend on the order in which the airlines
answered, nor on how they were asked: prices are the same, and so are the quotes unless two airlines ask the
same price.
-/

namespace ScatterGather
open StableSort

/-- The quotes among the gathered messages. -/
def flightQuotes (gathered : List Message) : List FlightQuote :=
  gathered.filterMap fun m => match m with
    | .quote q => some q
    | .request _ => none

def sortByPrice (quotes : List FlightQuote) : List FlightQuote := sortOn FlightQuote.priceCents quotes

def cheapest (quotes : List FlightQuote) : Option FlightQuote := minOn FlightQuote.priceCents quotes

def filterDepartingAfter (threshold : ℤ) (quotes : List FlightQuote) : List FlightQuote :=
  quotes.filter fun q => q.departAt ≥ threshold

/-- Filtering and sorting may change places; the cheapest quote heads the sorted list, and the cheapest one
that departs late enough is the first of the sorted list that does. -/
theorem combining_composes (quotes : List FlightQuote) (threshold : ℤ) :
    sortByPrice (filterDepartingAfter threshold quotes) =
        filterDepartingAfter threshold (sortByPrice quotes) ∧
      cheapest quotes = (sortByPrice quotes).head? ∧
      cheapest (filterDepartingAfter threshold quotes) =
        (sortByPrice quotes).find? fun q => q.departAt ≥ threshold := by
  have hfilter : sortByPrice (filterDepartingAfter threshold quotes) =
      filterDepartingAfter threshold (sortByPrice quotes) := sortOn_filter _ quotes
  refine ⟨hfilter, minOn_eq_head? quotes, (minOn_eq_head? _).trans ?_⟩
  change (sortByPrice (filterDepartingAfter threshold quotes)).head? = _
  rw [hfilter, filterDepartingAfter, List.head?_filter]

/-- What a caller reads off the combined quotes. -/
structure SameAnswer (quotes quotes' : List FlightQuote) : Prop where
  prices : (sortByPrice quotes).map FlightQuote.priceCents =
    (sortByPrice quotes').map FlightQuote.priceCents
  cheapestPrice : (cheapest quotes).map FlightQuote.priceCents =
    (cheapest quotes').map FlightQuote.priceCents
  sorted : (quotes.map FlightQuote.priceCents).Nodup → sortByPrice quotes = sortByPrice quotes'
  cheapest : (quotes.map FlightQuote.priceCents).Nodup → cheapest quotes = cheapest quotes'

theorem sameAnswer_of_perm {quotes quotes' : List FlightQuote} (h : quotes.Perm quotes') :
    SameAnswer quotes quotes' where
  prices := map_sortOn_of_perm h
  cheapestPrice := by
    have hprices : (sortOn FlightQuote.priceCents quotes).map FlightQuote.priceCents =
        (sortOn FlightQuote.priceCents quotes').map FlightQuote.priceCents := map_sortOn_of_perm h
    rw [ScatterGather.cheapest, ScatterGather.cheapest, minOn_eq_head?, minOn_eq_head?, ← List.head?_map,
      ← List.head?_map, hprices]
  sorted := sortOn_of_perm h
  cheapest hdistinct := by
    rw [ScatterGather.cheapest, ScatterGather.cheapest, minOn_eq_head?, minOn_eq_head?,
      sortOn_of_perm h hdistinct]

/-- A search that returns has the quotes of all airlines whose lookup does not raise. -/
theorem FleetWorld.Reached.gathered_perm {fleet : Fleet} {call : Call} {acts : List FleetAction}
    {w : FleetWorld} {s : Search} {gathered : List Message} (h : FleetWorld.Reached fleet call acts w)
    (hasked : fleet.Asked call) (hr : w.Returned s gathered) :
    (flightQuotes gathered).Perm (flightQuotes (fleet.quotes call.request)) := by
  have hinv := ActionRun.run_invariant_of_step (FleetWorld.inv_step hasked) (FleetWorld.inv_start hasked) h
  exact (hinv.returned hasked hr.1 hr.2).1.filterMap _

/-- Two searches of one fleet for one request, each under either strategy and in any interleaving, give one
combined answer, also of the quotes that depart late enough. -/
theorem combined_answer_fixed (fleet : Fleet) (coordinator : ScatterGatherCoordinator)
    (request : SearchRequest) (timeout : ℤ) (recipients : List String) (htimeout : 0 < timeout)
    (hnames : recipients.Perm (fleet.airlines.map Airline.name))
    (hbroadcast : coordinator.broadcastTopic ≠ coordinator.responseTopic)
    (hrecipients : ∀ name ∈ recipients, recipientRequestTopic name ≠ coordinator.responseTopic)
    (strategy strategy' : DistributionStrategy) (acts acts' : List FleetAction) (w w' : FleetWorld)
    (s s' : Search) (gathered gathered' : List Message)
    (hreached : FleetWorld.Reached fleet
      (fleet.call coordinator request timeout recipients strategy) acts w)
    (hreturned : w.Returned s gathered)
    (hreached' : FleetWorld.Reached fleet
      (fleet.call coordinator request timeout recipients strategy') acts' w')
    (hreturned' : w'.Returned s' gathered') :
    SameAnswer (flightQuotes gathered) (flightQuotes gathered') ∧ ∀ threshold,
      SameAnswer (filterDepartingAfter threshold (flightQuotes gathered))
        (filterDepartingAfter threshold (flightQuotes gathered')) := by
  have hgathered {strategy : DistributionStrategy} {acts : List FleetAction} {w : FleetWorld}
      {s : Search} {gathered : List Message}
      (h : FleetWorld.Reached fleet (fleet.call coordinator request timeout recipients strategy) acts w)
      (hr : w.Returned s gathered) :=
    h.gathered_perm (fleet.asked_call coordinator request htimeout hnames hbroadcast hrecipients strategy) hr
  have hperm : (flightQuotes gathered).Perm (flightQuotes gathered') :=
    (hgathered hreached hreturned).trans (hgathered hreached' hreturned').symm
  exact ⟨sameAnswer_of_perm hperm, fun threshold => sameAnswer_of_perm (hperm.filter _)⟩

/-- Alpha is the dearer airline, beta the later one. -/
def pairFleet : Fleet where
  airlines := [
    { name := "alpha"
      lookup := fun request => .ok ⟨request.correlationId, "alpha", "AL300", 30000, 0⟩
      tagged := fun request quote h => by
        cases h
        rfl },
    { name := "beta"
      lookup := fun request => .ok ⟨request.correlationId, "beta", "BE200", 25000, 4⟩
      tagged := fun request quote h => by
        cases h
        rfl }]
  distinct := by decide

/-- One search hears beta first, the other one alpha. -/
theorem pairFleet_answer : ∃ (w w' : FleetWorld) (s s' : Search) (gathered gathered' : List Message),
    w.Returned s gathered ∧ w'.Returned s' gathered' ∧
    (flightQuotes gathered).map FlightQuote.airline = ["beta", "alpha"] ∧
    (flightQuotes gathered').map FlightQuote.airline = ["alpha", "beta"] ∧
    sortByPrice (flightQuotes gathered) = sortByPrice (flightQuotes gathered') := by
  let call := pairFleet.call {} demoRequest 10 ["alpha", "beta"]
  obtain ⟨w, s, gathered, hw, hr, hairlines⟩ : ∃ w s gathered, FleetWorld.Reached pairFleet
      (call .publishSubscribe) [.search, .search, .receive 0, .receive 1, .answer 1, .answer 0, .search,
        .search, .search] w ∧ w.Returned s gathered ∧
      (flightQuotes gathered).map (fun q => (q.airline, q.priceCents)) =
        [("beta", 25000), ("alpha", 30000)] :=
    ⟨_, _, _, rfl, ⟨rfl, rfl⟩, rfl⟩
  obtain ⟨w', s', gathered', hw', hr', hairlines'⟩ : ∃ w s gathered, FleetWorld.Reached pairFleet
      (call .recipientList) [.search, .search, .search, .receive 0, .receive 1, .answer 0, .answer 1,
        .search, .search, .search, .search] w ∧ w.Returned s gathered ∧
      (flightQuotes gathered).map FlightQuote.airline = ["alpha", "beta"] :=
    ⟨_, _, _, rfl, ⟨rfl, rfl⟩, rfl⟩
  obtain ⟨hanswer, -⟩ := combined_answer_fixed pairFleet {} demoRequest 10 ["alpha", "beta"] (by decide)
    (by decide) (by decide) (fun name _ => recipientRequestTopic_ne name) _ _ _ _ w w' s s' gathered
    gathered' hw hr hw' hr'
  have hnames := congrArg (List.map Prod.fst) hairlines
  have hprices := congrArg (List.map Prod.snd) hairlines
  rw [List.map_map] at hnames hprices
  have hdistinct : ((flightQuotes gathered).map FlightQuote.priceCents).Nodup :=
    (congrArg List.Nodup hprices).mpr (by decide)
  exact ⟨w, w', s, s', gathered, gathered', hr, hr', hnames, hairlines', hanswer.sorted hdistinct⟩

end ScatterGather
