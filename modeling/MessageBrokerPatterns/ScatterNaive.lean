import MessageBrokerPatterns.ScatterCombining

/-!
# Asking the airlines one after the other

`gather_quotes_sequentially` awaits one lookup after the other and has no `try`. It is the plain path beside
scatter and gather: where every lookup answers, both end with the same quotes. Where one raises, the loop ends
there, and the airlines behind it are never asked; the search has their quotes all the same.
-/

namespace ScatterGather
open PyText

/-- The loop of `gather_quotes_sequentially`, with the number of lookups that it awaits. -/
def sequentialLoop (request : SearchRequest) :
    List (SearchRequest → Except PyExc FlightQuote) → List FlightQuote → Except PyExc (List FlightQuote) × ℕ
  | [], quotes => (.ok quotes, 0)
  | lookup :: rest, quotes =>
      match lookup request with
      | .error e => (.error e, 1)
      | .ok quote =>
          let r := sequentialLoop request rest (quotes ++ [quote])
          (r.1, r.2 + 1)

def gatherQuotesSequentially (request : SearchRequest)
    (lookups : List (SearchRequest → Except PyExc FlightQuote)) : Except PyExc (List FlightQuote) × ℕ :=
  sequentialLoop request lookups []

def quotesOf (request : SearchRequest) (airlines : List Airline) : List FlightQuote :=
  airlines.filterMap fun airline => (airline.lookup request).toOption

theorem flightQuotes_fleet (fleet : Fleet) (request : SearchRequest) :
    flightQuotes (fleet.quotes request) = quotesOf request fleet.airlines := by
  rw [Fleet.quotes, flightQuotes, List.filterMap_flatMap, quotesOf, List.filterMap_eq_flatMap_toList]
  refine List.flatMap_congr fun airline _ => ?_
  rw [Airline.reply, Airline.quote]
  cases airline.lookup request <;> rfl

theorem quotesOf_cons (request : SearchRequest) (airline : Airline) (airlines : List Airline) :
    quotesOf request (airline :: airlines) =
      (airline.lookup request).toOption.toList ++ quotesOf request airlines := by
  cases h : (airline.lookup request).toOption <;> simp [quotesOf, h]

theorem sequentialLoop_cases (request : SearchRequest) (airlines : List Airline) (quotes : List FlightQuote) :
    (sequentialLoop request (airlines.map Airline.lookup) quotes =
        (.ok (quotes ++ quotesOf request airlines), airlines.length)) ∨
      ∃ before raising after e, airlines = before ++ raising :: after ∧ raising.lookup request = .error e ∧
        sequentialLoop request (airlines.map Airline.lookup) quotes = (.error e, before.length + 1) := by
  induction airlines generalizing quotes with
  | nil => exact Or.inl (by rw [quotesOf, List.filterMap_nil, List.append_nil]; rfl)
  | cons airline airlines ih =>
    rw [List.map_cons, sequentialLoop]
    cases hlookup : airline.lookup request with
    | error e => exact Or.inr ⟨[], airline, airlines, e, rfl, hlookup, rfl⟩
    | ok quote =>
      have hcons (l : List Airline) : quotesOf request (airline :: l) = quote :: quotesOf request l := by
        rw [quotesOf_cons, hlookup]
        rfl
      rcases ih (quotes ++ [quote]) with hall | ⟨before, raising, after, e, rfl, he, hloop⟩
      · left
        simp only [hall, hcons, List.append_assoc, List.singleton_append, List.length_cons]
      · right
        exact ⟨airline :: before, raising, after, e, rfl, he, by simp only [hloop, List.length_cons]⟩

/-- Where the loop returns, a search of the same airlines that returns gives the same combined answer. Where it
raises, it has awaited the airlines up to the one that raises, and the search has the quotes of all others. -/
theorem sequential_agrees (fleet : Fleet) (coordinator : ScatterGatherCoordinator)
    (request : SearchRequest) (timeout : ℤ) (recipients : List String) (htimeout : 0 < timeout)
    (hnames : recipients.Perm (fleet.airlines.map Airline.name))
    (hbroadcast : coordinator.broadcastTopic ≠ coordinator.responseTopic)
    (hrecipients : ∀ name ∈ recipients, recipientRequestTopic name ≠ coordinator.responseTopic)
    (strategy : DistributionStrategy) (acts : List FleetAction) (w : FleetWorld) (s : Search)
    (gathered : List Message)
    (hreached : FleetWorld.Reached fleet
      (fleet.call coordinator request timeout recipients strategy) acts w)
    (hreturned : w.Returned s gathered) :
    let r := gatherQuotesSequentially request (fleet.airlines.map Airline.lookup)
    (∀ quotes, r.1 = .ok quotes → r.2 = fleet.airlines.length ∧
      (flightQuotes gathered).Perm quotes ∧ SameAnswer (flightQuotes gathered) quotes) ∧
    ∀ e, r.1 = .error e → ∃ before raising after, fleet.airlines = before ++ raising :: after ∧
      raising.lookup request = .error e ∧ r.2 = before.length + 1 ∧
      (flightQuotes gathered).Perm (quotesOf request before ++ quotesOf request after) := by
  intro r
  have hperm : (flightQuotes gathered).Perm (quotesOf request fleet.airlines) := by
    have hall := hreached.gathered_perm
      (fleet.asked_call coordinator request htimeout hnames hbroadcast hrecipients strategy) hreturned
    exact hall.trans (.of_eq (flightQuotes_fleet fleet request))
  rcases sequentialLoop_cases request fleet.airlines [] with hall | ⟨before, raising, after, e, hsplit, he, hloop⟩
  · have hr : r = (.ok (quotesOf request fleet.airlines), fleet.airlines.length) := hall
    rw [hr]
    refine ⟨fun quotes hquotes => ?_, nofun⟩
    obtain rfl := Except.ok.inj hquotes
    exact ⟨rfl, hperm, sameAnswer_of_perm hperm⟩
  · have hr : r = (.error e, before.length + 1) := hloop
    rw [hr]
    refine ⟨nofun, fun e' he' => ⟨before, raising, after, hsplit, ?_, rfl, ?_⟩⟩
    · rw [he, Except.error.inj he']
    · rw [hsplit, quotesOf, List.filterMap_append, ← quotesOf, ← quotesOf, quotesOf_cons, he] at hperm
      exact hperm

/-- Beta has no availability; were it asked first, the loop would never ask alpha. -/
def betaFirst : Fleet where
  airlines := demoFleet.airlines.reverse
  distinct := by decide

theorem betaFirst_agrees : ∃ (w : FleetWorld) (s : Search) (gathered : List Message), w.Returned s gathered ∧
    (flightQuotes gathered).map FlightQuote.airline = ["alpha"] ∧
    (gatherQuotesSequentially demoRequest (betaFirst.airlines.map Airline.lookup)).2 = 1 ∧
    ∃ before raising after, betaFirst.airlines = before ++ raising :: after ∧
      (flightQuotes gathered).Perm (quotesOf demoRequest before ++ quotesOf demoRequest after) := by
  obtain ⟨w, s, gathered, hw, hr, hairlines⟩ : ∃ w s gathered, FleetWorld.Reached betaFirst
      (betaFirst.call {} demoRequest 10 ["alpha", "beta"] .publishSubscribe)
      [.search, .search, .receive 0, .answer 0, .receive 1, .answer 1, .search, .search] w ∧
      w.Returned s gathered ∧ (flightQuotes gathered).map FlightQuote.airline = ["alpha"] :=
    ⟨_, _, _, rfl, ⟨rfl, rfl⟩, rfl⟩
  obtain ⟨-, hraises⟩ := sequential_agrees betaFirst {} demoRequest 10 ["alpha", "beta"] (by decide)
    (by decide) (by decide) (fun name _ => recipientRequestTopic_ne name) _ _ w s gathered hw hr
  obtain ⟨before, raising, after, hsplit, -, -, hperm⟩ := hraises _ rfl
  exact ⟨w, s, gathered, hr, hairlines, rfl, before, raising, after, hsplit, hperm⟩

end ScatterGather
