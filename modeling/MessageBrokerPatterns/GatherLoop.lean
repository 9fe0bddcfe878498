import MessageBrokerPatterns.ScatterIsolation

/-!
# The loop of `gather`

`gather` runs on what the response queue holds and on what is still put on it, its `pending`
messages in one list. Each turn of the loop meets one reading of the clock and one wait for the
queue. A wait that the timeout cancels takes nothing; the timeout also ends a wait for which nothing
more is put on the queue. Of all the turns only those are used that the loop gets to.

The loop stops at the first reading that has reached the deadline, also when messages lie on the
queue that were put there in time.
-/

namespace ScatterGather

/-- What one turn of the loop meets: the clock, and a timeout that cancels the wait. -/
structure Turn where
  reading : ℤ
  timedOut : Bool := false

/-- The outcome of `gather`: its result, what it leaves of the pending messages, the counters. -/
structure Gathered where
  quotes : List Message
  left : List Message
  registry : Registry

def Registry.countGathered (registry : Registry) (collected : List Message) (expected : ℤ) :
    Registry := { registry with
  responsesGathered := registry.responsesGathered + collected.length
  partialGathers :=
    if collected.length < expected then registry.partialGathers + 1 else registry.partialGathers }

/-- The loop of `gather`: the collected quotes and what is left pending. -/
def gatherLoop (correlationId : String) (expected deadline : ℤ) (turns : ℕ → Turn)
    (collected pending : List Message) : List Message × List Message :=
  if collected.length < expected then
    if deadline - (turns 0).reading ≤ 0 then (collected, pending)
    else
      match pending with
      | [] => (collected, [])
      | quote :: rest =>
        if (turns 0).timedOut then (collected, pending)
        else if quote.correlationId ≠ correlationId then
          gatherLoop correlationId expected deadline (fun i => turns (i + 1)) collected rest
        else
          gatherLoop correlationId expected deadline (fun i => turns (i + 1)) (collected ++ [quote])
            rest
  else (collected, pending)
termination_by structural pending

/-- `gather`, called at the time `start`. -/
def gather (registry : Registry) (correlationId : String) (expected timeout start : ℤ)
    (turns : ℕ → Turn) (pending : List Message) : Gathered :=
  let deadline := start + timeout
  let r := gatherLoop correlationId expected deadline turns [] pending
  ⟨r.1, r.2, registry.countGathered r.1 expected⟩

def matching (correlationId : String) (ms : List Message) : List Message :=
  ms.filter fun m => m.correlationId = correlationId

theorem matching_cons (correlationId : String) (m : Message) (ms : List Message) :
    matching correlationId (m :: ms) =
      (if m.correlationId = correlationId then [m] else []) ++ matching correlationId ms := by
  by_cases hm : m.correlationId = correlationId
  · simp [matching, hm]
  · simp [matching, hm]

/-- A turn finds room for one more quote and takes a message. -/
structure Takes (expected deadline : ℤ) (turn : Turn) (collected : List Message) : Prop where
  room : (collected.length : ℤ) < expected
  early : turn.reading < deadline
  woken : turn.timedOut = false

def Stops (expected deadline : ℤ) (turn : Turn) (collected left : List Message) : Prop :=
  expected ≤ collected.length ∨ deadline ≤ turn.reading ∨ turn.timedOut = true ∨ left = []

/-- What the loop has taken when it stops with `r`: one message a turn, of which it has kept those
that match. -/
structure Taken (correlationId : String) (expected deadline : ℤ) (turns : ℕ → Turn)
    (collected pending : List Message) (r : List Message × List Message) (taken : List Message) :
    Prop where
  split : pending = taken ++ r.2
  kept : r.1 = collected ++ matching correlationId taken
  takes : ∀ j < taken.length,
    Takes expected deadline (turns j) (collected ++ matching correlationId (taken.take j))
  stops : Stops expected deadline (turns taken.length) r.1 r.2

theorem Taken.stop {correlationId : String} {expected deadline : ℤ} {turns : ℕ → Turn}
    {collected pending : List Message}
    (h : Stops expected deadline (turns 0) collected pending) :
    Taken correlationId expected deadline turns collected pending (collected, pending) [] :=
  ⟨rfl, (List.append_nil collected).symm, nofun, h⟩

theorem Taken.cons {correlationId : String} {expected deadline : ℤ} {turns : ℕ → Turn}
    {collected rest taken : List Message} {m : Message} {r : List Message × List Message}
    (hnow : Takes expected deadline (turns 0) collected)
    (h : Taken correlationId expected deadline (fun j => turns (j + 1))
      (collected ++ matching correlationId [m]) rest r taken) :
    Taken correlationId expected deadline turns collected (m :: rest) r (m :: taken) := by
  have hcons (ms : List Message) : collected ++ matching correlationId [m] ++ matching correlationId ms =
      collected ++ matching correlationId (m :: ms) := by
    rw [matching_cons, matching_cons, List.append_assoc, List.append_assoc]
    rfl
  refine ⟨by rw [h.split, List.cons_append], by rw [h.kept, hcons], ?_, h.stops⟩
  intro j hj
  cases j with
  | zero =>
    rw [List.take_zero]
    exact (List.append_nil collected).symm ▸ hnow
  | succ j =>
    have hj : j < taken.length := Nat.lt_of_succ_lt_succ hj
    rw [List.take_succ_cons, ← hcons]
    exact h.takes j hj

theorem exists_taken (correlationId : String) (expected deadline : ℤ) (turns : ℕ → Turn)
    (collected pending : List Message) :
    ∃ taken, Taken correlationId expected deadline turns collected pending
      (gatherLoop correlationId expected deadline turns collected pending) taken := by
  induction pending generalizing turns collected with
  | nil =>
    refine ⟨[], ?_⟩
    have hloop : gatherLoop correlationId expected deadline turns collected [] = (collected, []) := by
      rw [gatherLoop]
      split_ifs <;> rfl
    rw [hloop]
    exact .stop (Or.inr (Or.inr (Or.inr rfl)))
  | cons m rest ih =>
    rw [gatherLoop]
    by_cases hroom : (collected.length : ℤ) < expected
    · rw [if_pos hroom]
      by_cases hdeadline : deadline - (turns 0).reading ≤ 0
      · rw [if_pos hdeadline]
        exact ⟨[], .stop (Or.inr (Or.inl (by omega)))⟩
      · rw [if_neg hdeadline]
        by_cases hout : (turns 0).timedOut = true
        · simp only [hout, if_true]
          exact ⟨[], .stop (Or.inr (Or.inr (Or.inl hout)))⟩
        · have hnow : Takes expected deadline (turns 0) collected :=
            ⟨hroom, by omega, Bool.not_eq_true _ ▸ hout⟩
          simp only [hout]
          by_cases hm : m.correlationId = correlationId
          · obtain ⟨taken, ht⟩ := ih (fun j => turns (j + 1)) (collected ++ [m])
            simp only [hm, ne_eq, not_true_eq_false, if_false]
            exact ⟨m :: taken, .cons hnow (by simpa [matching, hm] using ht)⟩
          · obtain ⟨taken, ht⟩ := ih (fun j => turns (j + 1)) collected
            simp only [hm, ne_eq, not_false_eq_true, if_true]
            exact ⟨m :: taken, .cons hnow (by simpa [matching, hm] using ht)⟩
    · rw [if_neg hroom]
      exact ⟨[], .stop (Or.inl (not_lt.mp hroom))⟩

theorem matching_take_mono (correlationId : String) (ms : List Message) {i j : ℕ} (h : i ≤ j) :
    matching correlationId (ms.take i) <+: matching correlationId (ms.take j) :=
  (List.take_prefix_take_left h).filter _

theorem matching_take_succ {correlationId : String} {ms : List Message} {j : ℕ} {m : Message}
    (hj : ms[j]? = some m) (hm : m.correlationId = correlationId) :
    matching correlationId (ms.take (j + 1)) = matching correlationId (ms.take j) ++ [m] := by
  rw [List.take_add_one, hj, matching, List.filter_append, ← matching]
  simp [hm]

theorem Taken.length_le {correlationId : String} {expected deadline : ℤ} {turns : ℕ → Turn}
    {pending : List Message} {r : List Message × List Message} {taken : List Message}
    (h : Taken correlationId expected deadline turns [] pending r taken) :
    (r.1.length : ℤ) ≤ max expected 0 := by
  rw [h.kept, List.nil_append]
  induction taken using List.reverseRecOn with
  | nil => exact le_max_right _ _
  | append_singleton ms m ih =>
    have hlast := (h.takes ms.length (by simp)).room
    rw [List.take_left, List.nil_append] at hlast
    have happ : matching correlationId (ms ++ [m]) =
        matching correlationId ms ++ matching correlationId [m] := List.filter_append ..
    have hone : (matching correlationId [m]).length ≤ 1 := List.length_filter_le ..
    rw [happ, List.length_append]
    omega

/-- Exactly what `gather` takes off the queue, keeps, leaves and counts. -/
theorem gather_exact (registry : Registry) (correlationId : String) (expected timeout start : ℤ)
    (turns : ℕ → Turn) (pending : List Message) :
    let r := gather registry correlationId expected timeout start turns pending
    ∃ taken, pending = taken ++ r.left ∧
      r.quotes = matching correlationId taken ∧
      (r.quotes.length : ℤ) ≤ max expected 0 ∧
      (∀ before, before <+: taken → before ≠ taken →
        ((matching correlationId before).length : ℤ) < expected) ∧
      (∀ j < taken.length, (turns j).timedOut = false) ∧
      ((r.quotes.length : ℤ) < expected → start + timeout ≤ (turns taken.length).reading ∨
        (turns taken.length).timedOut = true ∨ r.left = []) ∧
      (expected ≤ 0 → r.quotes = [] ∧ r.left = pending) ∧
      r.registry = { registry with
        responsesGathered := registry.responsesGathered + r.quotes.length
        partialGathers := registry.partialGathers +
          if (r.quotes.length : ℤ) < expected then 1 else 0 } := by
  intro r
  obtain ⟨taken, ht⟩ := exists_taken correlationId expected (start + timeout) turns [] pending
  have hkept : r.quotes = matching correlationId taken := ht.kept
  refine ⟨taken, ht.split, hkept, ht.length_le, ?_, fun j hj => (ht.takes j hj).woken, ?_, ?_, ?_⟩
  · intro before hpre hne
    have hlt : before.length < taken.length := by
      refine lt_of_le_of_ne hpre.length_le fun hlen => hne (hpre.eq_of_length hlen)
    have hroom := (ht.takes before.length hlt).room
    rw [← List.prefix_iff_eq_take.mp hpre] at hroom
    exact hroom
  · intro hshort
    rcases ht.stops with hfull | hstop
    · exact absurd hshort (not_lt.mpr hfull)
    · exact hstop
  · intro hnone
    have hnil : taken = [] := by
      by_contra hne
      have hroom := (ht.takes 0 (List.length_pos_iff.mpr hne)).room
      simp only [List.length_append] at hroom
      omega
    subst hnil
    exact ⟨hkept, ht.split.symm⟩
  · show registry.countGathered r.quotes expected = _
    rw [Registry.countGathered]
    split_ifs <;> rfl

/-- What `gather` is met with when its deadline is known: the messages with the loop times of their
puts, in the order of the queue, and its turns. The clock does not run backwards, and a wait is
cancelled only when what it waits for was not put on the queue before the deadline. -/
structure Schedule (deadline : ℤ) where
  puts : List (ℤ × Message)
  turns : ℕ → Turn
  ordered : puts.Pairwise fun a b => a.1 ≤ b.1
  clock : ∀ i j, i ≤ j → (turns i).reading ≤ (turns j).reading
  waits : ∀ i a, (turns i).timedOut = true → puts[i]? = some a → deadline ≤ a.1

namespace Schedule
variable {start timeout : ℤ} (s : Schedule (start + timeout)) (correlationId : String) (expected : ℤ)

def messages : List Message := s.puts.map Prod.snd

def gathered (registry : Registry) : Gathered :=
  gather registry correlationId expected timeout start s.turns s.messages

/-- The `i`-th message is a matching one, put on the queue before the deadline, and fewer than
`expected` matching ones lie before it. -/
def Wanted (i : ℕ) : Prop :=
  ∃ a, s.puts[i]? = some a ∧ a.1 < start + timeout ∧ a.2.correlationId = correlationId ∧
    ((matching correlationId (s.messages.take i)).length : ℤ) < expected

/-- The matching messages up to the `i`-th are in the result. -/
def Returned (registry : Registry) (i : ℕ) : Prop :=
  matching correlationId (s.messages.take (i + 1)) <+: (s.gathered correlationId expected registry).quotes

variable {s correlationId expected}

theorem put_le (s : Schedule (start + timeout)) {i j : ℕ} (h : i ≤ j) {a : ℤ × Message}
    (ha : s.puts[j]? = some a) : ∃ b, s.puts[i]? = some b ∧ b.1 ≤ a.1 := by
  obtain ⟨hj, rfl⟩ := List.getElem?_eq_some_iff.mp ha
  refine ⟨s.puts[i], List.getElem?_eq_getElem _, ?_⟩
  rcases h.eq_or_lt with rfl | hlt
  · exact le_rfl
  · exact List.pairwise_iff_getElem.mp s.ordered i j _ hj hlt

/-- `gather` returns a wanted message exactly when it takes it from the queue. -/
theorem returned_iff {registry : Registry} {taken : List Message} {i : ℕ}
    (ht : Taken correlationId expected (start + timeout) s.turns [] s.messages
      (gatherLoop correlationId expected (start + timeout) s.turns [] s.messages) taken)
    (hi : s.Wanted correlationId expected i) :
    s.Returned correlationId expected registry i ↔ i < taken.length := by
  obtain ⟨a, ha, -, hm, -⟩ := hi
  have hmsg : s.messages[i]? = some a.2 := by rw [messages, List.getElem?_map, ha]; rfl
  have hkept : (s.gathered correlationId expected registry).quotes = matching correlationId taken :=
    ht.kept
  have htaken : taken = s.messages.take taken.length := by
    rw [ht.split, List.take_left]
  rw [Returned, hkept]
  constructor
  · intro hpre
    by_contra hle
    have hback : matching correlationId taken <+: matching correlationId (s.messages.take i) := by
      rw [htaken]
      exact matching_take_mono correlationId s.messages (not_lt.mp hle)
    have hlen := hpre.length_le.trans hback.length_le
    rw [matching_take_succ hmsg hm, List.length_append, List.length_singleton] at hlen
    omega
  · intro hlt
    rw [htaken]
    exact matching_take_mono correlationId s.messages hlt

/-- The loop comes to a wanted message unless the clock has reached the deadline by then. -/
theorem lt_taken_iff {taken : List Message} {i : ℕ}
    (ht : Taken correlationId expected (start + timeout) s.turns [] s.messages
      (gatherLoop correlationId expected (start + timeout) s.turns [] s.messages) taken)
    (hi : s.Wanted correlationId expected i) :
    i < taken.length ↔ (s.turns i).reading < start + timeout := by
  obtain ⟨a, ha, hontime, -, hroom⟩ := hi
  constructor
  · exact fun hlt => (ht.takes i hlt).early
  · intro hearly
    by_contra hle
    have hle : taken.length ≤ i := not_lt.mp hle
    have htaken : taken = s.messages.take taken.length := by
      rw [ht.split, List.take_left]
    rcases ht.stops with hfull | hlate | hout | hleft
    · have hmono := (matching_take_mono correlationId s.messages hle).length_le
      rw [← htaken] at hmono
      rw [ht.kept, List.nil_append] at hfull
      omega
    · have hmono : (s.turns taken.length).reading ≤ (s.turns i).reading := s.clock _ _ hle
      omega
    · -- the message that this wait was for was put no later than the wanted one
      obtain ⟨b, hb, hba⟩ := s.put_le hle ha
      have hlate := s.waits taken.length b hout hb
      omega
    · have hlen : s.messages.length = taken.length := by
        rw [ht.split, hleft, List.append_nil]
      have hi : i < s.puts.length := (List.getElem?_eq_some_iff.mp ha).1
      rw [messages, List.length_map] at hlen
      omega

/-- All wanted messages are returned exactly when none of the readings before they are taken has
reached the deadline. -/
theorem returned_iff_early (s : Schedule (start + timeout)) (correlationId : String) (expected : ℤ)
    (registry : Registry) :
    (∀ i, s.Wanted correlationId expected i → s.Returned correlationId expected registry i) ↔
      ∀ i, s.Wanted correlationId expected i → (s.turns i).reading < start + timeout := by
  obtain ⟨taken, ht⟩ := exists_taken correlationId expected (start + timeout) s.turns [] s.messages
  exact forall₂_congr fun i hi => (returned_iff ht hi).trans (lt_taken_iff ht hi)

/-- Both quotes are on the queue at the time 5; other tasks then keep the loop busy beyond the
deadline 10, and the second quote is left. -/
theorem busy_loop_leaves_quote : ∃ s : Schedule (0 + 10),
    s.Wanted "search-A" 2 1 ∧ ¬ s.Returned "search-A" 2 {} 1 ∧
      (s.gathered "search-A" 2 {}).quotes = [World.quoteFor "search-A" "alpha"] ∧
      (s.gathered "search-A" 2 {}).left = [World.quoteFor "search-A" "beta"] := by
  refine ⟨⟨[(5, World.quoteFor "search-A" "alpha"), (5, World.quoteFor "search-A" "beta")],
    fun i => { reading := if i = 0 then 0 else 12 }, by decide, ?_, nofun⟩, ?_, ?_, rfl, rfl⟩
  · intro i j hij
    show (if i = 0 then (0 : ℤ) else 12) ≤ if j = 0 then 0 else 12
    split_ifs <;> omega
  · exact ⟨_, rfl, by decide, rfl, by decide⟩
  · intro hpre
    exact absurd hpre.length_le (by decide)

end Schedule

/-- What a search returns, among all that goes on in a world, is what this loop returns on the
messages that were published to its topic, for some clock and timeouts. -/
theorem World.Returns.exists_gather {i : ℕ} {call : Call} {u w : World} {quotes : List Message}
    (h : Returns i call u w quotes) (registry : Registry) (start : ℤ) :
    ∃ turns, (gather registry call.request.correlationId call.expected call.timeout start turns
      (w.hub.since u.hub.log.length call.topic)).quotes = quotes := by
  obtain ⟨s, rfl, rfl, hlaw⟩ := h.law
  obtain ⟨got, hpre, hgot, -⟩ := hlaw.taken
  have hgot : s.collected = matching s.call.request.correlationId got := hgot
  refine ⟨fun j => ⟨start + s.call.timeout - 1, decide (j = got.length)⟩, ?_⟩
  obtain ⟨taken, ht⟩ := exists_taken s.call.request.correlationId s.call.expected
    (start + s.call.timeout) (fun j => ⟨start + s.call.timeout - 1, decide (j = got.length)⟩) []
    (w.hub.since u.hub.log.length s.call.topic)
  have hsplit : taken <+: w.hub.since u.hub.log.length s.call.topic := by
    rw [ht.split]
    exact List.prefix_append _ _
  have hle : taken.length ≤ got.length := by
    by_contra hlt
    simpa using (ht.takes got.length (not_le.mp hlt)).woken
  have hshort : taken <+: got := List.prefix_of_prefix_length_le hsplit hpre hle
  have hkept : (gatherLoop s.call.request.correlationId s.call.expected (start + s.call.timeout)
      (fun j => ⟨start + s.call.timeout - 1, decide (j = got.length)⟩) []
      (w.hub.since u.hub.log.length s.call.topic)).1 =
      matching s.call.request.correlationId taken := ht.kept
  have hmono : matching s.call.request.correlationId taken <+:
      matching s.call.request.correlationId got := hshort.filter _
  refine hkept.trans ((hmono.eq_of_length_le ?_).trans hgot.symm)
  rcases ht.stops with hfull | hlate | hout | hleft
  · have hroom := hlaw.room
    rw [hkept] at hfull
    rw [hgot] at hroom
    omega
  · exact absurd hlate (by simp)
  · rw [hshort.eq_of_length (of_decide_eq_true hout)]
  · have hall := ht.split
    rw [hleft, List.append_nil] at hall
    exact ((hall ▸ hpre).filter _).length_le

end ScatterGather
