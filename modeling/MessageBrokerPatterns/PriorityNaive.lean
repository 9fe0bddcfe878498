import MessageBrokerPatterns.PriorityBroker

/-!
# The single-FIFO baseline of the priority queue

One stream for all tickets, with the priority as a field that nothing on the way to a handler reads.
`run_fifo_consumer` polls a given number of times and returns the tickets in the order in which it
has served them, which is the order in which they were published.
-/

namespace PriorityQueue.Naive
open PyText PyDict RedisStream

/-- `publish` to `support:all`. -/
def publish (s : GroupStream Fields String Unit) (t : SupportTicket) :
    GroupStream Fields String Unit :=
  s.xadd (encodeFields t.toFields)

/-- The `for` loop of `run_fifo_consumer` over a batch, with a handler that returns. -/
def serveBatch : GroupStream Fields String Unit → List SupportTicket → List (ℕ × Fields) →
    Except PyExc (GroupStream Fields String Unit × List SupportTicket)
  | s, served, [] => .ok (s, served)
  | s, served, (id, fields) :: rest => do
      let ticket ← SupportTicket.fromFields fields
      serveBatch (s.xack id) (served ++ [ticket]) rest

/-- `run_fifo_consumer` with the polls that are left of `max_polls`, and the stream behind it. -/
def runFifoConsumer (consumerId : String) (count : ℕ) :
    ℕ → GroupStream Fields String Unit → List SupportTicket →
      Except PyExc (GroupStream Fields String Unit × List SupportTicket)
  | 0, s, served => .ok (s, served)
  | polls + 1, s, served => do
      let r ← serveBatch (s.readNew consumerId () count) served (s.newBatch count)
      runFifoConsumer consumerId count polls r.1 r.2

theorem serveBatch_tickets (s : GroupStream Fields String Unit) (served tickets : List SupportTicket)
    (n : ℕ) : ∃ s', serveBatch s served (numberFrom n (tickets.map fun t => encodeFields t.toFields)) =
      .ok (s', served ++ tickets) ∧ s'.entries = s.entries ∧ s'.delivered = s.delivered := by
  induction tickets generalizing s served n with
  | nil => exact ⟨s, by rw [List.append_nil]; rfl, rfl, rfl⟩
  | cons t tickets ih =>
    obtain ⟨s', hs', hentries, hdelivered⟩ := ih (s.xack n) (served ++ [t]) (n + 1)
    refine ⟨s', ?_, hentries, hdelivered⟩
    rw [List.map_cons, numberFrom, serveBatch, SupportTicket.fromFields_toFields]
    rw [List.append_assoc] at hs'
    exact hs'

/-- Every poll serves the next tickets of the stream. -/
theorem runFifoConsumer_serves (consumerId : String) (count polls : ℕ)
    (s : GroupStream Fields String Unit) (served : List SupportTicket) {tickets : List SupportTicket}
    (hentries : s.entries = tickets.map fun t => encodeFields t.toFields) :
    ∃ s', runFifoConsumer consumerId count polls s served =
      .ok (s', served ++ (tickets.drop s.delivered).take (polls * count)) := by
  induction polls generalizing s served with
  | zero =>
    refine ⟨s, ?_⟩
    rw [Nat.zero_mul, List.take_zero, List.append_nil]
    rfl
  | succ polls ih =>
    have hbatch : s.newBatch count = numberFrom (s.delivered + 1)
        (((tickets.drop s.delivered).take count).map fun t => encodeFields t.toFields) := by
      rw [GroupStream.newBatch, xread, hentries, List.map_take, List.map_drop]
    obtain ⟨s₁, hserve, hentries₁, hdelivered₁⟩ := serveBatch_tickets
      (s.readNew consumerId () count) served ((tickets.drop s.delivered).take count)
      (s.delivered + 1)
    obtain ⟨s', hs'⟩ := ih s₁ (served ++ (tickets.drop s.delivered).take count)
      (hentries₁.trans hentries)
    have hdrop : tickets.drop s₁.delivered = (tickets.drop s.delivered).drop count := by
      rw [hdelivered₁, GroupStream.delivered_readNew, GroupStream.newCount, hentries,
        List.length_map, List.drop_drop]
      rcases Nat.le_total count (tickets.length - s.delivered) with hle | hle
      · rw [Nat.min_eq_left hle]
      · rw [List.drop_eq_nil_of_le (by omega), List.drop_eq_nil_of_le (by omega)]
    refine ⟨s', ?_⟩
    rw [runFifoConsumer, hbatch, hserve]
    refine hs'.trans ?_
    rw [hdrop, List.append_assoc, Nat.succ_mul, Nat.add_comm, List.take_add]

theorem entries_publish (tickets : List SupportTicket) (s : GroupStream Fields String Unit) :
    (tickets.foldl publish s).entries =
      s.entries ++ tickets.map fun t => encodeFields t.toFields := by
  induction tickets generalizing s with
  | nil => exact (List.append_nil _).symm
  | cons t tickets ih =>
    rw [List.foldl_cons, ih, publish, GroupStream.entries_xadd, List.append_assoc,
      List.singleton_append, List.map_cons]

theorem delivered_publish (tickets : List SupportTicket) (s : GroupStream Fields String Unit) :
    (tickets.foldl publish s).delivered = s.delivered := by
  induction tickets generalizing s with
  | nil => rfl
  | cons t tickets ih =>
    rw [List.foldl_cons, ih]
    rfl

theorem runFifoConsumer_eq (consumerId : String) (count polls : ℕ) (tickets : List SupportTicket)
    (hpolls : tickets.length ≤ polls * count) :
    ∃ s, runFifoConsumer consumerId count polls (tickets.foldl publish .empty) [] =
      .ok (s, tickets) := by
  obtain ⟨s, hs⟩ := runFifoConsumer_serves consumerId count polls (tickets.foldl publish .empty) []
    (entries_publish tickets .empty)
  rw [delivered_publish] at hs
  refine ⟨s, hs.trans ?_⟩
  rw [List.nil_append, GroupStream.empty, List.drop_zero, List.take_of_length_le hpolls]

end PriorityQueue.Naive
