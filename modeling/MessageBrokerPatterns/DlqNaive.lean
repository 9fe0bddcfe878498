import MessageBrokerPatterns.DlqBroker

/-!
# The retry-forever baseline

`run_retry_forever_consumer` re-reads its own backlog before it reads anything new and leaves a batch
at the first failure, with no retry budget. `NaiveRun` is the server, the result so far and the
handler's calls in their order.

On a fresh group whose payment at position `j` always fails, a run is at all times at a position up
to `j`: everything before it has been processed once and acknowledged, the backlog starts there, and
the handler has seen nothing behind `j`. With `j` at the head of the backlog a poll is one more failure.
-/

namespace Dlq
open PyText PyDict RedisStream

structure NaiveRunResult where
  processed : List String := []
  failures : Dict String ℕ := []
  polls : ℕ := 0
  deriving DecidableEq, Repr

def NaiveRunResult.attemptsFor (r : NaiveRunResult) (paymentId : String) : ℕ :=
  (get? r.failures paymentId).getD 0

/-- What the handler's `n`-th call does with the message in hand. -/
abbrev NaiveHandler := ℕ → ℕ × Payment → Option PyExc

structure NaiveRun where
  server : Server
  result : NaiveRunResult := {}
  calls : List (ℕ × Payment) := []

namespace NaiveRun

def failed (w : NaiveRun) (id : ℕ) (payment : Payment) : NaiveRun := { w with
  result.failures :=
    assign w.result.failures payment.paymentId (w.result.attemptsFor payment.paymentId + 1)
  calls := w.calls ++ [(id, payment)] }

def succeeded (w : NaiveRun) (id : ℕ) (payment : Payment) : NaiveRun := { w with
  server := w.server.ack id
  result.processed := w.result.processed ++ [payment.paymentId]
  calls := w.calls ++ [(id, payment)] }

variable (handler : NaiveHandler) (consumer : String) (count : ℕ)

/-- The `for` loop of a poll; a failure breaks it, and `from_fields` runs outside the `try`. -/
def forBatch (w : NaiveRun) : List (ℕ × Fields) → Except PyExc NaiveRun
  | [] => .ok w
  | (id, fields) :: rest =>
      match Payment.fromFields fields with
      | .error e => .error e
      | .ok payment =>
          match handler w.calls.length (id, payment) with
          | some _ => .ok (w.failed id payment)
          | none => (w.succeeded id payment).forBatch rest

def poll (w : NaiveRun) : Except PyExc NaiveRun :=
  let w := { w with result.polls := w.result.polls + 1 }
  match w.server.readPending consumer count with
  | ([], server) =>
      match server.readNew consumer count with
      | ([], server) => .ok { w with server }
      | (batch, server) => { w with server }.forBatch handler batch
  | (batch, server) => { w with server }.forBatch handler batch

/-- The `while` loop, whose polls are counted from zero. -/
def polls : ℕ → NaiveRun → Except PyExc NaiveRun
  | 0, w => .ok w
  | n + 1, w => (polls n w).bind fun w => w.poll handler consumer count

def runRetryForeverConsumer (maxPolls : ℤ) (server : Server) : Except PyExc NaiveRun :=
  polls handler consumer count maxPolls.toNat { server }

end NaiveRun

/-- The handler succeeds on the payments before position `j`, at every call, and raises on the
payment at position `j`, at every call. -/
structure Poisoned (handler : NaiveHandler) (payments : List Payment) (j : ℕ) (poison : Payment) :
    Prop where
  at_position : payments[j]? = some poison
  succeeds : ∀ i p, i < j → payments[i]? = some p → ∀ n, handler n (i + 1, p) = none
  raises : ∀ n, (handler n (j + 1, poison)).isSome

section
variable {handler : NaiveHandler} {consumer : String} {count j : ℕ} {entries : List Fields}
  {payments : List Payment} {poison : Payment} {w : NaiveRun} {a k : ℕ}

/-- Everything before position `a` has been processed, the backlog starts there, and the payment at
`j` has failed `k` times. -/
structure BlockedAt (entries : List Fields) (payments : List Payment) (consumer : String) (j : ℕ)
    (poison : Payment) (a k : ℕ) (w : NaiveRun) : Prop where
  entries_eq : w.server.main.entries = entries
  le : a ≤ w.server.main.delivered
  pel_eq : w.server.main.pel =
    (List.range' (a + 1) (w.server.main.delivered - a)).map fun id => ⟨id, consumer, ()⟩
  processed_eq : w.result.processed = (payments.take a).map (·.paymentId)
  failures_eq : w.result.failures = if k = 0 then [] else [(poison.paymentId, k)]
  calls_eq : w.calls = numberFrom 1 (payments.take a) ++ List.replicate k (j + 1, poison)

namespace BlockedAt

theorem succeeded (h : BlockedAt entries payments consumer j poison a 0 w)
    (hlt : a < w.server.main.delivered) {p : Payment} (hp : payments[a]? = some p) :
    BlockedAt entries payments consumer j poison (a + 1) 0 (w.succeeded (a + 1) p) := by
  have htake : payments.take (a + 1) = payments.take a ++ [p] := by
    rw [List.take_add_one, hp]
    rfl
  have hlen : (payments.take a).length = a := by
    obtain ⟨hlt, _⟩ := List.getElem?_eq_some_iff.mp hp
    rw [List.length_take]
    omega
  refine ⟨h.entries_eq, hlt, ?_, ?_, h.failures_eq, ?_⟩
  · have hrange : List.range' (a + 1) (w.server.main.delivered - a) =
        (a + 1) :: List.range' (a + 1 + 1) (w.server.main.delivered - (a + 1)) := by
      have he : w.server.main.delivered - a = w.server.main.delivered - (a + 1) + 1 := by omega
      rw [he, List.range'_succ]
    change w.server.main.pel.filter (fun p => p.id ≠ a + 1) = _
    rw [h.pel_eq, hrange, List.map_cons, List.filter_cons_of_neg (by simp)]
    apply List.filter_eq_self.mpr
    intro q hq
    obtain ⟨id, hid, rfl⟩ := List.mem_map.mp hq
    have := (List.mem_range'_1.mp hid).1
    simp only [ne_eq, decide_eq_true_eq]
    omega
  · change w.result.processed ++ [p.paymentId] = _
    rw [h.processed_eq, htake, List.map_append]
    rfl
  · change w.calls ++ [(a + 1, p)] = _
    rw [h.calls_eq, htake, numberFrom_append, hlen, Nat.add_comm 1 a, List.replicate_zero,
      List.append_nil, List.append_nil]
    rfl

theorem failed (h : BlockedAt entries payments consumer j poison a k w) :
    BlockedAt entries payments consumer j poison a (k + 1) (w.failed (j + 1) poison) := by
  refine ⟨h.entries_eq, h.le, h.pel_eq, h.processed_eq, ?_, ?_⟩
  · simp only [NaiveRun.failed, NaiveRunResult.attemptsFor, h.failures_eq]
    by_cases hk : k = 0
    · simp [hk, assign]
    · simp [hk, assign, get?_cons]
  · change w.calls ++ [(j + 1, poison)] = _
    rw [h.calls_eq, List.append_assoc, ← List.replicate_succ']

theorem counted (h : BlockedAt entries payments consumer j poison a k w) (n : ℕ) :
    BlockedAt entries payments consumer j poison a k { w with result.polls := n } :=
  ⟨h.entries_eq, h.le, h.pel_eq, h.processed_eq, h.failures_eq, h.calls_eq⟩

theorem mem_calls_le (h : BlockedAt entries payments consumer j poison a k w) (ha : a ≤ j)
    {e : ℕ × Payment} (he : e ∈ w.calls) : e.1 ≤ j + 1 := by
  rw [h.calls_eq] at he
  rcases List.mem_append.mp he with he | he
  · have hid := List.mem_map_of_mem (f := Prod.fst) he
    rw [map_fst_numberFrom, List.mem_range'_1, List.length_take] at hid
    omega
  · rw [(List.mem_replicate.mp he).2]

theorem attemptsFor_eq (h : BlockedAt entries payments consumer j poison a k w) :
    w.result.attemptsFor poison.paymentId = k := by
  rw [NaiveRunResult.attemptsFor, h.failures_eq]
  by_cases hk : k = 0
  · rw [if_pos hk, hk]
    rfl
  · rw [if_neg hk, get?_cons, if_pos rfl]
    rfl

theorem forBatch (hwf : entries.map Payment.fromFields = payments.map .ok)
    (hp : Poisoned handler payments j poison) {l : List Fields}
    (h : BlockedAt entries payments consumer j poison a 0 w) (ha : a ≤ j)
    (hl : l <+: entries.drop a) (hle : a + l.length ≤ w.server.main.delivered) :
    ∃ u, w.forBatch handler (numberFrom (a + 1) l) = .ok u ∧
      u.server.main.delivered = w.server.main.delivered ∧
      (a + l.length ≤ j ∧ BlockedAt entries payments consumer j poison (a + l.length) 0 u ∨
        j < a + l.length ∧ BlockedAt entries payments consumer j poison j 1 u) := by
  induction l generalizing a w with
  | nil => exact ⟨w, rfl, rfl, Or.inl ⟨ha, h⟩⟩
  | cons f l ih =>
    rw [List.length_cons] at hle ⊢
    have hf : entries[a]? = some f := by
      obtain ⟨t, ht⟩ := hl
      rw [← List.head?_drop, ← ht]
      rfl
    obtain ⟨p, hpa, hfrom⟩ : ∃ p, payments[a]? = some p ∧ Payment.fromFields f = .ok p := by
      have hget := congrArg (·[a]?) hwf
      simp only [List.getElem?_map, hf, Option.map_some] at hget
      obtain ⟨p, hpa, hfrom⟩ := Option.map_eq_some_iff.mp hget.symm
      exact ⟨p, hpa, hfrom.symm⟩
    simp only [numberFrom, NaiveRun.forBatch, hfrom]
    by_cases hlt : a < j
    · rw [hp.succeeds a p hlt hpa]
      have hrest : l <+: entries.drop (a + 1) := by
        obtain ⟨t, ht⟩ := hl
        refine ⟨t, ?_⟩
        rw [← List.drop_drop, ← ht]
        rfl
      have hsum : a + (l.length + 1) = a + 1 + l.length := by omega
      rw [hsum] at hle ⊢
      exact ih (h.succeeded (by omega) hpa) hlt hrest hle
    · obtain rfl : a = j := by omega
      obtain rfl := Option.some.inj (hpa.symm.trans hp.at_position)
      obtain ⟨exc, hexc⟩ := Option.isSome_iff_exists.mp (hp.raises w.calls.length)
      rw [hexc]
      exact ⟨_, rfl, rfl, Or.inr ⟨by omega, h.failed⟩⟩

theorem readPending_eq (h : BlockedAt entries payments consumer j poison a k w) :
    (w.server.readPending consumer count).2 = w.server := by
  have hown (p : Pending String Unit) (hin : p ∈ w.server.main.pel) : p.owner = consumer := by
    rw [h.pel_eq] at hin
    obtain ⟨id, _, rfl⟩ := List.mem_map.mp hin
    rfl
  change { w.server with main := w.server.main.readPending consumer () count } = w.server
  rw [GroupStream.readPending_eq_self hown]

theorem pendingBatch_eq_nil (h : BlockedAt entries payments consumer j poison a k w)
    (hclear : w.server.main.delivered = a) : w.server.main.pendingBatch consumer count = [] := by
  have hpel : w.server.main.pel = [] := by
    rw [h.pel_eq, hclear, Nat.sub_self, List.range'_zero, List.map_nil]
  rw [GroupStream.pendingBatch, GroupStream.ownIds, hpel, List.filter_nil, List.take_nil]
  rfl

theorem poll_clear (hwf : entries.map Payment.fromFields = payments.map .ok)
    (hp : Poisoned handler payments j poison)
    (h : BlockedAt entries payments consumer j poison a 0 w) (ha : a ≤ j)
    (hclear : w.server.main.delivered = a) :
    ∃ u, w.poll handler consumer count = .ok u ∧
      (a + count ≤ j ∧ BlockedAt entries payments consumer j poison (a + count) 0 u ∧
          u.server.main.delivered = a + count ∨
        j < a + count ∧ BlockedAt entries payments consumer j poison j 1 u ∧
          j < u.server.main.delivered) := by
  have hlen : j < entries.length := by
    have hlt := (List.getElem?_eq_some_iff.mp hp.at_position).1
    have hmap := congrArg List.length hwf
    rw [List.length_map, List.length_map] at hmap
    omega
  have hcounted := h.counted (w.result.polls + 1)
  have hnew : w.server.main.newCount count = min count (entries.length - a) := by
    rw [GroupStream.newCount, h.entries_eq, hclear]
  have hbatch : w.server.main.newBatch count =
      numberFrom (a + 1) ((entries.drop a).take count) := by
    rw [GroupStream.newBatch, h.entries_eq, hclear, xread]
  have hread : (w.server.readPending consumer count).1 = [] := h.pendingBatch_eq_nil hclear
  have hpoll : w.poll handler consumer count = NaiveRun.forBatch handler { w with
      result.polls := w.result.polls + 1
      server := (w.server.readNew consumer count).2 }
        (numberFrom (a + 1) ((entries.drop a).take count)) := by
    have hpair : w.server.readPending consumer count = ([], w.server) :=
      Prod.ext hread h.readPending_eq
    simp only [NaiveRun.poll, hpair, Server.readNew, hbatch]
    cases numberFrom (a + 1) ((entries.drop a).take count) with
    | nil => rfl
    | cons e es => rfl
  have hnext : BlockedAt entries payments consumer j poison a 0 { w with
      result.polls := w.result.polls + 1
      server := (w.server.readNew consumer count).2 } := by
    refine ⟨h.entries_eq, ?_, ?_, h.processed_eq, h.failures_eq, h.calls_eq⟩
    · exact h.le.trans (Nat.le_add_right _ _)
    · change w.server.main.pel ++ _ = _
      have hdel : w.server.main.delivered + w.server.main.newCount count - a =
          w.server.main.newCount count := by omega
      rw [h.pel_eq, hclear, Nat.sub_self, List.range'_zero, List.map_nil, List.nil_append]
      change _ = (List.range' (a + 1) (w.server.main.delivered + _ - a)).map _
      rw [hdel]
  have htake : ((entries.drop a).take count).length = w.server.main.newCount count := by
    rw [List.length_take, List.length_drop, hnew]
  have hdel : (w.server.readNew consumer count).2.main.delivered =
      a + w.server.main.newCount count := by
    rw [← hclear]
    rfl
  obtain ⟨u, hu, hdelu, hcases⟩ := hnext.forBatch hwf hp ha (List.take_prefix count _)
    (by rw [htake]; exact hdel.ge)
  rw [htake] at hcases
  rw [hdel] at hdelu
  refine ⟨u, by rw [hpoll]; exact hu, ?_⟩
  obtain ⟨hle, hu⟩ | ⟨hlt, hu⟩ := hcases
  · have hall : w.server.main.newCount count = count := by omega
    rw [hall] at hle hu hdelu
    exact Or.inl ⟨hle, hu, hdelu⟩
  · exact Or.inr ⟨by omega, hu, by omega⟩

theorem poll_blocked (hwf : entries.map Payment.fromFields = payments.map .ok)
    (hp : Poisoned handler payments j poison) (hcount : 1 ≤ count)
    (h : BlockedAt entries payments consumer j poison j k w)
    (hlt : j < w.server.main.delivered) :
    w.poll handler consumer count = .ok
      ({ w with result.polls := w.result.polls + 1 }.failed (j + 1) poison) := by
  obtain ⟨f, hf, hfrom⟩ : ∃ f, entries[j]? = some f ∧ Payment.fromFields f = .ok poison := by
    have hget := congrArg (·[j]?) hwf
    simp only [List.getElem?_map, hp.at_position, Option.map_some] at hget
    exact Option.map_eq_some_iff.mp hget
  obtain ⟨rest, hbatch⟩ : ∃ rest, w.server.main.pendingBatch consumer count = (j + 1, f) :: rest := by
    have hrange : w.server.main.delivered - j = w.server.main.delivered - (j + 1) + 1 := by omega
    have hpel := h.pel_eq
    rw [hrange, List.range'_succ, List.map_cons] at hpel
    apply GroupStream.pendingBatch_of_head hpel rfl hcount
    rw [h.entries_eq]
    exact hf
  have hpair : w.server.readPending consumer count = ((j + 1, f) :: rest, w.server) :=
    Prod.ext hbatch h.readPending_eq
  obtain ⟨exc, hexc⟩ := Option.isSome_iff_exists.mp (hp.raises w.calls.length)
  simp only [NaiveRun.poll, hpair, NaiveRun.forBatch, hfrom, hexc]

end BlockedAt

/-- The state after `n` polls. -/
def Progress (entries : List Fields) (payments : List Payment) (consumer : String) (count j : ℕ)
    (poison : Payment) (n : ℕ) (w : NaiveRun) : Prop :=
  n * count ≤ j ∧ BlockedAt entries payments consumer j poison (n * count) 0 w ∧
      w.server.main.delivered = n * count ∨
    j < n * count ∧ BlockedAt entries payments consumer j poison j (n - j / count) w ∧
      j < w.server.main.delivered

theorem Progress.poll (hwf : entries.map Payment.fromFields = payments.map .ok)
    (hp : Poisoned handler payments j poison) (hcount : 1 ≤ count) {n : ℕ}
    (h : Progress entries payments consumer count j poison n w) :
    ∃ u, w.poll handler consumer count = .ok u ∧
      Progress entries payments consumer count j poison (n + 1) u := by
  have hsucc : (n + 1) * count = n * count + count := Nat.succ_mul n count
  simp only [Progress, hsucc]
  obtain ⟨hle, hat, hclear⟩ | ⟨hlt, hat, hdel⟩ := h
  · obtain ⟨u, hu, ⟨hle', hat'⟩ | ⟨hlt', hat'⟩⟩ := hat.poll_clear hwf hp hle hclear
    · exact ⟨u, hu, Or.inl ⟨hle', hat'⟩⟩
    · have hdiv : j / count = n := by
        apply Nat.div_eq_of_lt_le hle
        rw [hsucc]
        exact hlt'
      rw [hdiv, Nat.add_sub_cancel_left]
      exact ⟨u, hu, Or.inr ⟨hlt', hat'⟩⟩
  · refine ⟨_, hat.poll_blocked hwf hp hcount hdel, Or.inr ⟨by omega, ?_, hdel⟩⟩
    have hdiv : j / count < n := (Nat.div_lt_iff_lt_mul hcount).mpr hlt
    rw [Nat.succ_sub hdiv.le]
    exact (hat.counted _).failed

/-- The failing payment has been attempted exactly when it is at the head of the backlog. -/
theorem Progress.blockedAt_of_mem {n : ℕ}
    (h : Progress entries payments consumer count j poison n w)
    (hmem : (j + 1, poison) ∈ w.calls) :
    BlockedAt entries payments consumer j poison j (n - j / count) w ∧
      j < w.server.main.delivered := by
  obtain ⟨hle, hat, -⟩ | ⟨-, hat⟩ := h
  · rw [hat.calls_eq, List.replicate_zero, List.append_nil] at hmem
    have hid := List.mem_map_of_mem (f := Prod.fst) hmem
    rw [map_fst_numberFrom, List.mem_range'_1, List.length_take] at hid
    omega
  · exact hat

theorem exists_progress (consumer : String) (hwf : entries.map Payment.fromFields = payments.map .ok)
    (hp : Poisoned handler payments j poison) (hcount : 1 ≤ count) {server : Server}
    (hent : server.main.entries = entries) (hdel : server.main.delivered = 0)
    (hpel : server.main.pel = []) (n : ℕ) :
    ∃ w, NaiveRun.polls handler consumer count n { server } = .ok w ∧
      Progress entries payments consumer count j poison n w := by
  induction n with
  | zero =>
    refine ⟨{ server }, rfl, Or.inl ⟨by omega, ?_, by rw [hdel, Nat.zero_mul]⟩⟩
    rw [Nat.zero_mul]
    refine ⟨hent, Nat.zero_le _, ?_, rfl, rfl, rfl⟩
    rw [hpel, hdel]
    rfl
  | succ n ih =>
    obtain ⟨w, hw, hprogress⟩ := ih
    obtain ⟨u, hu, hnext⟩ := hprogress.poll hwf hp hcount
    exact ⟨u, by rw [NaiveRun.polls, hw]; exact hu, hnext⟩

end

/-- Head-of-line blocking: the run never fails, what it has processed is the first payments of the
stream up to position `j`, all of them after enough polls, no payment behind `j` is attempted, and
once the payment at `j` has been attempted a poll is one more failure of it and nothing else. -/
theorem retryForever_blocks (server : Server) (payments : List Payment)
    (hfresh : server.main.delivered = 0 ∧ server.main.pel = [])
    (hwf : server.main.entries.map Payment.fromFields = payments.map .ok) (consumer : String)
    (count : ℕ) (hcount : 1 ≤ count) (handler : NaiveHandler) (j : ℕ) (poison : Payment)
    (hpoison : Poisoned handler payments j poison) :
    ∃ after : ℕ → NaiveRun,
      (∀ maxPolls : ℤ, NaiveRun.runRetryForeverConsumer handler consumer count maxPolls server =
        .ok (after maxPolls.toNat)) ∧
      (∀ n, (after n).result.processed =
        (payments.take (min (n * count) j)).map (·.paymentId)) ∧
      (∀ n, ∀ call ∈ (after n).calls, call.1 ≤ j + 1) ∧
      (∀ n, (after n).result.attemptsFor poison.paymentId = n - j / count) ∧
      ∀ n, (j + 1, poison) ∈ (after n).calls →
        after (n + 1) = { after n with
          result.polls := (after n).result.polls + 1 }.failed (j + 1) poison := by
  choose after hafter hprogress using
    exists_progress consumer hwf hpoison hcount rfl hfresh.1 hfresh.2
  refine ⟨after, fun maxPolls => hafter _, fun n => ?_, fun n call hcall => ?_, fun n => ?_,
    fun n hmem => ?_⟩
  · obtain ⟨hle, hat, -⟩ | ⟨hlt, hat, -⟩ := hprogress n
    · rw [hat.processed_eq, min_eq_left hle]
    · rw [hat.processed_eq, min_eq_right hlt.le]
  · obtain ⟨hle, hat, -⟩ | ⟨-, hat, -⟩ := hprogress n
    · exact hat.mem_calls_le hle hcall
    · exact hat.mem_calls_le le_rfl hcall
  · obtain ⟨hle, hat, -⟩ | ⟨-, hat, -⟩ := hprogress n
    · have hdiv : n ≤ j / count := (Nat.le_div_iff_mul_le hcount).mpr hle
      rw [hat.attemptsFor_eq, Nat.sub_eq_zero_of_le hdiv]
    · exact hat.attemptsFor_eq
  · obtain ⟨hat, hlt⟩ := (hprogress n).blockedAt_of_mem hmem
    have hnext := hafter (n + 1)
    rw [NaiveRun.polls, hafter n] at hnext
    exact (Except.ok.inj (hnext.symm.trans (hat.poll_blocked hwf hpoison hcount hlt)))

def rejectNegative : NaiveHandler := fun _ message =>
  if message.2.amountCents < 0 then some (valueError "malformed amount") else none

/-- A healthy payment, a malformed one and a healthy one behind it, for five polls. -/
theorem retryForever_blocks_second : ∃ w, NaiveRun.runRetryForeverConsumer rejectNegative "worker-0" 10 5
      (((({} : Server).publish ⟨"PAY-1", 9900, "cust-A", "USD"⟩).publish
        ⟨"PAY-POISON", -1, "cust-A", "USD"⟩).publish ⟨"PAY-3", 9900, "cust-A", "USD"⟩) = .ok w ∧
    w.result.processed = ["PAY-1"] ∧ w.result.attemptsFor "PAY-POISON" = 5 := by
  have hpoison : Poisoned rejectNegative [⟨"PAY-1", 9900, "cust-A", "USD"⟩,
      ⟨"PAY-POISON", -1, "cust-A", "USD"⟩, ⟨"PAY-3", 9900, "cust-A", "USD"⟩] 1
      ⟨"PAY-POISON", -1, "cust-A", "USD"⟩ := by
    refine ⟨rfl, fun i p hi hp n => ?_, fun n => rfl⟩
    obtain rfl : i = 0 := by omega
    cases hp
    rfl
  obtain ⟨after, hrun, hprocessed, -, hattempts, -⟩ := retryForever_blocks
    (((({} : Server).publish ⟨"PAY-1", 9900, "cust-A", "USD"⟩).publish
      ⟨"PAY-POISON", -1, "cust-A", "USD"⟩).publish ⟨"PAY-3", 9900, "cust-A", "USD"⟩) _ ⟨rfl, rfl⟩
    (by simp [Server.publish, GroupStream.xadd, GroupStream.empty]) "worker-0" 10 (by decide)
    rejectNegative 1 _ hpoison
  exact ⟨after 5, hrun 5, hprocessed 5, hattempts 5⟩

end Dlq
