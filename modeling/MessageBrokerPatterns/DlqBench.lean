import MessageBrokerPatterns.DlqRetries

/-!
# The benchmark of the retry budget

`bench_max_attempts` runs one consumer and any number of publishers, each of which registers a future
under the id of its payment, publishes the payment and awaits the future. Nobody but the handler
resolves futures: on the charge of a good payment, and on that failure of a malformed one which
the handler, by a count of its own, takes to be the last. Whether it is the last is decided by the
consumer, which counts by message id.

`sending` holds the publishers whose `XADD` is on its way, so that payments may reach the stream in
another order than they were numbered in.
-/

namespace Dlq
open PyText PyDict RedisStream ActionRun

/-- What the handler and the publishers of one configuration share. -/
structure Books where
  awaiting : Finset String := ∅
  attempts : String → Option ℕ := fun _ => none
  charged : ℕ := 0
  poisoned : ℕ := 0

namespace Books

def resolve (b : Books) (paymentId : String) : Books :=
  { b with awaiting := b.awaiting.erase paymentId }

/-- `handler`, up to its return or its exception. -/
def handler (maxAttempts : ℤ) (b : Books) (p : Payment) : Option PyExc × Books :=
  if p.amountCents < 0 then
    let attempt := (b.attempts p.paymentId).getD 0 + 1
    let b := { b with attempts := Function.update b.attempts p.paymentId (some attempt) }
    let b := if maxAttempts ≤ attempt then b.resolve p.paymentId else b
    (some (valueError ("malformed amount: " ++ pyStr p.amountCents)), b)
  else (none, { b with charged := b.charged + 1 }.resolve p.paymentId)

end Books

def poisonEvery : ℕ := 5

structure Bench where
  maxAttempts : ℤ
  world : World
  books : Books := {}
  index : ℕ := 0
  sending : List Payment := []

inductive BenchAction
  | begins
  | sent (i : ℕ)
  | consumer
  | handlerEnds

namespace Bench

def consumerName (runId : String) : String := "bench-worker-1-" ++ runId

def payment (runId : String) (maxAttempts : ℤ) (index : ℕ) : Payment where
  paymentId := "BENCH-" ++ runId ++ "-" ++ pyStr maxAttempts ++ "-" ++ zeroPad 6 index
  amountCents := if index % poisonEvery = 0 then -1 else 9900
  customerId := "cust-bench"
  currency := "USD"

/-- The keys have just been deleted and the consumer started. -/
def fresh (runId : String) (maxAttempts : ℤ) : Bench where
  maxAttempts
  world := ({} : World).setConsumer (consumerName runId) (some { maxAttempts })

def step (runId : String) (b : Bench) : BenchAction → Option Bench
  | .begins =>
      let index := b.index + 1
      let p := payment runId b.maxAttempts index
      some { b with
        index
        books.poisoned := b.books.poisoned + if index % poisonEvery = 0 then 1 else 0
        books.awaiting := insert p.paymentId b.books.awaiting
        sending := b.sending ++ [p] }
  | .sent i =>
      match b.sending[i]? with
      | some p => (b.world.step (.publish p)).map fun world =>
          { b with world, sending := b.sending.eraseIdx i }
      | none => none
  | .consumer =>
      (b.world.step (.run (consumerName runId))).map fun world => { b with world }
  | .handlerEnds =>
      match b.world.awaits (consumerName runId) with
      | some p =>
          let (failure, books) := b.books.handler b.maxAttempts p
          (b.world.step (.handler (consumerName runId) failure)).map fun world =>
            { b with world, books }
      | none => none

theorem payment_injective (runId : String) (maxAttempts : ℤ) :
    Function.Injective fun index => (payment runId maxAttempts index).paymentId := by
  intro i j h
  refine zeroPad_injective 6 ?_
  simpa [payment, String.append_assoc] using h

end Bench

def Event.charge? : Event → Option (ℕ × Payment)
  | .handled _ id p none => some (id, p)
  | _ => none

def Event.letter? : Event → Option (ℕ × Payment)
  | .deadLettered _ id p _ _ => some (id, p)
  | _ => none

/-- A failing call of the handler for the entry. -/
def Event.fails (id : ℕ) : Event → Bool
  | .handled _ i _ (some _) => i = id
  | _ => false

/-- How often the entry has been charged, or dead-lettered. -/
def tally (f : Event → Option (ℕ × Payment)) (tr : List Event) (id : ℕ) : ℕ :=
  ((tr.filterMap f).map Prod.fst).count id

theorem tally_append (f : Event → Option (ℕ × Payment)) (tr evs : List Event) (id : ℕ) :
    tally f (tr ++ evs) id = tally f tr id + tally f evs id := by
  rw [tally, List.filterMap_append, List.map_append, List.count_append]
  rfl

theorem countP_handles (tr : List Event) (id : ℕ) :
    tr.countP (Event.handles id) = tr.countP (Event.fails id) + tally Event.charge? tr id := by
  induction tr with
  | nil => rfl
  | cons e tr ih =>
    have htally : tally Event.charge? (e :: tr) id =
        tally Event.charge? [e] id + tally Event.charge? tr id := tally_append _ [e] tr id
    rw [List.countP_cons, List.countP_cons, ih, htally]
    have hone : (if Event.handles id e = true then 1 else 0) =
        (if Event.fails id e = true then 1 else 0) + tally Event.charge? [e] id := by
      cases e with
      | handled c i p failure =>
        cases failure with
        | none =>
          by_cases hi : i = id <;> simp [Event.handles, Event.fails, tally, Event.charge?, hi]
        | some exc => rfl
      | _ => rfl
    omega

def Status.BenchRow (st : Status) (books : Books) (p : Payment) (spent charges letters : ℕ) : Prop :=
  match st with
  | .waiting | .pending =>
      p.paymentId ∈ books.awaiting ∧ (books.attempts p.paymentId).getD 0 = spent ∧
        charges = 0 ∧ letters = 0
  | .charged => p.paymentId ∉ books.awaiting ∧ 0 ≤ p.amountCents ∧ charges = 1 ∧ letters = 0
  | .exhausted _ | .moving _ =>
      p.paymentId ∉ books.awaiting ∧ p.amountCents < 0 ∧ charges = 0 ∧ letters = 0
  | .settled =>
      p.paymentId ∉ books.awaiting ∧
        if p.amountCents < 0 then charges = 0 ∧ letters = 1 else charges = 1 ∧ letters = 0

/-- The books agree with the server and the trace about one entry. -/
def Books.Row (b : Books) (k : Consumer) (s : Server) (tr : List Event) (id : ℕ) (p : Payment) :
    Prop :=
  (k.status s id).BenchRow b p (k.spent id) (tally Event.charge? tr id) (tally Event.letter? tr id)

theorem Event.charge?_eq_some {e : Event} {x : ℕ × Payment} :
    e.charge? = some x ↔ ∃ c, e = .handled c x.1 x.2 none := by
  unfold charge?
  split
  · rename_i c id p
    simp [Prod.ext_iff]
  · rename_i hne
    simp only [reduceCtorEq, false_iff, not_exists]
    exact fun c => hne c x.1 x.2

theorem Event.letter?_eq_some {e : Event} {x : ℕ × Payment} :
    e.letter? = some x ↔ ∃ c reason attempt, e = .deadLettered c x.1 x.2 reason attempt := by
  unfold letter?
  split
  · rename_i c id p reason attempt
    simp [Prod.ext_iff]
  · rename_i hne
    simp only [reduceCtorEq, false_iff, not_exists]
    exact fun c => hne c x.1 x.2

theorem Event.eq_of_charge? {e : Event} {x : ℕ × Payment} (h : e.charge? = some x) :
    x = (e.id, e.payment) := by
  obtain ⟨c, rfl⟩ := charge?_eq_some.mp h
  rfl

theorem Event.eq_of_letter? {e : Event} {x : ℕ × Payment} (h : e.letter? = some x) :
    x = (e.id, e.payment) := by
  obtain ⟨c, reason, attempt, rfl⟩ := letter?_eq_some.mp h
  rfl

theorem exists_of_tally {f : Event → Option (ℕ × Payment)} {tr : List Event} {id : ℕ}
    (h : tally f tr id ≠ 0) : ∃ e ∈ tr, ∃ p, f e = some (id, p) := by
  obtain ⟨x, hx, rfl⟩ := List.mem_map.mp (List.count_pos_iff.mp (Nat.pos_of_ne_zero h))
  obtain ⟨e, he, hfe⟩ := List.mem_filterMap.mp hx
  exact ⟨e, he, x.2, hfe⟩

theorem tally_of_ne {f : Event → Option (ℕ × Payment)}
    (hf : ∀ e x, f e = some x → x = (e.id, e.payment)) {evs : List Event} {id : ℕ}
    (h : ∀ e ∈ evs, e.id ≠ id) : tally f evs id = 0 := by
  rw [tally, List.count_eq_zero]
  intro hmem
  obtain ⟨x, hx, hid⟩ := List.mem_map.mp hmem
  obtain ⟨e, he, hfe⟩ := List.mem_filterMap.mp hx
  rw [hf e x hfe] at hid
  exact h e he hid

namespace Books.Row
variable {b b' : Books} {k k' : Consumer} {s s' : Server} {tr evs : List Event} {id : ℕ}
  {p : Payment}

theorem congr (h : b.Row k s tr id p) (hst : k'.status s' id = k.status s id)
    (hsp : k'.spent id = k.spent id)
    (ha : p.paymentId ∈ b'.awaiting ↔ p.paymentId ∈ b.awaiting)
    (ht : b'.attempts p.paymentId = b.attempts p.paymentId) : b'.Row k' s' tr id p := by
  rw [Row, hst, hsp]
  unfold Row at h
  cases hs : k.status s id <;> rw [hs] at h <;> simpa only [Status.BenchRow, ha, ht] using h

theorem append (h : b.Row k s tr id p) (hev : ∀ e ∈ evs, e.id ≠ id) : b.Row k s (tr ++ evs) id p := by
  rw [Row, tally_append, tally_append, tally_of_ne (fun _ _ => Event.eq_of_charge?) hev,
    tally_of_ne (fun _ _ => Event.eq_of_letter?) hev]
  exact h

theorem delivered (h : b.Row k s tr id p) (hold : k.status s id = .waiting)
    (hnew : k'.status s' id = .pending) (hsp : k'.spent id = k.spent id) :
    b.Row k' s' tr id p := by
  rw [Row, hnew, hsp]
  rw [Row, hold] at h
  exact h

end Books.Row

namespace Move
variable {c : String} {k k' : Consumer} {s s' : Server} {tr evs : List Event} {id : ℕ}

theorem status_idle (hm : Move c k s k' s' evs) (hidle : ∀ m stage, k.pc ≠ .busy m stage) (id : ℕ) :
    evs = [] ∧ k'.spent id = k.spent id ∧ (k'.status s' id = k.status s id ∨
      k.status s id = .waiting ∧ k'.status s' id = .pending) := by
  have hold : k.status s id = s.status id :=
    Consumer.status_of_ne fun m stage hpc => absurd hpc (hidle m stage)
  have hread (n : ℕ) : (s.readNew c n).2.status id = s.status id ∨
      s.status id = .waiting ∧ (s.readNew c n).2.status id = .pending := by
    have ho : (s.readNew c n).2.main.owner? id =
        if s.main.delivered < id ∧ id ≤ s.main.delivered + s.main.newCount n then some c
        else s.main.owner? id := GroupStream.owner?_readNew c () n id
    by_cases hnew : s.main.delivered < id ∧ id ≤ s.main.delivered + s.main.newCount n
    · exact Or.inr ⟨if_pos hnew.1, Server.status_pending (ho.trans (if_pos hnew))⟩
    · refine Or.inl ?_
      have hd : (s.readNew c n).2.main.delivered = s.main.delivered + s.main.newCount n := rfl
      rw [Server.status, Server.status, hd, ho, if_neg hnew]
      by_cases hw : s.main.delivered < id
      · rw [if_pos hw, if_pos (by omega)]
      · rw [if_neg hw, if_neg (by omega)]
  have hpend (n : ℕ) : (s.readPending c n).2.status id = s.status id :=
    Server.status_congr rfl (GroupStream.owner?_readPending ..)
  rw [hold]
  cases hm with
  | readNew hpc hne =>
    rw [Consumer.status_forBatch]
    exact ⟨rfl, k.spent_forBatch _ id, hread _⟩
  | noNew hpc hnil => exact ⟨rfl, rfl, hread _⟩
  | readPending hpc hne =>
    rw [Consumer.status_forBatch]
    exact ⟨rfl, k.spent_forBatch _ id, Or.inl (hpend _)⟩
  | noPending hpc hnil => exact ⟨rfl, rfl, Or.inl (hpend _)⟩
  | wake hpc => exact ⟨rfl, rfl, Or.inl rfl⟩
  | hit m hpc _ => exact absurd hpc (hidle m _)
  | miss m hpc _ => exact absurd hpc (hidle m _)
  | skip m hpc => exact absurd hpc (hidle m _)
  | returns m hpc => exact absurd hpc (hidle m _)
  | retry m exc hpc _ => exact absurd hpc (hidle m _)
  | exhaust m exc hpc _ => exact absurd hpc (hidle m _)
  | mark m hpc => exact absurd hpc (hidle m _)
  | ack m hpc => exact absurd hpc (hidle m _)
  | dlqAck m _ _ hpc => exact absurd hpc (hidle m _)
  | dlqAdd m _ _ hpc => exact absurd hpc (hidle m _)

theorem row_of_ne (hm : Move c k s k' s' evs) {b : Books} {p : Payment}
    (h : b.Row k s tr id p) (hid : ∀ m stage, k.pc = .busy m stage → id ≠ m.id) :
    b.Row k' s' (tr ++ evs) id p := by
  by_cases hbusy : ∃ m stage, k.pc = .busy m stage
  · obtain ⟨m, stage, hpc⟩ := hbusy
    obtain ⟨hst, hsp, hev⟩ := hm.frame hpc (hid m stage hpc)
    exact (h.congr hst hsp Iff.rfl rfl).append hev
  · obtain ⟨rfl, hsp, hst | ⟨hold, hnew⟩⟩ :=
      hm.status_idle (fun m stage hpc => hbusy ⟨m, stage, hpc⟩) id
    · rw [List.append_nil]
      exact h.congr hst hsp Iff.rfl rfl
    · rw [List.append_nil]
      exact h.delivered hold hnew hsp

theorem row_self (hm : Move c k s k' s' evs) {m : Held} {stage : Stage} (hpc : k.pc = .busy m stage)
    (ho : m.Owned c s stage) (hstage : stage ≠ .handler) (hskip : stage ≠ .skipAck)
    (hnew : stage = .check → m.payment.paymentId ∉ s.processed) {b : Books}
    (h : b.Row k s tr m.id m.payment) : b.Row k' s' (tr ++ evs) m.id m.payment := by
  have hst : k.status s m.id = stage.status (s.status m.id) := Consumer.status_busy hpc s
  have hpend (hmv : stage.moving = false) : s.status m.id = .pending := by
    refine Server.status_pending (c := c) ?_
    rw [ho.owner, hmv]
    rfl
  have hacked : (s.ack m.id).status m.id = .settled :=
    Server.status_settled ho.delivered ((GroupStream.owner?_xack m.id m.id).trans (if_pos rfl))
  unfold Books.Row at h ⊢
  rw [hst] at h
  cases hm with
  | readNew hpc' _ => cases hpc.symm.trans hpc'
  | noNew hpc' _ => cases hpc.symm.trans hpc'
  | readPending hpc' _ => cases hpc.symm.trans hpc'
  | noPending hpc' _ => cases hpc.symm.trans hpc'
  | wake hpc' => cases hpc.symm.trans hpc'
  | hit n hpc' hp =>
    cases hpc.symm.trans hpc'
    exact absurd hp (hnew rfl)
  | miss n hpc' _ =>
    cases hpc.symm.trans hpc'
    rw [Consumer.status_busy rfl, List.append_nil]
    exact h
  | skip n hpc' =>
    cases hpc.symm.trans hpc'
    exact absurd rfl hskip
  | returns n hpc' =>
    cases hpc.symm.trans hpc'
    exact absurd rfl hstage
  | retry n exc hpc' _ =>
    cases hpc.symm.trans hpc'
    exact absurd rfl hstage
  | exhaust n exc hpc' _ =>
    cases hpc.symm.trans hpc'
    exact absurd rfl hstage
  | mark n hpc' =>
    cases hpc.symm.trans hpc'
    rw [Consumer.status_busy rfl, List.append_nil]
    exact h
  | ack n hpc' =>
    cases hpc.symm.trans hpc'
    obtain ⟨hres, hgood, hcharges, hletters⟩ := h
    rw [Consumer.status_forBatch, tally_append, tally_append]
    change ((s.ack m.id).status m.id).BenchRow _ _ _ _ _
    rw [hacked, hcharges, hletters]
    exact ⟨hres, by rw [if_neg (not_lt.mpr hgood)]; exact ⟨rfl, rfl⟩⟩
  | dlqAck n reason attempt hpc' =>
    cases hpc.symm.trans hpc'
    rw [Consumer.status_busy rfl, List.append_nil]
    exact h
  | dlqAdd n reason attempt hpc' =>
    cases hpc.symm.trans hpc'
    obtain ⟨hres, hbad, hcharges, hletters⟩ := h
    have hnone : (s.moveToDlqAdd m.payment reason attempt).status m.id = .settled :=
      Server.status_settled ho.delivered ho.owner
    rw [Consumer.status_forBatch, hnone, tally_append, tally_append, hcharges, hletters]
    refine ⟨hres, ?_⟩
    rw [if_pos hbad]
    exact ⟨rfl, by simp [tally, Event.letter?]⟩

end Move

namespace Books

theorem handler_poison {p : Payment} (h : p.amountCents < 0) (maxAttempts : ℤ) (b : Books) :
    (b.handler maxAttempts p).1 = some (valueError ("malformed amount: " ++ pyStr p.amountCents)) ∧
      (b.handler maxAttempts p).2.charged = b.charged ∧
      (b.handler maxAttempts p).2.attempts = Function.update b.attempts p.paymentId
        (some ((b.attempts p.paymentId).getD 0 + 1)) ∧
      (b.handler maxAttempts p).2.awaiting =
        if maxAttempts ≤ (((b.attempts p.paymentId).getD 0 + 1 : ℕ) : ℤ) then
          b.awaiting.erase p.paymentId
        else b.awaiting := by
  simp only [handler, if_pos h]
  split_ifs <;> exact ⟨trivial, rfl, rfl, rfl⟩

theorem handler_good {p : Payment} (h : ¬ p.amountCents < 0) (maxAttempts : ℤ) (b : Books) :
    b.handler maxAttempts p = (none, { b with charged := b.charged + 1 }.resolve p.paymentId) :=
  if_neg h

/-- Every failure is a `ValueError`, and `charged` counts the calls that return. -/
theorem handler_counts (maxAttempts : ℤ) (b : Books) (p : Payment) :
    (b.handler maxAttempts p).2.poisoned = b.poisoned ∧
      (∀ exc, (b.handler maxAttempts p).1 = some exc → exc.className = "ValueError") ∧
      ∀ c id, (b.handler maxAttempts p).2.charged = b.charged +
        ([Event.handled c id p (b.handler maxAttempts p).1].filterMap Event.charge?).length := by
  by_cases hp : p.amountCents < 0
  · obtain ⟨hfail, hcharged, -⟩ := handler_poison hp maxAttempts b
    refine ⟨?_, fun exc hexc => ?_, fun c id => ?_⟩
    · simp only [handler, if_pos hp]
      split_ifs <;> rfl
    · rw [hfail] at hexc
      cases hexc
      rfl
    · rw [hfail, hcharged]
      rfl
  · rw [handler_good hp]
    refine ⟨rfl, fun exc hexc => ?_, fun c id => rfl⟩
    cases hexc

/-- The handler leaves the other payments' futures and counters alone. -/
theorem handler_of_ne {p q : Payment} (h : q.paymentId ≠ p.paymentId) (maxAttempts : ℤ) (b : Books) :
    (q.paymentId ∈ (b.handler maxAttempts p).2.awaiting ↔ q.paymentId ∈ b.awaiting) ∧
      (b.handler maxAttempts p).2.attempts q.paymentId = b.attempts q.paymentId := by
  by_cases hp : p.amountCents < 0
  · obtain ⟨-, -, hattempts, hawaiting⟩ := handler_poison hp maxAttempts b
    rw [hattempts, hawaiting, Function.update_of_ne h]
    refine ⟨?_, rfl⟩
    split_ifs
    · simp [h]
    · rfl
  · rw [handler_good hp]
    simp [resolve, h]

end Books

/-- The row of the entry in hand when its handler ends: the handler resolves the future on the charge,
and on the failure that the consumer takes to the dead-letter stream. -/
theorem Consumer.row_handlerEnds {k k' : Consumer} {c : String} {s : Server} {m : Held} {b : Books}
    {maxAttempts : ℤ} {tr evs : List Event} (hpc : k.pc = .busy m .handler)
    (hmax : k.maxAttempts = maxAttempts) (ho : m.Owned c s .handler)
    (h : b.Row k s tr m.id m.payment)
    (hends : k.handlerEnds c (b.handler maxAttempts m.payment).1 = some (k', evs)) :
    (b.handler maxAttempts m.payment).2.Row k' s (tr ++ evs) m.id m.payment := by
  subst hmax
  have hpend : s.status m.id = .pending := Server.status_pending ho.owner
  unfold Books.Row at h ⊢
  rw [Consumer.status_busy hpc, hpend] at h
  obtain ⟨hawait, hspent, hcharges, hletters⟩ := h
  by_cases hp : m.payment.amountCents < 0
  · obtain ⟨hfail, -, hattempts, hawaiting⟩ := Books.handler_poison hp k.maxAttempts b
    rw [hfail] at hends
    rw [hspent] at hattempts hawaiting
    simp only [handlerEnds, hpc] at hends
    split_ifs at hends with hlt
    · obtain ⟨rfl, rfl⟩ := Prod.mk.inj (Option.some.inj hends)
      have hlt' : ((k.spent m.id + 1 : ℕ) : ℤ) < k.maxAttempts := hlt
      rw [if_neg (by omega)] at hawaiting
      rw [status_forBatch, hpend, spent_forBatch, spent_bump, if_pos rfl, tally_append, tally_append,
        hcharges, hletters]
      refine ⟨hawaiting ▸ hawait, ?_, rfl, rfl⟩
      rw [hattempts, Function.update_self]
      rfl
    · obtain ⟨rfl, rfl⟩ := Prod.mk.inj (Option.some.inj hends)
      have hge : ¬ ((k.spent m.id + 1 : ℕ) : ℤ) < k.maxAttempts := hlt
      rw [if_pos (by omega)] at hawaiting
      rw [status_busy rfl, tally_append, tally_append, hcharges, hletters]
      refine ⟨?_, hp, rfl, rfl⟩
      rw [hawaiting]
      exact Finset.notMem_erase _ _
  · rw [Books.handler_good hp] at hends ⊢
    simp only [handlerEnds, hpc] at hends
    obtain ⟨rfl, rfl⟩ := Prod.mk.inj (Option.some.inj hends)
    rw [status_busy rfl, tally_append, tally_append, hcharges, hletters]
    exact ⟨Finset.notMem_erase _ _, not_lt.mp hp, by simp [tally, Event.charge?], rfl⟩

theorem Consumer.handlerEnds_cases {k k' : Consumer} {c : String} {m : Held} {failure : Option PyExc}
    {evs : List Event} (hpc : k.pc = .busy m .handler)
    (hends : k.handlerEnds c failure = some (k', evs)) :
    evs = [.handled c m.id m.payment failure] ∧
      ∀ n reason attempt, k'.pc = .busy n (.dlqAck reason attempt) →
        ∃ exc, failure = some exc ∧ reason = exc.className := by
  cases failure with
  | none =>
    simp only [handlerEnds, hpc] at hends
    cases hends
    exact ⟨rfl, fun n reason attempt hn => by cases hn⟩
  | some exc =>
    simp only [handlerEnds, hpc] at hends
    split_ifs at hends
    · cases hends
      refine ⟨rfl, fun n reason attempt hn => ?_⟩
      unfold forBatch at hn
      split at hn
      · cases hn
      · split at hn <;> cases hn
    · cases hends
      refine ⟨rfl, fun n reason attempt hn => ?_⟩
      cases hn
      exact ⟨exc, rfl, rfl⟩

theorem Move.next_stage {c : String} {k k' : Consumer} {s s' : Server} {evs : List Event}
    (hm : Move c k s k' s' evs) {m : Held} {stage : Stage} (h : k'.pc = .busy m stage) :
    stage = .check ∨ ∃ before, k.pc = .busy m before ∧
      (stage = .skipAck → before = .check ∧ m.payment.paymentId ∈ s.processed) ∧
      (∀ reason attempt, stage = .dlqAck reason attempt → before = .handler) ∧
      ∀ reason attempt, stage = .dlqAdd reason attempt → before = .dlqAck reason attempt := by
  have hbatch {l : Consumer} {batch : List (ℕ × Fields)} (hl : (l.forBatch batch).pc = .busy m stage) :
      stage = .check := by
    cases batch with
    | nil => cases hl
    | cons e rest =>
      simp only [Consumer.forBatch] at hl
      split at hl
      · cases hl
        rfl
      · cases hl
  cases hm with
  | readNew hpc hne => exact Or.inl (hbatch h)
  | readPending hpc hne => exact Or.inl (hbatch h)
  | skip n hpc => exact Or.inl (hbatch h)
  | retry n exc hpc hlt => exact Or.inl (hbatch h)
  | ack n hpc => exact Or.inl (hbatch h)
  | dlqAdd n reason attempt hpc => exact Or.inl (hbatch h)
  | noNew hpc hnil => cases h
  | noPending hpc hnil => cases h
  | wake hpc => cases h
  | hit n hpc hp =>
    cases h
    exact Or.inr ⟨_, hpc, by simp [hp]⟩
  | miss n hpc hp =>
    cases h
    exact Or.inr ⟨_, hpc, by simp⟩
  | returns n hpc =>
    cases h
    exact Or.inr ⟨_, hpc, by simp⟩
  | exhaust n exc hpc hge =>
    cases h
    exact Or.inr ⟨_, hpc, by simp⟩
  | mark n hpc =>
    cases h
    exact Or.inr ⟨_, hpc, by simp⟩
  | dlqAck n reason attempt hpc =>
    cases h
    exact Or.inr ⟨_, hpc, by simp⟩

end Dlq
