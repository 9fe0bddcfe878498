import MessageBrokerPatterns.SagaExchange

/-!
# The events of one order under a single reader

A single run reads the three streams. `due` holds the entries of each stream together with the event
that the run is about to append, and `seen` counts the entries that the run has handled. `Tally` says
that every handled event for the order has been answered once and that there is one `OrderCreated` to
begin with; `Solo` adds that the status of the order is terminal exactly if the closing event has been
handled. Both are kept when the run handles an entry.

Each answer weighs less than the event that it answers, so the weight of the unread entries falls with
every entry that is handled. When nothing is unread, the closing event has been handled.
-/

namespace Saga
open PyText PyDict
variable {ρ F : Type}

def total (due : Stream → List Fields) (o : String) (k : Kind) : ℕ :=
  (due k.stream).countP (isKind k.name o)

def passed (due : Stream → List Fields) (seen : Stream → ℕ) (o : String) (k : Kind) : ℕ :=
  ((due k.stream).take (seen k.stream)).countP (isKind k.name o)

theorem passed_le_total (due : Stream → List Fields) (seen : Stream → ℕ) (o : String) (k : Kind) :
    passed due seen o k ≤ total due o k := (List.take_sublist _ _).countP_le

variable [PyFloat F]

theorem Answers.countP {known : Prop} {e : Event F} {reply : Option (Event F)} {o : String}
    (h : Answers known e reply) (hknown : e.orderId = o → known) (k : Kind) :
    (added (reply.map Event.publish) k.stream).countP (isKind k.name o) =
      if e.orderId = o ∧ e.kind.answer e.nonpos = some k then 1 else 0 := by
  cases reply with
  | none =>
    rw [if_neg]
    · rfl
    · rintro ⟨ho, hanswer⟩
      rw [h.silent rfl (hknown ho)] at hanswer
      cases hanswer
  | some e' =>
    obtain ⟨hanswer, ho, -⟩ := h.answer e' rfl
    rw [Option.map_some, countP_added, Event.stream_publish, Event.isKind_publish, hanswer, ho]
    refine if_congr ?_ rfl rfl
    simp only [decide_eq_true_eq, Option.some.injEq]
    constructor
    · rintro ⟨-, hk, ho⟩
      exact ⟨ho, hk⟩
    · rintro ⟨ho, rfl⟩
      exact ⟨rfl, rfl, ho⟩

/-- The events for an order under a single reader. -/
structure Tally (F : Type) [PyFloat F] (o : String) (nonpos : Bool) (due : Stream → List Fields)
    (seen : Stream → ℕ) : Prop where
  events : ∀ s, ∀ raw ∈ due s, ∃ e : Event F, e.publish = ⟨s, raw⟩ ∧
    (e.orderId = o → e.nonpos = nonpos)
  within : ∀ s, seen s ≤ (due s).length
  created : total due o .created = 1
  answered : ∀ k ans, k.answer nonpos = some ans → total due o ans = passed due seen o k

section Handle
variable {due due' : Stream → List Fields} {seen : Stream → ℕ} {o : String} {nonpos : Bool}
  {e : Event F} {reply : Option (Event F)} {known : Prop} {out : Option Publish}

theorem total_append (hdue : ∀ t, due' t = due t ++ added out t) (o : String) (k : Kind) :
    total due' o k = total due o k + (added out k.stream).countP (isKind k.name o) := by
  rw [total, hdue, List.countP_append, total]

theorem passed_handle (hwithin : ∀ s, seen s ≤ (due s).length)
    (hraw : (due e.kind.stream)[seen e.kind.stream]? = some e.publish.fields)
    (hdue : ∀ t, due' t = due t ++ added out t) (o : String) (k : Kind) :
    passed due' (Function.update seen e.kind.stream (seen e.kind.stream + 1)) o k =
      passed due seen o k + if e.kind = k ∧ e.orderId = o then 1 else 0 := by
  obtain ⟨hlt, -⟩ := List.getElem?_eq_some_iff.mp hraw
  unfold passed
  by_cases hs : k.stream = e.kind.stream
  · rw [hdue, hs, Function.update_self, List.take_append_of_le_length hlt, List.take_add_one, hraw,
      List.countP_append, Option.toList_some, List.countP_singleton, Event.isKind_publish]
    simp only [decide_eq_true_eq]
  · rw [hdue, Function.update_of_ne hs, List.take_append_of_le_length (hwithin _), if_neg,
      Nat.add_zero]
    rintro ⟨rfl, -⟩
    exact hs rfl

theorem Tally.handle (h : Tally F o nonpos due seen)
    (hraw : (due e.kind.stream)[seen e.kind.stream]? = some e.publish.fields)
    (hnonpos : e.orderId = o → e.nonpos = nonpos) (hreply : Answers known e reply)
    (hknown : e.orderId = o → known)
    (hdue : ∀ t, due' t = due t ++ added (reply.map Event.publish) t) :
    Tally F o nonpos due' (Function.update seen e.kind.stream (seen e.kind.stream + 1)) := by
  constructor
  · intro s raw hmem
    rw [hdue] at hmem
    rcases List.mem_append.mp hmem with hmem | hmem
    · exact h.events s raw hmem
    · cases reply with
      | none => cases hmem
      | some e' =>
        obtain ⟨rfl, rfl⟩ := mem_added.mp hmem
        obtain ⟨-, ho, hpos⟩ := hreply.answer e' rfl
        refine ⟨e', rfl, fun ho' => ?_⟩
        rw [hpos]
        exact hnonpos (ho ▸ ho')
  · intro s
    rw [hdue, List.length_append]
    by_cases hs : s = e.kind.stream
    · obtain ⟨hlt, -⟩ := List.getElem?_eq_some_iff.mp hraw
      rw [hs, Function.update_self]
      omega
    · rw [Function.update_of_ne hs]
      exact (h.within s).trans (Nat.le_add_right _ _)
  · rw [total_append hdue, hreply.countP hknown, if_neg, h.created]
    rintro ⟨-, hanswer⟩
    exact Kind.answer_ne_created _ hanswer
  · intro k ans hans
    rw [total_append hdue, hreply.countP hknown, passed_handle h.within hraw hdue,
      h.answered k ans hans]
    congr 1
    refine if_congr ?_ rfl rfl
    constructor
    · rintro ⟨ho, hanswer⟩
      rw [hnonpos ho] at hanswer
      exact ⟨Kind.answer_injective hanswer hans, ho⟩
    · rintro ⟨rfl, ho⟩
      rw [hnonpos ho]
      exact ⟨ho, hans⟩

/-- On streams without an event for the order, the `OrderCreated` of the order is the first. -/
theorem Tally.start {streams : Stream → List Fields} (hkind : e.kind = .created)
    (hbacklog : ∀ s, ∀ raw ∈ streams s, ∃ e' : Event F, e'.publish = ⟨s, raw⟩ ∧
      e'.orderId ≠ e.orderId)
    (hdue : ∀ t, due t = streams t ++ added (some e.publish) t) :
    Tally F e.orderId e.nonpos due (fun _ => 0) := by
  have hnone (k : Kind) : total streams e.orderId k = 0 := by
    rw [total, List.countP_eq_zero]
    intro raw hmem
    obtain ⟨e', he, hne⟩ := hbacklog _ raw hmem
    obtain rfl : e'.publish.fields = raw := congrArg Publish.fields he
    rw [Event.isKind_publish, decide_eq_true_iff]
    rintro ⟨-, ho⟩
    exact hne ho
  have htotal (k : Kind) : total due e.orderId k = if k = .created then 1 else 0 := by
    rw [total_append hdue, hnone, countP_added, Event.stream_publish, Event.isKind_publish, hkind,
      Nat.zero_add]
    refine if_congr ?_ rfl rfl
    simp only [and_true, decide_eq_true_eq]
    constructor
    · rintro ⟨-, hk⟩
      exact hk.symm
    · rintro rfl
      exact ⟨rfl, rfl⟩
  refine ⟨fun s raw hmem => ?_, fun s => Nat.zero_le _, htotal .created, fun k ans hans => ?_⟩
  · rw [hdue] at hmem
    rcases List.mem_append.mp hmem with hmem | hmem
    · obtain ⟨e', he, hne⟩ := hbacklog s raw hmem
      exact ⟨e', he, fun ho => absurd ho hne⟩
    · obtain ⟨rfl, rfl⟩ := mem_added.mp hmem
      exact ⟨e, rfl, fun _ => rfl⟩
  · rw [htotal, if_neg]
    · simp [passed]
    · rintro rfl
      exact Kind.answer_ne_created k hans

end Handle

namespace Tally
variable {due : Stream → List Fields} {seen : Stream → ℕ} {o : String} {nonpos : Bool}

theorem total_eq_zero (h : Tally F o nonpos due seen) {k : Kind}
    (hk : ∀ e : Event F, e.kind = k → e.nonpos ≠ nonpos) : total due o k = 0 := by
  rw [total, List.countP_eq_zero]
  intro raw hmem hkind
  obtain ⟨e, he, hnonpos⟩ := h.events _ raw hmem
  obtain rfl : e.publish.fields = raw := congrArg Publish.fields he
  rw [Event.isKind_publish, decide_eq_true_eq] at hkind
  exact hk e hkind.1 (hnonpos hkind.2)

theorem total_shipped (h : Tally F o true due seen) : total due o .shipped = 0 :=
  h.total_eq_zero fun e hk => by simp [Event.nonpos_of_shipped hk]

theorem total_cancelled (h : Tally F o false due seen) : total due o .cancelled = 0 :=
  h.total_eq_zero fun e hk => by simp [Event.nonpos_of_cancelled hk]

theorem outcome (h : Tally F o nonpos due seen) (hclosed : 0 < passed due seen o (.closing nonpos)) :
    if nonpos then total due o .failed = 1 ∧ total due o .cancelled = 1 ∧ total due o .shipped = 0
    else total due o .processed = 1 ∧ total due o .shipped = 1 ∧ total due o .cancelled = 0 := by
  have hone := h.created
  have hcreated := passed_le_total due seen o .created
  have hclosing := passed_le_total due seen o (.closing nonpos)
  cases nonpos with
  | true =>
    have hfailed : total due o .failed = passed due seen o .created := h.answered .created .failed rfl
    have hcancelled : total due o .cancelled = passed due seen o .failed :=
      h.answered .failed .cancelled rfl
    simp only [Kind.closing, if_true] at hclosed hclosing
    rw [if_pos rfl]
    exact ⟨by omega, by omega, h.total_shipped⟩
  | false =>
    have hprocessed : total due o .processed = passed due seen o .created :=
      h.answered .created .processed rfl
    have hshipped : total due o .shipped = passed due seen o .processed :=
      h.answered .processed .shipped rfl
    have hpassed := passed_le_total due seen o .processed
    simp only [Kind.closing, Bool.false_eq_true, if_false] at hclosed hclosing
    rw [if_neg Bool.false_ne_true]
    exact ⟨by omega, by omega, h.total_cancelled⟩

theorem closed_of_passed_eq_total (h : Tally F o nonpos due seen)
    (hall : ∀ k, passed due seen o k = total due o k) :
    0 < passed due seen o (.closing nonpos) := by
  have hone := h.created
  cases nonpos with
  | true =>
    have hfailed : total due o .failed = passed due seen o .created := h.answered .created .failed rfl
    rw [hall] at hfailed ⊢
    simp only [Kind.closing, if_true]
    omega
  | false =>
    have hprocessed : total due o .processed = passed due seen o .created :=
      h.answered .created .processed rfl
    have hshipped : total due o .shipped = passed due seen o .processed :=
      h.answered .processed .shipped rfl
    rw [hall] at hprocessed hshipped ⊢
    simp only [Kind.closing, Bool.false_eq_true, if_false]
    omega

theorem passed_processed_le (h : Tally F o false due seen) : passed due seen o .processed ≤ 1 := by
  have hprocessed : total due o .processed = passed due seen o .created :=
    h.answered .created .processed rfl
  have hpassed := passed_le_total due seen o .processed
  have hcreated := passed_le_total due seen o .created
  have hone := h.created
  omega

theorem passed_shipped_le (h : Tally F o false due seen) :
    passed due seen o .shipped ≤ passed due seen o .processed := by
  have hshipped : total due o .shipped = passed due seen o .processed :=
    h.answered .processed .shipped rfl
  rw [← hshipped]
  exact passed_le_total due seen o .shipped

end Tally

/-- The run `r` is the only reader, and its order has the id `o` and a positive amount or not. -/
structure Solo (r : ρ) (svc : ℕ) (o : String) (nonpos : Bool) (m : Memory ρ F)
    (due : Stream → List Fields) (seen : Stream → ℕ) : Prop where
  tally : Tally F o nonpos due seen
  keyed : ∀ key q, get? (m.tables svc) key = some q → (m.orders q).orderId = key
  known : get? (m.tables svc) o = some r
  decided : 0 < passed due seen o (.closing nonpos) → (m.orders r).status = .outcome nonpos
  undecided : (m.orders r).status.terminal = true → 0 < passed due seen o (.closing nonpos)

namespace Solo
variable {r : ρ} {svc : ℕ} {o : String} {nonpos : Bool} {m : Memory ρ F}
  {due : Stream → List Fields} {seen : Stream → ℕ}

theorem terminal_iff (h : Solo r svc o nonpos m due seen) :
    (m.orders r).status.terminal = true ↔ 0 < passed due seen o (.closing nonpos) := by
  constructor
  · exact h.undecided
  · intro hclosed
    rw [h.decided hclosed]
    cases nonpos <;> rfl

end Solo

def weigh (raw : Fields) : ℕ :=
  match eventTypeOf raw with
  | .ok "OrderCreated" => 3
  | .ok "PaymentProcessed" => 2
  | .ok "PaymentFailed" => 2
  | _ => 1

def unread (due : Stream → List Fields) (seen : Stream → ℕ) (s : Stream) : ℕ :=
  (((due s).drop (seen s)).map weigh).sum

def work (due : Stream → List Fields) (seen : Stream → ℕ) : ℕ :=
  unread due seen .orders + unread due seen .payments + unread due seen .shipping

theorem weigh_pos (raw : Fields) : 0 < weigh raw := by
  unfold weigh
  split <;> decide

theorem weigh_answer {e e' : Event F} (h : e.kind.answer e.nonpos = some e'.kind) :
    weigh e'.publish.fields < weigh e.publish.fields := by
  rw [weigh, weigh, e.eventTypeOf_publish, e'.eventTypeOf_publish]
  revert h
  generalize e'.kind = ans
  generalize e.nonpos = nonpos
  cases e.kind <;> cases ans <;> cases nonpos <;> decide

section Work
variable {due due' : Stream → List Fields} {seen : Stream → ℕ} {out : Option Publish} {s : Stream}
  {raw : Fields}

theorem unread_handle (hwithin : ∀ t, seen t ≤ (due t).length)
    (hraw : (due s)[seen s]? = some raw) (hdue : ∀ t, due' t = due t ++ added out t) (t : Stream) :
    unread due' (Function.update seen s (seen s + 1)) t + (if t = s then weigh raw else 0) =
      unread due seen t + ((added out t).map weigh).sum := by
  obtain ⟨hlt, hget⟩ := List.getElem?_eq_some_iff.mp hraw
  unfold unread
  by_cases hs : t = s
  · subst hs
    rw [hdue, Function.update_self, List.drop_append_of_le_length hlt, if_pos rfl,
      List.drop_eq_getElem_cons hlt, hget, List.map_append, List.sum_append, List.map_cons,
      List.sum_cons, Nat.succ_eq_add_one]
    omega
  · rw [hdue, Function.update_of_ne hs, List.drop_append_of_le_length (hwithin t), if_neg hs,
      List.map_append, List.sum_append, Nat.add_zero]

theorem sum_added (p : Publish) : ((added (some p) .orders).map weigh).sum +
    ((added (some p) .payments).map weigh).sum + ((added (some p) .shipping).map weigh).sum =
      weigh p.fields := by
  obtain ⟨stream, fields⟩ := p
  cases stream <;> simp [added]

theorem work_append {p : Publish} (hwithin : ∀ t, seen t ≤ (due t).length)
    (hdue : ∀ t, due' t = due t ++ added (some p) t) :
    work due' seen = work due seen + weigh p.fields := by
  have hunread (t : Stream) :
      unread due' seen t = unread due seen t + ((added (some p) t).map weigh).sum := by
    rw [unread, hdue, List.drop_append_of_le_length (hwithin t), List.map_append, List.sum_append,
      unread]
  rw [work, hunread, hunread, hunread, ← sum_added p, work]
  omega

theorem work_handle {e : Event F} {reply : Option (Event F)} {known : Prop}
    (hwithin : ∀ t, seen t ≤ (due t).length)
    (hraw : (due e.kind.stream)[seen e.kind.stream]? = some e.publish.fields)
    (hreply : Answers known e reply)
    (hdue : ∀ t, due' t = due t ++ added (reply.map Event.publish) t) :
    work due' (Function.update seen e.kind.stream (seen e.kind.stream + 1)) < work due seen := by
  have horders := unread_handle hwithin hraw hdue .orders
  have hpayments := unread_handle hwithin hraw hdue .payments
  have hshipping := unread_handle hwithin hraw hdue .shipping
  have hless : ((added (reply.map Event.publish) .orders).map weigh).sum +
      ((added (reply.map Event.publish) .payments).map weigh).sum +
      ((added (reply.map Event.publish) .shipping).map weigh).sum < weigh e.publish.fields := by
    cases reply with
    | none => exact weigh_pos _
    | some e' =>
      rw [Option.map_some, sum_added]
      exact weigh_answer (hreply.answer e' rfl).1
  have hself : (if Stream.orders = e.kind.stream then weigh e.publish.fields else 0) +
      (if Stream.payments = e.kind.stream then weigh e.publish.fields else 0) +
      (if Stream.shipping = e.kind.stream then weigh e.publish.fields else 0) =
        weigh e.publish.fields := by
    cases e.kind.stream <;> simp
  unfold work
  omega

theorem drop_eq_nil_of_unread (h : unread due seen s = 0) : (due s).drop (seen s) = [] := by
  have hle : (((due s).drop (seen s)).map weigh).length ≤ unread due seen s := by
    apply List.length_le_sum_of_one_le
    intro n hn
    obtain ⟨raw, -, rfl⟩ := List.mem_map.mp hn
    exact weigh_pos raw
  rw [h, List.length_map, Nat.le_zero] at hle
  exact List.length_eq_zero_iff.mp hle

theorem passed_eq_total (h : work due seen = 0) (o : String) (k : Kind) :
    passed due seen o k = total due o k := by
  have hunread : unread due seen k.stream = 0 := by
    unfold work at h
    cases k.stream with
    | orders => omega
    | payments => omega
    | shipping => omega
  have hsplit := List.take_append_drop (seen k.stream) (due k.stream)
  rw [drop_eq_nil_of_unread hunread, List.append_nil] at hsplit
  rw [passed, hsplit, total]

end Work

theorem Solo.work_pos {r : ρ} {svc : ℕ} {o : String} {nonpos : Bool} {m : Memory ρ F}
    {due : Stream → List Fields} {seen : Stream → ℕ} (h : Solo r svc o nonpos m due seen)
    (hopen : (m.orders r).status.terminal = false) : 0 < work due seen := by
  by_contra hzero
  have hclosed := h.tally.closed_of_passed_eq_total (passed_eq_total (by omega) o)
  rw [h.terminal_iff.mpr hclosed] at hopen
  cases hopen

theorem Solo.handle [DecidableEq ρ] {r : ρ} {svc : ℕ} {o : String} {nonpos : Bool}
    {m : Memory ρ F} {due due' : Stream → List Fields} {seen : Stream → ℕ} {e : Event F}
    {reply : Option (Event F)} (h : Solo r svc o nonpos m due seen)
    (hraw : (due e.kind.stream)[seen e.kind.stream]? = some e.publish.fields)
    (hnonpos : e.orderId = o → e.nonpos = nonpos)
    (hreply : Answers (get? (m.tables svc) e.orderId ≠ none) e reply)
    (hdue : ∀ t, due' t = due t ++ added (reply.map Event.publish) t) :
    Solo r svc o nonpos (OrderService.judged svc m e) due'
      (Function.update seen e.kind.stream (seen e.kind.stream + 1)) := by
  have hknown (ho : e.orderId = o) : get? (m.tables svc) e.orderId ≠ none := by
    rw [ho, h.known]
    exact Option.some_ne_none r
  have htally := h.tally.handle hraw hnonpos hreply hknown hdue
  have hpassed := passed_handle h.tally.within hraw hdue o
  have hstatus := OrderService.judged_status h.keyed h.known e
  refine ⟨htally, ?_, ?_, fun hclosed => ?_, fun hterminal => ?_⟩
  · intro key q hq
    rw [OrderService.judged_tables] at hq
    rw [OrderService.judged_orderId]
    exact h.keyed key q hq
  · rw [OrderService.judged_tables]
    exact h.known
  · rw [hpassed] at hclosed
    rw [hstatus]
    by_cases hk : e.kind = .closing nonpos ∧ e.orderId = o
    · rw [if_pos hk.2, hk.1, Kind.verdict_closing, Option.getD_some]
    · rw [if_neg hk, Nat.add_zero] at hclosed
      rw [h.decided hclosed]
      split_ifs with ho
      · obtain rfl := hnonpos ho
        rcases e.verdict_cases with hnone | ⟨hprocessed, hpos⟩ | hclosing
        · rw [hnone, Option.getD_none]
        · rw [hpos] at h htally hclosed
          have hle := htally.passed_processed_le
          rw [hpassed, if_pos ⟨hprocessed, ho⟩] at hle
          exact absurd (hclosed.trans_le h.tally.passed_shipped_le) (by omega)
        · exact absurd ⟨hclosing, ho⟩ hk
      · rfl
  · rw [hstatus] at hterminal
    rw [hpassed]
    split_ifs at hterminal with ho
    · rcases e.verdict_cases with hnone | ⟨hprocessed, -⟩ | hclosing
      · rw [hnone, Option.getD_none] at hterminal
        exact Nat.add_pos_left (h.undecided hterminal) _
      · rw [hprocessed] at hterminal
        cases hterminal
      · rw [hnonpos ho] at hclosing
        rw [if_pos ⟨hclosing, ho⟩]
        exact Nat.succ_pos _
    · exact Nat.add_pos_left (h.undecided hterminal) _

end Saga
