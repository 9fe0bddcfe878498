import MessageBrokerPatterns.TopicBroker
import Mathlib.Data.Set.Card

/-!
# Histories of the topic broker

A history is any sequence of `subscribe`, `unsubscribe` and `publish` calls. A queue belongs to the
topic it was subscribed to: it is attached there up to the first `unsubscribe` of this very topic
and queue, and detached from then on. An `unsubscribe` of another topic, or a second one, does
nothing to it.
-/

namespace ScatterGather.InMemoryTopicBroker
variable {μ : Type*}

/-- A call of the broker. -/
inductive Op (μ : Type*) where
  | subscribe (topic : String)
  | unsubscribe (topic : String) (queue : ℕ)
  | publish (topic : String) (message : μ)

namespace Op

def topic : Op μ → String
  | .subscribe topic => topic
  | .unsubscribe topic _ => topic
  | .publish topic _ => topic

def subscribes : Op μ → Bool
  | .subscribe _ => true
  | _ => false

/-- The call would detach the queue from the topic. -/
def detaches (t : String) (q : ℕ) : Op μ → Bool
  | .unsubscribe topic queue => topic = t ∧ queue = q
  | _ => false

def published (t : String) : Op μ → Option μ
  | .publish topic message => if topic = t then some message else none
  | _ => none

end Op

def perform (b : InMemoryTopicBroker μ) : Op μ → InMemoryTopicBroker μ
  | .subscribe topic => (b.subscribe topic).2
  | .unsubscribe topic queue => b.unsubscribe topic queue
  | .publish topic message => (b.publish topic message).2

def after (ops : List (Op μ)) : InMemoryTopicBroker μ := ops.foldl perform empty

/-- How many queues a history has handed out. -/
def subscriptions (ops : List (Op μ)) : ℕ := ops.countP Op.subscribes

/-- The history hands out the queue for the topic and does not detach it afterwards. -/
def SubscribedBy (ops : List (Op μ)) (t : String) (q : ℕ) : Prop :=
  ∃ before later, ops = before ++ .subscribe t :: later ∧ q = subscriptions before ∧
    ∀ op ∈ later, op.detaches t q = false

/-- The queue exists and is registered nowhere. -/
structure Detached (b : InMemoryTopicBroker μ) (q : ℕ) : Prop where
  made : q < b.created
  nowhere : ∀ t, q ∉ b.subscribed t

theorem after_append (ops later : List (Op μ)) : after (ops ++ later) = later.foldl perform (after ops) :=
  List.foldl_append

theorem nodup_subscribed (b : InMemoryTopicBroker μ) (t : String) : (b.subscribed t).Nodup :=
  b.registered.nodup t

theorem created_perform (b : InMemoryTopicBroker μ) (op : Op μ) :
    (b.perform op).created = b.created + if op.subscribes then 1 else 0 := by
  cases op with
  | subscribe topic => rfl
  | unsubscribe topic queue => exact created_unsubscribe topic queue
  | publish topic message => exact created_publish topic message

theorem created_after (ops : List (Op μ)) : (after ops).created = subscriptions ops := by
  induction ops using List.reverseRecOn with
  | nil => rfl
  | append_singleton ops op ih =>
    rw [after_append, List.foldl_cons, List.foldl_nil, created_perform, ih, subscriptions,
      subscriptions, List.countP_append, List.countP_singleton]

theorem subscribed_perform_of_ne (b : InMemoryTopicBroker μ) {op : Op μ} {t : String}
    (h : op.topic ≠ t) : (b.perform op).subscribed t = b.subscribed t := by
  cases op with
  | subscribe topic => exact (subscribed_subscribe topic t).trans (if_neg h)
  | unsubscribe topic queue => exact (subscribed_unsubscribe topic t queue).trans (if_neg h)
  | publish topic message => exact subscribed_publish topic t message

theorem Detached.perform {b : InMemoryTopicBroker μ} {q : ℕ} (h : b.Detached q) (op : Op μ) :
    (b.perform op).Detached q ∧ (b.perform op).queues q = b.queues q := by
  cases op with
  | subscribe topic =>
    refine ⟨⟨Nat.lt_succ_of_lt h.made, fun t hq => ?_⟩, ?_⟩
    · change q ∈ (b.subscribe topic).2.subscribed t at hq
      rw [subscribed_subscribe] at hq
      split_ifs at hq
      · rcases List.mem_append.mp hq with hq | hq
        · exact h.nowhere topic hq
        · exact h.made.ne (List.mem_singleton.mp hq)
      · exact h.nowhere t hq
    · exact (queues_subscribe topic q).trans (if_neg h.made.ne)
  | unsubscribe topic queue =>
    refine ⟨⟨h.made.trans_eq (created_unsubscribe topic queue).symm, fun t hq => ?_⟩,
      congrFun (queues_unsubscribe topic queue) q⟩
    change q ∈ (b.unsubscribe topic queue).subscribed t at hq
    rw [subscribed_unsubscribe] at hq
    split_ifs at hq
    · exact h.nowhere topic (List.mem_of_mem_erase hq)
    · exact h.nowhere t hq
  | publish topic message =>
    refine ⟨⟨h.made.trans_eq (created_publish topic message).symm, fun t hq => ?_⟩, ?_⟩
    · exact h.nowhere t ((subscribed_publish topic t message) ▸ hq)
    · exact (queues_publish topic message q).trans (by rw [if_neg (h.nowhere topic), List.append_nil])

theorem perform_attached {b : InMemoryTopicBroker μ} {t : String} {q : ℕ} (h : q ∈ b.subscribed t)
    {op : Op μ} (hop : op.detaches t q = false) :
    q ∈ (b.perform op).subscribed t ∧
      (b.perform op).queues q = b.queues q ++ (op.published t).toList := by
  have hmade := b.registered.fresh t q h
  cases op with
  | subscribe topic =>
    refine ⟨?_, ((queues_subscribe topic q).trans (if_neg hmade.ne)).trans (List.append_nil _).symm⟩
    change q ∈ (b.subscribe topic).2.subscribed t
    rw [subscribed_subscribe]
    split_ifs with ht
    · exact List.mem_append_left _ (ht ▸ h)
    · exact h
  | unsubscribe topic queue =>
    refine ⟨?_, (congrFun (queues_unsubscribe topic queue) q).trans (List.append_nil _).symm⟩
    change q ∈ (b.unsubscribe topic queue).subscribed t
    rw [subscribed_unsubscribe]
    split_ifs with ht
    · subst ht
      have hne : q ≠ queue := by
        rintro rfl
        simp [Op.detaches] at hop
      exact (List.mem_erase_of_ne hne).mpr h
    · exact h
  | publish topic message =>
    refine ⟨(subscribed_publish topic t message).symm ▸ h, ?_⟩
    change (b.publish topic message).2.queues q = _
    rw [queues_publish, Op.published]
    by_cases ht : topic = t
    · subst ht
      rw [if_pos h, if_pos rfl]
      rfl
    · have hother : q ∉ b.subscribed topic := fun hq => ht (b.registered.alone topic t q hq h)
      rw [if_neg hother, if_neg ht]
      rfl

theorem perform_detaches {b : InMemoryTopicBroker μ} {t : String} {q : ℕ} (h : q ∈ b.subscribed t)
    {op : Op μ} (hop : op.detaches t q = true) :
    (b.perform op).Detached q ∧ (b.perform op).queues q = b.queues q := by
  cases op with
  | subscribe topic => cases hop
  | publish topic message => cases hop
  | unsubscribe topic queue =>
    obtain ⟨rfl, rfl⟩ : topic = t ∧ queue = q := of_decide_eq_true hop
    have hmade := b.registered.fresh topic queue h
    refine ⟨⟨hmade.trans_eq (created_unsubscribe topic queue).symm, fun u hq => ?_⟩,
      congrFun (queues_unsubscribe topic queue) queue⟩
    change queue ∈ (b.unsubscribe topic queue).subscribed u at hq
    rw [subscribed_unsubscribe] at hq
    split_ifs at hq with hu
    · exact ((b.registered.nodup topic).mem_erase_iff.mp hq).1 rfl
    · exact hu (b.registered.alone topic u queue h hq)

theorem Detached.foldl {q : ℕ} (later : List (Op μ)) {b : InMemoryTopicBroker μ}
    (h : b.Detached q) :
    (later.foldl InMemoryTopicBroker.perform b).Detached q ∧
      (later.foldl InMemoryTopicBroker.perform b).queues q = b.queues q := by
  induction later generalizing b with
  | nil => exact ⟨h, rfl⟩
  | cons op later ih =>
    obtain ⟨hd, hq⟩ := ih (h.perform op).1
    exact ⟨hd, hq.trans (h.perform op).2⟩

/-- What the calls publish to the topic up to the first one that detaches the queue. -/
def delivered (t : String) (q : ℕ) (later : List (Op μ)) : List μ :=
  (later.takeWhile fun op => !op.detaches t q).filterMap (Op.published t)

theorem delivered_cons (t : String) (q : ℕ) (op : Op μ) (later : List (Op μ)) :
    delivered t q (op :: later) =
      if op.detaches t q then [] else (op.published t).toList ++ delivered t q later := by
  cases hop : op.detaches t q with
  | true =>
    rw [delivered, List.takeWhile_cons_of_neg (by simp [hop])]
    rfl
  | false =>
    rw [delivered, List.takeWhile_cons_of_pos (by simp [hop]), List.filterMap_cons]
    cases op.published t with
    | none => rfl
    | some m => rfl

theorem delivered_snoc {t : String} {op : Op μ} (h : op.published t = none) (q : ℕ)
    (later : List (Op μ)) : delivered t q (later ++ [op]) = delivered t q later := by
  induction later with
  | nil =>
    rw [List.nil_append, delivered_cons, h]
    exact ite_self _
  | cons o later ih => rw [List.cons_append, delivered_cons, delivered_cons, ih]

theorem foldl_attached {t : String} {q : ℕ} (later : List (Op μ)) {b : InMemoryTopicBroker μ}
    (h : q ∈ b.subscribed t) :
    (later.foldl perform b).queues q = b.queues q ++ delivered t q later ∧
      ((∀ op ∈ later, op.detaches t q = false) → q ∈ (later.foldl perform b).subscribed t) ∧
      ((∃ op ∈ later, op.detaches t q = true) → (later.foldl perform b).Detached q) := by
  induction later generalizing b with
  | nil => exact ⟨(List.append_nil _).symm, fun _ => h, fun ⟨_, hop, _⟩ => by cases hop⟩
  | cons op later ih =>
    cases hop : op.detaches t q with
    | true =>
      obtain ⟨hd, hq⟩ := perform_detaches h hop
      obtain ⟨hd', hq'⟩ := hd.foldl later
      refine ⟨?_, fun hall => ?_, fun _ => hd'⟩
      · rw [List.foldl_cons, hq', hq, delivered_cons, if_pos hop, List.append_nil]
      · exact absurd (hop.symm.trans (hall op List.mem_cons_self)) (by decide)
    | false =>
      obtain ⟨hmem, hq⟩ := perform_attached h hop
      obtain ⟨hq', hall, hex⟩ := ih hmem
      refine ⟨?_, fun hno => hall fun o ho => hno o (List.mem_cons_of_mem op ho), ?_⟩
      · rw [List.foldl_cons, hq', hq, delivered_cons, hop, List.append_assoc]
        rfl
      · rintro ⟨o, ho, hd⟩
        rcases List.mem_cons.mp ho with rfl | ho
        · exact absurd (hop.symm.trans hd) (by decide)
        · exact hex ⟨o, ho, hd⟩

theorem mem_subscribed_subscribe (before : List (Op μ)) (t : String) :
    subscriptions before ∈ ((after before).perform (.subscribe t)).subscribed t := by
  change subscriptions before ∈ ((after before).subscribe t).2.subscribed t
  rw [subscribed_subscribe, if_pos rfl, ← created_after]
  exact List.mem_append_right _ (List.mem_singleton.mpr rfl)

/-- The content of a queue: what was published to its topic while it was attached. -/
theorem queues_after (before later : List (Op μ)) (t : String) :
    (after (before ++ .subscribe t :: later)).queues (subscriptions before) =
      delivered t (subscriptions before) later := by
  have hnew : ((after before).perform (.subscribe t)).queues (subscriptions before) = [] := by
    change ((after before).subscribe t).2.queues (subscriptions before) = []
    rw [queues_subscribe, created_after, if_pos rfl]
  rw [after_append, List.foldl_cons, (foldl_attached later (mem_subscribed_subscribe before t)).1,
    hnew, List.nil_append]

theorem subscribedBy_snoc {ops : List (Op μ)} {op : Op μ} {t : String} {q : ℕ} :
    SubscribedBy (ops ++ [op]) t q ↔ (op = .subscribe t ∧ q = subscriptions ops) ∨
      (SubscribedBy ops t q ∧ op.detaches t q = false) := by
  constructor
  · rintro ⟨before, later, hops, hq, hall⟩
    rcases List.eq_nil_or_concat later with rfl | ⟨later, last, rfl⟩
    · obtain ⟨rfl, hop⟩ := List.append_inj' hops rfl
      exact Or.inl ⟨(List.singleton_inj.mp hop), hq⟩
    · rw [List.concat_eq_append, ← List.cons_append, ← List.append_assoc] at hops
      obtain ⟨rfl, hop⟩ := List.append_inj' hops rfl
      obtain rfl := List.singleton_inj.mp hop
      exact Or.inr ⟨⟨before, later, rfl, hq, fun o ho => hall o (by simp [ho])⟩,
        hall op (by simp)⟩
  · rintro (⟨rfl, rfl⟩ | ⟨⟨before, later, rfl, hq, hall⟩, hop⟩)
    · exact ⟨ops, [], rfl, rfl, nofun⟩
    · refine ⟨before, later ++ [op], by rw [List.append_assoc, List.cons_append], hq, fun o ho => ?_⟩
      rcases List.mem_append.mp ho with ho | ho
      · exact hall o ho
      · exact (List.mem_singleton.mp ho) ▸ hop

theorem mem_subscribed_perform {b : InMemoryTopicBroker μ} {op : Op μ} {t : String} {q : ℕ} :
    q ∈ (b.perform op).subscribed t ↔ (op = .subscribe t ∧ q = b.created) ∨
      (q ∈ b.subscribed t ∧ op.detaches t q = false) := by
  by_cases ht : op.topic = t
  · subst ht
    cases op with
    | subscribe topic =>
      change q ∈ (b.subscribe topic).2.subscribed topic ↔ _
      rw [subscribed_subscribe, if_pos rfl, List.mem_append, List.mem_singleton]
      simp [Op.topic, Op.detaches, or_comm]
    | unsubscribe topic queue =>
      change q ∈ (b.unsubscribe topic queue).subscribed topic ↔ _
      rw [subscribed_unsubscribe, if_pos rfl, (b.nodup_subscribed topic).mem_erase_iff]
      simp [Op.topic, Op.detaches, and_comm, eq_comm]
    | publish topic message =>
      change q ∈ (b.publish topic message).2.subscribed topic ↔ _
      rw [subscribed_publish]
      simp [Op.topic, Op.detaches]
  · rw [subscribed_perform_of_ne b ht]
    have hdet : op.detaches t q = false := by
      cases op with
      | unsubscribe topic queue =>
        have ht : topic ≠ t := ht
        simp [Op.detaches, ht]
      | _ => rfl
    have hsub : op ≠ .subscribe t := fun h => ht (congrArg Op.topic h)
    simp [hdet, hsub]

theorem mem_subscribed_after {ops : List (Op μ)} {t : String} {q : ℕ} :
    q ∈ (after ops).subscribed t ↔ SubscribedBy ops t q := by
  induction ops using List.reverseRecOn with
  | nil =>
    constructor
    · exact nofun
    · rintro ⟨before, later, hops, -⟩
      exact absurd hops.symm (by simp)
  | append_singleton ops op ih =>
    rw [after_append, List.foldl_cons, List.foldl_nil, mem_subscribed_perform, subscribedBy_snoc, ih,
      created_after]

/-- `publish` reaches as many queues as the history says are subscribed. -/
theorem publish_after (ops : List (Op μ)) (t : String) (m : μ) :
    ((after ops).publish t m).1 = Set.ncard {q | SubscribedBy ops t q} := by
  have hset : {q | SubscribedBy ops t q} = ((after ops).subscribed t).toFinset := by
    ext q
    rw [List.coe_toFinset]
    exact mem_subscribed_after.symm
  rw [hset, Set.ncard_coe_finset, List.toFinset_card_of_nodup ((after ops).nodup_subscribed t)]
  rfl

/-- A call on another topic changes neither what is subscribed to a topic nor what its queues,
detached ones included, hold. -/
theorem other_topic (before later : List (Op μ)) (t : String) {op : Op μ} (h : op.topic ≠ t) :
    (after (before ++ .subscribe t :: (later ++ [op]))).queues (subscriptions before) =
      (after (before ++ .subscribe t :: later)).queues (subscriptions before) := by
  have hnone : op.published t = none := by
    cases op with
    | publish topic message => exact if_neg h
    | _ => rfl
  rw [queues_after, queues_after, delivered_snoc hnone]

end ScatterGather.InMemoryTopicBroker
