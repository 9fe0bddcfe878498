import MessageBrokerPatterns.PyDict
import Mathlib.Logic.Function.Basic

/-!
# The in-memory topic broker

`InMemoryTopicBroker` gives every subscriber a queue of its own and copies a published message into
every queue of the topic. The queues are numbered in the order of their creation, and the broker
never registers a queue twice. A queue without a bound takes a message at once: `publish` does not
give up control between two queues, and it is one step.
-/

namespace ScatterGather
open PyDict
variable {μ : Type*}

/-- The queues of a topic; a topic that is missing has none. -/
def queuesOf (subscribers : Dict String (List ℕ)) (topic : String) : List ℕ :=
  (get? subscribers topic).getD []

theorem queuesOf_assign (subscribers : Dict String (List ℕ)) (topic t : String) (qs : List ℕ) :
    queuesOf (assign subscribers topic qs) t = if topic = t then qs else queuesOf subscribers t := by
  rw [queuesOf, get?_assign]
  by_cases h : topic = t
  · rw [if_pos h, if_pos h]
    rfl
  · rw [if_neg h, if_neg h]
    rfl

/-- The registered queues are among the first `created` ones, and none is registered twice. -/
structure Registered (subscribers : Dict String (List ℕ)) (created : ℕ) : Prop where
  fresh : ∀ t, ∀ q ∈ queuesOf subscribers t, q < created
  nodup : ∀ t, (queuesOf subscribers t).Nodup
  alone : ∀ t u, ∀ q ∈ queuesOf subscribers t, q ∈ queuesOf subscribers u → t = u

theorem Registered.add {subscribers : Dict String (List ℕ)} {created : ℕ}
    (h : Registered subscribers created) (topic : String) :
    Registered (assign subscribers topic (queuesOf subscribers topic ++ [created])) (created + 1) := by
  have hcases {t : String} {q : ℕ}
      (hq : q ∈ queuesOf (assign subscribers topic (queuesOf subscribers topic ++ [created])) t) :
      (q = created ∧ t = topic) ∨ q ∈ queuesOf subscribers t := by
    rw [queuesOf_assign] at hq
    split_ifs at hq with ht
    · subst ht
      rcases List.mem_append.mp hq with hq | hq
      · exact Or.inr hq
      · exact Or.inl ⟨List.mem_singleton.mp hq, rfl⟩
    · exact Or.inr hq
  refine ⟨fun t q hq => ?_, fun t => ?_, fun t u q ht hu => ?_⟩
  · rcases hcases hq with ⟨rfl, -⟩ | hq
    · exact Nat.lt_succ_self q
    · exact Nat.lt_succ_of_lt (h.fresh t q hq)
  · rw [queuesOf_assign]
    split_ifs
    · rw [← List.concat_eq_append, List.nodup_concat]
      exact ⟨fun hmem => (h.fresh topic _ hmem).ne rfl, h.nodup topic⟩
    · exact h.nodup t
  · rcases hcases ht with ⟨hq, rfl⟩ | ht'
    · rcases hcases hu with ⟨-, rfl⟩ | hu'
      · rfl
      · exact absurd hq (h.fresh u q hu').ne
    · rcases hcases hu with ⟨hq, -⟩ | hu'
      · exact absurd hq (h.fresh t q ht').ne
      · exact h.alone t u q ht' hu'

theorem Registered.remove {subscribers : Dict String (List ℕ)} {created : ℕ}
    (h : Registered subscribers created) (topic : String) (queue : ℕ) :
    Registered (assign subscribers topic ((queuesOf subscribers topic).erase queue)) created := by
  have hback {t : String} {q : ℕ}
      (hq : q ∈ queuesOf (assign subscribers topic ((queuesOf subscribers topic).erase queue)) t) :
      q ∈ queuesOf subscribers t := by
    rw [queuesOf_assign] at hq
    split_ifs at hq with ht
    · exact ht ▸ List.mem_of_mem_erase hq
    · exact hq
  refine ⟨fun t q hq => h.fresh t q (hback hq), fun t => ?_,
    fun t u q ht hu => h.alone t u q (hback ht) (hback hu)⟩
  rw [queuesOf_assign]
  split_ifs
  · exact (h.nodup topic).erase queue
  · exact h.nodup t

structure InMemoryTopicBroker (μ : Type*) where
  subscribers : Dict String (List ℕ)
  queues : ℕ → List μ
  created : ℕ
  registered : Registered subscribers created

namespace InMemoryTopicBroker

def empty : InMemoryTopicBroker μ where
  subscribers := []
  queues _ := []
  created := 0
  registered := ⟨nofun, fun _ => List.nodup_nil, nofun⟩

variable (b : InMemoryTopicBroker μ)

def subscribed (topic : String) : List ℕ := queuesOf b.subscribers topic

/-- The number of the new queue, and the broker that has registered it. -/
def subscribe (topic : String) : ℕ × InMemoryTopicBroker μ :=
  (b.created, {
    subscribers := assign b.subscribers topic (queuesOf b.subscribers topic ++ [b.created])
    queues := Function.update b.queues b.created []
    created := b.created + 1
    registered := b.registered.add topic })

def unsubscribe (topic : String) (queue : ℕ) : InMemoryTopicBroker μ :=
  if b.subscribed topic = [] then b
  else if queue ∈ b.subscribed topic then { b with
    subscribers := assign b.subscribers topic ((queuesOf b.subscribers topic).erase queue)
    registered := b.registered.remove topic queue }
  else b

/-- `queue.put(message)`. -/
def put (queue : ℕ) (message : μ) : InMemoryTopicBroker μ := { b with
  queues := Function.update b.queues queue (b.queues queue ++ [message]) }

/-- `queue.get()` on a queue that has a message. -/
def get (queue : ℕ) : Option (μ × InMemoryTopicBroker μ) :=
  match b.queues queue with
  | [] => none
  | m :: rest => some (m, { b with queues := Function.update b.queues queue rest })

/-- How many queues the message reached, and the broker that has copied it into them. -/
def publish (topic : String) (message : μ) : ℕ × InMemoryTopicBroker μ :=
  ((b.subscribed topic).length,
    (b.subscribed topic).foldl (fun b queue => b.put queue message) b)

variable {b}

theorem subscribed_subscribe (topic t : String) :
    (b.subscribe topic).2.subscribed t =
      if topic = t then b.subscribed topic ++ [b.created] else b.subscribed t := by
  rw [subscribed, subscribe, queuesOf_assign]
  rfl

theorem queues_subscribe (topic : String) (q : ℕ) :
    (b.subscribe topic).2.queues q = if q = b.created then [] else b.queues q := by
  rw [subscribe]
  exact Function.update_apply ..

theorem subscribed_unsubscribe (topic t : String) (queue : ℕ) :
    (b.unsubscribe topic queue).subscribed t =
      if topic = t then (b.subscribed topic).erase queue else b.subscribed t := by
  unfold unsubscribe
  split_ifs with hnil ht hmem ht ht
  · rw [← ht, hnil]
    rfl
  · rfl
  · rw [subscribed, queuesOf_assign, if_pos ht]
    rfl
  · rw [subscribed, queuesOf_assign, if_neg ht]
    rfl
  · rw [← ht, List.erase_of_not_mem hmem]
  · rfl

@[simp] theorem queues_unsubscribe (topic : String) (queue : ℕ) :
    (b.unsubscribe topic queue).queues = b.queues := by
  unfold unsubscribe
  split_ifs <;> rfl

@[simp] theorem created_unsubscribe (topic : String) (queue : ℕ) :
    (b.unsubscribe topic queue).created = b.created := by
  unfold unsubscribe
  split_ifs <;> rfl

theorem foldl_put (qs : List ℕ) (hqs : qs.Nodup) (b : InMemoryTopicBroker μ) (message : μ) :
    (qs.foldl (fun b queue => b.put queue message) b).subscribers = b.subscribers ∧
      (qs.foldl (fun b queue => b.put queue message) b).created = b.created ∧
      ∀ q, (qs.foldl (fun b queue => b.put queue message) b).queues q =
        b.queues q ++ if q ∈ qs then [message] else [] := by
  induction qs generalizing b with
  | nil => exact ⟨rfl, rfl, fun q => (List.append_nil _).symm⟩
  | cons p qs ih =>
    obtain ⟨hp, hqs⟩ := List.nodup_cons.mp hqs
    obtain ⟨hs, hc, hq⟩ := ih hqs (b.put p message)
    refine ⟨hs, hc, fun q => ?_⟩
    rw [List.foldl_cons, hq, put]
    by_cases hqp : q = p
    · subst hqp
      simp [hp]
    · simp [hqp]

@[simp] theorem subscribed_publish (topic t : String) (message : μ) :
    (b.publish topic message).2.subscribed t = b.subscribed t := by
  obtain ⟨hs, -⟩ := foldl_put _ (b.registered.nodup topic) b message
  rw [subscribed, subscribed, publish]
  exact congrArg (queuesOf · t) hs

@[simp] theorem created_publish (topic : String) (message : μ) :
    (b.publish topic message).2.created = b.created :=
  (foldl_put _ (b.registered.nodup topic) b message).2.1

theorem queues_publish (topic : String) (message : μ) (q : ℕ) :
    (b.publish topic message).2.queues q =
      b.queues q ++ if q ∈ b.subscribed topic then [message] else [] :=
  (foldl_put _ (b.registered.nodup topic) b message).2.2 q

theorem get_eq_some {q : ℕ} {m : μ} {b' : InMemoryTopicBroker μ} (h : b.get q = some (m, b')) :
    b.queues q = m :: b'.queues q ∧ (∀ p, p ≠ q → b'.queues p = b.queues p) ∧
      b'.subscribers = b.subscribers ∧ b'.created = b.created := by
  unfold get at h
  split at h
  · cases h
  · rename_i rest hq
    cases h
    refine ⟨hq.trans ?_, fun p hp => Function.update_of_ne hp _ _, rfl, rfl⟩
    exact congrArg (m :: ·) (Function.update_self q rest b.queues).symm

end InMemoryTopicBroker
end ScatterGather
