import MessageBrokerPatterns.RedisStream
import Mathlib.Algebra.BigOperators.Group.List.Basic
import Mathlib.Order.Lattice.Nat

/-!
# A Redis stream with one consumer group

A `GroupStream` is a stream with a consumer group created at id `0`: `delivered` is the last id
handed out, and the pending list holds the delivered entries that nobody has acknowledged, in id
order and each with its owner and the time of its last delivery.

The pending list is read through `owner?`, a partial map from ids to owners, and every command
has one lemma that says how it changes this map.
-/

namespace RedisStream
variable {φ κ τ : Type*}

structure Pending (κ τ : Type*) where
  id : ℕ
  owner : κ
  since : τ
  deriving DecidableEq, Repr

structure GroupStream (φ κ τ : Type*) where
  entries : List φ
  delivered : ℕ
  pel : List (Pending κ τ)
  delivered_le : delivered ≤ entries.length
  pel_sorted : pel.Pairwise fun p q => p.id < q.id
  pel_range : ∀ p ∈ pel, 1 ≤ p.id ∧ p.id ≤ delivered

namespace GroupStream

/-- `XGROUP CREATE stream group 0 MKSTREAM` on a missing stream. -/
def empty : GroupStream φ κ τ := ⟨[], 0, [], le_rfl, .nil, by simp⟩

variable (s : GroupStream φ κ τ)

def xadd (f : φ) : GroupStream φ κ τ where
  entries := s.entries ++ [f]
  delivered := s.delivered
  pel := s.pel
  delivered_le := by
    have := s.delivered_le
    rw [List.length_append]
    omega
  pel_sorted := s.pel_sorted
  pel_range := s.pel_range

/-- How many entries `XREADGROUP COUNT count ... >` hands out. -/
def newCount (count : ℕ) : ℕ := min count (s.entries.length - s.delivered)

/-- `XREADGROUP GROUP group c COUNT count STREAMS stream >` at time `now`. -/
def readNew (c : κ) (now : τ) (count : ℕ) : GroupStream φ κ τ where
  entries := s.entries
  delivered := s.delivered + s.newCount count
  pel := s.pel ++ (List.range' (s.delivered + 1) (s.newCount count)).map fun id => ⟨id, c, now⟩
  delivered_le := by
    have := s.delivered_le
    simp only [newCount]
    omega
  pel_sorted := by
    rw [List.pairwise_append]
    refine ⟨s.pel_sorted, ?_, ?_⟩
    · rw [List.pairwise_map]
      exact List.pairwise_lt_range'
    · intro p hp q hq
      obtain ⟨id, hid, rfl⟩ := List.mem_map.mp hq
      have hr := s.pel_range p hp
      have := (List.mem_range'_1.mp hid).1
      change p.id < id
      omega
  pel_range := by
    intro p hp
    rcases List.mem_append.mp hp with hp | hp
    · have := s.pel_range p hp
      omega
    · obtain ⟨id, hid, rfl⟩ := List.mem_map.mp hp
      have := List.mem_range'_1.mp hid
      change 1 ≤ id ∧ id ≤ _
      omega

def newBatch (count : ℕ) : List (ℕ × φ) := xread s.entries s.delivered count

/-- The entries that no consumer has been handed. -/
def undelivered : List (ℕ × φ) := numberFrom (s.delivered + 1) (s.entries.drop s.delivered)

def fetch (ids : List ℕ) : List (ℕ × φ) :=
  ids.filterMap fun id => (entryAt s.entries id).map fun f => (id, f)

/-- Delivering pending entries again makes `c` their owner and renews their delivery time. -/
def redeliver (ids : List ℕ) (c : κ) (now : τ) : GroupStream φ κ τ where
  entries := s.entries
  delivered := s.delivered
  pel := s.pel.map fun p => if p.id ∈ ids then ⟨p.id, c, now⟩ else p
  delivered_le := s.delivered_le
  pel_sorted := by
    rw [List.pairwise_map]
    refine s.pel_sorted.imp ?_
    intro p q h
    split_ifs <;> exact h
  pel_range := by
    intro p hp
    obtain ⟨q, hq, rfl⟩ := List.mem_map.mp hp
    split_ifs <;> exact s.pel_range q hq

section
variable [DecidableEq κ]

/-- The ids that `XREADGROUP GROUP group c COUNT count STREAMS stream 0` returns. -/
def ownIds (c : κ) (count : ℕ) : List ℕ := ((s.pel.filter fun p => p.owner = c).take count).map (·.id)

def pendingBatch (c : κ) (count : ℕ) : List (ℕ × φ) := s.fetch (s.ownIds c count)

def readPending (c : κ) (now : τ) (count : ℕ) : GroupStream φ κ τ :=
  s.redeliver (s.ownIds c count) c now

end

/-- The ids that `XAUTOCLAIM stream group c minIdle 0 COUNT count` transfers: it looks at the first
ten pending entries for each entry asked for. -/
def staleIds (s : GroupStream φ κ ℕ) (now minIdle count : ℕ) : List ℕ :=
  (((s.pel.take (10 * count)).filter fun p => minIdle ≤ now - p.since).take count).map (·.id)

def staleBatch (s : GroupStream φ κ ℕ) (now minIdle count : ℕ) : List (ℕ × φ) :=
  s.fetch (s.staleIds now minIdle count)

def autoclaim (s : GroupStream φ κ ℕ) (c : κ) (now minIdle count : ℕ) : GroupStream φ κ ℕ :=
  s.redeliver (s.staleIds now minIdle count) c now

/-- `XACK stream group id`. -/
def xack (id : ℕ) : GroupStream φ κ τ where
  entries := s.entries
  delivered := s.delivered
  pel := s.pel.filter fun p => p.id ≠ id
  delivered_le := s.delivered_le
  pel_sorted := s.pel_sorted.filter _
  pel_range := fun p hp => s.pel_range p (List.mem_of_mem_filter hp)

def owner? (id : ℕ) : Option κ := (s.pel.find? fun p => p.id = id).map (·.owner)

variable {s}

@[simp] theorem entries_xadd (f : φ) : (s.xadd f).entries = s.entries ++ [f] := rfl

@[simp] theorem delivered_xadd (f : φ) : (s.xadd f).delivered = s.delivered := rfl

@[simp] theorem entries_xack (id : ℕ) : (s.xack id).entries = s.entries := rfl

@[simp] theorem delivered_xack (id : ℕ) : (s.xack id).delivered = s.delivered := rfl

@[simp] theorem entries_readNew (c : κ) (now : τ) (count : ℕ) :
    (s.readNew c now count).entries = s.entries := rfl

@[simp] theorem delivered_readNew (c : κ) (now : τ) (count : ℕ) :
    (s.readNew c now count).delivered = s.delivered + s.newCount count := rfl

theorem nodup_pel : (s.pel.map (·.id)).Nodup := by
  rw [List.Nodup, List.pairwise_map]
  exact s.pel_sorted.imp fun h => by omega

theorem eq_of_mem_pel {p q : Pending κ τ} (hp : p ∈ s.pel) (hq : q ∈ s.pel) (h : p.id = q.id) :
    p = q :=
  List.inj_on_of_nodup_map nodup_pel hp hq h

theorem owner?_eq_some {id : ℕ} {c : κ} :
    s.owner? id = some c ↔ ∃ p ∈ s.pel, p.id = id ∧ p.owner = c := by
  simp only [owner?, Option.map_eq_some_iff]
  constructor
  · rintro ⟨p, hp, rfl⟩
    exact ⟨p, List.mem_of_find?_eq_some hp, by simpa using List.find?_some hp, rfl⟩
  · rintro ⟨p, hp, rfl, rfl⟩
    cases hf : s.pel.find? fun q => q.id = p.id with
    | none => simpa using List.find?_eq_none.mp hf p hp
    | some q =>
      have hq : q.id = p.id := by simpa using List.find?_some hf
      exact ⟨q, rfl, by rw [eq_of_mem_pel (List.mem_of_find?_eq_some hf) hp hq]⟩

theorem owner?_eq_none {id : ℕ} : s.owner? id = none ↔ ∀ p ∈ s.pel, p.id ≠ id := by
  simp [owner?]

theorem pel_eq_nil (h : ∀ id, s.owner? id = none) : s.pel = [] := by
  apply List.eq_nil_iff_forall_not_mem.mpr
  intro p hp
  exact owner?_eq_none.mp (h p.id) p hp rfl

theorem owner?_some_range {id : ℕ} {c : κ} (h : s.owner? id = some c) :
    1 ≤ id ∧ id ≤ s.delivered := by
  obtain ⟨p, hp, rfl, _⟩ := owner?_eq_some.mp h
  exact s.pel_range p hp

theorem owner?_congr {t : GroupStream φ κ τ} {id : ℕ}
    (h : ∀ c, s.owner? id = some c ↔ t.owner? id = some c) : s.owner? id = t.owner? id := by
  apply Option.ext
  intro c
  exact h c

@[simp] theorem owner?_xadd (f : φ) (id : ℕ) : (s.xadd f).owner? id = s.owner? id := rfl

theorem owner?_xack (id id' : ℕ) :
    (s.xack id).owner? id' = if id' = id then none else s.owner? id' := by
  by_cases h : id' = id
  · rw [if_pos h, owner?_eq_none]
    intro p hp
    have := (List.mem_filter.mp hp).2
    simp_all
  · rw [if_neg h]
    apply owner?_congr
    intro c
    simp only [owner?_eq_some, xack, List.mem_filter]
    constructor
    · rintro ⟨p, ⟨hp, _⟩, hid, hc⟩
      exact ⟨p, hp, hid, hc⟩
    · rintro ⟨p, hp, hid, hc⟩
      exact ⟨p, ⟨hp, by simpa [hid] using h⟩, hid, hc⟩

theorem owner?_readNew (c : κ) (now : τ) (count id : ℕ) :
    (s.readNew c now count).owner? id =
      if s.delivered < id ∧ id ≤ s.delivered + s.newCount count then some c
      else s.owner? id := by
  by_cases h : s.delivered < id ∧ id ≤ s.delivered + s.newCount count
  · rw [if_pos h, owner?_eq_some]
    refine ⟨⟨id, c, now⟩, List.mem_append_right _ (List.mem_map.mpr ⟨id, ?_, rfl⟩), rfl, rfl⟩
    rw [List.mem_range'_1]
    omega
  · rw [if_neg h]
    apply owner?_congr
    intro d
    simp only [owner?_eq_some, readNew, List.mem_append, List.mem_map, List.mem_range'_1]
    constructor
    · rintro ⟨p, hp | ⟨i, hi, rfl⟩, hid, hd⟩
      · exact ⟨p, hp, hid, hd⟩
      · exact absurd hid (by change i ≠ id; omega)
    · rintro ⟨p, hp, hid, hd⟩
      exact ⟨p, Or.inl hp, hid, hd⟩

theorem mem_newBatch {count : ℕ} {e : ℕ × φ} :
    e ∈ s.newBatch count ↔ (s.delivered < e.1 ∧ e.1 ≤ s.delivered + s.newCount count) ∧
      entryAt s.entries e.1 = some e.2 := by
  rw [newBatch, mem_xread]
  constructor
  · rintro ⟨h₁, h₂, h⟩
    have := entryAt_some_le h
    simp only [newCount]
    exact ⟨⟨h₁, by omega⟩, h⟩
  · rintro ⟨⟨h₁, h₂⟩, h⟩
    simp only [newCount] at h₂
    exact ⟨h₁, by omega, h⟩

theorem map_fst_newBatch (count : ℕ) :
    (s.newBatch count).map Prod.fst = List.range' (s.delivered + 1) (s.newCount count) := by
  simp [newBatch, xread, newCount]

theorem entryAt_of_mem_newBatch {count : ℕ} (e : ℕ × φ) (he : e ∈ s.newBatch count) :
    entryAt s.entries e.1 = some e.2 :=
  (mem_newBatch.mp he).2

theorem newBatch_eq_nil {count : ℕ} : s.newBatch count = [] ↔ s.newCount count = 0 := by
  rw [← List.length_eq_zero_iff, newBatch, length_xread, newCount]

@[simp] theorem undelivered_xack (id : ℕ) : (s.xack id).undelivered = s.undelivered := rfl

theorem newBatch_append_undelivered (c : κ) (now : τ) (count : ℕ) :
    s.newBatch count ++ (s.readNew c now count).undelivered = s.undelivered := by
  have hlen : (s.entries.drop s.delivered).length = s.entries.length - s.delivered :=
    List.length_drop
  have htake : (s.entries.drop s.delivered).take count =
      (s.entries.drop s.delivered).take (s.newCount count) := by
    rw [List.take_eq_take_iff, newCount, hlen]
    omega
  have hdrop : s.entries.drop (s.delivered + s.newCount count) =
      (s.entries.drop s.delivered).drop (s.newCount count) := by
    rw [List.drop_drop]
  have hstart : s.delivered + 1 + ((s.entries.drop s.delivered).take (s.newCount count)).length =
      s.delivered + s.newCount count + 1 := by
    rw [List.length_take, hlen, newCount]
    omega
  rw [newBatch, xread, undelivered, delivered_readNew, entries_readNew, hdrop, htake, ← hstart,
    ← numberFrom_append, List.take_append_drop, undelivered]

theorem undelivered_eq_nil_of_newBatch {count : ℕ} (hcount : 1 ≤ count)
    (h : s.newBatch count = []) : s.undelivered = [] := by
  have hzero := newBatch_eq_nil.mp h
  simp only [newCount] at hzero
  rw [undelivered, List.drop_eq_nil_of_le (by omega), numberFrom_nil]

theorem nodup_newBatch (count : ℕ) : ((s.newBatch count).map Prod.fst).Nodup := by
  rw [map_fst_newBatch]
  exact List.nodup_range'

/-- An entry is among the first `n` of the pending list when fewer than `n` come before it. -/
theorem mem_take_pel {p : Pending κ τ} {n : ℕ} :
    p ∈ s.pel.take n ↔ p ∈ s.pel ∧ (s.pel.countP fun q => q.id < p.id) < n := by
  have hsorted := s.pel_sorted
  generalize s.pel = l at hsorted ⊢
  induction l generalizing n with
  | nil => simp
  | cons q l ih =>
    rw [List.pairwise_cons] at hsorted
    cases n with
    | zero => simp
    | succ n =>
      rw [List.take_succ_cons, List.mem_cons, List.mem_cons, List.countP_cons]
      constructor
      · rintro (rfl | hp)
        · have hzero : (l.countP fun r => r.id < p.id) = 0 := by
            rw [List.countP_eq_zero]
            intro r hr
            have := hsorted.1 r hr
            simp only [decide_eq_true_eq]
            omega
          exact ⟨Or.inl rfl, by simp [hzero]⟩
        · obtain ⟨hp, hlt⟩ := (ih hsorted.2).mp hp
          refine ⟨Or.inr hp, ?_⟩
          split_ifs <;> omega
      · rintro ⟨rfl | hp, hlt⟩
        · exact Or.inl rfl
        · have hq := hsorted.1 p hp
          rw [if_pos (decide_eq_true hq)] at hlt
          exact Or.inr ((ih hsorted.2).mpr ⟨hp, by omega⟩)

theorem readNew_eq_self {count : ℕ} (h : s.newCount count = 0) (c : κ) (now : τ) :
    s.readNew c now count = s := by
  obtain ⟨entries, delivered, pel, hle, hsorted, hrange⟩ := s
  simp only [readNew, h, List.range'_zero, List.map_nil, List.append_nil, Nat.add_zero]

theorem redeliver_nil (c : κ) (now : τ) : s.redeliver [] c now = s := by
  obtain ⟨entries, delivered, pel, hle, hsorted, hrange⟩ := s
  simp only [redeliver, List.not_mem_nil, if_false, List.map_id']

theorem owner?_redeliver (ids : List ℕ) (c : κ) (now : τ) (id : ℕ) :
    (s.redeliver ids c now).owner? id =
      if id ∈ ids then (s.owner? id).map fun _ => c else s.owner? id := by
  apply Option.ext
  intro d
  have hiff : (s.redeliver ids c now).owner? id = some d ↔
      ∃ q ∈ s.pel, q.id = id ∧ (if id ∈ ids then c else q.owner) = d := by
    simp only [owner?_eq_some, redeliver, List.mem_map]
    constructor
    · rintro ⟨p, ⟨q, hq, rfl⟩, hid, hd⟩
      have hqid : q.id = id := by split_ifs at hid <;> exact hid
      subst hqid
      refine ⟨q, hq, rfl, ?_⟩
      split_ifs at hd ⊢ <;> exact hd
    · rintro ⟨q, hq, rfl, hd⟩
      refine ⟨_, ⟨q, hq, rfl⟩, ?_, ?_⟩
      · split_ifs <;> rfl
      · split_ifs at hd ⊢ <;> exact hd
  rw [hiff]
  by_cases h : id ∈ ids
  · simp only [if_pos h, Option.map_eq_some_iff, owner?_eq_some]
    constructor
    · rintro ⟨q, hq, hid, rfl⟩
      exact ⟨q.owner, ⟨q, hq, hid, rfl⟩, rfl⟩
    · rintro ⟨_, ⟨q, hq, hid, rfl⟩, rfl⟩
      exact ⟨q, hq, hid, rfl⟩
  · simp only [if_neg h, owner?_eq_some]

theorem mem_fetch {ids : List ℕ} {e : ℕ × φ} :
    e ∈ s.fetch ids ↔ e.1 ∈ ids ∧ entryAt s.entries e.1 = some e.2 := by
  obtain ⟨id, f⟩ := e
  simp only [fetch, List.mem_filterMap, Option.map_eq_some_iff, Prod.mk.injEq]
  constructor
  · rintro ⟨i, hi, g, hg, rfl, rfl⟩
    exact ⟨hi, hg⟩
  · rintro ⟨hi, hf⟩
    exact ⟨id, hi, f, hf, rfl, rfl⟩

theorem map_fst_fetch {ids : List ℕ} (h : ∀ id ∈ ids, ∃ c, s.owner? id = some c) :
    (s.fetch ids).map Prod.fst = ids := by
  induction ids with
  | nil => rfl
  | cons id ids ih =>
    obtain ⟨c, hc⟩ := h id List.mem_cons_self
    have hr := owner?_some_range hc
    obtain ⟨f, hf⟩ := entryAt_isSome hr.1 (hr.2.trans s.delivered_le)
    have hcons : s.fetch (id :: ids) = (id, f) :: s.fetch ids :=
      List.filterMap_cons_some (by rw [hf]; rfl)
    rw [hcons, List.map_cons, ih fun i hi => h i (List.mem_cons_of_mem _ hi)]

theorem owner?_of_mem_staleIds {s : GroupStream φ κ ℕ} {now minIdle count id : ℕ}
    (h : id ∈ s.staleIds now minIdle count) : ∃ c, s.owner? id = some c := by
  obtain ⟨p, hp, rfl⟩ := List.mem_map.mp h
  have hp := List.mem_of_mem_take (List.mem_filter.mp (List.mem_of_mem_take hp)).1
  exact ⟨p.owner, owner?_eq_some.mpr ⟨p, hp, rfl, rfl⟩⟩

theorem nodup_staleIds (s : GroupStream φ κ ℕ) (now minIdle count : ℕ) :
    (s.staleIds now minIdle count).Nodup := by
  have hsub : (((s.pel.take (10 * count)).filter fun p => minIdle ≤ now - p.since).take count).Sublist
      s.pel :=
    (List.take_sublist _ _).trans (List.filter_sublist.trans (List.take_sublist _ _))
  rw [staleIds, List.Nodup, List.pairwise_map]
  exact (s.pel_sorted.sublist hsub).imp fun h => by omega

theorem map_fst_staleBatch (s : GroupStream φ κ ℕ) (now minIdle count : ℕ) :
    (s.staleBatch now minIdle count).map Prod.fst = s.staleIds now minIdle count :=
  map_fst_fetch fun _ h => owner?_of_mem_staleIds h

theorem mem_staleBatch {s : GroupStream φ κ ℕ} {now minIdle count : ℕ} {e : ℕ × φ} :
    e ∈ s.staleBatch now minIdle count ↔
      e.1 ∈ s.staleIds now minIdle count ∧ entryAt s.entries e.1 = some e.2 :=
  mem_fetch

theorem entryAt_of_mem_staleBatch {s : GroupStream φ κ ℕ} {now minIdle count : ℕ} (e : ℕ × φ)
    (he : e ∈ s.staleBatch now minIdle count) : entryAt s.entries e.1 = some e.2 :=
  (mem_staleBatch.mp he).2

theorem staleIds_eq_nil {s : GroupStream φ κ ℕ} {now minIdle count : ℕ} :
    s.staleIds now minIdle count = [] ↔ ∀ p ∈ s.pel.take (10 * count), now - p.since < minIdle := by
  rw [staleIds, List.map_eq_nil_iff, List.take_eq_nil_iff, List.filter_eq_nil_iff]
  constructor
  · rintro (rfl | h) p hp
    · rw [Nat.mul_zero, List.take_zero] at hp
      cases hp
    · simpa using h p hp
  · intro h
    apply Or.inr
    intro p hp
    simpa using h p hp

variable [DecidableEq κ]

theorem owner?_of_mem_ownIds {c : κ} {count id : ℕ} (h : id ∈ s.ownIds c count) :
    s.owner? id = some c := by
  obtain ⟨p, hp, rfl⟩ := List.mem_map.mp h
  have hp := List.mem_filter.mp (List.mem_of_mem_take hp)
  exact owner?_eq_some.mpr ⟨p, hp.1, rfl, by simpa using hp.2⟩

theorem owner?_readPending (c : κ) (now : τ) (count id : ℕ) :
    (s.readPending c now count).owner? id = s.owner? id := by
  rw [readPending, owner?_redeliver]
  split_ifs with h
  · rw [owner?_of_mem_ownIds h]
    rfl
  · rfl

/-- Where no delivery times are kept, a consumer that owns the whole pending list can read it
again and change nothing. -/
theorem readPending_eq_self {s : GroupStream φ κ Unit} {c : κ} (h : ∀ p ∈ s.pel, p.owner = c)
    (count : ℕ) : s.readPending c () count = s := by
  have hpel : (s.pel.map fun p => if p.id ∈ s.ownIds c count then ⟨p.id, c, ()⟩ else p) = s.pel := by
    conv_rhs => rw [← List.map_id s.pel]
    apply List.map_congr_left
    intro p hp
    split_ifs
    · rw [← h p hp]
      rfl
    · rfl
  obtain ⟨entries, delivered, pel, hle, hsorted, hrange⟩ := s
  simp only [readPending, redeliver, hpel]

theorem pendingBatch_of_head {c : κ} {count : ℕ} {p : Pending κ τ} {pel : List (Pending κ τ)}
    (hpel : s.pel = p :: pel) (howner : p.owner = c) (hcount : 1 ≤ count) {f : φ}
    (hf : entryAt s.entries p.id = some f) : ∃ rest, s.pendingBatch c count = (p.id, f) :: rest := by
  obtain ⟨n, rfl⟩ := Nat.exists_eq_add_of_le' hcount
  rw [pendingBatch, ownIds, hpel, List.filter_cons_of_pos (by simp [howner]), List.take_succ_cons,
    List.map_cons, fetch, List.filterMap_cons_some (by rw [hf]; rfl)]
  exact ⟨_, rfl⟩

theorem mem_pendingBatch {c : κ} {count : ℕ} {e : ℕ × φ} :
    e ∈ s.pendingBatch c count ↔ e.1 ∈ s.ownIds c count ∧ entryAt s.entries e.1 = some e.2 :=
  mem_fetch

theorem map_fst_pendingBatch (c : κ) (count : ℕ) :
    (s.pendingBatch c count).map Prod.fst = s.ownIds c count :=
  map_fst_fetch fun _ h => ⟨c, owner?_of_mem_ownIds h⟩

theorem nodup_ownIds (c : κ) (count : ℕ) : (s.ownIds c count).Nodup := by
  have hsub : ((s.pel.filter fun p => p.owner = c).take count).Sublist s.pel :=
    (List.take_sublist _ _).trans List.filter_sublist
  rw [ownIds, List.Nodup, List.pairwise_map]
  exact (s.pel_sorted.sublist hsub).imp fun h => by omega

theorem ownIds_eq_nil {c : κ} {count : ℕ} (hcount : 1 ≤ count) :
    s.ownIds c count = [] ↔ ∀ id, s.owner? id ≠ some c := by
  rw [ownIds, List.map_eq_nil_iff, List.take_eq_nil_iff, List.filter_eq_nil_iff]
  constructor
  · rintro (h | h) id hid
    · omega
    · obtain ⟨p, hp, _, hc⟩ := owner?_eq_some.mp hid
      exact absurd hc (by simpa using h p hp)
  · intro h
    refine Or.inr fun p hp => ?_
    have := h p.id
    rw [Ne, owner?_eq_some] at this
    simp only [decide_eq_true_eq]
    exact fun hc => this ⟨p, hp, rfl, hc⟩

end GroupStream
end RedisStream
