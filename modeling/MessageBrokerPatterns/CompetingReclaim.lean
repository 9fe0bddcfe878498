import MessageBrokerPatterns.CompetingSafety

/-!
# What one sweep can overlook

`reclaim_stale` runs `XAUTOCLAIM` once from the start of the pending list, and the cursor that comes
back is dropped. One call looks at no more than ten entries for each entry asked for, so the sweep
finds stale work exactly when fewer entries than that stand, all of them fresh, in front of the
first stale one. A sweep that finds nothing changes nothing, and the next one starts over at the same
entries.
-/

namespace CompetingConsumers
open PyText PyDict RedisStream ActionRun

namespace Server
variable {s : Server} {now minIdleMs count : ℕ}

theorem reclaimStale_eq_nil (consumer : String) :
    (s.reclaimStale consumer now minIdleMs count).1 = [] ↔
      ∀ p ∈ s.stream.pel, minIdleMs ≤ now - p.since →
        10 * count ≤ s.stream.pel.countP fun q => q.id < p.id := by
  rw [reclaimStale_eq_nil_iff_staleIds, GroupStream.staleIds_eq_nil]
  constructor
  · intro h p hp hstale
    by_contra hlt
    have := h p (GroupStream.mem_take_pel.mpr ⟨hp, by omega⟩)
    omega
  · intro h p hp
    obtain ⟨hp, hlt⟩ := GroupStream.mem_take_pel.mp hp
    by_contra hstale
    have := h p hp (by omega)
    omega

theorem exists_first_stale (h : ∃ p ∈ s.stream.pel, minIdleMs ≤ now - p.since) :
    ∃ p ∈ s.stream.pel, minIdleMs ≤ now - p.since ∧
      ∀ q ∈ s.stream.pel, q.id < p.id → now - q.since < minIdleMs := by
  have hid : ∃ id, ∃ p ∈ s.stream.pel, p.id = id ∧ minIdleMs ≤ now - p.since := by
    obtain ⟨p, hp, hstale⟩ := h
    exact ⟨p.id, p, hp, rfl, hstale⟩
  classical
  obtain ⟨p, hp, hpid, hstale⟩ := Nat.find_spec hid
  refine ⟨p, hp, hstale, ?_⟩
  intro q hq hlt
  by_contra hge
  rw [hpid] at hlt
  exact Nat.find_min hid hlt ⟨q, hq, rfl, by omega⟩

/-- A sweep finds stale work whenever there is some exactly when fewer than ten entries for each
entry asked for stand, all of them fresh, in front of the first stale one. -/
theorem reclaimStale_finds_iff (s : Server) (consumer : String) (now minIdleMs count : ℕ) :
    ((∃ p ∈ s.stream.pel, minIdleMs ≤ now - p.since) →
        (s.reclaimStale consumer now minIdleMs count).1 ≠ []) ↔
      ∀ p ∈ s.stream.pel, minIdleMs ≤ now - p.since →
        (∀ q ∈ s.stream.pel, q.id < p.id → now - q.since < minIdleMs) →
        (s.stream.pel.countP fun q => q.id < p.id) < 10 * count := by
  rw [ne_eq, reclaimStale_eq_nil]
  constructor
  · intro h p hp hstale hfirst
    by_contra hge
    refine h ⟨p, hp, hstale⟩ ?_
    intro q hq hqstale
    -- a stale entry does not come before the first one, so at least as many come before it
    have hle : p.id ≤ q.id := by
      by_contra hlt
      have := hfirst q hq (by omega)
      omega
    have hmono : (s.stream.pel.countP fun r => r.id < p.id) ≤
        s.stream.pel.countP fun r => r.id < q.id := by
      apply List.countP_mono_left
      intro r _ hr
      simp only [decide_eq_true_eq] at hr ⊢
      omega
    omega
  · intro h hsome hall
    obtain ⟨p, hp, hstale, hfirst⟩ := exists_first_stale hsome
    have := hall p hp hstale
    have := h p hp hstale hfirst
    omega

end Server

namespace World

/-- `worker-0` dies with eleven tasks in hand; later `worker-1` has just reclaimed ten of them. -/
def busySibling : List Action :=
  List.replicate 11 (.publish resize.toFields) ++
    [.start 0 "worker-0" 11 5000, .run 0, .run 0, .crash 0, .tick 5000,
      .start 1 "worker-1" 10 5000, .run 1, .tick 1, .start 2 "worker-2" 1 5000]

/-- The task that is left is stale, and the sweep of `worker-2` looks at the ten fresh ones alone. -/
theorem busySibling_hides : ∃ w, run step {} busySibling = some w ∧
    (∃ p ∈ w.server.stream.pel, p.owner = "worker-0" ∧ 5000 ≤ w.now - p.since) ∧
    (w.server.reclaimStale "worker-2" w.now 5000 1).1 = [] := by
  refine ⟨_, rfl, ⟨⟨11, "worker-0", 0⟩, ?_, ?_⟩, ?_⟩
  · decide
  · decide
  · decide

end World
end CompetingConsumers
