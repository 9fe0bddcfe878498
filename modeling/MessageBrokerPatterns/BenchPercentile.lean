import MessageBrokerPatterns.Bench
import MessageBrokerPatterns.NearestRank
import Mathlib.Algebra.Order.BigOperators.Group.List

/-!
# Percentiles by nearest rank

`percentile` sorts and indexes; by counting, its result is the one element of the sample with the
rank that the quantile asks for. So it is a matter of the sample as a multiset, it grows with the
quantile, and the figures of a latency summary are in order.
-/

namespace Bench
open PyText NearestRank
variable {floatRepr : ℚ → String} {values : List ℚ} {quantile quantile' value value' : ℚ}

theorem rankIndex_mono (h : quantile ≤ quantile') (n : ℕ) :
    rankIndex quantile n ≤ rankIndex quantile' n := by
  have hceil : ⌈quantile / 100 * (n : ℚ)⌉ ≤ ⌈quantile' / 100 * (n : ℚ)⌉ := by
    apply Int.ceil_le_ceil
    gcongr
  unfold rankIndex
  omega

/-- What `percentile` returns is the element of the quantile's rank. -/
theorem percentile_eq_ok : percentile floatRepr values quantile = .ok value ↔
    (0 ≤ quantile ∧ quantile ≤ 100) ∧ HasRank values (rankIndex quantile values.length) value := by
  unfold percentile
  split_ifs with hempty hrange
  · subst hempty
    refine ⟨fun h => (by cases h), fun h => ?_⟩
    cases h.2.mem
  · rw [and_iff_right hrange, ← getElem?_mergeSort_eq_some]
    simp only [List.length_mergeSort]
    cases (values.mergeSort (· ≤ ·))[rankIndex quantile values.length]? with
    | none => simp
    | some x => simp
  · exact ⟨fun h => (by cases h), fun h => absurd h.1 hrange⟩

/-- The rank of a quantile, by the counts that characterise it. -/
theorem hasRank_rankIndex : HasRank values (rankIndex quantile values.length) value ↔
    value ∈ values ∧ quantile * values.length / 100 ≤ values.countP (· ≤ value) ∧
      (values.countP (· < value) : ℚ) < max 1 (quantile * values.length / 100) := by
  rw [rankIndex, hasRank_ceil_iff, div_mul_eq_mul_div]

theorem percentile_perm {sample : List ℚ} (hperm : sample.Perm values)
    (h : percentile floatRepr values quantile = .ok value) :
    percentile floatRepr sample quantile = .ok value := by
  obtain ⟨hrange, hrank⟩ := percentile_eq_ok.mp h
  rw [percentile_eq_ok, hperm.length_eq]
  exact ⟨hrange, hrank.perm hperm.symm⟩

theorem percentile_mono (hle : quantile ≤ quantile')
    (h : percentile floatRepr values quantile = .ok value)
    (h' : percentile floatRepr values quantile' = .ok value') : value ≤ value' :=
  (percentile_eq_ok.mp h).2.mono (percentile_eq_ok.mp h').2 (rankIndex_mono hle _)

theorem mem_of_percentile (h : percentile floatRepr values quantile = .ok value) :
    value ∈ values := (percentile_eq_ok.mp h).2.mem

/-! ### The figures of a summary -/

theorem foldl_min_le (first : ℚ) (rest : List ℚ) :
    ∀ x ∈ first :: rest, rest.foldl min first ≤ x := by
  have hmin : (first :: rest).min? = some (rest.foldl min first) := List.min?_cons'
  exact (List.min?_eq_some_iff.mp hmin).2

theorem le_foldl_max (first : ℚ) (rest : List ℚ) :
    ∀ x ∈ first :: rest, x ≤ rest.foldl max first := by
  have hmax : (first :: rest).max? = some (rest.foldl max first) := List.max?_cons'
  exact (List.max?_eq_some_iff.mp hmax).2

theorem mean_mem_Icc {lo hi : ℚ} (hne : values ≠ []) (hlo : ∀ x ∈ values, lo ≤ x)
    (hhi : ∀ x ∈ values, x ≤ hi) :
    lo ≤ values.sum / values.length ∧ values.sum / values.length ≤ hi := by
  have hpos : (0 : ℚ) < values.length := Nat.cast_pos.mpr (List.length_pos_of_ne_nil hne)
  rw [le_div_iff₀ hpos, div_le_iff₀ hpos]
  constructor
  · have hsum := values.card_nsmul_le_sum lo hlo
    rwa [nsmul_eq_mul, mul_comm] at hsum
  · have hsum := values.sum_le_card_nsmul hi hhi
    rwa [nsmul_eq_mul, mul_comm] at hsum

namespace LatencySummary

/-- The figures of a summary are in order. -/
structure Ordered (summary : LatencySummary) : Prop where
  min_le_p50 : summary.minMs ≤ summary.p50Ms
  p50_le_p95 : summary.p50Ms ≤ summary.p95Ms
  p95_le_p99 : summary.p95Ms ≤ summary.p99Ms
  p99_le_max : summary.p99Ms ≤ summary.maxMs
  min_le_mean : summary.minMs ≤ summary.meanMs
  mean_le_max : summary.meanMs ≤ summary.maxMs

theorem ordered_of_fromSeconds {latencies : List ℚ} {summary : LatencySummary}
    (h : fromSeconds floatRepr latencies = .ok summary) : summary.Ordered := by
  unfold fromSeconds at h
  split at h
  · cases h
  · rename_i first rest hms
    simp only [bind_eq_ok] at h
    obtain ⟨p50Ms, h50, p95Ms, h95, p99Ms, h99, h⟩ := h
    cases h
    have hmin := foldl_min_le first rest
    have hmax := le_foldl_max first rest
    have hmean := mean_mem_Icc (List.cons_ne_nil first rest) hmin hmax
    constructor
    case min_le_p50 => exact hmin _ (mem_of_percentile h50)
    case p50_le_p95 => exact percentile_mono (by norm_num) h50 h95
    case p95_le_p99 => exact percentile_mono (by norm_num) h95 h99
    case p99_le_max => exact hmax _ (mem_of_percentile h99)
    case min_le_mean => exact hmean.1
    case mean_le_max => exact hmean.2

end LatencySummary

/-- Percentiles are nearest-rank and ordered. On a sample that is not empty every quantile has its
percentile: an element of the sample by the counts below it, whatever the order of the sample, and
no smaller one for a larger quantile. The summary of the sample exists, and its figures are in
order. -/
theorem percentile_nearest_rank (floatRepr : ℚ → String) (values : List ℚ) (hne : values ≠ []) :
    (∀ quantile, 0 ≤ quantile → quantile ≤ 100 → ∃ value,
      percentile floatRepr values quantile = .ok value ∧ value ∈ values ∧
      quantile * values.length / 100 ≤ values.countP (· ≤ value) ∧
      (values.countP (· < value) : ℚ) < max 1 (quantile * values.length / 100) ∧
      (∀ sample, sample.Perm values → percentile floatRepr sample quantile = .ok value) ∧
      ∀ quantile' value', quantile ≤ quantile' →
        percentile floatRepr values quantile' = .ok value' → value ≤ value') ∧
    ∃ summary, LatencySummary.fromSeconds floatRepr values = .ok summary ∧ summary.Ordered := by
  constructor
  · intro quantile h0 h100
    obtain ⟨value, -, hvalue⟩ := exists_percentile floatRepr hne quantile h0 h100
    obtain ⟨hmem, habove, hbelow⟩ := hasRank_rankIndex.mp (percentile_eq_ok.mp hvalue).2
    refine ⟨value, hvalue, hmem, habove, hbelow, fun sample hperm => percentile_perm hperm hvalue, ?_⟩
    exact fun quantile' value' hle hvalue' => percentile_mono hle hvalue hvalue'
  · obtain ⟨summary, hsummary, -⟩ := LatencySummary.exists_fromSeconds floatRepr hne
    exact ⟨summary, hsummary, LatencySummary.ordered_of_fromSeconds hsummary⟩

/-- The median of three values is found by the counts alone. -/
theorem percentile_nearest_rank_median :
    percentile (fun _ => "") [9, 1, 5] 50 = .ok 5 ∧
      ∃ summary, LatencySummary.fromSeconds (fun _ => "") [9, 1, 5] = .ok summary ∧
        summary.Ordered := by
  obtain ⟨hquantiles, hsummary⟩ := percentile_nearest_rank (fun _ => "") [9, 1, 5] (by simp)
  obtain ⟨value, hvalue, hmem, habove, hbelow, -⟩ := hquantiles 50 (by norm_num) (by norm_num)
  refine ⟨?_, hsummary⟩
  simp only [List.mem_cons, List.not_mem_nil, or_false] at hmem
  rcases hmem with rfl | rfl | rfl
  · norm_num [List.countP_cons] at hbelow
  · norm_num [List.countP_cons] at habove
  · exact hvalue

end Bench
