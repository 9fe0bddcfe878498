import MessageBrokerPatterns.PyDict
import Mathlib.Algebra.Order.Floor.Ring
import Mathlib.Data.Rat.Floor
import Mathlib.Algebra.BigOperators.Group.List.Basic
import Mathlib.Tactic.Positivity

/-!
# The bench: windows, latencies and results

Readings of the clock and durations are rationals, and the arithmetic on them is exact. A `Window`
closes after a number of operations or after a number of seconds; which of the two is fixed when it
is built, and so is that the number is positive. `floatRepr` is the text of a float in an error.
-/

namespace Bench
open PyText PyDict

/-- A window that the constructor accepts. -/
inductive Window where
  | ofOps (ops : ℤ) (pos : 1 ≤ ops)
  | ofSeconds (seconds : ℚ) (pos : 0 < seconds)

namespace Window

/-- `Window(ops=..., seconds=...)` with the checks of `__post_init__`. -/
def new (floatRepr : ℚ → String) : Option ℤ → Option Float64 → Except PyExc Window
  | some _, some _ => .error (valueError "configure ops or seconds, not both")
  | none, none => .error (valueError "configure a window: ops=<n> or seconds=<s>")
  | some ops, none =>
      if h : 1 ≤ ops then .ok (.ofOps ops h)
      else .error (valueError ("ops must be a positive count, got " ++ pyStr ops))
  | none, some seconds =>
      match seconds with
      | .finite x =>
          if h : 0 < x then .ok (.ofSeconds x h)
          else .error (valueError ("seconds must be finite and positive, got " ++ floatRepr x))
      | seconds =>
          .error (valueError
            ("seconds must be finite and positive, got " ++ seconds.repr floatRepr))

def isDone (w : Window) (started : ℕ) (elapsed : ℚ) : Bool :=
  match w with
  | .ofOps ops _ => ops ≤ started
  | .ofSeconds seconds _ => seconds ≤ elapsed

theorem exists_new (floatRepr : ℚ → String) (w : Window) :
    ∃ ops seconds, new floatRepr ops seconds = .ok w := by
  cases w with
  | ofOps ops h => exact ⟨some ops, none, by simp only [new, dif_pos h]⟩
  | ofSeconds seconds h => exact ⟨none, some (.finite seconds), by simp only [new, dif_pos h]⟩

theorem isDone_mono {w : Window} {started started' : ℕ} {elapsed elapsed' : ℚ}
    (hs : started ≤ started') (he : elapsed ≤ elapsed') (h : w.isDone started elapsed = true) :
    w.isDone started' elapsed' = true := by
  cases w with
  | ofOps ops hpos =>
    simp only [isDone, decide_eq_true_eq] at h ⊢
    omega
  | ofSeconds seconds hpos =>
    simp only [isDone, decide_eq_true_eq] at h ⊢
    exact h.trans he

end Window

/-- `max(rank - 1, 0)` for the nearest rank of a quantile among `n` values. -/
def rankIndex (quantile : ℚ) (n : ℕ) : ℕ := (max (⌈quantile / 100 * n⌉ - 1) 0).toNat

theorem rankIndex_lt {quantile : ℚ} (h100 : quantile ≤ 100) {n : ℕ} (hn : 0 < n) :
    rankIndex quantile n < n := by
  have hrank : ⌈quantile / 100 * (n : ℚ)⌉ ≤ n := by
    rw [Int.ceil_le]
    have hnn : (0 : ℚ) ≤ n := Nat.cast_nonneg _
    have hq : quantile / 100 ≤ 1 := by linarith
    push_cast
    nlinarith
  rw [rankIndex]
  omega

/-- `percentile(values, quantile)`, by nearest rank on the sorted values. -/
def percentile (floatRepr : ℚ → String) (values : List ℚ) (quantile : ℚ) : Except PyExc ℚ :=
  if values = [] then .error (valueError "cannot take a percentile of an empty sequence")
  else if ¬ (0 ≤ quantile ∧ quantile ≤ 100) then
    .error (valueError ("quantile must be between 0 and 100, got " ++ floatRepr quantile))
  else
    let ordered := values.mergeSort (· ≤ ·)
    match ordered[rankIndex quantile ordered.length]? with
    | some value => .ok value
    | none => .error ⟨"IndexError", "list index out of range"⟩

theorem exists_percentile (floatRepr : ℚ → String) {values : List ℚ} (hne : values ≠ [])
    (quantile : ℚ) (h0 : 0 ≤ quantile) (h100 : quantile ≤ 100) :
    ∃ value ∈ values, percentile floatRepr values quantile = .ok value := by
  have hlt : rankIndex quantile (values.mergeSort (· ≤ ·)).length <
      (values.mergeSort (· ≤ ·)).length := by
    apply rankIndex_lt h100
    rw [List.length_mergeSort]
    exact List.length_pos_of_ne_nil hne
  refine ⟨(values.mergeSort (· ≤ ·)).get ⟨_, hlt⟩, ?_, ?_⟩
  · exact List.mem_mergeSort.mp (List.get_mem _ _)
  · simp only [percentile, hne, h0, h100, and_self, not_true_eq_false, if_false,
      List.getElem?_eq_getElem hlt, List.get_eq_getElem]

structure LatencySummary where
  count : ℕ
  minMs : ℚ
  p50Ms : ℚ
  p95Ms : ℚ
  p99Ms : ℚ
  maxMs : ℚ
  meanMs : ℚ
  deriving DecidableEq

/-- `LatencySummary.from_seconds(latencies)`. -/
def LatencySummary.fromSeconds (floatRepr : ℚ → String) (latencies : List ℚ) :
    Except PyExc LatencySummary :=
  match latencies.map (· * 1000) with
  | [] => .error (valueError "cannot summarise an empty latency sample")
  | first :: rest => do
      let ms := first :: rest
      let p50Ms ← percentile floatRepr ms 50
      let p95Ms ← percentile floatRepr ms 95
      let p99Ms ← percentile floatRepr ms 99
      return {
        count := ms.length
        minMs := rest.foldl min first
        p50Ms
        p95Ms
        p99Ms
        maxMs := rest.foldl max first
        meanMs := ms.sum / ms.length }

theorem LatencySummary.fromSeconds_nil (floatRepr : ℚ → String) :
    fromSeconds floatRepr [] = .error (valueError "cannot summarise an empty latency sample") := rfl

theorem LatencySummary.exists_fromSeconds (floatRepr : ℚ → String) {latencies : List ℚ}
    (hne : latencies ≠ []) :
    ∃ summary, fromSeconds floatRepr latencies = .ok summary ∧ summary.count = latencies.length := by
  cases latencies with
  | nil => exact absurd rfl hne
  | cons first rest =>
    have hms : (first :: rest).map (· * 1000) ≠ [] := by simp
    obtain ⟨p50Ms, -, h50⟩ := exists_percentile floatRepr hms 50 (by norm_num)
      (by norm_num)
    obtain ⟨p95Ms, -, h95⟩ := exists_percentile floatRepr hms 95 (by norm_num)
      (by norm_num)
    obtain ⟨p99Ms, -, h99⟩ := exists_percentile floatRepr hms 99 (by norm_num)
      (by norm_num)
    rw [List.map_cons] at h50 h95 h99
    simp only [fromSeconds, List.map_cons, h50, h95, h99, bind, Except.bind, pure, Except.pure]
    exact ⟨_, rfl, by simp⟩

structure DepthSample where
  elapsedS : ℚ
  depth : ℤ
  deriving DecidableEq

/-- A value that a knob may have: any object with a text. -/
class PyObject (V : Type*) where
  str : V → String

structure BenchResult (V : Type*) where
  name : String
  knobs : Dict String V
  warmupOps : ℕ
  ops : ℕ
  durationS : ℚ
  throughputOpsS : ℚ
  latency : LatencySummary
  latenciesS : List ℚ := []
  queueDepth : List DepthSample := []

end Bench
