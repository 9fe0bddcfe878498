import MessageBrokerPatterns.Bench
import MessageBrokerPatterns.WordJoin

/-!
# The CSV files of a bench

A path is the list of its parts, and a file system maps paths to texts: writing a text to a path
replaces what was there, and any text may name a file: a file system's own limits on names are not
modelled. `roundRepr digits x` is the text of `round(x, digits)`.

The name of a result's files is its slug, which keeps the words of the name and of each knob and
loses everything else. So the files of two results are told apart exactly when some words differ.
-/

namespace Bench
open PyText PyDict WordJoin

/-- The characters that `[^A-Za-z0-9.]` leaves alone. -/
def isKept (c : Char) : Bool :=
  ('A' ≤ c ∧ c ≤ 'Z') ∨ ('a' ≤ c ∧ c ≤ 'z') ∨ ('0' ≤ c ∧ c ≤ '9') ∨ c = '.'

/-- `re.sub(r"[^A-Za-z0-9.]+", "-", text).strip("-")` -/
def clean (text : String) : String :=
  String.ofList (strip '-' (scrub isKept '-' false text.toList))

abbrev Path := List String

namespace BenchResult
variable {V : Type*} [PyObject V] (r : BenchResult V)

def slugParts : List String :=
  clean r.name :: r.knobs.map fun e => clean e.1 ++ "-" ++ clean (PyObject.str e.2)

/-- The bench name plus its knob values, fit for a file system. -/
def slug : String := "_".intercalate r.slugParts

end BenchResult

section
variable {V : Type*} [PyObject V] (roundRepr : ℕ → ℚ → String)

/-- `_csv(header, rows)`; none of the fields written here needs quotes. -/
def csv (header : List String) (rows : List (List String)) : String :=
  String.join ((header :: rows).map fun row => ",".intercalate row ++ "\n")

def latencyCsv (r : BenchResult V) : String :=
  csv ["op", "latency_ms"]
    (r.latenciesS.zipIdx.map fun e => [pyStr (e.2 + 1), roundRepr 3 (e.1 * 1000)])

def queueDepthCsv (r : BenchResult V) : String :=
  csv ["elapsed_s", "depth"]
    (r.queueDepth.map fun sample => [roundRepr 4 sample.elapsedS, pyStr sample.depth])

def csvPath (directory : Path) (r : BenchResult V) (suffix : String) : Path :=
  directory ++ [r.slug ++ "_" ++ suffix ++ ".csv"]

def csvWrites (directory : Path) (r : BenchResult V) : Dict Path String :=
  [(csvPath directory r "latency", latencyCsv roundRepr r),
    (csvPath directory r "depth", queueDepthCsv roundRepr r)]

/-- The paths that `write_csv_files(results, directory)` returns, and the files it leaves. -/
def writeCsvFiles (results : List (BenchResult V)) (directory : Path) (files : Dict Path String) :
    List Path × Dict Path String :=
  let written := results.flatMap (csvWrites roundRepr directory)
  (keys written, merge files written)

end

/-! ### What a slug keeps -/

theorem isKept_hyphen : isKept '-' = false := by decide

theorem isKept_underscore : isKept '_' = false := by decide

theorem toList_clean (text : String) :
    (clean text).toList = ['-'].intercalate (pad (words isKept text.toList)) := by
  rw [clean, String.toList_ofList, strip_scrub isKept_hyphen, intercalate_pad]

namespace BenchResult
variable {V : Type*} [PyObject V]

/-- The words of a key followed by those of the value; a text without words has one empty word. -/
def knobWords (e : String × V) : List (List Char) :=
  pad (words isKept e.1.toList) ++ pad (words isKept (PyObject.str e.2).toList)

/-- Two results agree in the words of their names and, knob by knob, in those of their knobs. -/
def Alike (r r' : BenchResult V) : Prop :=
  words isKept r.name.toList = words isKept r'.name.toList ∧
    r.knobs.map knobWords = r'.knobs.map knobWords

instance (r r' : BenchResult V) : Decidable (r.Alike r') :=
  inferInstanceAs (Decidable (_ ∧ _))

theorem knobWords_ne_nil (e : String × V) : knobWords e ≠ [] :=
  List.append_ne_nil_of_left_ne_nil (pad_ne_nil _) _

theorem notMem_of_mem_knobWords {e : String × V} {w : List Char} (h : w ∈ knobWords e) {c : Char}
    (hc : isKept c = false) : c ∉ w := by
  rcases List.mem_append.mp h with h | h
  · exact notMem_of_mem_pad_words hc h
  · exact notMem_of_mem_pad_words hc h

theorem forall_mem_knobWords {r : BenchResult V} {ws : List (List Char)}
    (h : ws ∈ r.knobs.map knobWords) : ws ≠ [] ∧ ∀ w ∈ ws, '-' ∉ w := by
  obtain ⟨e, he, rfl⟩ := List.mem_map.mp h
  exact ⟨knobWords_ne_nil e, fun w hw => notMem_of_mem_knobWords hw isKept_hyphen⟩

theorem toList_knob (e : String × V) :
    (clean e.1 ++ "-" ++ clean (PyObject.str e.2)).toList = ['-'].intercalate (knobWords e) := by
  rw [knobWords, intercalate_append (pad_ne_nil _) (pad_ne_nil _), ← toList_clean, ← toList_clean,
    String.toList_append, String.toList_append, List.append_assoc]
  rfl

theorem slugParts_toList (r : BenchResult V) :
    r.slugParts.map String.toList = (['-'].intercalate (pad (words isKept r.name.toList))) ::
      (r.knobs.map knobWords).map (['-'].intercalate ·) := by
  rw [slugParts, List.map_cons, toList_clean, List.map_map, List.map_map]
  exact congrArg _ (List.map_congr_left fun e _ => toList_knob e)

theorem underscore_notMem_slugParts {r : BenchResult V} {part : List Char}
    (h : part ∈ r.slugParts.map String.toList) : '_' ∉ part := by
  rw [slugParts_toList] at h
  rcases List.mem_cons.mp h with rfl | h
  · exact notMem_intercalate (by decide) fun w hw => notMem_of_mem_pad_words isKept_underscore hw
  · obtain ⟨ws, hws, rfl⟩ := List.mem_map.mp h
    obtain ⟨e, he, rfl⟩ := List.mem_map.mp hws
    exact notMem_intercalate (by decide) fun w hw => notMem_of_mem_knobWords hw isKept_underscore

/-- Two slugs are equal exactly when their words are. -/
theorem slug_inj {r r' : BenchResult V} : r.slug = r'.slug ↔ r.Alike r' := by
  have hparts : r.slug = r'.slug ↔
      r.slugParts.map String.toList = r'.slugParts.map String.toList := by
    rw [← String.toList_inj, slug, slug, String.toList_intercalate, String.toList_intercalate]
    exact intercalate_inj (fun part h => underscore_notMem_slugParts h)
      (fun part h => underscore_notMem_slugParts h) (by simp [slugParts]) (by simp [slugParts])
  have hname : ['-'].intercalate (pad (words isKept r.name.toList)) =
      ['-'].intercalate (pad (words isKept r'.name.toList)) ↔
      words isKept r.name.toList = words isKept r'.name.toList := by
    rw [intercalate_inj (fun w h => notMem_of_mem_pad_words isKept_hyphen h)
      (fun w h => notMem_of_mem_pad_words isKept_hyphen h) (pad_ne_nil _) (pad_ne_nil _),
      pad_words_inj]
  have hknobs : (r.knobs.map knobWords).map (['-'].intercalate ·) =
      (r'.knobs.map knobWords).map (['-'].intercalate ·) ↔
      r.knobs.map knobWords = r'.knobs.map knobWords :=
    map_intercalate_inj (fun ws => forall_mem_knobWords) (fun ws => forall_mem_knobWords)
  rw [hparts, slugParts_toList, slugParts_toList, List.cons.injEq, hname, hknobs, Alike]

end BenchResult

/-! ### Which files are written over -/

section
variable {V : Type*} [PyObject V] {roundRepr : ℕ → ℚ → String}

theorem latency_ne_depth (s s' : String) :
    s ++ "_" ++ "latency" ++ ".csv" ≠ s' ++ "_" ++ "depth" ++ ".csv" := by
  intro h
  have hl := congrArg String.toList h
  simp only [String.toList_append] at hl
  have hend : s.toList ++ "_l".toList ++ "atency.csv".toList = s'.toList ++ "_depth.csv".toList := by
    simpa using hl
  have htail := (List.append_inj' hend (by decide)).2
  exact absurd htail (by decide)

theorem csvPath_inj {directory : Path} {r r' : BenchResult V} {suffix : String} :
    csvPath directory r suffix = csvPath directory r' suffix ↔ r.slug = r'.slug := by
  rw [csvPath, csvPath, List.append_cancel_left_eq, List.singleton_inj, String.append_left_inj,
    String.append_left_inj, String.append_left_inj]

theorem keys_csvWrites (directory : Path) (r : BenchResult V) :
    keys (csvWrites roundRepr directory r) =
      [csvPath directory r "latency", csvPath directory r "depth"] := rfl

theorem csvPath_latency_ne_depth (directory : Path) (r r' : BenchResult V) :
    csvPath directory r "latency" ≠ csvPath directory r' "depth" := by
  rw [csvPath, csvPath, ne_eq, List.append_cancel_left_eq, List.singleton_inj]
  exact latency_ne_depth _ _

theorem disjoint_csvWrites_iff (directory : Path) (r r' : BenchResult V) :
    (keys (csvWrites roundRepr directory r)).Disjoint (keys (csvWrites roundRepr directory r')) ↔
      r.slug ≠ r'.slug := by
  rw [keys_csvWrites, keys_csvWrites]
  constructor
  · intro h heq
    refine h (a := csvPath directory r "latency") (by simp) ?_
    simp [csvPath_inj.mpr heq]
  · intro hne path hmem hmem'
    simp only [List.mem_cons, List.not_mem_nil, or_false] at hmem hmem'
    rcases hmem with rfl | rfl <;> rcases hmem' with h | h
    · exact hne (csvPath_inj.mp h)
    · exact csvPath_latency_ne_depth directory r r' h
    · exact csvPath_latency_ne_depth directory r' r h.symm
    · exact hne (csvPath_inj.mp h)

theorem nodup_paths_iff (roundRepr : ℕ → ℚ → String) (results : List (BenchResult V)) (directory : Path)
    (files : Dict Path String) :
    (writeCsvFiles roundRepr results directory files).1.Nodup ↔
      results.Pairwise fun r r' => ¬ r.Alike r' := by
  have hkeys : (writeCsvFiles roundRepr results directory files).1 =
      results.flatMap fun r => keys (csvWrites roundRepr directory r) := List.map_flatMap
  have hself : ∀ r ∈ results, (keys (csvWrites roundRepr directory r)).Nodup := by
    intro r hr
    rw [keys_csvWrites]
    simpa using csvPath_latency_ne_depth directory r r
  rw [hkeys, List.nodup_flatMap, and_iff_right hself]
  apply List.Pairwise.iff
  intro r r'
  rw [Function.onFun, disjoint_csvWrites_iff, ne_eq, BenchResult.slug_inj]

/-- The paths are pairwise distinct and each holds its own result's series. -/
def EachHoldsItsOwn (roundRepr : ℕ → ℚ → String) (results : List (BenchResult V))
    (directory : Path) (out : List Path × Dict Path String) : Prop :=
  out.1.Nodup ∧ ∀ r ∈ results,
    get? out.2 (csvPath directory r "latency") = some (latencyCsv roundRepr r) ∧
      get? out.2 (csvPath directory r "depth") = some (queueDepthCsv roundRepr r)

/-- No result writes over another exactly when no two of them are alike. -/
theorem writeCsvFiles_eachHoldsItsOwn_iff (roundRepr : ℕ → ℚ → String)
    (results : List (BenchResult V)) (directory : Path) (files : Dict Path String) :
    EachHoldsItsOwn roundRepr results directory
        (writeCsvFiles roundRepr results directory files) ↔
      results.Pairwise fun r r' => ¬ r.Alike r' := by
  rw [EachHoldsItsOwn, nodup_paths_iff]
  refine and_iff_left_of_imp fun hpw => ?_
  have hnodup := (nodup_paths_iff roundRepr results directory files).mpr hpw
  intro r hr
  constructor
  · exact get?_merge_of_mem hnodup (List.mem_flatMap.mpr ⟨r, hr, by simp [csvWrites]⟩) files
  · exact get?_merge_of_mem hnodup (List.mem_flatMap.mpr ⟨r, hr, by simp [csvWrites]⟩) files

end

/-! ### A knob and its negation -/

instance : PyObject ℤ := ⟨pyStr⟩

/-- A run with one knob, which took one operation of the given length. -/
def offsetRun (offset : ℤ) (seconds : ℚ) : BenchResult ℤ where
  name := "bench"
  knobs := [("offset", offset)]
  warmupOps := 0
  ops := 1
  durationS := seconds
  throughputOpsS := 1 / seconds
  latency := ⟨1, seconds, seconds, seconds, seconds, seconds, seconds⟩
  latenciesS := [seconds]

/-- The text of a whole number as a float. -/
def wholeRepr (_digits : ℕ) (x : ℚ) : String := pyStr x.num ++ ".0"

/-- The run with offset 1 takes the files of the run with offset -1. -/
theorem negated_knob_overwrites :
    [offsetRun (-1) 1, offsetRun 1 2].Pairwise (fun r r' => r.name ≠ r'.name ∨ r.knobs ≠ r'.knobs) ∧
      ¬ EachHoldsItsOwn wholeRepr [offsetRun (-1) 1, offsetRun 1 2] ["csv"]
        (writeCsvFiles wholeRepr [offsetRun (-1) 1, offsetRun 1 2] ["csv"] []) ∧
      get? (writeCsvFiles wholeRepr [offsetRun (-1) 1, offsetRun 1 2] ["csv"] []).2
        (csvPath ["csv"] (offsetRun (-1) 1) "latency") = some "op,latency_ms\n1,2000.0\n" := by
  refine ⟨by decide, fun h => ?_, by decide +kernel⟩
  exact absurd h.1 (by decide +kernel)

end Bench
