import Mathlib.Data.List.DropRight

/-!
# Words of a text

The words of a text are its maximal runs of kept characters. `scrub` puts one separator for each
run of other characters, and `strip` takes the separators off both ends. What is left is the words
joined by the separator, so it tells two texts apart exactly when their words do.
-/

namespace WordJoin
variable {α : Type*} {p : α → Bool} {sep : α}

/-- The maximal runs of characters that `p` keeps. -/
def words (p : α → Bool) (l : List α) : List (List α) :=
  (l.splitOnP fun a => !p a).filter (· ≠ [])

theorem of_mem_splitOnP {q : α → Bool} {l run : List α} (h : run ∈ l.splitOnP q) {a : α}
    (ha : a ∈ run) : q a = false := by
  induction l generalizing run with
  | nil =>
    obtain rfl : run = [] := by simpa using h
    simp at ha
  | cons b l ih =>
    obtain ⟨run', runs', hl'⟩ := List.exists_cons_of_ne_nil (List.splitOnP_ne_nil q l)
    rw [hl'] at ih
    rw [List.splitOnP_cons_eq_if_modifyHead, hl'] at h
    by_cases hb : q b = true
    · rw [if_pos hb] at h
      rcases List.mem_cons.mp h with rfl | hmem
      · simp at ha
      · exact ih hmem ha
    · rw [if_neg hb, List.modifyHead_cons] at h
      rcases List.mem_cons.mp h with rfl | hmem
      · rcases List.mem_cons.mp ha with rfl | ha'
        · simpa using hb
        · exact ih (by simp) ha'
      · exact ih (List.mem_cons_of_mem _ hmem) ha

theorem ne_nil_of_mem_words {l w : List α} (h : w ∈ words p l) : w ≠ [] := by
  simpa using (List.mem_filter.mp h).2

theorem of_mem_words {l w : List α} (h : w ∈ words p l) {a : α} (ha : a ∈ w) : p a = true := by
  simpa using of_mem_splitOnP (List.mem_filter.mp h).1 ha

/-- The words of a text, or one empty word where it has none. -/
def pad (ws : List (List α)) : List (List α) := if ws = [] then [[]] else ws

theorem pad_ne_nil (ws : List (List α)) : pad ws ≠ [] := by
  rw [pad]
  split <;> simp_all

theorem pad_words_inj {l l' : List α} : pad (words p l) = pad (words p l') ↔ words p l = words p l' := by
  constructor
  · intro h
    have hnot : ∀ l : List α, words p l ≠ [[]] := by
      intro l hl
      exact ne_nil_of_mem_words (p := p) (l := l) (w := []) (by simp [hl]) rfl
    simp only [pad] at h
    split at h <;> split at h
    · simp_all
    · exact absurd h.symm (hnot l')
    · exact absurd h (hnot l)
    · exact h
  · exact fun h => by rw [h]

theorem intercalate_cons (w : List α) (ws : List (List α)) :
    [sep].intercalate (w :: ws) = w ++ ws.flatMap (sep :: ·) := by
  induction ws generalizing w with
  | nil => simp
  | cons v ws ih =>
    rw [List.intercalate_cons_cons, ih, List.flatMap_cons]
    simp

theorem intercalate_append {ls ms : List (List α)} (hls : ls ≠ []) (hms : ms ≠ []) :
    [sep].intercalate (ls ++ ms) = [sep].intercalate ls ++ sep :: [sep].intercalate ms := by
  obtain ⟨l, ls, rfl⟩ := List.exists_cons_of_ne_nil hls
  obtain ⟨m, ms, rfl⟩ := List.exists_cons_of_ne_nil hms
  simp only [List.cons_append, intercalate_cons, List.flatMap_append, List.flatMap_cons,
    List.append_assoc]

theorem intercalate_pad (ws : List (List α)) : [sep].intercalate (pad ws) = [sep].intercalate ws := by
  rw [pad]
  split <;> simp_all

theorem intercalate_filter_eq_nil {ws : List (List α)} :
    [sep].intercalate (ws.filter (· ≠ [])) = [] ↔ ws.filter (· ≠ []) = [] := by
  cases h : ws.filter (· ≠ []) with
  | nil => simp
  | cons w rest =>
    have hw : w ≠ [] := by
      have hmem : w ∈ ws.filter (· ≠ []) := h ▸ List.mem_cons_self
      simpa using (List.mem_filter.mp hmem).2
    simp [intercalate_cons, hw]

theorem notMem_of_mem_pad_words (hsep : p sep = false) {l w : List α} (h : w ∈ pad (words p l)) :
    sep ∉ w := by
  rw [pad] at h
  split at h
  · obtain rfl : w = [] := by simpa using h
    simp
  · exact fun hmem => absurd ((of_mem_words h hmem).symm.trans hsep) (by decide)

theorem notMem_intercalate {a : α} {ls : List (List α)} (hne : a ≠ sep) (hls : ∀ l ∈ ls, a ∉ l) :
    a ∉ [sep].intercalate ls := by
  cases ls with
  | nil => simp
  | cons l ls =>
    rw [intercalate_cons, List.mem_append, List.mem_flatMap]
    rintro (h | ⟨m, hm, h⟩)
    · exact hls l (by simp) h
    · rcases List.mem_cons.mp h with rfl | h
      · exact hne rfl
      · exact hls m (List.mem_cons_of_mem _ hm) h

theorem rdropWhile_cons (q : α → Bool) (a : α) (l : List α) :
    (a :: l).rdropWhile q = if l.rdropWhile q = [] ∧ q a = true then [] else a :: l.rdropWhile q := by
  induction l using List.reverseRecOn with
  | nil => simp [List.rdropWhile_singleton]
  | append_singleton l b ih =>
    rw [← List.cons_append, List.rdropWhile_concat, List.rdropWhile_concat]
    by_cases hb : q b = true
    · rw [if_pos hb, if_pos hb, ih]
    · simp [hb]

variable [DecidableEq α]

/-- A joined text has one way only to come apart into parts without the separator. -/
theorem intercalate_inj {ls ms : List (List α)} (hls : ∀ l ∈ ls, sep ∉ l) (hms : ∀ m ∈ ms, sep ∉ m)
    (hls' : ls ≠ []) (hms' : ms ≠ []) :
    [sep].intercalate ls = [sep].intercalate ms ↔ ls = ms := by
  constructor
  · intro h
    calc ls = ([sep].intercalate ls).splitOn sep := (List.splitOn_intercalate sep hls hls').symm
      _ = ([sep].intercalate ms).splitOn sep := by rw [h]
      _ = ms := List.splitOn_intercalate sep hms hms'
  · exact fun h => by rw [h]

theorem map_intercalate_inj {lss mss : List (List (List α))}
    (hlss : ∀ ls ∈ lss, ls ≠ [] ∧ ∀ l ∈ ls, sep ∉ l)
    (hmss : ∀ ms ∈ mss, ms ≠ [] ∧ ∀ m ∈ ms, sep ∉ m) :
    lss.map ([sep].intercalate ·) = mss.map ([sep].intercalate ·) ↔ lss = mss := by
  have hsplit : ∀ lss : List (List (List α)), (∀ ls ∈ lss, ls ≠ [] ∧ ∀ l ∈ ls, sep ∉ l) →
      (lss.map ([sep].intercalate ·)).map (·.splitOn sep) = lss := by
    intro lss h
    calc (lss.map ([sep].intercalate ·)).map (·.splitOn sep)
        = lss.map fun ls => ([sep].intercalate ls).splitOn sep := by rw [List.map_map]; rfl
      _ = lss.map id := List.map_congr_left fun ls hls =>
          List.splitOn_intercalate sep (h ls hls).2 (h ls hls).1
      _ = lss := List.map_id lss
  constructor
  · intro h
    rw [← hsplit lss hlss, h, hsplit mss hmss]
  · exact fun h => by rw [h]

/-- A separator for each run of other characters; the flag says that one has just been put. -/
def scrub (p : α → Bool) (sep : α) : Bool → List α → List α
  | _, [] => []
  | inRun, a :: l =>
      if p a then a :: scrub p sep false l
      else if inRun then scrub p sep true l
      else sep :: scrub p sep true l

def strip (sep : α) (l : List α) : List α := (l.dropWhile (· = sep)).rdropWhile (· = sep)

theorem dropWhile_scrub_true (hsep : p sep = false) (l : List α) :
    (scrub p sep true l).dropWhile (· = sep) = scrub p sep true l := by
  induction l with
  | nil => rfl
  | cons a l ih =>
    by_cases ha : p a = true
    · have hne : a ≠ sep := by
        rintro rfl
        exact absurd (ha.symm.trans hsep) (by decide)
      simp only [scrub, ha, if_true]
      rw [List.dropWhile_cons_of_neg (by simpa using hne)]
    · simpa only [scrub, ha, if_false, if_true, Bool.false_eq_true] using ih

theorem dropWhile_scrub_false (hsep : p sep = false) (l : List α) :
    (scrub p sep false l).dropWhile (· = sep) = scrub p sep true l := by
  cases l with
  | nil => rfl
  | cons a l =>
    by_cases ha : p a = true
    · have hstart : scrub p sep false (a :: l) = scrub p sep true (a :: l) := by
        simp only [scrub, ha, if_true]
      rw [hstart, dropWhile_scrub_true hsep]
    · simp only [scrub, ha, if_false, if_true, Bool.false_eq_true]
      rw [List.dropWhile_cons_of_pos (by simp), dropWhile_scrub_true hsep]

/-- The words behind the first run, each with a separator before it. -/
def trailing (sep : α) (runs : List (List α)) : List α :=
  (runs.filter (· ≠ [])).flatMap (sep :: ·)

/-- Without the separators at its end, a scrubbed text is its first run followed by its other words,
or, from within a run, its words joined. -/
theorem rdropWhile_scrub (hsep : p sep = false) (l : List α) {run : List α} {runs : List (List α)}
    (hl : (l.splitOnP fun a => !p a) = run :: runs) :
    (scrub p sep false l).rdropWhile (· = sep) = run ++ trailing sep runs ∧
      (scrub p sep true l).rdropWhile (· = sep) = [sep].intercalate (words p l) := by
  induction l generalizing run runs with
  | nil =>
    obtain ⟨rfl, rfl⟩ : [] = run ∧ [] = runs := by simpa using hl
    simp [scrub, trailing, words]
  | cons a l ih =>
    obtain ⟨run', runs', hl'⟩ := List.exists_cons_of_ne_nil (List.splitOnP_ne_nil (fun a => !p a) l)
    obtain ⟨hfalse, htrue⟩ := ih hl'
    rw [List.splitOnP_cons_eq_if_modifyHead, hl'] at hl
    by_cases ha : p a = true
    · have hne : a ≠ sep := by
        rintro rfl
        exact absurd (ha.symm.trans hsep) (by decide)
      obtain ⟨rfl, rfl⟩ : a :: run' = run ∧ runs' = runs := by simpa [ha] using hl
      have hwords : words p (a :: l) = (a :: run') :: runs'.filter (· ≠ []) := by
        rw [words, List.splitOnP_cons_eq_if_modifyHead, hl']
        simp [ha]
      have hdrop : (a :: scrub p sep false l).rdropWhile (· = sep) =
          a :: (run' ++ trailing sep runs') := by
        rw [rdropWhile_cons, if_neg (by simp [hne]), hfalse]
      simp only [scrub, ha, if_true]
      refine ⟨hdrop, ?_⟩
      rw [hdrop, hwords, intercalate_cons, trailing, List.cons_append]
    · obtain ⟨rfl, rfl⟩ : [] = run ∧ run' :: runs' = runs := by simpa [ha] using hl
      have hwords : words p (a :: l) = words p l := by
        rw [words, List.splitOnP_cons_eq_if_modifyHead, words]
        simp [ha]
      simp only [scrub, ha, if_false, if_true, Bool.false_eq_true, hwords]
      refine ⟨?_, htrue⟩
      rw [rdropWhile_cons, htrue, List.nil_append, trailing, ← hl', ← words]
      by_cases hnil : words p l = []
      · simp [hnil]
      · have hjoin : [sep].intercalate (words p l) ≠ [] := by
          rw [words, ne_eq, intercalate_filter_eq_nil, ← words]
          exact hnil
        obtain ⟨w, ws, hw⟩ := List.exists_cons_of_ne_nil hnil
        rw [if_neg (fun h => hjoin h.1), hw, intercalate_cons, List.flatMap_cons, List.cons_append]

theorem strip_scrub (hsep : p sep = false) (l : List α) :
    strip sep (scrub p sep false l) = [sep].intercalate (words p l) := by
  obtain ⟨run, runs, hl⟩ := List.exists_cons_of_ne_nil (List.splitOnP_ne_nil (fun a => !p a) l)
  rw [strip, dropWhile_scrub_false hsep]
  exact (rdropWhile_scrub hsep l hl).2

end WordJoin
