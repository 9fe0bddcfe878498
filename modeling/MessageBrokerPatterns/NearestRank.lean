import Mathlib.Algebra.Order.Floor.Ring
import Mathlib.Data.List.Sort

/-!
# Ranks in a list, by counting

An element has rank `i` in a list when at most `i` elements are strictly below it and more than `i`
are at or below it. Equal elements share their ranks. Each place of the list has exactly one element
of its rank, which is what a sorted copy of the list has at that place; the order of the list does
not matter, and elements grow with their ranks.
-/

namespace NearestRank
variable {α : Type*} [LinearOrder α]

structure HasRank (l : List α) (i : ℕ) (x : α) : Prop where
  mem : x ∈ l
  below : l.countP (· < x) ≤ i
  atOrBelow : i < l.countP (· ≤ x)

namespace HasRank
variable {l l' : List α} {i j : ℕ} {x y : α}

theorem lt_length (h : HasRank l i x) : i < l.length :=
  h.atOrBelow.trans_le List.countP_le_length

theorem perm (h : HasRank l i x) (hl : l.Perm l') : HasRank l' i x where
  mem := hl.mem_iff.mp h.mem
  below := by
    rw [← hl.countP_eq]
    exact h.below
  atOrBelow := by
    rw [← hl.countP_eq]
    exact h.atOrBelow

theorem mono (h : HasRank l i x) (h' : HasRank l j y) (hij : i ≤ j) : x ≤ y := by
  by_contra hlt
  have hle : l.countP (· ≤ y) ≤ l.countP (· < x) := by
    apply List.countP_mono_left
    intro z _ hz
    simp only [decide_eq_true_eq] at hz ⊢
    exact hz.trans_lt (not_le.mp hlt)
  have hbelow := h.below
  have habove := h'.atOrBelow
  omega

theorem unique (h : HasRank l i x) (h' : HasRank l i y) : x = y :=
  le_antisymm (h.mono h' le_rfl) (h'.mono h le_rfl)

end HasRank

theorem hasRank_getElem {l : List α} (hl : l.Pairwise (· ≤ ·)) {i : ℕ} (hi : i < l.length) :
    HasRank l i l[i] := by
  induction l generalizing i with
  | nil => cases hi
  | cons a l ih =>
    obtain ⟨ha, hl⟩ := List.pairwise_cons.mp hl
    cases i with
    | zero =>
      refine ⟨List.mem_cons_self, ?_, ?_⟩
      · have hnone : (a :: l).countP (· < a) = 0 := by
          rw [List.countP_eq_zero]
          intro b hb
          rcases List.mem_cons.mp hb with rfl | hb
          · simp
          · simpa using ha b hb
        exact hnone.le
      · exact List.countP_pos_iff.mpr ⟨a, List.mem_cons_self, by simp⟩
    | succ i =>
      have hi : i < l.length := Nat.lt_of_succ_lt_succ hi
      obtain ⟨hmem, hbelow, habove⟩ := ih hl hi
      have hle : a ≤ l[i] := ha _ (List.getElem_mem hi)
      refine ⟨List.mem_cons_of_mem _ hmem, ?_, ?_⟩
      · rw [List.getElem_cons_succ, List.countP_cons]
        split <;> omega
      · rw [List.getElem_cons_succ, List.countP_cons_of_pos (by simpa using hle)]
        omega

/-- What a sorted copy of the list has at a place is the element of that rank. -/
theorem getElem?_mergeSort_eq_some {l : List α} {i : ℕ} {x : α} :
    (l.mergeSort (· ≤ ·))[i]? = some x ↔ HasRank l i x := by
  have hrank {j : ℕ} (hj : j < (l.mergeSort (· ≤ ·)).length) :
      HasRank l j (l.mergeSort (· ≤ ·))[j] :=
    (hasRank_getElem (List.pairwise_mergeSort' (· ≤ ·) l) hj).perm (List.mergeSort_perm l _)
  constructor
  · intro h
    obtain ⟨hi, rfl⟩ := List.getElem?_eq_some_iff.mp h
    exact hrank hi
  · intro h
    have hi : i < (l.mergeSort (· ≤ ·)).length := by
      rw [List.length_mergeSort]
      exact h.lt_length
    rw [List.getElem?_eq_getElem hi, (hrank hi).unique h]

section Threshold
variable {K : Type*} [Field K] [LinearOrder K] [IsStrictOrderedRing K] [FloorRing K]

/-- The nearest rank of a threshold: the elements at or below reach it, and those strictly below do
not. The first element stands for every threshold up to one. -/
theorem hasRank_ceil_iff {l : List α} {t : K} {x : α} :
    HasRank l (max (⌈t⌉ - 1) 0).toNat x ↔
      x ∈ l ∧ t ≤ l.countP (· ≤ x) ∧ (l.countP (· < x) : K) < max 1 t := by
  have hreach (n : ℕ) : t ≤ n ↔ ⌈t⌉ ≤ n := by
    rw [Int.ceil_le, Int.cast_natCast]
  have hshort (n : ℕ) : (n : K) < t ↔ n < ⌈t⌉ := by
    rw [Int.lt_ceil, Int.cast_natCast]
  have hpos (hx : x ∈ l) : 0 < l.countP (· ≤ x) :=
    List.countP_pos_iff.mpr ⟨x, hx, by simp⟩
  rw [hreach, lt_max_iff, hshort, Nat.cast_lt_one]
  constructor
  · rintro ⟨hmem, hbelow, habove⟩
    exact ⟨hmem, by omega, by omega⟩
  · rintro ⟨hmem, habove, hbelow⟩
    have := hpos hmem
    exact ⟨hmem, by omega, by omega⟩

end Threshold
end NearestRank
