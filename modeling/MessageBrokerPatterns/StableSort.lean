import Mathlib.Data.List.Nodup
import Mathlib.Order.Lattice

/-!
# Stable sorting by tiers

Elements have a key, and a list of keys says which key comes before which. The stable sort of a list
by the place of its keys is the concatenation of its tiers, each in the order of the list, where the
tier of a key is what the list has of that key. `List.mergeSort` is the stable sort.
-/

namespace StableSort
variable {α κ : Type*}

theorem eq_filter_append {p : α → Bool} {l : List α}
    (h : l.Pairwise fun a b => p b = true → p a = true) :
    l = l.filter p ++ l.filter fun a => !p a := by
  induction l with
  | nil => rfl
  | cons a l ih =>
    obtain ⟨ha, hl⟩ := List.pairwise_cons.mp h
    cases hp : p a with
    | true =>
      rw [List.filter_cons_of_pos hp, List.filter_cons_of_neg (by simp [hp]), List.cons_append,
        ← ih hl]
    | false =>
      have hnone : ∀ b ∈ l, p b = false := by
        intro b hb
        by_contra hne
        have := ha b hb (by simpa using hne)
        rw [hp] at this
        cases this
      rw [List.filter_cons_of_neg (by simp [hp]), List.filter_cons_of_pos (by simp [hp]),
        List.filter_eq_nil_iff.mpr (by simpa using hnone), List.nil_append,
        List.filter_eq_self.mpr (by simpa using hnone)]

/-- A sort that is stable keeps a class of equivalent elements in the order of the list. -/
theorem filter_mergeSort {le : α → α → Bool} (trans : ∀ a b c, le a b → le b c → le a c)
    (total : ∀ a b, le a b || le b a) {p : α → Bool} (hp : ∀ a b, p a → p b → le a b) (l : List α) :
    (l.mergeSort le).filter p = l.filter p := by
  have hclass : (l.filter p).Pairwise fun a b => le a b = true :=
    List.pairwise_of_forall_mem_list fun a ha b hb =>
      hp a b (List.mem_filter.mp ha).2 (List.mem_filter.mp hb).2
  have hsub := (List.sublist_mergeSort trans total hclass List.filter_sublist).filter p
  rw [List.filter_filter] at hsub
  simp only [Bool.and_self] at hsub
  exact (hsub.eq_of_length ((List.mergeSort_perm l le).filter p).length_eq.symm).symm

variable [DecidableEq κ] (order : List κ) (key : α → κ)

/-- The comparison of two elements by the places of their keys. -/
def atMost (a b : α) : Bool := order.idxOf (key a) ≤ order.idxOf (key b)

/-- The tiers of a list, one after another. -/
def tiers (l : List α) : List α := order.flatMap fun k => l.filter fun a => key a = k

variable {order key}

theorem eq_tiers_of_pairwise {l : List α} (hnodup : order.Nodup) (hmem : ∀ a ∈ l, key a ∈ order)
    (h : l.Pairwise fun a b => order.idxOf (key a) ≤ order.idxOf (key b)) :
    l = tiers order key l := by
  induction order generalizing l with
  | nil =>
    rw [List.eq_nil_iff_forall_not_mem.mpr fun a ha => List.not_mem_nil (hmem a ha)]
    rfl
  | cons k order ih =>
    obtain ⟨hk, hnodup⟩ := List.nodup_cons.mp hnodup
    have hfront : l = (l.filter fun a => key a = k) ++ l.filter fun a => !decide (key a = k) := by
      refine eq_filter_append (h.imp fun {a b} hab hb => ?_)
      rw [of_decide_eq_true hb, List.idxOf_cons_self, Nat.le_zero] at hab
      by_contra ha
      rw [List.idxOf_cons_ne _ (Ne.symm (by simpa using ha))] at hab
      cases hab
    have hrest := ih (l := l.filter fun a => !decide (key a = k)) hnodup ?_ ?_
    · have hsame : tiers order key (l.filter fun a => !decide (key a = k)) = tiers order key l := by
        refine List.flatMap_congr fun j hj => ?_
        rw [List.filter_filter]
        refine List.filter_congr fun a _ => ?_
        by_cases ha : key a = j
        · have hne : key a ≠ k := by
            rintro rfl
            exact hk (ha ▸ hj)
          simp [hne]
        · simp [ha]
      calc l = (l.filter fun a => key a = k) ++ l.filter fun a => !decide (key a = k) := hfront
        _ = (l.filter fun a => key a = k) ++ tiers order key l := by rw [← hsame, ← hrest]
        _ = tiers (k :: order) key l := rfl
    · intro a ha
      obtain ⟨ha, hne⟩ := List.mem_filter.mp ha
      exact (List.mem_cons.mp (hmem a ha)).resolve_left (by simpa using hne)
    · refine (h.filter _).imp_of_mem fun {a b} ha hb hab => ?_
      have hne {c : α} (hc : c ∈ l.filter fun a => !decide (key a = k)) : k ≠ key c :=
        Ne.symm (by simpa using (List.mem_filter.mp hc).2)
      rw [List.idxOf_cons_ne _ (hne ha), List.idxOf_cons_ne _ (hne hb)] at hab
      exact Nat.le_of_succ_le_succ hab

/-- The stable sort of a list by the places of its keys. -/
theorem mergeSort_eq_tiers {l : List α} (hnodup : order.Nodup) (hmem : ∀ a ∈ l, key a ∈ order) :
    l.mergeSort (atMost order key) = tiers order key l := by
  have trans (a b c : α) (hab : atMost order key a b) (hbc : atMost order key b c) :
      atMost order key a c := by
    simp only [atMost, decide_eq_true_eq] at hab hbc ⊢
    exact Nat.le_trans hab hbc
  have total (a b : α) : atMost order key a b || atMost order key b a := by
    simp only [atMost, Bool.or_eq_true, decide_eq_true_eq]
    exact Nat.le_total _ _
  have hsorted : (l.mergeSort (atMost order key)).Pairwise
      fun a b => order.idxOf (key a) ≤ order.idxOf (key b) :=
    (List.pairwise_mergeSort trans total l).imp fun hab => of_decide_eq_true hab
  rw [eq_tiers_of_pairwise hnodup (fun a ha => hmem a (List.mem_mergeSort.mp ha)) hsorted]
  refine List.flatMap_congr fun k _ => filter_mergeSort trans total (fun a b ha hb => ?_) l
  rw [atMost, of_decide_eq_true ha, of_decide_eq_true hb]
  exact decide_eq_true (Nat.le_refl _)

section SortOn
variable {β : Type*} [LinearOrder β] (rank : α → β)

def sortOn (l : List α) : List α := l.mergeSort fun a b => decide (rank a ≤ rank b)

def minOn : List α → Option α
  | [] => none
  | a :: l => some (l.foldl (fun best b => if rank b < rank best then b else best) a)

variable {rank}

theorem sortOn_perm (l : List α) : (sortOn rank l).Perm l := List.mergeSort_perm l _

theorem pairwise_sortOn (l : List α) : (sortOn rank l).Pairwise fun a b => rank a ≤ rank b := by
  refine (List.pairwise_mergeSort (fun a b c hab hbc => ?_) (fun a b => ?_) l).imp
    fun hab => of_decide_eq_true hab
  · exact decide_eq_true ((of_decide_eq_true hab).trans (of_decide_eq_true hbc))
  · simpa using le_total (rank a) (rank b)

theorem filter_rank_sortOn (k : β) (l : List α) :
    ((sortOn rank l).filter fun a => rank a = k) = l.filter fun a => rank a = k := by
  refine filter_mergeSort (fun a b c hab hbc => ?_) (fun a b => ?_) (fun a b ha hb => ?_) l
  · exact decide_eq_true ((of_decide_eq_true hab).trans (of_decide_eq_true hbc))
  · simpa using le_total (rank a) (rank b)
  · rw [of_decide_eq_true ha, of_decide_eq_true hb]
    exact decide_eq_true le_rfl

theorem eq_of_classes {s t : List α} (hs : s.Pairwise fun a b => rank a ≤ rank b)
    (ht : t.Pairwise fun a b => rank a ≤ rank b)
    (h : ∀ k, (s.filter fun a => rank a = k) = t.filter fun a => rank a = k) : s = t := by
  have hmem {s t : List α} (h : ∀ k, (s.filter fun a => rank a = k) = t.filter fun a => rank a = k)
      {a : α} (ha : a ∈ s) : a ∈ t := by
    have hclass : a ∈ t.filter fun b => rank b = rank a :=
      h (rank a) ▸ List.mem_filter.mpr ⟨ha, decide_eq_true rfl⟩
    exact (List.mem_filter.mp hclass).1
  induction s generalizing t with
  | nil =>
    cases t with
    | nil => rfl
    | cons b t => exact absurd (hmem (fun k => (h k).symm) List.mem_cons_self) List.not_mem_nil
  | cons a s ih =>
    cases t with
    | nil => exact absurd (hmem h List.mem_cons_self) List.not_mem_nil
    | cons b t =>
      obtain ⟨has, hss⟩ := List.pairwise_cons.mp hs
      obtain ⟨hbt, hts⟩ := List.pairwise_cons.mp ht
      have hab : rank a ≤ rank b := by
        rcases List.mem_cons.mp (hmem (fun k => (h k).symm) (a := b) List.mem_cons_self) with rfl | hb
        · exact le_rfl
        · exact has b hb
      have hba : rank b ≤ rank a := by
        rcases List.mem_cons.mp (hmem h (a := a) List.mem_cons_self) with rfl | ha
        · exact le_rfl
        · exact hbt a ha
      -- both heads are the first elements of one class
      have hhead := h (rank a)
      rw [List.filter_cons_of_pos (by simp),
        List.filter_cons_of_pos (by simpa using le_antisymm hba hab)] at hhead
      obtain ⟨rfl, -⟩ := List.cons.inj hhead
      refine congrArg (a :: ·) (ih hss hts fun k => ?_)
      have hk := h k
      by_cases hak : rank a = k
      · rw [List.filter_cons_of_pos (by simpa using hak),
          List.filter_cons_of_pos (by simpa using hak)] at hk
        exact (List.cons.inj hk).2
      · rwa [List.filter_cons_of_neg (by simpa using hak),
          List.filter_cons_of_neg (by simpa using hak)] at hk

theorem sortOn_filter (p : α → Bool) (l : List α) :
    sortOn rank (l.filter p) = (sortOn rank l).filter p := by
  refine eq_of_classes (pairwise_sortOn _) ((pairwise_sortOn l).filter _) fun k => ?_
  have hswap (s : List α) : ((s.filter p).filter fun a => rank a = k) =
      (s.filter fun a => rank a = k).filter p := by
    rw [List.filter_filter, List.filter_filter]
    exact List.filter_congr fun a _ => Bool.and_comm _ _
  rw [filter_rank_sortOn, hswap, hswap, filter_rank_sortOn]

/-- The keys of the sorted list do not depend on the order in which the elements come. -/
theorem map_sortOn_of_perm {l l' : List α} (h : l.Perm l') :
    (sortOn rank l).map rank = (sortOn rank l').map rank := by
  have hperm : ((sortOn rank l).map rank).Perm ((sortOn rank l').map rank) :=
    (((sortOn_perm l).trans h).trans (sortOn_perm l').symm).map rank
  refine hperm.eq_of_pairwise (fun a b _ _ hab hba => le_antisymm hab hba) ?_ ?_
  · exact List.pairwise_map.mpr (pairwise_sortOn l)
  · exact List.pairwise_map.mpr (pairwise_sortOn l')

theorem sortOn_of_perm {l l' : List α} (h : l.Perm l') (hkeys : (l.map rank).Nodup) :
    sortOn rank l = sortOn rank l' := by
  refine ((sortOn_perm l).trans (h.trans (sortOn_perm l').symm)).eq_of_pairwise
    (fun a b ha hb hab hba => ?_) (pairwise_sortOn l) (pairwise_sortOn l')
  exact List.inj_on_of_nodup_map hkeys ((sortOn_perm l).subset ha)
    (h.symm.subset ((sortOn_perm l').subset hb)) (le_antisymm hab hba)

theorem foldl_min {a m : α} {l : List α}
    (h : l.foldl (fun best b => if rank b < rank best then b else best) a = m) :
    (∀ b ∈ a :: l, rank m ≤ rank b) ∧ ((a :: l).filter fun b => rank b = rank m).head? = some m := by
  induction l generalizing a with
  | nil =>
    obtain rfl : a = m := h
    simp
  | cons b l ih =>
    rw [List.foldl_cons] at h
    obtain ⟨hleast, hfirst⟩ := ih h
    by_cases hlt : rank b < rank a
    · rw [if_pos hlt] at hleast hfirst
      have hm : rank m < rank a := (hleast b List.mem_cons_self).trans_lt hlt
      refine ⟨fun c hc => ?_, ?_⟩
      · rcases List.mem_cons.mp hc with rfl | hc
        · exact hm.le
        · exact hleast c hc
      · rwa [List.filter_cons_of_neg (by simpa using hm.ne')]
    · rw [if_neg hlt] at hleast hfirst
      have hab : rank a ≤ rank b := not_lt.mp hlt
      have hma := hleast a List.mem_cons_self
      refine ⟨fun c hc => ?_, ?_⟩
      · rcases List.mem_cons.mp hc with rfl | hc
        · exact hma
        · rcases List.mem_cons.mp hc with rfl | hc
          · exact hma.trans hab
          · exact hleast c (List.mem_cons_of_mem _ hc)
      · by_cases ham : rank a = rank m
        · rw [List.filter_cons_of_pos (by simpa using ham)] at hfirst ⊢
          exact hfirst
        · have hbm : rank b ≠ rank m := ((lt_of_le_of_ne hma (Ne.symm ham)).trans_le hab).ne'
          rw [List.filter_cons_of_neg (by simpa using ham)] at hfirst ⊢
          rwa [List.filter_cons_of_neg (by simpa using hbm)]

theorem minOn_eq_head? (l : List α) : minOn rank l = (sortOn rank l).head? := by
  cases l with
  | nil => simp [minOn, sortOn]
  | cons a l =>
    rw [minOn]
    generalize hm : l.foldl (fun best b => if rank b < rank best then b else best) a = m
    obtain ⟨hleast, hfirst⟩ := foldl_min hm
    have hmem : m ∈ a :: l := (List.mem_filter.mp (List.mem_of_mem_head? hfirst)).1
    have hperm : (sortOn rank (a :: l)).Perm (a :: l) := sortOn_perm _
    have hsorted : (sortOn rank (a :: l)).Pairwise fun a b => rank a ≤ rank b := pairwise_sortOn _
    rw [← filter_rank_sortOn] at hfirst
    cases hs : sortOn rank (a :: l) with
    | nil => exact absurd (hs ▸ hperm.symm.subset hmem) List.not_mem_nil
    | cons x s =>
      rw [hs] at hperm hsorted hfirst
      have hle : rank x ≤ rank m := by
        rcases List.mem_cons.mp (hperm.symm.subset hmem) with rfl | hms
        · exact le_rfl
        · exact (List.pairwise_cons.mp hsorted).1 m hms
      have hxm := le_antisymm hle (hleast x (hperm.subset List.mem_cons_self))
      rw [List.filter_cons_of_pos (by simpa using hxm)] at hfirst
      exact hfirst.symm

end SortOn

end StableSort
