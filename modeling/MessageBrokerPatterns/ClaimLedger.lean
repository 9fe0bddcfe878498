import Mathlib.Data.List.Nodup

/-!
# Work that is claimed and handled

Any number of workers claim pieces of work in batches and handle them one by one. As long as only
fresh pieces are claimed, every piece that was issued is handled or claimed by exactly one worker,
and no piece is handled twice. A piece that is handled or claimed when it is claimed is handled
twice once all claims have been worked off.
-/

variable {ι α : Type*}

/-- Every issued piece is handled or in the claims of exactly one worker. -/
structure Claimed (claims : ι → List α) (handled issued : α → Prop) : Prop where
  cover : ∀ a, issued a → handled a ∨ ∃ i, a ∈ claims i
  held : ∀ i a, a ∈ claims i → issued a ∧ ¬ handled a
  bounded : ∀ a, handled a → issued a
  lone : ∀ i j a, a ∈ claims i → a ∈ claims j → i = j
  nodup : ∀ i, (claims i).Nodup

namespace Claimed
variable {claims claims' : ι → List α} {handled handled' issued issued' : α → Prop} {i : ι}

theorem empty : Claimed (fun _ : ι => ([] : List α)) (fun _ => False) fun _ => False where
  cover _ h := h.elim
  held _ _ h := by cases h
  bounded _ h := h
  lone _ _ _ h := by cases h
  nodup _ := List.nodup_nil

theorem issue (h : Claimed claims handled issued) {fresh : List α} (hi : claims i = [])
    (hother : ∀ j, j ≠ i → claims' j = claims j) (hself : claims' i = fresh)
    (hfresh : fresh.Nodup) (hnew : ∀ a ∈ fresh, ¬ issued a)
    (hissued : ∀ a, issued' a ↔ issued a ∨ a ∈ fresh) : Claimed claims' handled issued' := by
  have hback {j : ι} {a : α} (ha : a ∈ claims j) : a ∈ claims' j := by
    by_cases hj : j = i
    · subst hj
      rw [hi] at ha
      cases ha
    · rwa [hother j hj]
  have hcases {j : ι} {a : α} (ha : a ∈ claims' j) : (j = i ∧ a ∈ fresh) ∨ a ∈ claims j := by
    by_cases hj : j = i
    · subst hj
      exact Or.inl ⟨rfl, hself ▸ ha⟩
    · rw [hother j hj] at ha
      exact Or.inr ha
  refine ⟨fun a ha => ?_, fun j a ha => ?_, fun a ha => (hissued a).mpr (Or.inl (h.bounded a ha)),
    fun j l a hj hl => ?_, fun j => ?_⟩
  · rcases (hissued a).mp ha with ha | ha
    · exact (h.cover a ha).imp_right fun ⟨j, hj⟩ => ⟨j, hback hj⟩
    · exact Or.inr ⟨i, hself.symm ▸ ha⟩
  · rcases hcases ha with ⟨-, ha⟩ | ha
    · exact ⟨(hissued a).mpr (Or.inr ha), fun hh => hnew a ha (h.bounded a hh)⟩
    · exact ⟨(hissued a).mpr (Or.inl (h.held j a ha).1), (h.held j a ha).2⟩
  · rcases hcases hj with ⟨rfl, hj⟩ | hj
    · rcases hcases hl with ⟨rfl, -⟩ | hl
      · rfl
      · exact absurd (h.held l a hl).1 (hnew a hj)
    · rcases hcases hl with ⟨rfl, hl⟩ | hl
      · exact absurd (h.held j a hj).1 (hnew a hl)
      · exact h.lone j l a hj hl
  · by_cases hj : j = i
    · subst hj
      rwa [hself]
    · rw [hother j hj]
      exact h.nodup j

theorem complete (h : Claimed claims handled issued) {a : α} {rest : List α}
    (hi : claims i = a :: rest) (hother : ∀ j, j ≠ i → claims' j = claims j)
    (hself : claims' i = rest) (hh : ∀ b, handled' b ↔ handled b ∨ b = a) :
    Claimed claims' handled' issued := by
  have hin : a ∈ claims i := hi ▸ List.mem_cons_self
  have hsub {j : ι} {b : α} (hb : b ∈ claims' j) : b ∈ claims j := by
    by_cases hj : j = i
    · subst hj
      rw [hi]
      exact List.mem_cons_of_mem _ (hself ▸ hb)
    · rwa [hother j hj] at hb
  have hgone {j : ι} (ha : a ∈ claims' j) : False := by
    obtain rfl := h.lone j i a (hsub ha) hin
    rw [hself] at ha
    have hn := h.nodup j
    rw [hi] at hn
    exact (List.nodup_cons.mp hn).1 ha
  refine ⟨fun b hb => ?_, fun j b hb => ?_, fun b hb => ?_,
    fun j l b hj hl => h.lone j l b (hsub hj) (hsub hl), fun j => ?_⟩
  · rw [hh]
    by_cases hba : b = a
    · exact Or.inl (Or.inr hba)
    · rcases h.cover b hb with hb | ⟨j, hj⟩
      · exact Or.inl (Or.inl hb)
      · refine Or.inr ⟨j, ?_⟩
        by_cases hji : j = i
        · subst hji
          rw [hi, List.mem_cons] at hj
          rw [hself]
          exact hj.resolve_left hba
        · rwa [hother j hji]
  · obtain ⟨h₁, h₂⟩ := h.held j b (hsub hb)
    refine ⟨h₁, fun hb' => ?_⟩
    rcases (hh b).mp hb' with hb' | rfl
    · exact h₂ hb'
    · exact hgone hb
  · rcases (hh b).mp hb with hb | rfl
    · exact h.bounded b hb
    · exact (h.held i b hin).1
  · by_cases hj : j = i
    · subst hj
      rw [hself]
      have hn := h.nodup j
      rw [hi] at hn
      exact (List.nodup_cons.mp hn).2
    · rw [hother j hj]
      exact h.nodup j

theorem transfer (h : Claimed claims handled issued) {j : ι} (hij : i ≠ j) {a : α} {rest : List α}
    (hi : claims i = a :: rest) (hother : ∀ l, l ≠ i → l ≠ j → claims' l = claims l)
    (hself : claims' i = rest) (hj : claims' j = claims j ++ [a]) :
    Claimed claims' handled issued := by
  have hin : a ∈ claims i := hi ▸ List.mem_cons_self
  have hnodup := h.nodup i
  rw [hi] at hnodup
  have hcases {l : ι} {b : α} (hb : b ∈ claims' l) : (l = j ∧ b = a) ∨ (b ≠ a ∧ b ∈ claims l) := by
    by_cases hli : l = i
    · subst hli
      rw [hself] at hb
      refine Or.inr ⟨?_, hi ▸ List.mem_cons_of_mem _ hb⟩
      rintro rfl
      exact (List.nodup_cons.mp hnodup).1 hb
    · have hne {b : α} (hb : b ∈ claims l) : b ≠ a := by
        rintro rfl
        exact hli (h.lone l i b hb hin)
      by_cases hlj : l = j
      · subst hlj
        rw [hj, List.mem_append, List.mem_singleton] at hb
        exact hb.symm.imp (fun hb => ⟨rfl, hb⟩) fun hb => ⟨hne hb, hb⟩
      · rw [hother l hli hlj] at hb
        exact Or.inr ⟨hne hb, hb⟩
  refine ⟨fun b hb => (h.cover b hb).imp_right ?_, fun l b hb => ?_, h.bounded,
    fun l m b hl hm => ?_, fun l => ?_⟩
  · rintro ⟨l, hl⟩
    by_cases hba : b = a
    · exact ⟨j, by rw [hj, hba]; exact List.mem_append_right _ (List.mem_singleton.mpr rfl)⟩
    · by_cases hli : l = i
      · subst hli
        rw [hi] at hl
        exact ⟨l, hself ▸ (List.mem_cons.mp hl).resolve_left hba⟩
      · by_cases hlj : l = j
        · subst hlj
          exact ⟨l, hj ▸ List.mem_append_left _ hl⟩
        · exact ⟨l, (hother l hli hlj).symm ▸ hl⟩
  · rcases hcases hb with ⟨-, rfl⟩ | ⟨-, hb⟩
    · exact h.held i b hin
    · exact h.held l b hb
  · rcases hcases hl with ⟨rfl, rfl⟩ | ⟨hne, hl'⟩
    · rcases hcases hm with ⟨rfl, -⟩ | ⟨hne, -⟩
      · rfl
      · exact absurd rfl hne
    · rcases hcases hm with ⟨-, heq⟩ | ⟨-, hm'⟩
      · exact absurd heq hne
      · exact h.lone l m b hl' hm'
  · by_cases hli : l = i
    · subst hli
      rw [hself]
      exact (List.nodup_cons.mp hnodup).2
    · by_cases hlj : l = j
      · subst hlj
        rw [hj, ← List.concat_eq_append, List.nodup_concat]
        exact ⟨fun hmem => hij (h.lone i l a hin hmem), h.nodup l⟩
      · rw [hother l hli hlj]
        exact h.nodup l

end Claimed

/-- The piece has been handled, or waits to be handled, at least twice. -/
def Overclaimed (claims : ι → List α) (count : α → ℕ) (a : α) : Prop :=
  2 ≤ count a ∨ (1 ≤ count a ∧ ∃ i, a ∈ claims i) ∨ ∃ i j, i ≠ j ∧ a ∈ claims i ∧ a ∈ claims j

namespace Overclaimed
variable {claims claims' : ι → List α} {count count' : α → ℕ} {a b : α} {i : ι}

theorem mono (h : Overclaimed claims count a) (hsub : ∀ j, a ∈ claims j → a ∈ claims' j) :
    Overclaimed claims' count a := by
  rcases h with h | ⟨h, j, hj⟩ | ⟨j, l, hne, hj, hl⟩
  · exact Or.inl h
  · exact Or.inr (Or.inl ⟨h, j, hsub j hj⟩)
  · exact Or.inr (Or.inr ⟨j, l, hne, hsub j hj, hsub l hl⟩)

theorem complete [DecidableEq α] (h : Overclaimed claims count a) {rest : List α}
    (hi : claims i = b :: rest) (hother : ∀ j, j ≠ i → claims' j = claims j)
    (hself : claims' i = rest) (hcount : count' a = count a + if a = b then 1 else 0) :
    Overclaimed claims' count' a := by
  have hkeep {j : ι} (hj : a ∈ claims j) : a ∈ claims' j ∨ (j = i ∧ a = b) := by
    by_cases hji : j = i
    · subst hji
      rw [hi] at hj
      rw [hself]
      exact (List.mem_cons.mp hj).symm.imp_right fun h => ⟨rfl, h⟩
    · exact Or.inl (hother j hji ▸ hj)
  rcases h with h | ⟨h, j, hj⟩ | ⟨j, l, hne, hj, hl⟩
  · exact Or.inl (by omega)
  · rcases hkeep hj with hj | ⟨-, hab⟩
    · exact Or.inr (Or.inl ⟨by omega, j, hj⟩)
    · rw [if_pos hab] at hcount
      exact Or.inl (by omega)
  · rcases hkeep hj with hj | ⟨rfl, hab⟩
    · rcases hkeep hl with hl | ⟨-, hab⟩
      · exact Or.inr (Or.inr ⟨j, l, hne, hj, hl⟩)
      · rw [if_pos hab] at hcount
        exact Or.inr (Or.inl ⟨by omega, j, hj⟩)
    · rw [if_pos hab] at hcount
      exact Or.inr (Or.inl ⟨by omega, l, hother l hne.symm ▸ hl⟩)

theorem two_le_count (h : Overclaimed claims count a) (hnone : ∀ j, a ∉ claims j) :
    2 ≤ count a := by
  rcases h with h | ⟨-, j, hj⟩ | ⟨j, -, -, hj, -⟩
  · exact h
  · exact absurd hj (hnone j)
  · exact absurd hj (hnone j)

end Overclaimed
