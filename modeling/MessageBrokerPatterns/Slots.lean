import Mathlib.Algebra.BigOperators.Group.Finset.Basic

/-!
# Tables of slots

A table gives every slot that is in use a state: what a world knows of its workers, of which any
number may have been started. A step gives one slot a new state. What holds of all states, of some
state or of two states with one name is kept by looking at that slot alone, and so is a sum over
the slots.
-/

namespace Slots
variable {ι σ β : Type*} [DecidableEq ι] {f : ι → Option σ} {i : ι} {k : σ}

/-- A slot in use has the new state, or it is another slot with its old one. -/
theorem cases_update {j : ι} {l : σ} (h : Function.update f i (some k) j = some l) :
    (j = i ∧ l = k) ∨ (j ≠ i ∧ f j = some l) := by
  by_cases hj : j = i
  · subst hj
    rw [Function.update_self] at h
    exact Or.inl ⟨rfl, (Option.some.inj h).symm⟩
  · rw [Function.update_of_ne hj] at h
    exact Or.inr ⟨hj, h⟩

/-- What is read off the slots is the same everywhere if it is at the slot that has changed. -/
theorem readout_eq {g g' : ι → β} (hself : g' i = g i) (hother : ∀ j, j ≠ i → g' j = g j) :
    g' = g := by
  funext j
  by_cases hj : j = i
  · rw [hj, hself]
  · exact hother j hj

theorem forall_update {P : ι → σ → Prop} (h : ∀ j l, f j = some l → P j l) (hk : P i k) :
    ∀ j l, Function.update f i (some k) j = some l → P j l := by
  intro j l hl
  rcases cases_update hl with ⟨rfl, rfl⟩ | ⟨-, hl⟩
  · exact hk
  · exact h j l hl

theorem exists_update {P : σ → Prop} (h : ∃ j l, f j = some l ∧ P l)
    (hk : ∀ l, f i = some l → P l → P k) :
    ∃ j l, Function.update f i (some k) j = some l ∧ P l := by
  obtain ⟨j, l, hl, hp⟩ := h
  by_cases hj : j = i
  · subst hj
    exact ⟨j, k, Function.update_self .., hk l hl hp⟩
  · exact ⟨j, l, (Function.update_of_ne hj ..).trans hl, hp⟩

theorem injective_update (name : σ → β)
    (h : ∀ a b l m, f a = some l → f b = some m → name l = name m → a = b)
    (hk : ∀ j l, j ≠ i → f j = some l → name k ≠ name l) :
    ∀ a b l m, Function.update f i (some k) a = some l → Function.update f i (some k) b = some m →
      name l = name m → a = b := by
  intro a b l m ha hb heq
  rcases cases_update ha with ⟨rfl, rfl⟩ | ⟨hai, ha'⟩
  · rcases cases_update hb with ⟨rfl, -⟩ | ⟨hbi, hb'⟩
    · rfl
    · exact absurd heq (hk b m hbi hb')
  · rcases cases_update hb with ⟨rfl, rfl⟩ | ⟨-, hb'⟩
    · exact absurd heq.symm (hk a l hai ha')
    · exact h a b l m ha' hb' heq

theorem sum_update (amount : Option σ → ℕ) {S : Finset ι} (hi : i ∈ S) :
    ∑ j ∈ S, amount (Function.update f i (some k) j) + amount (f i) =
      ∑ j ∈ S, amount (f j) + amount (some k) := by
  have hrest : ∑ j ∈ S.erase i, amount (Function.update f i (some k) j) =
      ∑ j ∈ S.erase i, amount (f j) :=
    Finset.sum_congr rfl fun j hj => by rw [Function.update_of_ne (Finset.ne_of_mem_erase hj)]
  rw [← Finset.add_sum_erase S _ hi, ← Finset.add_sum_erase S (fun j => amount (f j)) hi, hrest,
    Function.update_self]
  omega

end Slots
