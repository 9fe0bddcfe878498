import Mathlib.Algebra.BigOperators.Ring.Finset
import Mathlib.Algebra.Order.BigOperators.Group.Finset
import Mathlib.Algebra.Module.NatInt

/-!
# Readers that answer the entries of a shared log

Every reader moves through a source log with a cursor of its own and answers each asking entry by
one answering entry in a target log. `Answered` is the ledger of such a system: the target holds one
answer for each reader and each asking entry behind its cursor. Nothing keeps two readers from
answering the same entry, so an entry may be answered as often as there are readers.
-/

namespace ReactionLedger
open scoped BigOperators
variable {ρ φ : Type*} [Fintype ρ] {source target : List φ} {cursor : ρ → ℕ}
  {asks answers : φ → Bool}

structure Answered (source target : List φ) (cursor : ρ → ℕ) (asks answers : φ → Bool) : Prop where
  within : ∀ r, cursor r ≤ source.length
  balance : target.countP answers = ∑ r, (source.take (cursor r)).countP asks

theorem sum_eq_sum_add [DecidableEq ρ] {f g : ρ → ℕ} {r : ρ} {n : ℕ} (hself : g r = f r + n)
    (hne : ∀ q, q ≠ r → g q = f q) : ∑ q, g q = ∑ q, f q + n := by
  have hrest : ∑ q ∈ Finset.univ.erase r, g q = ∑ q ∈ Finset.univ.erase r, f q :=
    Finset.sum_congr rfl fun q hq => hne q (Finset.ne_of_mem_erase hq)
  rw [← Finset.add_sum_erase _ g (Finset.mem_univ r),
    ← Finset.add_sum_erase _ f (Finset.mem_univ r), hrest, hself]
  omega

namespace Answered

theorem empty (asks answers : φ → Bool) :
    Answered ([] : List φ) [] (fun _ : ρ => 0) asks answers := by
  refine ⟨fun _ => le_rfl, ?_⟩
  simp

theorem append_source (h : Answered source target cursor asks answers) (l : List φ) :
    Answered (source ++ l) target cursor asks answers := by
  constructor
  · intro r
    rw [List.length_append]
    exact (h.within r).trans (Nat.le_add_right _ _)
  · rw [h.balance]
    refine Finset.sum_congr rfl fun r _ => ?_
    rw [List.take_append_of_le_length (h.within r)]

theorem pass [DecidableEq ρ] (h : Answered source target cursor asks answers) {r : ρ} {f : φ}
    (hf : source[cursor r]? = some f) {l : List φ}
    (hl : l.countP answers = if asks f then 1 else 0) :
    Answered source (target ++ l) (Function.update cursor r (cursor r + 1)) asks answers := by
  obtain ⟨hlt, -⟩ := List.getElem?_eq_some_iff.mp hf
  constructor
  · intro q
    by_cases hq : q = r
    · subst hq
      rw [Function.update_self]
      exact hlt
    · rw [Function.update_of_ne hq]
      exact h.within q
  · have hstep : (source.take (cursor r + 1)).countP asks =
        (source.take (cursor r)).countP asks + if asks f then 1 else 0 := by
      rw [List.take_add_one, hf, List.countP_append, Option.toList_some, List.countP_singleton]
    rw [List.countP_append, h.balance, hl]
    refine (sum_eq_sum_add (r := r) ?_ fun q hq => ?_).symm
    · rw [Function.update_self, hstep]
    · rw [Function.update_of_ne hq]

theorem le_card_mul (h : Answered source target cursor asks answers) :
    target.countP answers ≤ Fintype.card ρ * source.countP asks := by
  rw [h.balance, ← Finset.card_univ, ← smul_eq_mul]
  exact Finset.sum_le_card_nsmul _ _ _ fun r _ => (List.take_sublist _ _).countP_le

theorem asked_of_answered (h : Answered source target cursor asks answers)
    (hpos : 0 < target.countP answers) : 0 < source.countP asks := by
  rcases Nat.eq_zero_or_pos (source.countP asks) with hzero | hasks
  · have hle := h.le_card_mul
    rw [hzero, Nat.mul_zero] at hle
    omega
  · exact hasks

/-- An entry that asks alone is answered once by each reader that has passed it. -/
theorem eq_card_of_countP_le_one (h : Answered source target cursor asks answers)
    (hone : source.countP asks ≤ 1) :
    target.countP answers =
      (Finset.univ.filter fun r => ∃ f ∈ source.take (cursor r), asks f).card := by
  rw [h.balance, Finset.card_filter]
  refine Finset.sum_congr rfl fun r _ => ?_
  have hle : (source.take (cursor r)).countP asks ≤ 1 :=
    (List.take_sublist _ _).countP_le.trans hone
  split_ifs with hasks
  · have hpos := List.countP_pos_iff.mpr hasks
    omega
  · have hnot := mt List.countP_pos_iff.mp hasks
    omega

end Answered
end ReactionLedger
