import Mathlib.Order.Defs.LinearOrder
import Mathlib.Data.Set.Card

/-!
# Ledgers whose entries fade

A ledger keeps for each key the instant of its last recording and never drops one. A key is live
at an instant that comes before its last recording plus the retention `ttl`.
-/

namespace ExpiringLedger
variable {κ τ : Type*} [LinearOrder τ] [Add τ]

abbrev Ledger (κ τ : Type*) := κ → Option τ

def record [DecidableEq κ] (last : Ledger κ τ) (k : κ) (t : τ) : Ledger κ τ :=
  Function.update last k (some t)

def LiveAt (ttl t : τ) (last : Ledger κ τ) (k : κ) : Prop := ∃ m, last k = some m ∧ t < m + ttl

noncomputable def liveCount (ttl t : τ) (last : Ledger κ τ) : ℕ := {k | LiveAt ttl t last k}.ncard

instance (ttl t : τ) (last : Ledger κ τ) (k : κ) : Decidable (LiveAt ttl t last k) :=
  match h : last k with
  | none => isFalse fun ⟨_, hm, _⟩ => by rw [h] at hm; cases hm
  | some m =>
    if hlt : t < m + ttl then isTrue ⟨m, h, hlt⟩
    else isFalse fun ⟨m', hm, hlt'⟩ => by
      rw [h] at hm
      cases hm
      exact hlt hlt'

theorem not_liveAt_iff {ttl t : τ} {last : Ledger κ τ} {k : κ} :
    ¬ LiveAt ttl t last k ↔ last k = none ∨ ∃ m, last k = some m ∧ m + ttl ≤ t := by
  cases h : last k with
  | none => simp [LiveAt, h]
  | some m => simp [LiveAt, h]

theorem liveAt_record [DecidableEq κ] {ttl t m : τ} {last : Ledger κ τ} {k k' : κ} :
    LiveAt ttl t (record last k m) k' ↔
      if k = k' then t < m + ttl else LiveAt ttl t last k' := by
  by_cases hk : k = k'
  · subst hk
    simp [LiveAt, record]
  · rw [if_neg hk, LiveAt, record, Function.update_of_ne (Ne.symm hk), LiveAt]

end ExpiringLedger
