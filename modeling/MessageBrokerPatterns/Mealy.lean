import Mathlib.Data.List.Basic

/-!
# Machines that answer every input

A machine is a function `step s i` giving the answer to the input `i` in the state `s` and the
state that follows. `outputs` are the answers to a list of inputs. Two machines that a relation
keeps in agreement give the same answers; the relation may speak of the inputs still to come.

`guarded` is a machine that answers an alarm and stays where a condition holds. Until the first
alarm it is the machine that it guards.

`outputsTo mine` are the answers to those inputs that `mine` accepts. A machine that agrees with
another one on its accepted inputs, and that the other inputs do not bring out of agreement, answers
them as the other one does on its own.
-/

namespace Mealy
variable {σ τ ι ο : Type*}

def outputs (step : σ → ι → ο × σ) : σ → List ι → List ο
  | _, [] => []
  | s, i :: is => (step s i).1 :: outputs step (step s i).2 is

theorem outputs_cons (step : σ → ι → ο × σ) (s : σ) (i : ι) (is : List ι) :
    outputs step s (i :: is) = (step s i).1 :: outputs step (step s i).2 is := rfl

theorem outputs_map {ι' : Type*} (step : σ → ι → ο × σ) (g : ι' → ι) (s : σ) (is : List ι') :
    outputs step s (is.map g) = outputs (fun s i => step s (g i)) s is := by
  induction is generalizing s with
  | nil => rfl
  | cons i is ih => rw [List.map_cons, outputs_cons, outputs_cons, ih]

/-- Machines in a relation that fixes the next answer and lasts give the same answers. -/
theorem outputs_eq {f : σ → ι → ο × σ} {g : τ → ι → ο × τ} {R : σ → τ → List ι → Prop}
    (hstep : ∀ s t i is, R s t (i :: is) → (f s i).1 = (g t i).1 ∧ R (f s i).2 (g t i).2 is)
    {s : σ} {t : τ} {is : List ι} (h : R s t is) : outputs f s is = outputs g t is := by
  induction is generalizing s t with
  | nil => rfl
  | cons i is ih =>
    obtain ⟨ha, hn⟩ := hstep s t i is h
    rw [outputs_cons, outputs_cons, ha, ih hn]

/-- Every step of the run of the machine meets the condition. -/
def Along (C : σ → ι → Prop) (step : σ → ι → ο × σ) : σ → List ι → Prop
  | _, [] => True
  | s, i :: is => C s i ∧ Along C step (step s i).2 is

def guarded (bad : σ → ι → Prop) [∀ s i, Decidable (bad s i)] (alarm : ο) (step : σ → ι → ο × σ)
    (s : σ) (i : ι) : ο × σ := if bad s i then (alarm, s) else step s i

/-- Where the machine never answers the alarm, the guard is noticed exactly if it once acts. -/
theorem outputs_guarded_iff {bad : σ → ι → Prop} [∀ s i, Decidable (bad s i)] {alarm : ο}
    {step : σ → ι → ο × σ} (halarm : ∀ s i, (step s i).1 ≠ alarm) (s : σ) (is : List ι) :
    outputs (guarded bad alarm step) s is = outputs step s is ↔
      Along (fun s i => ¬ bad s i) step s is := by
  induction is generalizing s with
  | nil => exact iff_of_true rfl trivial
  | cons i is ih =>
    rw [outputs_cons, outputs_cons, List.cons.injEq, Along]
    by_cases h : bad s i
    · rw [guarded, if_pos h]
      exact iff_of_false (fun hs => halarm s i hs.1.symm) fun hs => hs.1 h
    · rw [guarded, if_neg h, ih]
      simp [h]

def outputsTo {ι' : Type*} (mine : ι → Option ι') (step : σ → ι → ο × σ) : σ → List ι → List ο
  | _, [] => []
  | s, i :: is =>
      match mine i with
      | some _ => (step s i).1 :: outputsTo mine step (step s i).2 is
      | none => outputsTo mine step (step s i).2 is

theorem outputsTo_eq {ι' : Type*} {mine : ι → Option ι'} {f : σ → ι → ο × σ}
    {g : τ → ι' → ο × τ} {R : σ → τ → List ι → Prop}
    (hmine : ∀ s t i j is, mine i = some j → R s t (i :: is) →
      (f s i).1 = (g t j).1 ∧ R (f s i).2 (g t j).2 is)
    (hother : ∀ s t i is, mine i = none → R s t (i :: is) → R (f s i).2 t is)
    {s : σ} {t : τ} {is : List ι} (h : R s t is) :
    outputsTo mine f s is = outputs g t (is.filterMap mine) := by
  induction is generalizing s t with
  | nil => rfl
  | cons i is ih =>
    cases hi : mine i with
    | none =>
      rw [List.filterMap_cons_none hi]
      simp only [outputsTo, hi]
      exact ih (hother s t i is hi h)
    | some j =>
      obtain ⟨ha, hn⟩ := hmine s t i j is hi h
      rw [List.filterMap_cons_some hi, outputs_cons, ← ha, ← ih hn]
      simp only [outputsTo, hi]

end Mealy
