import Mathlib.Data.List.Basic
import Mathlib.Data.Set.Basic

/-!
# Runs of a partial action system

A system is a partial step function: `step s a = none` means that the action `a` is not enabled
in the state `s`. `run` performs a list of actions, `Along C` asks that every action of a run is
taken in a state where `C` allows it, and `Throughout P` asks that `P` holds of every state that
the run visits. `drive` lets a strategy choose each action.

An invariant of the steps is an invariant of the runs, and a measure that decreases on every
driven step short of a goal leads to the goal.
-/

namespace ActionRun
variable {σ α : Type*} (step : σ → α → Option σ)

def run : σ → List α → Option σ
  | s, [] => some s
  | s, a :: as => (step s a).bind fun t => run t as

def Along (C : σ → α → Prop) : σ → List α → Prop
  | _, [] => True
  | s, a :: as => C s a ∧ ∀ t, step s a = some t → Along C t as

def Throughout (P : σ → Prop) : σ → List α → Prop
  | s, [] => P s
  | s, a :: as => P s ∧ ∀ t, step s a = some t → Throughout P t as

def drive (act : σ → α) : ℕ → σ → Option σ
  | 0, s => some s
  | n + 1, s => (step s (act s)).bind (drive act n)

variable {step}

theorem run_cons (s : σ) (a : α) (as : List α) :
    run step s (a :: as) = (step s a).bind fun t => run step t as := rfl

theorem run_cons_eq_some {s t : σ} {a : α} {as : List α} :
    run step s (a :: as) = some t ↔ ∃ u, step s a = some u ∧ run step u as = some t := by
  rw [run_cons, Option.bind_eq_some_iff]

theorem run_append (s : σ) (as bs : List α) :
    run step s (as ++ bs) = (run step s as).bind fun t => run step t bs := by
  induction as generalizing s with
  | nil => rfl
  | cons a as ih =>
    simp only [List.cons_append, run_cons, Option.bind_assoc]
    congr 1
    funext t
    exact ih t

theorem run_append_eq_some {s t : σ} {as bs : List α} :
    run step s (as ++ bs) = some t ↔ ∃ u, run step s as = some u ∧ run step u bs = some t := by
  rw [run_append, Option.bind_eq_some_iff]

/-- A property that every allowed step preserves holds after every allowed run. -/
theorem run_invariant {I : σ → Prop} {C : σ → α → Prop}
    (hstep : ∀ s a t, I s → C s a → step s a = some t → I t) {s t : σ} {as : List α}
    (hs : I s) (hc : Along step C s as) (hr : run step s as = some t) : I t := by
  induction as generalizing s with
  | nil =>
    cases hr
    exact hs
  | cons a as ih =>
    obtain ⟨u, hu, hr⟩ := run_cons_eq_some.mp hr
    exact ih (hstep s a u hs hc.1 hu) (hc.2 u hu) hr

theorem along_true (s : σ) (as : List α) : Along step (fun _ _ => True) s as := by
  induction as generalizing s with
  | nil => trivial
  | cons a as ih => exact ⟨trivial, fun t _ => ih t⟩

theorem run_invariant_of_step {I : σ → Prop} (hstep : ∀ s a t, I s → step s a = some t → I t)
    {s t : σ} {as : List α} (hs : I s) (hr : run step s as = some t) : I t :=
  run_invariant (fun s a t hi _ h => hstep s a t hi h) hs (along_true s as) hr

theorem along_of_forall {C : σ → α → Prop} {as : List α} (h : ∀ a ∈ as, ∀ s, C s a) (s : σ) :
    Along step C s as := by
  induction as generalizing s with
  | nil => trivial
  | cons a as ih =>
    exact ⟨h a List.mem_cons_self s, fun t _ => ih (fun b hb => h b (List.mem_cons_of_mem _ hb)) t⟩

theorem along_mono {I : σ → Prop} {C D : σ → α → Prop}
    (hstep : ∀ s a t, I s → C s a → step s a = some t → I t) (hcd : ∀ s a, I s → C s a → D s a)
    {s : σ} {as : List α} (hs : I s) (hc : Along step C s as) : Along step D s as := by
  induction as generalizing s with
  | nil => trivial
  | cons a as ih =>
    exact ⟨hcd s a hs hc.1, fun t ht => ih (hstep s a t hs hc.1 ht) (hc.2 t ht)⟩

theorem along_and {C D : σ → α → Prop} {s : σ} {as : List α} :
    Along step (fun s a => C s a ∧ D s a) s as ↔ Along step C s as ∧ Along step D s as := by
  induction as generalizing s with
  | nil => simp [Along]
  | cons a as ih =>
    simp only [Along, ih]
    constructor
    · rintro ⟨⟨hc, hd⟩, h⟩
      exact ⟨⟨hc, fun t ht => (h t ht).1⟩, hd, fun t ht => (h t ht).2⟩
    · rintro ⟨⟨hc, h⟩, hd, h'⟩
      exact ⟨⟨hc, hd⟩, fun t ht => ⟨h t ht, h' t ht⟩⟩

theorem along_cons {C : σ → α → Prop} {s t : σ} {a : α} {as : List α} (ht : step s a = some t) :
    Along step C s (a :: as) ↔ C s a ∧ Along step C t as := by
  simp only [Along, ht, Option.some.injEq, forall_eq']

theorem along_append {C : σ → α → Prop} {s : σ} {as bs : List α} :
    Along step C s (as ++ bs) ↔
      Along step C s as ∧ ∀ t, run step s as = some t → Along step C t bs := by
  induction as generalizing s with
  | nil => simp [Along, run]
  | cons a as ih =>
    simp only [List.cons_append, Along, ih, run_cons_eq_some]
    constructor
    · rintro ⟨hc, h⟩
      exact ⟨⟨hc, fun t ht => (h t ht).1⟩, fun u ⟨t, ht, hu⟩ => (h t ht).2 u hu⟩
    · rintro ⟨⟨hc, h⟩, h'⟩
      exact ⟨hc, fun t ht => ⟨h t ht, fun u hu => h' u ⟨t, ht, hu⟩⟩⟩

/-- When a step that misses a condition makes a property hold, and the property stays, a run ends
with the property or meets the condition throughout. -/
theorem reached_or_along {I P : σ → Prop} {C D : σ → α → Prop}
    (hI : ∀ s a t, I s → D s a → step s a = some t → I t)
    (hP : ∀ s a t, I s → D s a → P s ∨ ¬ C s a → step s a = some t → P t) {s t : σ} {as : List α}
    (hs : I s) (hd : Along step D s as) (hr : run step s as = some t) :
    P t ∨ Along step C s as := by
  induction as generalizing s with
  | nil => exact Or.inr trivial
  | cons a as ih =>
    obtain ⟨u, hu, hr⟩ := run_cons_eq_some.mp hr
    have hiu := hI s a u hs hd.1 hu
    by_cases hc : C s a
    · apply (ih hiu (hd.2 u hu) hr).imp_right
      intro has
      exact (along_cons hu).mpr ⟨hc, has⟩
    · have hpu := hP s a u hs hd.1 (Or.inr hc) hu
      have hboth := run_invariant (I := fun v => I v ∧ P v)
        (fun v b x hv hb h => ⟨hI v b x hv.1 hb h, hP v b x hv.1 hb (Or.inl hv.2) h⟩)
        ⟨hiu, hpu⟩ (hd.2 u hu) hr
      exact Or.inl hboth.2

/-- When each step meets a condition exactly if it keeps a property, a run meets the condition
throughout exactly if the property holds of every state it visits. -/
theorem along_iff_throughout {I P : σ → Prop} {C : σ → α → Prop}
    (hI : ∀ s a t, I s → step s a = some t → I t)
    (hC : ∀ s a t, I s → P s → step s a = some t → (C s a ↔ P t)) {s t : σ} {as : List α}
    (hs : I s) (hp : P s) (hr : run step s as = some t) :
    Along step C s as ↔ Throughout step P s as := by
  induction as generalizing s with
  | nil => exact ⟨fun _ => hp, fun _ => trivial⟩
  | cons a as ih =>
    obtain ⟨u, hu, hr⟩ := run_cons_eq_some.mp hr
    have hiu := hI s a u hs hu
    constructor
    · rintro ⟨hc, h⟩
      refine ⟨hp, fun v hv => ?_⟩
      obtain rfl := Option.some.inj (hu.symm.trans hv)
      exact (ih hiu ((hC s a u hs hp hu).mp hc) hr).mp (h u hu)
    · rintro ⟨_, h⟩
      have hpu : P u := by
        have hu' := h u hu
        cases as with
        | nil => exact hu'
        | cons _ _ => exact hu'.1
      refine ⟨(hC s a u hs hp hu).mpr hpu, fun v hv => ?_⟩
      obtain rfl := Option.some.inj (hu.symm.trans hv)
      exact (ih hiu hpu hr).mpr (h u hu)

/-- When each allowed step has a property exactly if the state before it had it and the step meets a
condition, an allowed run ends with the property exactly if it meets the condition throughout. -/
theorem iff_and_along_of {I P : σ → Prop} {C D : σ → α → Prop}
    (hI : ∀ s a t, I s → D s a → step s a = some t → I t)
    (hC : ∀ s a t, I s → D s a → step s a = some t → (P t ↔ P s ∧ C s a)) {s t : σ} {as : List α}
    (hs : I s) (hd : Along step D s as) (hr : run step s as = some t) :
    P t ↔ P s ∧ Along step C s as := by
  induction as generalizing s with
  | nil =>
    cases hr
    simp [Along]
  | cons a as ih =>
    obtain ⟨u, hu, hr⟩ := run_cons_eq_some.mp hr
    rw [ih (hI s a u hs hd.1 hu) (hd.2 u hu) hr, hC s a u hs hd.1 hu, along_cons hu, and_assoc]

theorem iff_and_along {I P : σ → Prop} {C : σ → α → Prop}
    (hI : ∀ s a t, I s → step s a = some t → I t)
    (hC : ∀ s a t, I s → step s a = some t → (P t ↔ P s ∧ C s a)) {s t : σ} {as : List α}
    (hs : I s) (hr : run step s as = some t) : P t ↔ P s ∧ Along step C s as :=
  iff_and_along_of (fun s a t hi _ h => hI s a t hi h) (fun s a t hi _ h => hC s a t hi h) hs
    (along_true s as) hr

/-- A measure that falls with every allowed step bounds the length of the runs. -/
theorem length_add_le {I : σ → Prop} {C : σ → α → Prop} (μ : σ → ℕ)
    (hstep : ∀ s a t, I s → C s a → step s a = some t → I t ∧ μ t < μ s) {s t : σ} {as : List α}
    (hs : I s) (hc : Along step C s as) (hr : run step s as = some t) :
    as.length + μ t ≤ μ s := by
  induction as generalizing s with
  | nil =>
    cases hr
    rw [List.length_nil, Nat.zero_add]
  | cons a as ih =>
    obtain ⟨u, hu, hr⟩ := run_cons_eq_some.mp hr
    obtain ⟨hiu, hlt⟩ := hstep s a u hs hc.1 hu
    have hle := ih hiu (hc.2 u hu) hr
    rw [List.length_cons]
    omega

/-- A measure that no step raises bounds the number of the steps that lower it. -/
theorem countP_add_le {I : σ → Prop} {p : α → Bool} (μ : σ → ℕ)
    (hstep : ∀ s a t, I s → step s a = some t → I t ∧ μ t + (if p a then 1 else 0) ≤ μ s) {s t : σ}
    {as : List α} (hs : I s) (hr : run step s as = some t) : as.countP p + μ t ≤ μ s := by
  induction as generalizing s with
  | nil =>
    cases hr
    rw [List.countP_nil, Nat.zero_add]
  | cons a as ih =>
    obtain ⟨u, hu, hr⟩ := run_cons_eq_some.mp hr
    obtain ⟨hiu, hle⟩ := hstep s a u hs hu
    have hrest := ih hiu hr
    rw [List.countP_cons]
    omega

/-- A measure that falls on every driven step that misses the goal leads to the goal. -/
theorem drive_reaches {act : σ → α} {I G : σ → Prop} (μ : σ → ℕ)
    (hstep : ∀ s, I s → ∃ t, step s (act s) = some t ∧ I t ∧ (G t ∨ μ t < μ s)) {s : σ} (hs : I s) :
    ∃ n t, drive step act n s = some t ∧ G t := by
  induction hm : μ s using Nat.strong_induction_on generalizing s with
  | _ m ih =>
    obtain ⟨t, ht, hit, hgt | hlt⟩ := hstep s hs
    · exact ⟨1, t, by simp only [drive, ht, Option.bind_some], hgt⟩
    · obtain ⟨n, u, hn, hgu⟩ := ih (μ t) (hm ▸ hlt) hit rfl
      exact ⟨n + 1, u, by simp only [drive, ht, Option.bind_some, hn], hgu⟩

theorem drive_add (act : σ → α) (m n : ℕ) (s : σ) :
    drive step act (m + n) s = (drive step act m s).bind (drive step act n) := by
  induction m generalizing s with
  | zero => rw [Nat.zero_add, drive, Option.bind_some]
  | succ m ih =>
    rw [Nat.add_right_comm, drive, drive, Option.bind_assoc]
    congr 1
    funext t
    exact ih t

theorem drive_congr {act act' : σ → α} {n : ℕ} {s : σ}
    (h : ∀ m u, drive step act m s = some u → act u = act' u) :
    drive step act n s = drive step act' n s := by
  induction n generalizing s with
  | zero => rfl
  | succ n ih =>
    rw [drive, drive, ← h 0 s rfl]
    cases ht : step s (act s) with
    | none => rfl
    | some t => exact ih fun m u hu => h (m + 1) u (by rw [drive, ht]; exact hu)

theorem drive_invariant {act : σ → α} {I : σ → Prop}
    (hstep : ∀ s t, I s → step s (act s) = some t → I t) {n : ℕ} {s t : σ} (hs : I s)
    (h : drive step act n s = some t) : I t := by
  induction n generalizing s with
  | zero =>
    cases h
    exact hs
  | succ n ih =>
    obtain ⟨u, hu, h⟩ := Option.bind_eq_some_iff.mp h
    exact ih (hstep s u hs hu) h

end ActionRun
