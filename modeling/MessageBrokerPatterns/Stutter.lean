import Mathlib.Data.List.Basic

/-!
# A line of items served from its head, with repetitions

`stutter ev bouts` is each item of the bouts in turn, shown as often as its bout says. A `Line` has
items that are done, items that wait, and the number of times that the first waiting item has been
shown. Showing it once more appends to the output; settling it, or letting another item arrive,
leaves the output alone. The output is the items in the order of their arrival, up to some item, with
local repetitions only.
-/

namespace Stutter
variable {ι φ : Type*}

def stutter (ev : ι → φ) (bouts : List (ι × ℕ)) : List φ :=
  bouts.flatMap fun b => List.replicate b.2 (ev b.1)

@[simp] theorem stutter_append (ev : ι → φ) (as bs : List (ι × ℕ)) :
    stutter ev (as ++ bs) = stutter ev as ++ stutter ev bs := List.flatMap_append

@[simp] theorem stutter_singleton (ev : ι → φ) (x : ι) (k : ℕ) :
    stutter ev [(x, k)] = List.replicate k (ev x) := by simp [stutter]

theorem stutter_of_once (ev : ι → φ) {bouts : List (ι × ℕ)} (h : ∀ b ∈ bouts, b.2 = 1) :
    stutter ev bouts = (bouts.map Prod.fst).map ev := by
  induction bouts with
  | nil => rfl
  | cons b bs ih =>
    have hb : stutter ev (b :: bs) = List.replicate b.2 (ev b.1) ++ stutter ev bs := rfl
    rw [hb, h b List.mem_cons_self, ih fun c hc => h c (List.mem_cons_of_mem _ hc)]
    rfl

structure Line (ι : Type*) where
  done : List (ι × ℕ)
  waiting : List ι
  copies : ℕ
  shown : ∀ b ∈ done, 1 ≤ b.2
  idle : waiting = [] → copies = 0

namespace Line

def empty : Line ι where
  done := []
  waiting := []
  copies := 0
  shown _ hb := by cases hb
  idle _ := rfl

variable (l : Line ι)

/-- The items in the order of their arrival. -/
def items : List ι := l.done.map Prod.fst ++ l.waiting

/-- The bout of the first waiting item. -/
def head : List (ι × ℕ) := (l.waiting.take 1).map fun x => (x, l.copies)

def output (ev : ι → φ) : List φ := stutter ev (l.done ++ l.head)

def arrive (x : ι) : Line ι where
  done := l.done
  waiting := l.waiting ++ [x]
  copies := l.copies
  shown := l.shown
  idle h := by simp at h

def emit (h : l.waiting ≠ []) : Line ι where
  done := l.done
  waiting := l.waiting
  copies := l.copies + 1
  shown := l.shown
  idle hn := absurd hn h

theorem eq_copies_of_mem_head {b : ι × ℕ} (h : b ∈ l.head) :
    b.2 = l.copies ∧ l.waiting.head? = some b.1 := by
  cases hw : l.waiting with
  | nil => simp [head, hw] at h
  | cons x xs =>
    simp only [head, hw, List.take_succ_cons, List.take_zero, List.map_cons, List.map_nil,
      List.mem_singleton] at h
    subst h
    exact ⟨rfl, rfl⟩

def settle (h : 1 ≤ l.copies) : Line ι where
  done := l.done ++ l.head
  waiting := l.waiting.tail
  copies := 0
  shown b hb := by
    rcases List.mem_append.mp hb with hb | hb
    · exact l.shown b hb
    · rw [(l.eq_copies_of_mem_head hb).1]
      exact h
  idle _ := rfl

variable {l}

theorem head_cons {x : ι} {xs : List ι} (h : l.waiting = x :: xs) : l.head = [(x, l.copies)] := by
  simp [head, h]

theorem output_emit (ev : ι → φ) {x : ι} {xs : List ι} (hx : l.waiting = x :: xs)
    (h : l.waiting ≠ []) : (l.emit h).output ev = l.output ev ++ [ev x] := by
  have he : (l.emit h).head = [(x, l.copies + 1)] := head_cons (l := l.emit h) hx
  simp only [output, he, head_cons hx, stutter_append, stutter_singleton, List.replicate_succ',
    List.append_assoc]
  rfl

theorem output_settle (ev : ι → φ) (h : 1 ≤ l.copies) :
    (l.settle h).output ev = l.output ev := by
  have hz : stutter ev (l.settle h).head = [] := by
    change stutter ev ((l.waiting.tail.take 1).map fun x => (x, 0)) = []
    cases l.waiting.tail with
    | nil => rfl
    | cons y ys => rfl
  rw [output, stutter_append, hz, List.append_nil]
  rfl

theorem items_settle (h : 1 ≤ l.copies) : (l.settle h).items = l.items := by
  cases hw : l.waiting with
  | nil => simp [items, settle, head, hw]
  | cons x xs => simp [items, settle, head, hw]

theorem items_arrive (x : ι) : (l.arrive x).items = l.items ++ [x] :=
  (List.append_assoc _ _ _).symm

theorem output_arrive (ev : ι → φ) (x : ι) : (l.arrive x).output ev = l.output ev := by
  cases h : l.waiting with
  | nil => simp [output, arrive, head, h, l.idle h]
  | cons y ys => simp [output, arrive, head, h]

/-- The output stutters along a first part of the items, each shown at least once. -/
theorem exists_bouts (ev : ι → φ) (l : Line ι) :
    ∃ bouts : List (ι × ℕ), bouts.map Prod.fst <+: l.items ∧ l.output ev = stutter ev bouts ∧
      ∀ b ∈ bouts, 1 ≤ b.2 ∧ (b ∈ l.done ∨ b ∈ l.head) := by
  by_cases hc : l.copies = 0
  · refine ⟨l.done, List.prefix_append _ _, ?_, fun b hb => ⟨l.shown b hb, Or.inl hb⟩⟩
    cases hw : l.waiting with
    | nil => simp [output, head, hw]
    | cons x xs => simp [output, head_cons hw, hc]
  · have hpos : 1 ≤ l.copies := Nat.one_le_iff_ne_zero.mpr hc
    refine ⟨l.done ++ l.head, ?_, rfl, fun b hb => ⟨(l.settle hpos).shown b hb, ?_⟩⟩
    · rw [← items_settle hpos]
      exact List.prefix_append _ _
    · exact List.mem_append.mp hb

theorem output_of_once (ev : ι → φ) (hw : l.waiting = []) (h : ∀ b ∈ l.done, b.2 = 1) :
    l.output ev = l.items.map ev := by
  have hh : l.head = [] := by simp [head, hw]
  rw [output, hh, List.append_nil, stutter_of_once ev h, items, hw, List.append_nil]

end Line
end Stutter
