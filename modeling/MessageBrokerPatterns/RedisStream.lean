import Mathlib.Data.List.Basic
import Mathlib.Data.List.Range
import Mathlib.Tactic.Linarith

/-!
# Redis streams

A stream is the list of its entries, and the id of an entry is its position counted from one, so
that the cursor `0` stands before the first entry: nothing reads more off an id than its order.
`xread` returns the first `count` entries behind a cursor.
-/

namespace RedisStream
variable {φ : Type*}

def numberFrom (n : ℕ) : List φ → List (ℕ × φ)
  | [] => []
  | f :: fs => (n, f) :: numberFrom (n + 1) fs

@[simp] theorem numberFrom_nil (n : ℕ) : numberFrom n ([] : List φ) = [] := rfl

@[simp] theorem length_numberFrom (n : ℕ) (l : List φ) : (numberFrom n l).length = l.length := by
  induction l generalizing n with
  | nil => rfl
  | cons f fs ih => simp [numberFrom, ih]

@[simp] theorem map_snd_numberFrom (n : ℕ) (l : List φ) : (numberFrom n l).map Prod.snd = l := by
  induction l generalizing n with
  | nil => rfl
  | cons f fs ih => simp [numberFrom, ih]

@[simp] theorem map_fst_numberFrom (n : ℕ) (l : List φ) :
    (numberFrom n l).map Prod.fst = List.range' n l.length := by
  induction l generalizing n with
  | nil => rfl
  | cons f fs ih => simp [numberFrom, ih, List.range'_succ]

theorem numberFrom_append (n : ℕ) (l l' : List φ) :
    numberFrom n (l ++ l') = numberFrom n l ++ numberFrom (n + l.length) l' := by
  induction l generalizing n with
  | nil => rfl
  | cons f fs ih =>
    rw [List.cons_append, numberFrom, ih, numberFrom, List.cons_append, List.length_cons,
      Nat.add_right_comm, Nat.add_assoc]

theorem mem_numberFrom {n : ℕ} {l : List φ} {e : ℕ × φ} :
    e ∈ numberFrom n l ↔ n ≤ e.1 ∧ l[e.1 - n]? = some e.2 := by
  induction l generalizing n with
  | nil => simp
  | cons f fs ih =>
    obtain ⟨id, g⟩ := e
    simp only [numberFrom, List.mem_cons, ih, Prod.mk.injEq]
    constructor
    · rintro (⟨rfl, rfl⟩ | ⟨hle, hget⟩)
      · exact ⟨le_rfl, by simp⟩
      · refine ⟨by omega, ?_⟩
        have he : id - n = (id - (n + 1)) + 1 := by omega
        rw [he, List.getElem?_cons_succ]
        exact hget
    · rintro ⟨hle, hget⟩
      by_cases he : id = n
      · subst he
        rw [Nat.sub_self, List.getElem?_cons_zero, Option.some.injEq] at hget
        exact Or.inl ⟨rfl, hget.symm⟩
      · have hs : id - n = (id - (n + 1)) + 1 := by omega
        rw [hs, List.getElem?_cons_succ] at hget
        exact Or.inr ⟨by omega, hget⟩

/-- `XREAD COUNT count STREAMS stream last`. -/
def xread (entries : List φ) (last : ℕ) (count : ℕ) : List (ℕ × φ) :=
  numberFrom (last + 1) ((entries.drop last).take count)

def entryAt (entries : List φ) : ℕ → Option φ
  | 0 => none
  | n + 1 => entries[n]?

theorem entryAt_append_of_le {entries : List φ} {id : ℕ} (h : id ≤ entries.length) (l : List φ) :
    entryAt (entries ++ l) id = entryAt entries id := by
  cases id with
  | zero => rfl
  | succ n => exact List.getElem?_append_left h

theorem eq_of_entryAt_append {entries : List φ} {f g : φ} {id : ℕ}
    (h : entryAt (entries ++ [g]) id = some f) (hid : ¬ id ≤ entries.length) : f = g := by
  cases id with
  | zero => cases h
  | succ n =>
    rw [entryAt, List.getElem?_append_right (by omega)] at h
    obtain ⟨_, h⟩ := List.getElem?_eq_some_iff.mp h
    rw [← h, List.getElem_singleton]

theorem entryAt_isSome {entries : List φ} {id : ℕ} (h₁ : 1 ≤ id) (h₂ : id ≤ entries.length) :
    ∃ f, entryAt entries id = some f := by
  cases id with
  | zero => omega
  | succ n => exact ⟨entries[n], List.getElem?_eq_getElem h₂⟩

theorem entryAt_some_le {entries : List φ} {id : ℕ} {f : φ} (h : entryAt entries id = some f) :
    1 ≤ id ∧ id ≤ entries.length := by
  cases id with
  | zero => cases h
  | succ n =>
    obtain ⟨hn, _⟩ := List.getElem?_eq_some_iff.mp h
    exact ⟨by omega, hn⟩

theorem mem_xread {entries : List φ} {last count : ℕ} {e : ℕ × φ} :
    e ∈ xread entries last count ↔
      last < e.1 ∧ e.1 ≤ last + count ∧ entryAt entries e.1 = some e.2 := by
  obtain ⟨id, f⟩ := e
  simp only [xread, mem_numberFrom, List.getElem?_take, List.getElem?_drop]
  cases id with
  | zero => simp [entryAt]
  | succ n =>
    simp only [entryAt]
    constructor
    · rintro ⟨hle, h⟩
      split_ifs at h with hlt
      have he : last + (n + 1 - (last + 1)) = n := by omega
      rw [he] at h
      exact ⟨by omega, by omega, h⟩
    · rintro ⟨h₁, h₂, h⟩
      have he : last + (n + 1 - (last + 1)) = n := by omega
      exact ⟨by omega, by rw [if_pos (by omega), he, h]⟩

theorem length_xread (entries : List φ) (last count : ℕ) :
    (xread entries last count).length = min count (entries.length - last) := by
  simp [xread]

/-- The rest of a page that was read behind a cursor. -/
def IsPage (entries : List φ) (last : ℕ) (page : List (ℕ × φ)) : Prop :=
  ∃ l, l <+: entries.drop last ∧ page = numberFrom (last + 1) l

theorem isPage_xread (entries : List φ) (last count : ℕ) :
    IsPage entries last (xread entries last count) :=
  ⟨_, List.take_prefix _ _, rfl⟩

theorem IsPage.append {entries : List φ} {last : ℕ} {page : List (ℕ × φ)}
    (h : IsPage entries last page) (hlast : last ≤ entries.length) (more : List φ) :
    IsPage (entries ++ more) last page := by
  obtain ⟨l, hl, rfl⟩ := h
  refine ⟨l, ?_, rfl⟩
  rw [List.drop_append_of_le_length hlast]
  exact hl.trans (List.prefix_append _ _)

theorem IsPage.head {entries : List φ} {last id : ℕ} {f : φ} {rest : List (ℕ × φ)}
    (h : IsPage entries last ((id, f) :: rest)) :
    id = last + 1 ∧ entries[last]? = some f ∧ IsPage entries (last + 1) rest := by
  obtain ⟨l, ⟨t, ht⟩, hpage⟩ := h
  cases l with
  | nil => cases hpage
  | cons g l =>
    simp only [numberFrom, List.cons.injEq, Prod.mk.injEq] at hpage
    obtain ⟨⟨rfl, rfl⟩, hrest⟩ := hpage
    have hget : entries[last]? = some f := by
      have h₀ : (entries.drop last)[0]? = entries[last + 0]? := List.getElem?_drop
      rw [← ht] at h₀
      simpa using h₀.symm
    have hdrop : entries.drop (last + 1) = l ++ t := by
      rw [← List.drop_drop, ← ht]
      rfl
    exact ⟨rfl, hget, l, by rw [hdrop]; exact List.prefix_append _ _, hrest⟩

end RedisStream
