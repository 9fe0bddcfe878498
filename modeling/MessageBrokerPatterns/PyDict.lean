import MessageBrokerPatterns.PyText
import Mathlib.Data.Set.Card

/-!
# Python dictionaries as association lists

A `Dict` keeps its entries in insertion order. Assigning to a present key replaces the value in
place, assigning to a new key appends, and `merge d e` is `{**d, **e}`. `encodeFields` is what a
client sends for a `str` to `str` mapping, `decodeFields` reads such a mapping back.
-/

namespace PyDict
open PyText
variable {κ ν : Type*} [DecidableEq κ]

abbrev Dict (κ ν : Type*) := List (κ × ν)

/-- `d.get(k)`. -/
def get? (d : Dict κ ν) (k : κ) : Option ν := (d.find? fun e => e.1 = k).map Prod.snd

def assign : Dict κ ν → κ → ν → Dict κ ν
  | [], k, v => [(k, v)]
  | e :: d, k, v => if e.1 = k then (k, v) :: d else e :: assign d k v

def merge (d e : Dict κ ν) : Dict κ ν := e.foldl (fun acc p => assign acc p.1 p.2) d

/-- `del d[k]`, for a key that is present. -/
def erase (d : Dict κ ν) (k : κ) : Dict κ ν := d.filter fun e => e.1 ≠ k

def keys (d : Dict κ ν) : List κ := d.map Prod.fst

@[simp] theorem get?_nil (k : κ) : get? ([] : Dict κ ν) k = none := rfl

theorem get?_cons (e : κ × ν) (d : Dict κ ν) (k : κ) :
    get? (e :: d) k = if e.1 = k then some e.2 else get? d k := by
  by_cases h : e.1 = k
  · simp [get?, h]
  · simp [get?, h]

theorem get?_eq_none {d : Dict κ ν} {k : κ} : get? d k = none ↔ k ∉ keys d := by
  induction d with
  | nil => simp [keys]
  | cons e d ih =>
    rw [get?_cons, keys, List.map_cons, List.mem_cons, ← keys]
    by_cases h : e.1 = k
    · simp [h]
    · rw [if_neg h, ih]
      simp [Ne.symm h]

theorem get?_assign (d : Dict κ ν) (k k' : κ) (v : ν) :
    get? (assign d k v) k' = if k = k' then some v else get? d k' := by
  induction d with
  | nil => simp only [assign, get?_cons, get?_nil]
  | cons e d ih =>
    simp only [assign]
    by_cases he : e.1 = k
    · subst he
      by_cases hk : e.1 = k'
      · simp [get?_cons, hk]
      · simp [get?_cons, hk]
    · rw [if_neg he, get?_cons, get?_cons, ih]
      by_cases hk : k = k'
      · subst hk
        simp [he]
      · simp [hk]

theorem merge_cons (d : Dict κ ν) (p : κ × ν) (e : Dict κ ν) :
    merge d (p :: e) = merge (assign d p.1 p.2) e := rfl

theorem get?_merge_of_forall_ne {k : κ} {e : Dict κ ν} (h : ∀ p ∈ e, p.1 ≠ k) (d : Dict κ ν) :
    get? (merge d e) k = get? d k := by
  induction e generalizing d with
  | nil => rfl
  | cons p e ih =>
    rw [merge_cons, ih fun q hq => h q (List.mem_cons_of_mem _ hq), get?_assign,
      if_neg (h p List.mem_cons_self)]

theorem get?_merge_of_mem {k : κ} {v : ν} {e : Dict κ ν} (he : (keys e).Nodup) (h : (k, v) ∈ e)
    (d : Dict κ ν) : get? (merge d e) k = some v := by
  induction e generalizing d with
  | nil => simp at h
  | cons p e ih =>
    rw [keys, List.map_cons, List.nodup_cons] at he
    rw [merge_cons]
    rcases List.mem_cons.mp h with rfl | h
    · have hne : ∀ q ∈ e, q.1 ≠ k := fun q hq heq => he.1 (List.mem_map.mpr ⟨q, hq, heq⟩)
      rw [get?_merge_of_forall_ne hne, get?_assign, if_pos rfl]
    · exact ih he.2 h _

theorem get?_erase (d : Dict κ ν) (k k' : κ) :
    get? (erase d k) k' = if k = k' then none else get? d k' := by
  induction d with
  | nil => simp [erase]
  | cons e d ih =>
    by_cases he : e.1 = k
    · have hd : erase (e :: d) k = erase d k := by simp [erase, he]
      rw [hd, ih, get?_cons, he]
      by_cases hk : k = k'
      · simp [hk]
      · simp [hk]
    · have hd : erase (e :: d) k = e :: erase d k := by simp [erase, he]
      rw [hd, get?_cons, ih, get?_cons]
      by_cases hk : k = k'
      · subst hk
        simp [he]
      · simp [hk]

theorem get?_foldl_erase (ks : List κ) (d : Dict κ ν) (k : κ) :
    get? (ks.foldl erase d) k = if k ∈ ks then none else get? d k := by
  induction ks generalizing d with
  | nil => simp
  | cons j ks ih =>
    rw [List.foldl_cons, ih, get?_erase]
    by_cases hj : j = k
    · simp [hj]
    · simp [hj, Ne.symm hj]

theorem keys_erase_sublist (d : Dict κ ν) (k : κ) : (keys (erase d k)).Sublist (keys d) :=
  List.filter_sublist.map Prod.fst

theorem mem_keys_erase {d : Dict κ ν} {k k' : κ} : k' ∈ keys (erase d k) ↔ k' ∈ keys d ∧ k' ≠ k := by
  simp only [keys, erase, List.mem_map, List.mem_filter, decide_eq_true_eq]
  constructor
  · rintro ⟨e, ⟨he, hne⟩, rfl⟩
    exact ⟨⟨e, he, rfl⟩, hne⟩
  · rintro ⟨⟨e, he, rfl⟩, hne⟩
    exact ⟨e, ⟨he, hne⟩, rfl⟩

theorem nodup_keys_erase {d : Dict κ ν} (h : (keys d).Nodup) (k : κ) : (keys (erase d k)).Nodup :=
  h.sublist (keys_erase_sublist d k)

theorem nodup_keys_foldl_erase {d : Dict κ ν} (h : (keys d).Nodup) (ks : List κ) :
    (keys (ks.foldl erase d)).Nodup := by
  induction ks generalizing d with
  | nil => exact h
  | cons k ks ih => exact ih (nodup_keys_erase h k)

theorem length_erase_of_mem {d : Dict κ ν} (h : (keys d).Nodup) {k : κ} (hk : k ∈ keys d) :
    (erase d k).length + 1 = d.length := by
  induction d with
  | nil => cases hk
  | cons e d ih =>
    obtain ⟨he, hd⟩ := List.nodup_cons.mp h
    by_cases hek : e.1 = k
    · subst hek
      have hrest : d.filter (fun p => p.1 ≠ e.1) = d := List.filter_eq_self.mpr fun p hp => by
        simpa using fun heq => he (List.mem_map.mpr ⟨p, hp, heq⟩)
      rw [erase, List.filter_cons_of_neg (by simp), hrest, List.length_cons]
    · have hmem : k ∈ keys d := (List.mem_cons.mp hk).resolve_left fun heq => hek heq.symm
      have hlen := ih hd hmem
      rw [erase, List.filter_cons_of_pos (by simpa using hek), List.length_cons, List.length_cons]
      exact congrArg Nat.succ hlen

theorem mem_keys_assign {d : Dict κ ν} {k k' : κ} {v : ν} :
    k' ∈ keys (assign d k v) ↔ k' = k ∨ k' ∈ keys d := by
  induction d with
  | nil => simp [assign, keys]
  | cons e d ih =>
    simp only [keys] at ih
    by_cases he : e.1 = k
    · simp [assign, keys, he]
    · simp only [assign, keys, if_neg he, List.map_cons, List.mem_cons, ih]
      exact or_left_comm

theorem nodup_keys_assign {d : Dict κ ν} (h : (keys d).Nodup) (k : κ) (v : ν) :
    (keys (assign d k v)).Nodup := by
  induction d with
  | nil => simp [assign, keys]
  | cons e d ih =>
    obtain ⟨he, hd⟩ := List.nodup_cons.mp h
    by_cases hk : e.1 = k
    · subst hk
      simp only [assign, if_pos]
      exact h
    · simp only [assign, if_neg hk]
      apply List.nodup_cons.mpr
      refine ⟨fun hm => ?_, ih hd⟩
      rcases mem_keys_assign.mp hm with hm | hm
      · exact hk hm
      · exact he hm

theorem keys_assign_of_mem {d : Dict κ ν} {k : κ} (h : k ∈ keys d) (v : ν) :
    keys (assign d k v) = keys d := by
  induction d with
  | nil => simp [keys] at h
  | cons e d ih =>
    by_cases he : e.1 = k
    · simp [assign, keys, he]
    · have hd : k ∈ keys d := by simpa [keys, Ne.symm he] using h
      simp only [assign, if_neg he]
      exact congrArg (e.1 :: ·) (ih hd)

theorem get?_append (d e : Dict κ ν) (k : κ) : get? (d ++ e) k = (get? d k).or (get? e k) := by
  rw [get?, List.find?_append, Option.map_or]
  rfl

theorem assign_of_notMem {d : Dict κ ν} {k : κ} (h : k ∉ keys d) (v : ν) :
    assign d k v = d ++ [(k, v)] := by
  induction d with
  | nil => rfl
  | cons e d ih =>
    simp only [keys, List.map_cons, List.mem_cons, not_or] at h
    rw [assign, if_neg (Ne.symm h.1), ih h.2, List.cons_append]

theorem mem_keys_merge {d e : Dict κ ν} {k : κ} :
    k ∈ keys (merge d e) ↔ k ∈ keys d ∨ k ∈ keys e := by
  induction e generalizing d with
  | nil => simp [merge, keys]
  | cons p e ih =>
    rw [merge_cons, ih, mem_keys_assign]
    simp only [keys, List.map_cons, List.mem_cons]
    constructor
    · rintro ((rfl | hd) | he)
      · exact Or.inr (Or.inl rfl)
      · exact Or.inl hd
      · exact Or.inr (Or.inr he)
    · rintro (hd | rfl | he)
      · exact Or.inl (Or.inr hd)
      · exact Or.inl (Or.inl rfl)
      · exact Or.inr he

theorem nodup_keys_merge {d : Dict κ ν} (h : (keys d).Nodup) (e : Dict κ ν) :
    (keys (merge d e)).Nodup := by
  induction e generalizing d with
  | nil => exact h
  | cons p e ih => exact ih (nodup_keys_assign h p.1 p.2)

theorem nodup_keys_merge_nil (e : Dict κ ν) : (keys (merge [] e)).Nodup := by
  apply nodup_keys_merge
  exact List.nodup_nil

theorem mem_keys_merge_nil {e : Dict κ ν} {k : κ} : k ∈ keys (merge [] e) ↔ k ∈ keys e := by
  rw [mem_keys_merge]
  exact or_iff_right List.not_mem_nil

/-- Merging a dictionary with other keys puts it behind. -/
theorem merge_eq_append {d e : Dict κ ν} (he : (keys e).Nodup) (hd : ∀ k ∈ keys e, k ∉ keys d) :
    merge d e = d ++ e := by
  induction e generalizing d with
  | nil => exact (List.append_nil d).symm
  | cons p e ih =>
    obtain ⟨hp, he⟩ := List.nodup_cons.mp he
    have happ : assign d p.1 p.2 = d ++ [p] := assign_of_notMem (hd p.1 List.mem_cons_self) p.2
    rw [merge_cons, happ, ih he, List.append_assoc, List.singleton_append]
    intro k hk
    simp only [keys, List.map_append, List.mem_append, List.map_singleton, List.mem_singleton, not_or]
    refine ⟨hd k (List.mem_cons_of_mem _ hk), ?_⟩
    rintro rfl
    exact hp hk

/-- `dict(d)` of a dictionary is the dictionary. -/
theorem merge_nil {d : Dict κ ν} (h : (keys d).Nodup) : merge [] d = d :=
  merge_eq_append h fun _ _ => List.not_mem_nil

/-- In a dictionary a key has one entry, the one that is read. -/
theorem mem_iff_get? {d : Dict κ ν} (h : (keys d).Nodup) {k : κ} {v : ν} :
    (k, v) ∈ d ↔ get? d k = some v := by
  induction d with
  | nil => simp
  | cons e d ih =>
    obtain ⟨he, hd⟩ := List.nodup_cons.mp h
    rw [List.mem_cons, get?_cons, ih hd]
    by_cases hk : e.1 = k
    · subst hk
      have hn : get? d e.1 ≠ some v := fun hv =>
        he (List.mem_map.mpr ⟨(e.1, v), (ih hd).mpr hv, rfl⟩)
      simp [hn, Prod.ext_iff, eq_comm]
    · have hn : (k, v) ≠ e := fun hv => hk (congrArg Prod.fst hv).symm
      simp [hk, hn]

theorem length_filter_eq_ncard {d : Dict κ ν} (h : (keys d).Nodup) (p : ν → Bool) :
    (d.filter fun e => p e.2).length = {k | ∃ v, get? d k = some v ∧ p v}.ncard := by
  have hn : (keys (d.filter fun e => p e.2)).Nodup := h.sublist (List.filter_sublist.map Prod.fst)
  have hs : {k | ∃ v, get? d k = some v ∧ p v} =
      ((keys (d.filter fun e => p e.2)).toFinset : Set κ) := by
    ext k
    simp [keys, mem_iff_get? h]
  rw [hs, Set.ncard_coe_finset, List.toFinset_card_of_nodup hn, keys, List.length_map]

abbrev Fields := Dict ByteArray ByteArray

def encodeFields (d : Dict String String) : Fields :=
  d.map fun e => (utf8Encode e.1, utf8Encode e.2)

def decodeFields : Fields → Except PyExc (Dict String String)
  | [] => .ok []
  | e :: d => do
      let k ← utf8Decode e.1
      let v ← utf8Decode e.2
      let rest ← decodeFields d
      return (k, v) :: rest

/-- `fields[key]` on a mapping of byte strings, the key written as text. -/
def getBytes (fields : Fields) (key : String) : Except PyExc ByteArray :=
  match get? fields (utf8Encode key) with
  | some v => .ok v
  | none => .error (keyError ("b'" ++ key ++ "'"))

/-- `fields[key].decode()`. -/
def getText (fields : Fields) (key : String) : Except PyExc String :=
  (getBytes fields key).bind utf8Decode

/-- `data[key]` on a mapping of strings. -/
def getItem (data : Dict String String) (key : String) : Except PyExc String :=
  match get? data key with
  | some v => .ok v
  | none => .error (keyError ("'" ++ key ++ "'"))

theorem getItem_eq_ok {data : Dict String String} {key value : String} :
    getItem data key = .ok value ↔ get? data key = some value := by
  cases h : get? data key with
  | none => simp [getItem, h]
  | some v => simp [getItem, h]

@[simp] theorem decodeFields_encodeFields (d : Dict String String) :
    decodeFields (encodeFields d) = .ok d := by
  induction d with
  | nil => rfl
  | cons e d ih =>
    have hc : encodeFields (e :: d) = (utf8Encode e.1, utf8Encode e.2) :: encodeFields d := rfl
    simp only [hc, decodeFields, utf8Decode_utf8Encode, ih]
    rfl

theorem eq_encodeFields_of_decodeFields {raw : Fields} {d : Dict String String}
    (h : decodeFields raw = .ok d) : raw = encodeFields d := by
  induction raw generalizing d with
  | nil =>
    cases h
    rfl
  | cons e raw ih =>
    simp only [decodeFields, bind_eq_ok] at h
    obtain ⟨k, hk, v, hv, rest, hr, h⟩ := h
    cases h
    have he : e = (utf8Encode k, utf8Encode v) :=
      Prod.ext (eq_utf8Encode_of_utf8Decode hk) (eq_utf8Encode_of_utf8Decode hv)
    rw [ih hr, he]
    rfl

@[simp] theorem get?_encodeFields (d : Dict String String) (k : String) :
    get? (encodeFields d) (utf8Encode k) = (get? d k).map utf8Encode := by
  induction d with
  | nil => rfl
  | cons e d ih =>
    have hc : encodeFields (e :: d) = (utf8Encode e.1, utf8Encode e.2) :: encodeFields d := rfl
    rw [hc, get?_cons, get?_cons, ih]
    by_cases h : e.1 = k
    · simp [h]
    · simp [h]

theorem getText_encodeFields {d : Dict String String} {k v : String} (h : get? d k = some v) :
    getText (encodeFields d) k = .ok v := by
  simp [getText, getBytes, h, Except.bind]

end PyDict
