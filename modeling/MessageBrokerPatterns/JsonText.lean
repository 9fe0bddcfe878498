import Mathlib.Data.List.Basic
import Mathlib.Tactic.SplitIfs

/-!
# Strings in JSON

A string as an encoder writes it that keeps to printable ASCII: the quote, the backslash and five control
characters have short escapes, every other character outside of ASCII is written in UTF-16, four hexadecimal
digits for each unit. A reader takes one character off such a text, so no two strings are written alike, not
even with more text behind the closing quote.
-/

namespace JsonText

/-- A digit of `%x`. -/
def hexDigit (n : ℕ) : Char := Nat.digitChar (n % 16)

def hexValue (c : Char) : Option ℕ := (List.range 16).find? fun n => hexDigit n = c

/-- One UTF-16 unit, `\uxxxx`. -/
def writeUnit (n : ℕ) : List Char :=
  ['\\', 'u', hexDigit (n / 4096), hexDigit (n / 256), hexDigit (n / 16), hexDigit n]

def escapeChar (c : Char) : List Char :=
  if c = '"' then ['\\', '"']
  else if c = '\\' then ['\\', '\\']
  else if c = '\n' then ['\\', 'n']
  else if c = '\r' then ['\\', 'r']
  else if c = '\t' then ['\\', 't']
  else if c.toNat = 12 then ['\\', 'f']
  else if c.toNat = 8 then ['\\', 'b']
  else if 32 ≤ c.toNat ∧ c.toNat ≤ 126 then [c]
  else if c.toNat < 0x10000 then writeUnit c.toNat
  else writeUnit (0xd800 + (c.toNat - 0x10000) / 0x400) ++
    writeUnit (0xdc00 + (c.toNat - 0x10000) % 0x400)

def escape (s : List Char) : List Char := s.flatMap escapeChar

def readUnit : List Char → Option (ℕ × List Char)
  | a :: b :: c :: d :: rest => do
      let a ← hexValue a
      let b ← hexValue b
      let c ← hexValue c
      let d ← hexValue d
      return (4096 * a + 256 * b + 16 * c + d, rest)
  | _ => none

def readShort (e : Char) : Option Char :=
  if e = '"' then some '"'
  else if e = '\\' then some '\\'
  else if e = 'n' then some '\n'
  else if e = 'r' then some '\r'
  else if e = 't' then some '\t'
  else if e = 'f' then some (Char.ofNat 12)
  else if e = 'b' then some (Char.ofNat 8)
  else none

def readPair (high : ℕ) : List Char → Option (Char × List Char)
  | '\\' :: 'u' :: rest => (readUnit rest).map fun low =>
      (Char.ofNat (0x10000 + (high - 0xd800) * 0x400 + (low.1 - 0xdc00)), low.2)
  | _ => none

def readEscape : List Char → Option (Char × List Char)
  | [] => none
  | e :: rest =>
      if e = 'u' then (readUnit rest).bind fun unit =>
        if 0xd800 ≤ unit.1 ∧ unit.1 < 0xdc00 then readPair unit.1 unit.2
        else some (Char.ofNat unit.1, unit.2)
      else (readShort e).map fun c => (c, rest)

def readChar : List Char → Option (Char × List Char)
  | [] => none
  | c :: rest =>
      if c = '\\' then readEscape rest
      else if c = '"' then none
      else some (c, rest)

theorem hexValue_hexDigit (n : ℕ) : hexValue (hexDigit n) = some (n % 16) := by
  have hall : ∀ m < 16, hexValue (hexDigit m) = some m := by decide
  have hmod : hexDigit n = hexDigit (n % 16) := by rw [hexDigit, hexDigit, Nat.mod_mod]
  rw [hmod]
  exact hall _ (Nat.mod_lt _ (by decide))

theorem readUnit_digits {n : ℕ} (hn : n < 0x10000) (rest : List Char) :
    readUnit (hexDigit (n / 4096) :: hexDigit (n / 256) :: hexDigit (n / 16) :: hexDigit n :: rest) =
      some (n, rest) := by
  have hsum : 4096 * (n / 4096 % 16) + 256 * (n / 256 % 16) + 16 * (n / 16 % 16) + n % 16 = n := by
    omega
  simp only [readUnit, hexValue_hexDigit, Option.bind_eq_bind, Option.bind_some, hsum]
  rfl

theorem readEscape_unit {n : ℕ} (hn : n < 0x10000) (hsingle : ¬ (0xd800 ≤ n ∧ n < 0xdc00))
    (rest : List Char) : readChar (writeUnit n ++ rest) = some (Char.ofNat n, rest) := by
  simp only [writeUnit, List.cons_append, List.nil_append, readChar, readEscape, if_true,
    readUnit_digits hn, Option.bind_some, if_neg hsingle]

theorem readChar_pair {high low : ℕ} (hhigh : 0xd800 ≤ high ∧ high < 0xdc00) (hlow : low < 0x10000)
    (rest : List Char) : readChar (writeUnit high ++ writeUnit low ++ rest) =
      some (Char.ofNat (0x10000 + (high - 0xd800) * 0x400 + (low - 0xdc00)), rest) := by
  have hh : high < 0x10000 := by omega
  simp only [writeUnit, List.cons_append, List.nil_append, readChar, readEscape, if_true,
    readUnit_digits hh, Option.bind_some, if_pos hhigh, readPair, readUnit_digits hlow, Option.map_some]

/-- Reading undoes writing, one character at a time. -/
theorem readChar_escapeChar (c : Char) (rest : List Char) :
    readChar (escapeChar c ++ rest) = some (c, rest) := by
  unfold escapeChar
  split_ifs with hq hb hn hr ht hf hbs hp hu
  · rw [hq]; rfl
  · rw [hb]; rfl
  · rw [hn]; rfl
  · rw [hr]; rfl
  · rw [ht]; rfl
  · have hc : c = Char.ofNat 12 := by rw [← hf, Char.ofNat_toNat]
    rw [hc]; rfl
  · have hc : c = Char.ofNat 8 := by rw [← hbs, Char.ofNat_toNat]
    rw [hc]; rfl
  · simp only [List.singleton_append, readChar, if_neg hb, if_neg hq]
  · have hvalid : ¬ (0xd800 ≤ c.toNat ∧ c.toNat < 0xdc00) := by
      rcases c.valid with h | h
      · have : c.toNat < 0xd800 := h
        omega
      · have : 0xdfff < c.toNat := h.1
        omega
    rw [readEscape_unit hu hvalid, Char.ofNat_toNat]
  · have hmax : c.toNat < 0x110000 := by
      rcases c.valid with h | h
      · have : c.toNat < 0xd800 := h
        omega
      · exact h.2
    rw [readChar_pair (by omega) (by omega)]
    have hsum : 0x10000 + (0xd800 + (c.toNat - 0x10000) / 0x400 - 0xd800) * 0x400 +
        (0xdc00 + (c.toNat - 0x10000) % 0x400 - 0xdc00) = c.toNat := by omega
    rw [hsum, Char.ofNat_toNat]

/-- A string ends at the first quote that is not escaped: what stands behind it does not matter. -/
theorem escape_append_inj {s t rest rest' : List Char}
    (h : escape s ++ '"' :: rest = escape t ++ '"' :: rest') : s = t ∧ rest = rest' := by
  have hstop (r : List Char) : readChar ('"' :: r) = none := rfl
  have hread (c : Char) (s r : List Char) :
      readChar (escape (c :: s) ++ '"' :: r) = some (c, escape s ++ '"' :: r) := by
    rw [escape, List.flatMap_cons, List.append_assoc, readChar_escapeChar]
    rfl
  induction s generalizing t with
  | nil =>
    cases t with
    | nil => exact ⟨rfl, (List.cons.inj h).2⟩
    | cons d t =>
      have hfirst := congrArg readChar h
      rw [hread] at hfirst
      exact absurd ((hstop rest).symm.trans hfirst) (by simp)
  | cons c s ih =>
    cases t with
    | nil =>
      have hfirst := congrArg readChar h
      rw [hread] at hfirst
      exact absurd (hfirst.trans (hstop rest')) (by simp)
    | cons d t =>
      have hfirst := congrArg readChar h
      rw [hread, hread, Option.some.injEq, Prod.mk.injEq] at hfirst
      obtain ⟨rfl, hrest⟩ := ih hfirst.2
      exact ⟨by rw [hfirst.1], hrest⟩

def Printable (s : List Char) : Prop := ∀ c ∈ s, 32 ≤ c.toNat ∧ c.toNat ≤ 126

-- by the list: a search for an instance may find the enumeration of all characters
instance : DecidablePred Printable := fun s =>
  List.decidableBAll (fun c : Char => 32 ≤ c.toNat ∧ c.toNat ≤ 126) s

theorem Printable.append {s t : List Char} (hs : Printable s) (ht : Printable t) :
    Printable (s ++ t) := by
  intro c hc
  exact (List.mem_append.mp hc).elim (hs c) (ht c)

theorem printable_writeUnit (n : ℕ) : Printable (writeUnit n) := by
  have hdigit (m : ℕ) : 32 ≤ (hexDigit m).toNat ∧ (hexDigit m).toNat ≤ 126 := by
    have hall : ∀ m < 16, 32 ≤ (Nat.digitChar m).toNat ∧ (Nat.digitChar m).toNat ≤ 126 := by decide
    exact hall _ (Nat.mod_lt _ (by decide))
  intro c hc
  simp only [writeUnit, List.mem_cons, List.not_mem_nil, or_false] at hc
  rcases hc with rfl | rfl | rfl | rfl | rfl | rfl
  · decide
  · decide
  · exact hdigit _
  · exact hdigit _
  · exact hdigit _
  · exact hdigit _

theorem printable_escapeChar (c : Char) : Printable (escapeChar c) := by
  unfold escapeChar
  split_ifs with hq hb hn hr ht hf hbs hp hu
  iterate 7 · simp [Printable]
  · simpa [Printable] using hp
  · exact printable_writeUnit _
  · exact (printable_writeUnit _).append (printable_writeUnit _)

theorem printable_escape (s : List Char) : Printable (escape s) := by
  intro c hc
  obtain ⟨d, -, hd⟩ := List.mem_flatMap.mp hc
  exact printable_escapeChar d c hd

end JsonText
