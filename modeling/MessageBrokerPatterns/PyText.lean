import Mathlib.Data.List.Basic
import Mathlib.Tactic.Linarith

/-!
# Python text: exceptions, UTF-8 and decimal integers

`utf8Encode` and `utf8Decode` are the strict UTF-8 codec of `str.encode` and `bytes.decode`.
`pyStr` and `pyInt` are `str(n)` and `int(s)` on integers: `int` strips whitespace, accepts one
sign, single underscores between digits and every Unicode decimal digit. The interpreter's own
cap on conversions of very long numerals, a setting that a process can lift, is not modelled.

Decoding undoes encoding, and `int` undoes `str`.
-/

namespace PyText

/-- An `Exception` as a handler can tell it apart: its class name and its text. A `BaseException`
outside that class is no `PyExc`; what it does to a run is a crash. -/
structure PyExc where
  className : String
  message : String
  deriving DecidableEq, Repr

def keyError (key : String) : PyExc := ⟨"KeyError", key⟩

def valueError (message : String) : PyExc := ⟨"ValueError", message⟩

/-- `needle in text` on two strings. -/
def pyIn (needle text : String) : Bool :=
  text.toList.tails.any fun rest => needle.toList.isPrefixOf rest

def unicodeDecodeError : PyExc := ⟨"UnicodeDecodeError", "'utf-8' codec can't decode bytes"⟩

/-- A float that a caller may hand to a constructor. -/
inductive Float64 where
  | finite (x : ℚ)
  | inf
  | negInf
  | nan
  deriving DecidableEq

def Float64.repr (floatRepr : ℚ → String) : Float64 → String
  | .finite x => floatRepr x
  | .inf => "inf"
  | .negInf => "-inf"
  | .nan => "nan"

theorem bind_eq_ok {α β : Type} {x : Except PyExc α} {f : α → Except PyExc β} {b : β} :
    (x >>= f) = .ok b ↔ ∃ a, x = .ok a ∧ f a = .ok b := by
  cases x with
  | error exc => simp [bind, Except.bind]
  | ok a => simp [bind, Except.bind]

/-- Byte strings are compared as the core library does; an import may bring another instance. -/
instance decidableEqBytes : DecidableEq ByteArray := ByteArray.instDecidableEq

def utf8Encode (s : String) : ByteArray := s.toUTF8

def utf8Decode (b : ByteArray) : Except PyExc String :=
  match String.fromUTF8? b with
  | some s => .ok s
  | none => .error unicodeDecodeError

@[simp] theorem utf8Decode_utf8Encode (s : String) : utf8Decode (utf8Encode s) = .ok s := by
  have h : String.fromUTF8? s.toUTF8 = some s := by
    unfold String.fromUTF8?
    rw [dif_pos (by simpa using s.isValidUTF8)]
    rfl
  simp only [utf8Decode, utf8Encode, h]

/-- Text decodes from its own encoding only. -/
theorem eq_utf8Encode_of_utf8Decode {b : ByteArray} {s : String} (h : utf8Decode b = .ok s) :
    b = utf8Encode s := by
  unfold utf8Decode String.fromUTF8? at h
  by_cases hb : b.IsValidUTF8
  · rw [dif_pos hb] at h
    cases h
    rfl
  · rw [dif_neg hb] at h
    cases h

theorem utf8Encode_injective : Function.Injective utf8Encode := by
  intro s t h
  have hd := congrArg utf8Decode h
  simpa using hd

@[simp] theorem utf8Encode_inj {s t : String} : utf8Encode s = utf8Encode t ↔ s = t :=
  utf8Encode_injective.eq_iff

/-- The code points of the decimal zeros of Unicode 15, which Python 3.12 and 3.13 carry; each starts a
run of ten digits. -/
def decimalZeros : List ℕ :=
  [0x30, 0x660, 0x6F0, 0x7C0, 0x966, 0x9E6, 0xA66, 0xAE6, 0xB66, 0xBE6, 0xC66, 0xCE6, 0xD66,
    0xDE6, 0xE50, 0xED0, 0xF20, 0x1040, 0x1090, 0x17E0, 0x1810, 0x1946, 0x19D0, 0x1A80, 0x1A90,
    0x1B50, 0x1BB0, 0x1C40, 0x1C50, 0xA620, 0xA8D0, 0xA900, 0xA9D0, 0xA9F0, 0xAA50, 0xABF0,
    0xFF10, 0x104A0, 0x10D30, 0x11066, 0x110F0, 0x11136, 0x111D0, 0x112F0, 0x11450, 0x114D0,
    0x11650, 0x116C0, 0x11730, 0x118E0, 0x11950, 0x11C50, 0x11D50, 0x11DA0, 0x11F50, 0x16A60,
    0x16AC0, 0x16B50, 0x1D7CE, 0x1D7D8, 0x1D7E2, 0x1D7EC, 0x1D7F6, 0x1E140, 0x1E2F0, 0x1E4F0,
    0x1E950, 0x1FBF0]

def decimalValue (c : Char) : Option ℕ :=
  (decimalZeros.find? fun z => z ≤ c.toNat ∧ c.toNat < z + 10).map fun z => c.toNat - z

/-- The whitespace `int` strips: the C locale's, and Unicode's beyond ASCII. -/
def isIntSpace (c : Char) : Bool :=
  (9 ≤ c.toNat ∧ c.toNat ≤ 13) ∨ c.toNat = 32 ∨ c.toNat = 0x85 ∨ c.toNat = 0xA0 ∨
    c.toNat = 0x1680 ∨ (0x2000 ≤ c.toNat ∧ c.toNat ≤ 0x200A) ∨ c.toNat = 0x2028 ∨
    c.toNat = 0x2029 ∨ c.toNat = 0x202F ∨ c.toNat = 0x205F ∨ c.toNat = 0x3000

/-- Digits after at least one digit; an underscore must stand between two digits. -/
def digitsFrom (value : ℕ) : List Char → Option ℕ
  | [] => some value
  | '_' :: c :: cs => (decimalValue c).bind fun d => digitsFrom (10 * value + d) cs
  | c :: cs => (decimalValue c).bind fun d => digitsFrom (10 * value + d) cs

def digits : List Char → Option ℕ
  | [] => none
  | c :: cs => (decimalValue c).bind fun d => digitsFrom d cs

def signed : List Char → Option ℤ
  | '-' :: cs => (digits cs).map fun n => -Int.ofNat n
  | '+' :: cs => (digits cs).map Int.ofNat
  | cs => (digits cs).map Int.ofNat

def strip (cs : List Char) : List Char :=
  ((cs.dropWhile isIntSpace).reverse.dropWhile isIntSpace).reverse

def pyInt (s : String) : Except PyExc ℤ :=
  match signed (strip s.toList) with
  | some n => .ok n
  | none => .error (valueError ("invalid literal for int() with base 10: '" ++ s ++ "'"))

def pyStr (n : ℤ) : String := toString n

theorem toNat_of_isDigit {c : Char} (hc : c.isDigit) : 48 ≤ c.toNat ∧ c.toNat ≤ 57 :=
  Char.isDigit_iff_toNat.mp hc

theorem decimalValue_of_isDigit {c : Char} (hc : c.isDigit) :
    decimalValue c = some (c.toNat - '0'.toNat) := by
  have hr := toNat_of_isDigit hc
  have hp : decide (0x30 ≤ c.toNat ∧ c.toNat < 0x30 + 10) = true :=
    decide_eq_true ⟨hr.1, by omega⟩
  simp only [decimalValue, decimalZeros]
  rw [List.find?_cons_of_pos (by exact hp), Option.map_some]
  rfl

theorem digitsFrom_cons {c : Char} (hc : c ≠ '_') (value : ℕ) (cs : List Char) :
    digitsFrom value (c :: cs) =
      (decimalValue c).bind fun d => digitsFrom (10 * value + d) cs := by
  conv_lhs => unfold digitsFrom
  split
  · simp_all
  · rename_i h
    exact absurd (List.cons.inj h).1 hc
  · rename_i h
    obtain ⟨rfl, rfl⟩ := List.cons.inj h
    rfl

theorem digitsFrom_of_isDigit (value : ℕ) (cs : List Char) (hcs : ∀ c ∈ cs, c.isDigit) :
    digitsFrom value cs = some (Nat.ofDigitChars 10 cs value) := by
  induction cs generalizing value with
  | nil => simp [digitsFrom]
  | cons c cs ih =>
    have hc : c.isDigit := hcs c List.mem_cons_self
    have hne : c ≠ '_' := by
      rintro rfl
      exact absurd hc (by decide)
    rw [digitsFrom_cons hne, decimalValue_of_isDigit hc, Option.bind_some,
      ih _ (fun d hd => hcs d (List.mem_cons_of_mem _ hd)), Nat.ofDigitChars_cons]

theorem digits_toDigits (n : ℕ) : digits (Nat.toDigits 10 n) = some n := by
  have hall : ∀ c ∈ Nat.toDigits 10 n, c.isDigit := fun c hc =>
    Nat.isDigit_of_mem_toDigits (by omega) le_rfl hc
  cases h : Nat.toDigits 10 n with
  | nil => exact absurd h Nat.toDigits_ne_nil
  | cons c cs =>
    rw [h] at hall
    have hval : Nat.ofDigitChars 10 (c :: cs) 0 = n := by
      rw [← h, Nat.ofDigitChars_ten_toDigits]
    rw [Nat.ofDigitChars_cons, Nat.mul_zero, Nat.zero_add] at hval
    simp only [digits, decimalValue_of_isDigit (hall c List.mem_cons_self), Option.bind_some]
    rw [digitsFrom_of_isDigit _ _ (fun d hd => hall d (List.mem_cons_of_mem _ hd)), hval]

theorem isIntSpace_of_isDigit {c : Char} (hc : c.isDigit) : isIntSpace c = false := by
  have hr := toNat_of_isDigit hc
  simp only [isIntSpace, decide_eq_false_iff_not]
  omega

theorem strip_of_forall (cs : List Char) (h : ∀ c ∈ cs, isIntSpace c = false) : strip cs = cs := by
  have hdrop : ∀ ds : List Char, (∀ c ∈ ds, isIntSpace c = false) →
      ds.dropWhile isIntSpace = ds := by
    intro ds hds
    cases ds with
    | nil => rfl
    | cons d ds => rw [List.dropWhile_cons_of_neg (by simp [hds d List.mem_cons_self])]
  rw [strip, hdrop cs h, hdrop cs.reverse (fun c hc => h c (List.mem_reverse.mp hc)),
    List.reverse_reverse]

theorem signed_toDigits (n : ℕ) : signed (Nat.toDigits 10 n) = some (Int.ofNat n) := by
  have hall : ∀ c ∈ Nat.toDigits 10 n, c.isDigit := fun c hc =>
    Nat.isDigit_of_mem_toDigits (by omega) le_rfl hc
  unfold signed
  split
  · rename_i h
    exact absurd (hall '-' (by rw [h]; exact List.mem_cons_self)) (by decide)
  · rename_i h
    exact absurd (hall '+' (by rw [h]; exact List.mem_cons_self)) (by decide)
  · rw [digits_toDigits, Option.map_some]

/-- `int` undoes `str` on every integer. -/
@[simp] theorem pyInt_pyStr (n : ℤ) : pyInt (pyStr n) = .ok n := by
  have hspace : ∀ m : ℕ, ∀ c ∈ Nat.toDigits 10 m, isIntSpace c = false := fun m c hc =>
    isIntSpace_of_isDigit (Nat.isDigit_of_mem_toDigits (by omega) le_rfl hc)
  cases n with
  | ofNat m =>
    have hs : (pyStr (Int.ofNat m)).toList = Nat.toDigits 10 m := Nat.toList_repr
    simp only [pyInt, hs, strip_of_forall _ (hspace m), signed_toDigits]
  | negSucc m =>
    have hs : (pyStr (Int.negSucc m)).toList = '-' :: Nat.toDigits 10 (m + 1) := by
      change ("-" ++ (m + 1).repr).toList = _
      rw [String.toList_append, Nat.toList_repr]
      rfl
    have hall : ∀ c ∈ '-' :: Nat.toDigits 10 (m + 1), isIntSpace c = false := by
      intro c hc
      rcases List.mem_cons.mp hc with rfl | hc
      · rfl
      · exact hspace _ c hc
    simp only [pyInt, hs, strip_of_forall _ hall, signed, digits_toDigits]
    rfl

/-- `format(n, "06d")`, at width 6. -/
def zeroPad (width n : ℕ) : String :=
  String.ofList (List.replicate (width - (Nat.toDigits 10 n).length) '0' ++ Nat.toDigits 10 n)

theorem zeroPad_injective (width : ℕ) : Function.Injective (zeroPad width) := by
  have hvalue (n : ℕ) : Nat.ofDigitChars 10 (zeroPad width n).toList 0 = n := by
    rw [zeroPad, String.toList_ofList, Nat.ofDigitChars_append, Nat.ofDigitChars_replicate_zero,
      Nat.mul_zero, Nat.ofDigitChars_ten_toDigits]
  intro m n h
  rw [← hvalue m, ← hvalue n, h]

end PyText
