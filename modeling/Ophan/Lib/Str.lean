import Mathlib
import Ophan.Lib.Utf8

/-!
# Texts and their bytes

A text is a list of characters; what reads it byte by byte sees its UTF-8
encoding.
-/

namespace Ophan.Lib

abbrev Str := List Char

namespace Str

/-- `str::bytes` -/
def utf8 (text : Str) : Bytes := text.flatMap String.utf8EncodeChar

/-- `&text[..at]` and `&text[at..]`; `none` where the cut is inside a character
or behind the end, which panics. -/
def cutAt : Str → Nat → Option (Str × Str)
  | text, 0 => some ([], text)
  | [], _ + 1 => none
  | c :: text, offset + 1 =>
    if (String.utf8EncodeChar c).length ≤ offset + 1 then
      (cutAt text (offset + 1 - (String.utf8EncodeChar c).length)).map
        fun (front, back) => (c :: front, back)
    else
      none

def isWhitespace (c : Char) : Bool :=
  let code := c.toNat
  (9 ≤ code && code ≤ 13) || code = 32 || code = 0x85 || code = 0xA0 ||
    code = 0x1680 || (0x2000 ≤ code && code ≤ 0x200A) || code = 0x2028 ||
    code = 0x2029 || code = 0x202F || code = 0x205F || code = 0x3000

def trim (text : Str) : Str :=
  ((text.dropWhile isWhitespace).reverse.dropWhile isWhitespace).reverse

/-- `u64::from_str` -/
def parseU64 (text : Str) : Option Nat :=
  let digits := match text with
    | '+' :: rest => rest
    | _ => text
  if digits ≠ [] ∧ digits.all (·.isDigit) ∧ Nat.ofDigitChars 10 digits 0 < 2 ^ 64 then
    some (Nat.ofDigitChars 10 digits 0)
  else
    none

/-- Decimal digits, behind an optional sign. -/
def Numeral (text : Str) (number : Nat) : Prop :=
  ∃ digits, (text = digits ∨ text = '+' :: digits) ∧ digits ≠ [] ∧
    (∀ c ∈ digits, c.isDigit = true) ∧ number = Nat.ofDigitChars 10 digits 0

theorem Numeral.last {text : Str} {number : Nat} (numeral : Numeral text number) :
    ∃ last back, text = (last :: back).reverse ∧ last.isDigit = true := by
  obtain ⟨digits, spelled, nonempty, isDigit, -⟩ := numeral
  obtain ⟨front, last, rfl⟩ := (List.eq_nil_or_concat' digits).resolve_left nonempty
  have isLast : last.isDigit = true := isDigit last (by simp)
  rcases spelled with rfl | rfl
  · exact ⟨last, front.reverse, by simp, isLast⟩
  · exact ⟨last, ('+' :: front).reverse, by simp, isLast⟩

theorem Numeral.parseU64 {text : Str} {number : Nat} (numeral : Numeral text number) :
    parseU64 text = if number < 2 ^ 64 then some number else none := by
  obtain ⟨digits, spelled, nonempty, isDigit, rfl⟩ := numeral
  obtain ⟨first, rest, rfl⟩ := List.exists_cons_of_ne_nil nonempty
  have notSign : first ≠ '+' := by
    rintro rfl
    exact absurd (isDigit '+' List.mem_cons_self) (by decide)
  rcases spelled with rfl | rfl <;> simp_all [Str.parseU64]

theorem numeral_of_parseU64 {text : Str} {number : Nat} (parsed : parseU64 text = some number) :
    Numeral text number ∧ number < 2 ^ 64 := by
  unfold parseU64 at parsed
  split at parsed
  all_goals
    rw [Option.ite_none_right_eq_some, Option.some.injEq] at parsed
    obtain ⟨⟨nonempty, isDigit, fits⟩, rfl⟩ := parsed
    exact ⟨⟨_, by simp, nonempty, List.all_eq_true.mp isDigit, rfl⟩, fits⟩

end Str

end Ophan.Lib
