import Ophan.Lib.Str
import Ophan.Lib.Word

/-!
# Configured sizes

A size is a number with a unit.  The product of the two is not checked; it wraps
around, as in a release build.
-/

namespace Ophan.Config.ByteSize

open Ophan.Lib Ophan.Lib.Str

def kbUnit : Nat := 1024

def mbUnit : Nat := 1024 * 1024

def gbUnit : Nat := 1024 * 1024 * 1024

def tbUnit : Nat := 1024 * 1024 * 1024 * 1024

def fromBytes (bytes : Nat) : Nat := bytes

def fromKb (kb : Nat) : Nat := wrappingMul kb kbUnit

def fromMb (mb : Nat) : Nat := wrappingMul mb mbUnit

def fromGb (gb : Nat) : Nat := wrappingMul gb gbUnit

def fromTb (tb : Nat) : Nat := wrappingMul tb tbUnit

/-- The suffix is looked at from the end of the text. -/
def fromStr (text : Str) : Option Nat :=
  match (trim text).reverse with
  | 'b' :: 't' :: val => (parseU64 val.reverse).map fromTb
  | 'b' :: 'g' :: val => (parseU64 val.reverse).map fromGb
  | 'b' :: 'm' :: val => (parseU64 val.reverse).map fromMb
  | 'b' :: 'k' :: val => (parseU64 val.reverse).map fromKb
  | 'b' :: val => (parseU64 val.reverse).map fromBytes
  | val => (parseU64 val.reverse).map fromBytes

/-- What the suffixes stand for. -/
def units : List (Str × Nat) :=
  [(['t', 'b'], 2 ^ 40), (['g', 'b'], 2 ^ 30), (['m', 'b'], 2 ^ 20), (['k', 'b'], 2 ^ 10),
    (['b'], 1), ([], 1)]

/-- The text is a number with one of the units, with white space around it. -/
def Writes (text : Str) (number unit : Nat) : Prop :=
  ∃ numeral suffix, trim text = numeral ++ suffix ∧ Numeral numeral number ∧ (suffix, unit) ∈ units

theorem fromBytes_eq {number : Nat} (fits : number < wordCount) :
    fromBytes number = wrappingMul number 1 := by
  rw [wrappingMul, Nat.mul_one, Nat.mod_eq_of_lt fits, fromBytes]

theorem writes_of_fromStr {text : Str} {size : Nat} (accepted : fromStr text = some size) :
    ∃ number unit, Writes text number unit ∧ number < wordCount ∧
      size = wrappingMul number unit := by
  have written (val suffix : Str) (unit : Nat) (convert : Nat → Nat)
      (agrees : ∀ number < wordCount, convert number = wrappingMul number unit)
      (isUnit : (suffix, unit) ∈ units) (isText : (trim text).reverse = suffix.reverse ++ val)
      (parsed : (parseU64 val.reverse).map convert = some size) :
      ∃ number unit, Writes text number unit ∧ number < wordCount ∧
        size = wrappingMul number unit := by
    obtain ⟨number, isNumber, rfl⟩ := Option.map_eq_some_iff.mp parsed
    obtain ⟨numeral, fits⟩ := numeral_of_parseU64 isNumber
    refine ⟨number, unit, ⟨val.reverse, suffix, ?_, numeral, isUnit⟩, fits, agrees number fits⟩
    rw [← List.reverse_inj, isText, List.reverse_append, List.reverse_reverse]
  unfold fromStr at accepted
  split at accepted
  · exact written _ ['t', 'b'] _ _ (fun _ _ => rfl) (by decide) ‹_› accepted
  · exact written _ ['g', 'b'] _ _ (fun _ _ => rfl) (by decide) ‹_› accepted
  · exact written _ ['m', 'b'] _ _ (fun _ _ => rfl) (by decide) ‹_› accepted
  · exact written _ ['k', 'b'] _ _ (fun _ _ => rfl) (by decide) ‹_› accepted
  · exact written _ ['b'] 1 _ (fun _ => fromBytes_eq) (by decide) ‹_› accepted
  · exact written _ [] 1 _ (fun _ => fromBytes_eq) (by decide) rfl accepted

theorem Writes.fromStr_eq {text : Str} {number unit : Nat} (written : Writes text number unit) :
    fromStr text = if number < wordCount then some (wrappingMul number unit) else none := by
  obtain ⟨numeral, suffix, isText, isNumeral, isUnit⟩ := written
  have parsed := isNumeral.parseU64
  -- The last digit is none of the letters of the suffixes.
  obtain ⟨last, back, rfl, isDigit⟩ := isNumeral.last
  have read (convert : Nat → Nat)
      (agrees : ∀ number < wordCount, convert number = wrappingMul number unit) :
      (parseU64 (last :: back).reverse).map convert =
        if number < wordCount then some (wrappingMul number unit) else none := by
    rw [parsed, wordCount]
    split
    · rw [Option.map_some, agrees _ ‹_›]
    · rfl
  unfold fromStr
  rw [isText, List.reverse_append, List.reverse_reverse]
  simp only [units, List.mem_cons, Prod.mk.injEq, List.not_mem_nil, or_false] at isUnit
  rcases isUnit with ⟨rfl, rfl⟩ | ⟨rfl, rfl⟩ | ⟨rfl, rfl⟩ | ⟨rfl, rfl⟩ | ⟨rfl, rfl⟩ | ⟨rfl, rfl⟩
  · exact read fromTb (fun _ _ => rfl)
  · exact read fromGb (fun _ _ => rfl)
  · exact read fromMb (fun _ _ => rfl)
  · exact read fromKb (fun _ _ => rfl)
  · split
    case h_6 isOther => exact absurd rfl (isOther (last :: back))
    all_goals
      rename_i isText
      cases isText
    case h_5 => exact read fromBytes (fun _ => fromBytes_eq)
    all_goals exact absurd isDigit (by decide)
  · split
    case h_6 => exact read fromBytes (fun _ => fromBytes_eq)
    all_goals
      rename_i isText
      cases isText
      exact absurd isDigit (by decide)

/-- A configured size is the written one, and is refused if it does not fit,
exactly if the product of a number that fits does fit. -/
theorem fromStr_exact_iff (text : Str) :
    ((∀ size, fromStr text = some size →
        ∃ number unit, Writes text number unit ∧ size = number * unit) ∧
      ∀ number unit, Writes text number unit → 2 ^ 64 ≤ number * unit → fromStr text = none) ↔
      ∀ number unit, Writes text number unit → number < 2 ^ 64 → number * unit < 2 ^ 64 := by
  constructor
  · rintro ⟨-, refuses⟩ number unit written fits
    by_contra tooLarge
    have isNone := refuses number unit written (Nat.le_of_not_lt tooLarge)
    rw [written.fromStr_eq, wordCount, if_pos fits] at isNone
    cases isNone
  · intro safe
    refine ⟨?_, ?_⟩
    · intro size accepted
      obtain ⟨number, unit, written, fits, rfl⟩ := writes_of_fromStr accepted
      exact ⟨number, unit, written, wrappingMul_of_lt (safe number unit written fits)⟩
    · intro number unit written tooLarge
      rw [written.fromStr_eq, if_neg]
      intro fits
      exact absurd (safe number unit written fits) (Nat.not_lt.mpr tooLarge)

/-- 16777216 terabytes are taken for no bytes at all. -/
theorem fromStr_wraps :
    Writes "16777216tb".toList 16777216 (2 ^ 40) ∧ 2 ^ 64 ≤ 16777216 * 2 ^ 40 ∧
      fromStr "16777216tb".toList = some 0 := by
  refine ⟨⟨"16777216".toList, ['t', 'b'], by decide,
    ⟨_, Or.inl rfl, by decide, by simp, by decide⟩, by decide⟩, by decide⟩

end Ophan.Config.ByteSize
