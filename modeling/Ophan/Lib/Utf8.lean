import Mathlib.Data.List.Basic

/-!
# Well-formed UTF-8

The check of `str::from_utf8` on a list of bytes: every character is one
byte below `0x80`, or a leading byte followed by the continuation bytes it
asks for, without overlong forms, surrogates and values above `U+10FFFF`.
-/

namespace Ophan

/-- A string of bytes, which need not be well-formed UTF-8. -/
abbrev Bytes := List UInt8

instance : LawfulBEq Bytes := inferInstance

def bytes (text : String) : Bytes := text.toUTF8.toList

/-- `0x80..=0xBF` -/
def isContinuation (b : UInt8) : Bool := 0x80 ≤ b && b ≤ 0xBF

def validSecondOfThree (lead second : UInt8) : Bool :=
  isContinuation second && !(lead = 0xE0 && second < 0xA0) && !(lead = 0xED && 0xA0 ≤ second)

def validSecondOfFour (lead second : UInt8) : Bool :=
  isContinuation second && !(lead = 0xF0 && second < 0x90) && !(lead = 0xF4 && 0x90 ≤ second)

def validUtf8 : Bytes → Bool
  | [] => true
  | a :: rest =>
    if a < 0x80 then
      validUtf8 rest
    else if 0xC2 ≤ a && a ≤ 0xDF then
      match rest with
      | b :: rest => isContinuation b && validUtf8 rest
      | _ => false
    else if 0xE0 ≤ a && a ≤ 0xEF then
      match rest with
      | b :: c :: rest => validSecondOfThree a b && isContinuation c && validUtf8 rest
      | _ => false
    else if 0xF0 ≤ a && a ≤ 0xF4 then
      match rest with
      | b :: c :: d :: rest =>
        validSecondOfFour a b && isContinuation c && isContinuation d && validUtf8 rest
      | _ => false
    else
      false

def isUtf8Char : Bytes → Bool
  | [a] => a < 0x80
  | [a, b] => 0xC2 ≤ a && a ≤ 0xDF && isContinuation b
  | [a, b, c] => 0xE0 ≤ a && a ≤ 0xEF && validSecondOfThree a b && isContinuation c
  | [a, b, c, d] =>
    0xF0 ≤ a && a ≤ 0xF4 && validSecondOfFour a b && isContinuation c && isContinuation d
  | _ => false

theorem isContinuation_of_ascii {c : UInt8} (ascii : c < 0x80) : isContinuation c = false := by
  simp only [isContinuation, Bool.and_eq_false_iff, decide_eq_false_iff_not]
  exact .inl (UInt8.not_le.mpr ascii)

@[simp]
theorem validUtf8_cons_ascii {c : UInt8} (ascii : c < 0x80)
    (rest : Bytes) : validUtf8 (c :: rest) = validUtf8 rest := by
  rw [validUtf8.eq_def]
  simp [ascii]

theorem validUtf8_append_ascii {c : UInt8} (ascii : c < 0x80) (start rest : Bytes) :
    validUtf8 (start ++ c :: rest) = (validUtf8 start && validUtf8 rest) := by
  have outside := isContinuation_of_ascii ascii
  fun_induction validUtf8 start with
  | case1 => simp [ascii]
  | case2 a start small ih => simp [small, ih]
  | case3 a large two b start ih => simp [validUtf8, large, two, ih, Bool.and_assoc]
  | case4 a start large two short =>
    match start with
    | [] => simp [validUtf8, large, two, outside]
    | b :: start => exact absurd rfl (short b start)
  | case5 a large notTwo three b c start ih =>
    simp [validUtf8, large, notTwo, three, ih, Bool.and_assoc]
  | case6 a start large notTwo three short =>
    match start with
    | [] =>
      cases rest <;> simp [validUtf8, large, notTwo, three, validSecondOfThree, outside]
    | [b] => simp [validUtf8, large, notTwo, three, outside]
    | b :: c :: start => exact absurd rfl (short b c start)
  | case7 a large notTwo notThree four b c d start ih =>
    simp [validUtf8, large, notTwo, notThree, four, ih, Bool.and_assoc]
  | case8 a start large notTwo notThree four short =>
    match start with
    | [] =>
      match rest with
      | [] => simp [validUtf8, large, notTwo, notThree, four]
      | [_] => simp [validUtf8, large, notTwo, notThree, four]
      | _ :: _ :: _ => simp [validUtf8, large, notTwo, notThree, four, validSecondOfFour, outside]
    | [b] =>
      cases rest <;> simp [validUtf8, large, notTwo, notThree, four, outside]
    | [b, c] => simp [validUtf8, large, notTwo, notThree, four, outside]
    | b :: c :: d :: start => exact absurd rfl (short b c d start)
  | case9 a start large notTwo notThree notFour =>
    rw [validUtf8.eq_def]
    simp [large, notTwo, notThree, notFour]

end Ophan
