import Mathlib.Tactic.IntervalCases
import Ophan.Http.Utils
import Ophan.Lib.Word

/-!
# The `Range` header

Sizes and positions are 64-bit words.  Every sum and difference of the source that
is not checked there is one that must not overflow, so that a result which is not
`panic` was computed without overflow.
-/

namespace Ophan.Static

open Ophan.Http

inductive HttpRangeParseError where
  | invalidRange
  | unsupportedUnit
  | noOverlap
  deriving DecidableEq, Repr

structure HttpRange where
  start : Nat
  length : Nat
  deriving DecidableEq, Repr

section Slice

def isWhitespace (b : UInt8) : Bool := b = 9 || b = 32

def trim (text : Bytes) : Bytes :=
  ((text.dropWhile isWhitespace).reverse.dropWhile isWhitespace).reverse

def parseDigits (res : Nat) : Bytes → Option Nat
  | [] => some res
  | b :: rest =>
    if 48 ≤ b ∧ b ≤ 57 then
      (checkedMul res 10).bind fun tens =>
        (checkedAdd tens (b - 48).toNat).bind fun sum => parseDigits sum rest
    else none

def parseU64 (text : Bytes) : Option Nat :=
  if text = [] then none else parseDigits 0 text

end Slice

namespace HttpRange

/-- A number of the header, or the error of the parser. -/
def parseNumber (text : Bytes) : Outcome HttpRangeParseError Nat :=
  match parseU64 text with
  | some number => .ok number
  | none => .err .invalidRange

/-- `-length` -/
def parseSuffix (text : Bytes) (size : Nat) : Outcome HttpRangeParseError (Option HttpRange) :=
  if text.head?.all (· = 45) then .err .invalidRange
  else
    (parseNumber text).bind fun length =>
      if length = 0 then .ok none
      else
        let length := if length > size then size else length
        (subWord size length).map fun start => some ⟨start, length⟩

/-- `start-` and `start-end` -/
def parseFrom (startText endText : Bytes) (size : Nat) :
    Outcome HttpRangeParseError (Option HttpRange) :=
  (parseNumber startText).bind fun start =>
    if start ≥ size then .ok none
    else if endText = [] then
      (subWord size start).map fun length => some ⟨start, length⟩
    else
      (parseNumber endText).bind fun stop =>
        if start > stop then .err .invalidRange
        else
          (if stop ≥ size then subWord size 1 else .ok stop).bind fun stop =>
            (subWord stop start).bind fun span =>
              (addWord span 1).map fun length => some ⟨start, length⟩

def parseSingleRange (text : Bytes) (size : Nat) : Outcome HttpRangeParseError (Option HttpRange) :=
  match splitOnce 45 text with
  | none => .err .invalidRange
  | some (startText, endText) =>
    if trim startText = [] then parseSuffix (trim endText) size
    else parseFrom (trim startText) (trim endText) size

/-- The ranges of the header, and whether one of them lies behind the file. -/
def parseAll (size : Nat) : List Bytes → Outcome HttpRangeParseError (List HttpRange × Bool)
  | [] => .ok ([], false)
  | text :: rest =>
    if trim text = [] then parseAll size rest
    else
      (parseSingleRange (trim text) size).bind fun parsed =>
        (parseAll size rest).map fun others =>
          match parsed with
          | some range => (range :: others.1, others.2)
          | none => (others.1, true)

def parse (header : Bytes) (size : Nat) : Outcome HttpRangeParseError (List HttpRange) :=
  if header = [] then .ok []
  else if bytes "bytes=" <+: header then
    (parseAll size (splitAtEvery 44 (header.drop 6))).bind fun parsed =>
      if parsed.2 ∧ parsed.1 = [] then .err .noOverlap else .ok parsed.1
  else .err .invalidRange

end HttpRange

structure ContentRange where
  start : Nat
  length : Nat
  total : Nat
  deriving DecidableEq, Repr

/-- `itoa::Buffer::format` -/
def decimal (number : Nat) : Bytes :=
  (Nat.toDigits 10 number).map fun digit => digit.toNat.toUInt8

/-- Whether a `HeaderValue` may have these bytes. -/
def isHeaderValue (text : Bytes) : Bool := text.all fun b => (32 ≤ b && b ≠ 127) || b = 9

namespace ContentRange

/-- `end`; the sum is taken before the difference. -/
def stop (self : ContentRange) : Outcome Empty Nat :=
  (addWord self.start self.length).bind fun past => subWord past 1

def tryIntoHeaderValue (self : ContentRange) : Outcome Empty (Option Bytes) :=
  self.stop.map fun stop =>
    let text := bytes "bytes " ++ decimal self.start ++ [45] ++ decimal stop ++ [47] ++
      decimal self.total
    if isHeaderValue text then some text else none

end ContentRange

section Inside

open HttpRange

/-- The range is part of a file of the given size; it is empty only if the file is. -/
def HttpRange.Inside (range : HttpRange) (size : Nat) : Prop :=
  range.start + range.length ≤ size ∧ (range.length = 0 → size = 0)

theorem parseDigits_le {res number : Nat} {text : Bytes} (isLe : res ≤ wordMax)
    (parsed : parseDigits res text = some number) : number ≤ wordMax := by
  induction text generalizing res with
  | nil =>
    cases parsed
    exact isLe
  | cons b rest ih =>
    rw [parseDigits] at parsed
    obtain ⟨_, parsed⟩ := Option.ite_none_right_eq_some.mp parsed
    obtain ⟨tens, _, parsed⟩ := Option.bind_eq_some_iff.mp parsed
    obtain ⟨sum, isSum, parsed⟩ := Option.bind_eq_some_iff.mp parsed
    obtain ⟨fits, isSum⟩ := Option.ite_none_right_eq_some.mp isSum
    cases isSum
    exact ih fits parsed

/-- How a parser of ranges ends: with a range inside the file, without one or with the
error that the source gives, but never with an overflow. -/
inductive Ends (size : Nat) : Outcome HttpRangeParseError (Option HttpRange) → Prop where
  | none : Ends size (.ok none)
  | range {range : HttpRange} (inside : range.Inside size) : Ends size (.ok (some range))
  | invalid : Ends size (.err .invalidRange)

variable {size : Nat}

theorem ends_parseNumber {text : Bytes}
    {next : Nat → Outcome HttpRangeParseError (Option HttpRange)}
    (ends : ∀ number, number ≤ wordMax → Ends size (next number)) :
    Ends size ((parseNumber text).bind next) := by
  rw [parseNumber]
  cases parsed : parseU64 text with
  | none => exact .invalid
  | some number =>
    rw [parseU64] at parsed
    obtain ⟨_, parsed⟩ := Option.ite_none_left_eq_some.mp parsed
    exact ends number (parseDigits_le (Nat.zero_le _) parsed)

theorem ends_parseSuffix (text : Bytes) (size : Nat) : Ends size (parseSuffix text size) := by
  rw [parseSuffix]
  split
  · exact .invalid
  · refine ends_parseNumber fun length _ => ?_
    split
    · exact .none
    next positive =>
      have atMost : (if length > size then size else length) ≤ size := by
        split <;> omega
      simp only [subWord_of_le atMost, Outcome.map_ok]
      refine .range ⟨?_, ?_⟩
      · simp_all
      · grind

theorem ends_parseFrom (startText endText : Bytes) (fits : size ≤ wordMax) :
    Ends size (parseFrom startText endText size) := by
  rw [parseFrom]
  refine ends_parseNumber fun start _ => ?_
  split
  · exact .none
  next isBelow =>
    have below : start < size := Nat.lt_of_not_ge isBelow
    split
    · simp only [subWord_of_le (Nat.le_of_lt below), Outcome.map_ok]
      refine .range ⟨?_, ?_⟩
      · grind
      · grind
    · refine ends_parseNumber fun stop _ => ?_
      split
      · exact .invalid
      next ordered =>
        -- The last position, clamped to the file.
        have isLast : ∃ last, start ≤ last ∧ last < size ∧
            (if stop ≥ size then subWord size 1 else .ok stop :
              Outcome HttpRangeParseError Nat) = .ok last := by
          by_cases behind : stop ≥ size
          · refine ⟨size - 1, by omega, by omega, ?_⟩
            rw [if_pos behind, subWord_of_le (by omega)]
          · exact ⟨stop, by omega, by omega, if_neg behind⟩
        obtain ⟨last, startLe, lastLt, isLast⟩ := isLast
        have spanFits : last - start + 1 ≤ wordMax := by omega
        rw [isLast, Outcome.bind_ok, subWord_of_le startLe, Outcome.bind_ok,
          addWord_of_le spanFits, Outcome.map_ok]
        refine .range ⟨?_, ?_⟩
        · grind
        · simp

theorem ends_parseSingleRange (text : Bytes) (fits : size ≤ wordMax) :
    Ends size (parseSingleRange text size) := by
  rw [parseSingleRange]
  split
  · exact .invalid
  · split
    · exact ends_parseSuffix _ size
    · exact ends_parseFrom _ _ fits

/-- Every range of the header lies inside the file, and no step overflows. -/
theorem parseAll_inside (fits : size ≤ wordMax) (texts : List Bytes) :
    parseAll size texts ≠ .panic ∧
      ∀ parsed, parseAll size texts = .ok parsed → ∀ range ∈ parsed.1, range.Inside size := by
  induction texts with
  | nil =>
    refine ⟨by simp [parseAll], ?_⟩
    intro parsed isParsed
    cases isParsed
    exact List.forall_mem_nil _
  | cons text rest ih =>
    obtain ⟨noPanic, inside⟩ := ih
    rw [parseAll]
    split
    · exact ⟨noPanic, inside⟩
    · have ends := ends_parseSingleRange (trim text) fits
      generalize parseSingleRange (trim text) size = single at ends
      cases isRest : parseAll size rest with
      | panic => exact absurd isRest noPanic
      | err error => cases ends <;> simp
      | ok others =>
        have earlier := inside others isRest
        cases ends with
        | none => simp_all
        | range isInside => simp_all
        | invalid => simp

theorem parse_inside (header : Bytes) (fits : size ≤ wordMax) :
    parse header size ≠ .panic ∧
      ∀ ranges, parse header size = .ok ranges → ∀ range ∈ ranges, range.Inside size := by
  rw [parse]
  split
  · simp
  · split
    · obtain ⟨noPanic, inside⟩ := parseAll_inside fits (splitAtEvery 44 (header.drop 6))
      cases all : parseAll size (splitAtEvery 44 (header.drop 6)) with
      | panic => exact absurd all noPanic
      | err error => simp
      | ok parsed =>
        rw [Outcome.bind_ok]
        split
        · simp
        · simp_all
    · simp

theorem isHeaderValue_append {first second : Bytes} (isFirst : isHeaderValue first = true)
    (isSecond : isHeaderValue second = true) : isHeaderValue (first ++ second) = true := by
  rw [isHeaderValue, List.all_append, Bool.and_eq_true]
  exact ⟨isFirst, isSecond⟩

theorem isHeaderValue_decimal (number : Nat) : isHeaderValue (decimal number) = true := by
  rw [isHeaderValue, List.all_eq_true]
  intro b member
  obtain ⟨digit, isDigit, rfl⟩ := List.mem_map.mp member
  have digitRange := Nat.isDigit_of_mem_toDigits (by decide) (by decide) isDigit
  rw [Char.isDigit, Bool.and_eq_true, decide_eq_true_eq, decide_eq_true_eq] at digitRange
  have least : 48 ≤ digit.toNat := UInt32.le_iff_toNat_le.mp digitRange.1
  have most : digit.toNat ≤ 57 := UInt32.le_iff_toNat_le.mp digitRange.2
  generalize digit.toNat = code at least most
  interval_cases code <;> decide

theorem stop_of_inside {range : HttpRange} (fits : size ≤ wordMax)
    (inside : range.Inside size) (notEmpty : range.length ≠ 0) (total : Nat) :
    (ContentRange.mk range.start range.length total).stop = .ok (range.start + range.length - 1) ∧
      range.start ≤ range.start + range.length - 1 ∧ range.start + range.length - 1 < size := by
  have isLe := inside.1
  refine ⟨?_, by omega, by omega⟩
  rw [ContentRange.stop, addWord_of_le (isLe.trans fits), Outcome.bind_ok, subWord_of_le (by omega)]

/-- The text of a `Content-Range`. -/
def contentRangeText (start stop total : Nat) : Bytes :=
  bytes "bytes " ++ decimal start ++ [45] ++ decimal stop ++ [47] ++ decimal total

theorem isHeaderValue_contentRangeText (start stop total : Nat) :
    isHeaderValue (contentRangeText start stop total) = true := by
  have unit : isHeaderValue (bytes "bytes ") = true := by decide +kernel
  refine isHeaderValue_append (isHeaderValue_append (isHeaderValue_append
    (isHeaderValue_append (isHeaderValue_append unit ?_) (by decide)) ?_) (by decide)) ?_
  · exact isHeaderValue_decimal start
  · exact isHeaderValue_decimal stop
  · exact isHeaderValue_decimal total

theorem tryIntoHeaderValue_of_inside {range : HttpRange} (fits : size ≤ wordMax)
    (inside : range.Inside size) (notEmpty : range.length ≠ 0) :
    (ContentRange.mk range.start range.length size).tryIntoHeaderValue =
      .ok (some (contentRangeText range.start (range.start + range.length - 1) size)) := by
  rw [ContentRange.tryIntoHeaderValue, (stop_of_inside fits inside notEmpty size).1, Outcome.map_ok]
  exact congrArg Outcome.ok (if_pos (isHeaderValue_contentRangeText ..))

end Inside

end Ophan.Static
