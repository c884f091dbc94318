import Mathlib.Data.FinEnum
import Ophan.Http.Utils

/-!
# The escapes of a path

A `%` that starts no escape stays as it is, and when the two characters behind it
are decoded to hexadecimal digits it starts an escape in the result.
`completesEscape` finds these places: decoding the decoded text does not change it
again exactly when there are none.
-/

namespace Ophan.Http

open List

/-! ## Bytes -/

private def Plain (b : UInt8) : Prop := b ≠ percent ∧ b ≠ slash ∧ b < 0x80

private instance (b : UInt8) : Decidable (Plain b) := inferInstanceAs (Decidable (_ ∧ _ ∧ _))

private theorem upper_upper : ∀ b : UInt8,
    toAsciiUppercase (toAsciiUppercase b) = toAsciiUppercase b := by
  decide +kernel

private theorem plain_of_isUnreserved : ∀ c : UInt8, isUnreserved c = true → Plain c := by
  decide +kernel

private theorem plain_of_digit : ∀ b : UInt8, (hexValue b).isSome →
    hexValue (toAsciiUppercase b) = hexValue b ∧ Plain b ∧ Plain (toAsciiUppercase b) := by
  decide +kernel

variable {high low c b : UInt8}

private theorem hexPair_eq_some (pair : hexPair high low = some c) :
    (hexValue high).isSome ∧ (hexValue low).isSome := by
  unfold hexPair at pair
  split at pair
  · simp_all
  · cases pair

private theorem hexPair_plain (pair : hexPair high low = some c) :
    (Plain high ∧ Plain (toAsciiUppercase high)) ∧ Plain low ∧ Plain (toAsciiUppercase low) :=
  ⟨(plain_of_digit high (hexPair_eq_some pair).1).2,
    (plain_of_digit low (hexPair_eq_some pair).2).2⟩

private theorem hexPair_upper (pair : hexPair high low = some c) :
    hexPair (toAsciiUppercase high) (toAsciiUppercase low) = some c := by
  obtain ⟨highHex, lowHex⟩ := hexPair_eq_some pair
  rw [← pair, hexPair, hexPair, (plain_of_digit high highHex).1, (plain_of_digit low lowHex).1]

private theorem hexPair_percent_left (low : UInt8) : hexPair percent low = none := by
  rfl

private theorem hexPair_slash_left (low : UInt8) : hexPair slash low = none := by
  rfl

private theorem hexPair_right (noDigit : hexValue low = none) (high : UInt8) :
    hexPair high low = none := by
  rw [hexPair, noDigit]
  cases hexValue high <;> rfl

/-! ## Reading the escapes of a path -/

/-- A byte as it is written, or an escape with its two digits. -/
inductive PathUnit where
  | byte (b : UInt8)
  | escape (high low : UInt8)
  deriving DecidableEq, Repr

def readUnits : Bytes → List PathUnit
  | [] => []
  | b :: rest =>
    match rest with
    | high :: low :: behind =>
      if b = percent ∧ (hexPair high low).isSome then
        .escape high low :: readUnits behind
      else
        .byte b :: readUnits (high :: low :: behind)
    | [second] => [.byte b, .byte second]
    | [] => [.byte b]

/-- The byte a unit stands for; an escape of a reserved character stands for
itself. -/
def PathUnit.spelled : PathUnit → Option UInt8
  | .byte b => some b
  | .escape high low => (hexPair high low).filter isUnreserved

/-- Two digits of an escape that a normal path does not contain: the escape of
an unreserved character, or one with a lower case digit. -/
def improperDigits (high low : UInt8) : Bool :=
  match hexPair high low with
  | some c => isUnreserved c || toAsciiUppercase high ≠ high || toAsciiUppercase low ≠ low
  | none => false

/-- Whether the first two units spell improper digits. -/
def spellsImproperDigits : List PathUnit → Bool
  | first :: second :: _ =>
    match first.spelled, second.spelled with
    | some high, some low => improperDigits high low
    | _, _ => false
  | _ => false

/-- Whether a `%` that starts no escape is followed by units that spell
improper digits. -/
def completesEscape : List PathUnit → Bool
  | [] => false
  | unit :: rest => (unit = .byte percent && spellsImproperDigits rest) || completesEscape rest

/-! ## Decoding -/

def StartsNoEscape (b : UInt8) (rest : Bytes) : Prop :=
  b = percent → ∀ high low behind, rest = high :: low :: behind → hexPair high low = none

theorem unit_induction {motive : Bytes → Prop} (nil : motive [])
    (byte : ∀ b rest, StartsNoEscape b rest → motive rest → motive (b :: rest))
    (escape : ∀ high low c behind, hexPair high low = some c →
      motive behind → motive (percent :: high :: low :: behind)) :
    ∀ path, motive path := by
  intro path
  induction size : path.length using Nat.strongRecOn generalizing path with
  | ind n ih =>
    match path with
    | [] => exact nil
    | b :: rest =>
      have shorter : motive rest :=
        ih rest.length (by simp only [length_cons] at size; omega) rest rfl
      by_cases starts : StartsNoEscape b rest
      · exact byte b rest starts shorter
      · simp only [StartsNoEscape, not_forall] at starts
        obtain ⟨isPercent, high, low, behind, rfl, pair⟩ := starts
        obtain ⟨c, found⟩ := Option.ne_none_iff_exists'.mp pair
        rw [isPercent]
        refine escape high low c behind found (ih behind.length ?_ behind rfl)
        simp only [length_cons] at size
        omega

variable {rest path : Bytes}

theorem decodeLoop_byte (starts : StartsNoEscape b rest) :
    decodeLoop (b :: rest) = b :: decodeLoop rest := by
  match rest with
  | [] => simp [decodeLoop]
  | [second] => simp [decodeLoop]
  | high :: low :: behind =>
    by_cases isPercent : b = percent
    · simp [decodeLoop, isPercent, starts isPercent high low behind rfl]
    · simp [decodeLoop, isPercent]

theorem decodeLoop_escape (pair : hexPair high low = some c) (behind : Bytes) :
    decodeLoop (percent :: high :: low :: behind) =
      if isUnreserved c then
        c :: decodeLoop behind
      else
        percent :: toAsciiUppercase high :: toAsciiUppercase low :: decodeLoop behind := by
  simp [decodeLoop, pair]

theorem readUnits_byte (starts : StartsNoEscape b rest) :
    readUnits (b :: rest) = .byte b :: readUnits rest := by
  match rest with
  | [] => simp [readUnits]
  | [second] => simp [readUnits]
  | high :: low :: behind =>
    by_cases isPercent : b = percent
    · simp [readUnits, isPercent, starts isPercent high low behind rfl]
    · simp [readUnits, isPercent]

theorem readUnits_escape (pair : hexPair high low = some c) (behind : Bytes) :
    readUnits (percent :: high :: low :: behind) = .escape high low :: readUnits behind := by
  simp [readUnits, pair]

theorem startsNoEscape_of_ne (notPercent : b ≠ percent) (rest : Bytes) : StartsNoEscape b rest :=
  fun isPercent => absurd isPercent notPercent

/-- The bytes behind a `%` are improper digits. -/
def improperAhead : Bytes → Bool
  | high :: low :: _ => improperDigits high low
  | _ => false

/-- Every escape of the text is a reserved character in upper case. -/
def settled : Bytes → Bool
  | [] => true
  | b :: rest => !(b = percent && improperAhead rest) && settled rest

theorem settled_cons_of_ne (notPercent : b ≠ percent)
    (rest : Bytes) : settled (b :: rest) = settled rest := by
  simp [settled, notPercent]

theorem settled_byte (starts : StartsNoEscape b rest) : settled (b :: rest) = settled rest := by
  by_cases isPercent : b = percent
  · have proper : improperAhead rest = false := by
      match rest with
      | [] => rfl
      | [_] => rfl
      | high :: low :: behind =>
        simp [improperAhead, improperDigits, starts isPercent high low behind rfl]
    simp [settled, proper]
  · exact settled_cons_of_ne isPercent rest

theorem settled_escape (pair : hexPair high low = some c) (behind : Bytes) :
    settled (percent :: high :: low :: behind) = (!improperDigits high low && settled behind) := by
  obtain ⟨⟨highPlain, _⟩, lowPlain, _⟩ := hexPair_plain pair
  have digits : settled (high :: low :: behind) = settled behind := by
    rw [settled_cons_of_ne highPlain.1, settled_cons_of_ne lowPlain.1]
  rw [settled, digits]
  simp [improperAhead]

theorem settled_iff (path : Bytes) : settled path = true ↔ decodeLoop path = path := by
  induction path using unit_induction with
  | nil => simp [settled, decodeLoop]
  | byte b rest starts ih =>
    rw [settled_byte starts, decodeLoop_byte starts, ih]
    simp
  | escape high low c behind pair ih =>
    rw [settled_escape pair, decodeLoop_escape pair]
    by_cases unreserved : isUnreserved c = true
    · have different : c ≠ percent := (plain_of_isUnreserved c unreserved).1
      simp [improperDigits, pair, unreserved, different]
    · simp [improperDigits, pair, unreserved, ih, and_assoc]

/-! ### Slashes are not decoded -/

theorem decodeLoop_append_slash (path rest : Bytes) :
    decodeLoop (path ++ slash :: rest) = decodeLoop path ++ slash :: decodeLoop rest := by
  induction path using unit_induction with
  | nil =>
    rw [nil_append, decodeLoop_byte (startsNoEscape_of_ne (by decide) rest)]
    simp [decodeLoop]
  | byte b path starts ih =>
    have startsToo : StartsNoEscape b (path ++ slash :: rest) := by
      intro isPercent high low behind cut
      match path with
      | [] =>
        rw [nil_append, List.cons.injEq] at cut
        rw [← cut.1, hexPair_slash_left]
      | [second] =>
        rw [cons_append, nil_append, List.cons.injEq, List.cons.injEq] at cut
        rw [← cut.2.1, hexPair_right rfl]
      | first :: second :: path =>
        simp only [cons_append, List.cons.injEq] at cut
        rw [← cut.1, ← cut.2.1]
        exact starts isPercent first second path rfl
    rw [cons_append, decodeLoop_byte startsToo, ih, decodeLoop_byte starts, cons_append]
  | escape high low c behind pair ih =>
    rw [cons_append, cons_append, cons_append, decodeLoop_escape pair, ih, decodeLoop_escape pair]
    split <;> simp

theorem slash_notMem_decodeLoop {segment : Bytes}
    (without : slash ∉ segment) : slash ∉ decodeLoop segment := by
  induction segment using unit_induction with
  | nil => simp [decodeLoop]
  | byte b rest starts ih =>
    simp only [mem_cons, not_or] at without
    rw [decodeLoop_byte starts]
    simp [without.1, ih without.2]
  | escape high low c behind pair ih =>
    simp only [mem_cons, not_or] at without
    obtain ⟨⟨_, highUpper⟩, _, lowUpper⟩ := hexPair_plain pair
    have below := ih without.2.2.2
    rw [decodeLoop_escape pair]
    split
    · rename_i unreserved
      simp [below, Ne.symm (plain_of_isUnreserved c unreserved).2.1]
    · simp [below, Ne.symm highUpper.2.1, Ne.symm lowUpper.2.1, show slash ≠ percent by decide]

theorem splitAtEvery_decodeLoop (path : Bytes) :
    splitAtEvery slash (decodeLoop path) = (splitAtEvery slash path).map decodeLoop := by
  induction path using split_induction slash with
  | last segment without =>
    rw [splitAtEvery_of_not_mem without, splitAtEvery_of_not_mem (slash_notMem_decodeLoop without)]
    rfl
  | cut segment rest without ih =>
    rw [decodeLoop_append_slash, splitAtEvery_append_sep (slash_notMem_decodeLoop without),
      splitAtEvery_append_sep without, ih]
    rfl

theorem improperAhead_append_slash (path rest : Bytes) :
    improperAhead (path ++ slash :: rest) = improperAhead path := by
  match path with
  | [] =>
    cases rest with
    | nil => rfl
    | cons => simp [improperAhead, improperDigits, hexPair_slash_left]
  | [first] => simp [improperAhead, improperDigits, @hexPair_right slash rfl]
  | first :: second :: path => rfl

theorem settled_append_slash (path rest : Bytes) :
    settled (path ++ slash :: rest) = (settled path && settled rest) := by
  induction path with
  | nil => simp [settled_cons_of_ne (show slash ≠ percent by decide), settled]
  | cons b path ih =>
    rw [cons_append, settled, improperAhead_append_slash, ih, settled, Bool.and_assoc]

theorem settled_joinAfter {segments : List Bytes} :
    settled (joinAfter slash segments) = segments.all settled := by
  have behind : ∀ first : Bytes,
      settled (first ++ joinAfter slash segments) = (settled first && segments.all settled) := by
    induction segments with
    | nil => simp
    | cons segment segments ih =>
      intro first
      rw [joinAfter_cons, cons_append, settled_append_slash, ih, all_cons]
  simpa [settled] using behind []

theorem not_isUnreserved_of_settled {before behind : Bytes}
    (stable : settled (before ++ percent :: high :: low :: behind) = true)
    (pair : hexPair high low = some c) : isUnreserved c = false := by
  induction before with
  | nil =>
    rw [nil_append, settled_escape pair] at stable
    simp only [improperDigits, pair, Bool.and_eq_true, Bool.not_eq_true',
      Bool.or_eq_false_iff] at stable
    exact stable.1.1.1
  | cons b before ih =>
    rw [cons_append, settled, Bool.and_eq_true] at stable
    exact ih stable.2

/-! ### Units -/

def PathUnit.text : PathUnit → Bytes
  | .byte b => [b]
  | .escape high low =>
    match (PathUnit.escape high low).spelled with
    | some c => [c]
    | none => [percent, toAsciiUppercase high, toAsciiUppercase low]

theorem PathUnit.spelled_escape (pair : hexPair high low = some c) :
    (PathUnit.escape high low).spelled =
      if isUnreserved c then some c else none := by
  simp [PathUnit.spelled, pair, Option.filter]

theorem PathUnit.text_of_spelled {unit : PathUnit}
    (spelled : unit.spelled = some b) : unit.text = [b] := by
  cases unit with
  | byte c => simpa [PathUnit.spelled, PathUnit.text] using spelled
  | escape high low => simp [PathUnit.text, spelled]

theorem PathUnit.text_of_reserved (reserved : (PathUnit.escape high low).spelled = none) :
    (PathUnit.escape high low).text = [percent, toAsciiUppercase high, toAsciiUppercase low] := by
  simp [PathUnit.text, reserved]

def PathUnit.WellFormed : PathUnit → Prop
  | .byte _ => True
  | .escape high low => (hexPair high low).isSome

theorem wellFormed_readUnits (path : Bytes) : ∀ unit ∈ readUnits path, unit.WellFormed := by
  induction path using unit_induction with
  | nil => simp [readUnits]
  | byte b rest starts ih =>
    rw [readUnits_byte starts]
    simpa [PathUnit.WellFormed] using ih
  | escape high low c behind pair ih =>
    rw [readUnits_escape pair]
    simpa [PathUnit.WellFormed, pair] using ih

theorem decodeLoop_eq_flatMap (path : Bytes) :
    decodeLoop path = (readUnits path).flatMap PathUnit.text := by
  induction path using unit_induction with
  | nil => rfl
  | byte b rest starts ih =>
    rw [decodeLoop_byte starts, readUnits_byte starts, ih]
    rfl
  | escape high low c behind pair ih =>
    rw [decodeLoop_escape pair, readUnits_escape pair, ih, flatMap_cons]
    have spelled := PathUnit.spelled_escape pair
    by_cases unreserved : isUnreserved c = true
    · rw [if_pos unreserved] at spelled ⊢
      rw [PathUnit.text_of_spelled spelled]
      rfl
    · rw [if_neg unreserved] at spelled ⊢
      rw [PathUnit.text_of_reserved spelled]
      rfl

theorem improperAhead_flatMap (units : List PathUnit) :
    improperAhead (units.flatMap PathUnit.text) = spellsImproperDigits units := by
  have textOf : ∀ unit : PathUnit,
      (∃ b, unit.spelled = some b ∧ unit.text = [b]) ∨
        (unit.spelled = none ∧ ∃ high low, unit.text = [percent, high, low]) := by
    intro unit
    cases spelled : unit.spelled with
    | some b => exact .inl ⟨b, rfl, PathUnit.text_of_spelled spelled⟩
    | none =>
      cases unit with
      | byte b => cases spelled
      | escape high low => exact .inr ⟨rfl, _, _, PathUnit.text_of_reserved spelled⟩
  match units with
  | [] => rfl
  | [first] =>
    rcases textOf first with ⟨b, _, text⟩ | ⟨_, high, low, text⟩
    · simp [text, improperAhead, spellsImproperDigits]
    · simp [text, improperAhead, improperDigits, hexPair_percent_left, spellsImproperDigits]
  | first :: second :: units =>
    rcases textOf first with ⟨b, spelled, text⟩ | ⟨spelled, high, low, text⟩
    · rcases textOf second with
        ⟨b', spelledToo, textToo⟩ | ⟨spelledToo, high', low', textToo⟩
      · simp [text, textToo, improperAhead, spellsImproperDigits, spelled, spelledToo]
      · simp [text, textToo, improperAhead, spellsImproperDigits, spelled,
          spelledToo, improperDigits, @hexPair_right percent rfl]
    · simp [text, improperAhead, spellsImproperDigits, spelled,
        improperDigits, hexPair_percent_left]

/-- A decoded text is settled unless a `%` completes an escape. -/
theorem settled_flatMap {units : List PathUnit} (wellFormed : ∀ unit ∈ units, unit.WellFormed) :
    settled (units.flatMap PathUnit.text) = !completesEscape units := by
  induction units with
  | nil => rfl
  | cons unit units ih =>
    have below := ih (forall_mem_cons.mp wellFormed).2
    cases unit with
    | byte b =>
      rw [flatMap_cons, completesEscape]
      simp only [PathUnit.text, cons_append, nil_append, settled, improperAhead_flatMap, below,
        PathUnit.byte.injEq, Bool.not_or]
    | escape high low =>
      obtain ⟨c, pair⟩ := Option.isSome_iff_exists.mp (wellFormed _ (mem_cons_self ..))
      have notByte : (PathUnit.escape high low = .byte percent) = False := by simp
      rw [flatMap_cons, completesEscape]
      simp only [notByte, decide_false, Bool.false_and, Bool.false_or]
      have spelled := PathUnit.spelled_escape pair
      by_cases unreserved : isUnreserved c = true
      · rw [if_pos unreserved] at spelled
        rw [PathUnit.text_of_spelled spelled, cons_append, nil_append,
          settled_cons_of_ne (plain_of_isUnreserved c unreserved).1, below]
      · rw [if_neg unreserved] at spelled
        have proper : improperDigits (toAsciiUppercase high) (toAsciiUppercase low) = false := by
          simp [improperDigits, hexPair_upper pair, unreserved, upper_upper]
        rw [PathUnit.text_of_reserved spelled, cons_append, cons_append, cons_append, nil_append,
          settled_escape (hexPair_upper pair), proper, below]
        rfl

theorem settled_decodeLoop (segment : Bytes) :
    settled (decodeLoop segment) = !completesEscape (readUnits segment) := by
  rw [decodeLoop_eq_flatMap, settled_flatMap (wellFormed_readUnits segment)]

theorem flatMap_text_eq_iff {units : List PathUnit} :
    ∀ {text : Bytes}, percent ∉ text →
      (units.flatMap PathUnit.text = text ↔ units.map PathUnit.spelled = text.map some) := by
  induction units with
  | nil => simp
  | cons unit units ih =>
    intro text without
    cases spelled : unit.spelled with
    | some b =>
      have unitText := PathUnit.text_of_spelled spelled
      cases text with
      | nil => simp [unitText]
      | cons c text => simp_all
    | none =>
      cases unit with
      | byte b => cases spelled
      | escape high low =>
        have unitText := PathUnit.text_of_reserved spelled
        cases text with
        | nil => simp [unitText]
        | cons c text => simp_all

/-! ### Validity -/

theorem decodeLoop_cons_of_ne (notPercent : b ≠ percent) (rest : Bytes) :
    decodeLoop (b :: rest) = b :: decodeLoop rest :=
  decodeLoop_byte (startsNoEscape_of_ne notPercent rest)

private theorem validUtf8_decodeLoop_escape {behind : Bytes} (pair : hexPair high low = some c)
    (valid : validUtf8 (decodeLoop (high :: low :: behind)) = true) :
    validUtf8 (decodeLoop (percent :: high :: low :: behind)) = true := by
  obtain ⟨⟨highPlain, highUpper⟩, lowPlain, lowUpper⟩ := hexPair_plain pair
  rw [decodeLoop_cons_of_ne highPlain.1, decodeLoop_cons_of_ne lowPlain.1,
    validUtf8_cons_ascii highPlain.2.2, validUtf8_cons_ascii lowPlain.2.2] at valid
  rw [decodeLoop_escape pair]
  split
  · rename_i unreserved
    rwa [validUtf8_cons_ascii (plain_of_isUnreserved c unreserved).2.2]
  · rwa [validUtf8_cons_ascii (by decide), validUtf8_cons_ascii highUpper.2.2,
      validUtf8_cons_ascii lowUpper.2.2]

/-- The check behind the loop of `decode_unreserved` never fails. -/
theorem validUtf8_decodeLoop (path : Bytes) :
    validUtf8 path = true → validUtf8 (decodeLoop path) = true := by
  have aboveAscii : ∀ {b : UInt8}, ¬b < 0x80 → b ≠ percent := by grind
  have continuing : ∀ {b : UInt8}, isContinuation b = true → b ≠ percent := by
    grind [isContinuation]
  have secondOfThree : ∀ {a b : UInt8}, validSecondOfThree a b = true → b ≠ percent := by
    grind [validSecondOfThree]
  have secondOfFour : ∀ {a b : UInt8}, validSecondOfFour a b = true → b ≠ percent := by
    grind [validSecondOfFour]
  fun_induction validUtf8 path with
  | case1 => simp [decodeLoop, validUtf8]
  | case2 a rest small ih =>
    intro valid
    have below := ih valid
    by_cases starts : StartsNoEscape a rest
    · rw [decodeLoop_byte starts, validUtf8_cons_ascii small]
      exact below
    · simp only [StartsNoEscape, not_forall] at starts
      obtain ⟨isPercent, high, low, behind, rfl, pair⟩ := starts
      obtain ⟨c, found⟩ := Option.ne_none_iff_exists'.mp pair
      rw [isPercent]
      exact validUtf8_decodeLoop_escape found below
  | case3 a large two b rest ih =>
    intro valid
    rw [Bool.and_eq_true] at valid
    rw [decodeLoop_cons_of_ne (aboveAscii large),
      decodeLoop_cons_of_ne (continuing valid.1), validUtf8]
    simp [large, two, valid.1, ih valid.2]
  | case5 a large notTwo three b c rest ih =>
    intro valid
    simp only [Bool.and_eq_true] at valid
    rw [decodeLoop_cons_of_ne (aboveAscii large), decodeLoop_cons_of_ne (secondOfThree valid.1.1),
      decodeLoop_cons_of_ne (continuing valid.1.2), validUtf8]
    simp [large, notTwo, three, valid.1, ih valid.2]
  | case7 a large notTwo notThree four b c d rest ih =>
    intro valid
    simp only [Bool.and_eq_true] at valid
    rw [decodeLoop_cons_of_ne (aboveAscii large), decodeLoop_cons_of_ne (secondOfFour valid.1.1.1),
      decodeLoop_cons_of_ne (continuing valid.1.1.2),
      decodeLoop_cons_of_ne (continuing valid.1.2), validUtf8]
    simp [large, notTwo, notThree, four, valid.1, ih valid.2]
  | case4 | case6 | case8 | case9 => simp

theorem decodeLoop_of_not_mem (without : percent ∉ path) : decodeLoop path = path := by
  induction path with
  | nil => rfl
  | cons b path ih =>
    simp only [mem_cons, not_or] at without
    rw [decodeLoop_cons_of_ne (Ne.symm without.1), ih without.2]

theorem decodeUnreserved_eq (valid : validUtf8 path = true) :
    decodeUnreserved path = decodeLoop path := by
  unfold decodeUnreserved
  split
  · simp [validUtf8_decodeLoop path valid]
  · rename_i without
    exact (decodeLoop_of_not_mem (by simpa using without)).symm

theorem validUtf8_of_mem_split :
    validUtf8 path = true → ∀ segment ∈ splitAtEvery slash path, validUtf8 segment = true := by
  have ascii : slash < 0x80 := by decide
  induction path using split_induction slash with
  | last segment without =>
    rw [splitAtEvery_of_not_mem without]
    simp
  | cut segment rest without ih =>
    intro valid
    rw [validUtf8_append_ascii ascii, Bool.and_eq_true] at valid
    rw [splitAtEvery_append_sep without]
    simpa [valid.1] using ih valid.2

theorem validUtf8_joinAfter {segments : List Bytes}
    (valid : ∀ segment ∈ segments, validUtf8 segment = true) :
    validUtf8 (joinAfter slash segments) = true := by
  have ascii : slash < 0x80 := by decide
  have behind : ∀ first : Bytes, validUtf8 first = true →
      validUtf8 (first ++ joinAfter slash segments) = true := by
    induction segments with
    | nil => simp
    | cons segment segments ih =>
      intro first firstValid
      rw [joinAfter_cons, cons_append, validUtf8_append_ascii ascii,
        firstValid, ih (forall_mem_cons.mp valid).2 segment (valid segment (by simp))]
      rfl
  exact behind [] rfl

end Ophan.Http
