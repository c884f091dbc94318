import Ophan.Glob.Pattern
import Ophan.Lib.Split
import Ophan.Lib.Utf8

/-!
# The documented language

`Documented pattern input` is the meaning of a pattern as its documentation
gives it, on the text of the pattern.  `Means` is the same language on the
tokens.  The tokens of an accepted pattern mean what the pattern is documented
to mean.
-/

namespace Ophan.Glob

open List

def InClass : Bytes → UInt8 → Prop
  | [], _ => False
  | a :: sep :: b :: rest, byte =>
    if sep = dash then a ≤ byte ∧ byte ≤ b ∨ InClass rest byte
    else byte = a ∨ InClass (sep :: b :: rest) byte
  | c :: rest, byte => byte = c ∨ InClass rest byte

/-- Nothing, or text that ends with a slash: zero or more whole segments. -/
def WholeSegments (text : Bytes) : Prop := text = [] ∨ text.getLast? = some slash

inductive Documented : Bytes → Bytes → Prop where
  | nil : Documented [] []
  | byte {c : UInt8} {pattern input : Bytes}
      (plain : isPlain c = true) (rest : Documented pattern input) :
      Documented (c :: pattern) (c :: input)
  | wildcard {pattern text input : Bytes}
      (single : pattern.head? ≠ some star) (noSlash : slash ∉ text)
      (rest : Documented pattern input) :
      Documented (star :: pattern) (text ++ input)
  | deepWildcard {pattern text input : Bytes}
      (noDir : pattern.head? ≠ some slash) (rest : Documented pattern input) :
      Documented (star :: star :: pattern) (text ++ input)
  | deepWildcardDir {pattern text input : Bytes}
      (segments : WholeSegments text) (rest : Documented pattern input) :
      Documented (star :: star :: slash :: pattern) (text ++ input)
  | anyChar {pattern text input : Bytes}
      (single : isUtf8Char text = true) (noSlash : text ≠ [slash])
      (rest : Documented pattern input) :
      Documented (question :: pattern) (text ++ input)
  | group {content pattern text input : Bytes}
      (closed : closeBrace ∉ content) (alternative : text ∈ splitAtEvery comma content)
      (rest : Documented pattern input) :
      Documented (openBrace :: (content ++ closeBrace :: pattern)) (text ++ input)
  | charClass {body pattern input : Bytes} {byte : UInt8}
      (closed : closeBracket ∉ body) (positive : body.head? ≠ some caret)
      (member : InClass body byte) (rest : Documented pattern input) :
      Documented (openBracket :: (body ++ closeBracket :: pattern)) (byte :: input)
  | negatedClass {body pattern input : Bytes} {byte : UInt8}
      (closed : closeBracket ∉ body) (notMember : ¬ InClass body byte)
      (rest : Documented pattern input) :
      Documented (openBracket :: caret :: (body ++ closeBracket :: pattern)) (byte :: input)

/-- The documented meaning of one token. -/
def Tok.Means : Tok → Bytes → Prop
  | .literal word, text => text = word
  | .wildcard, text => slash ∉ text
  | .deepWildcard, _ => True
  | .deepWildcardDir, text => WholeSegments text
  | .anyChar, text => isUtf8Char text = true ∧ text ≠ [slash]
  | .group options, text => text ∈ options
  | .charClass bitmap negated, text => ∃ byte, text = [byte] ∧ testBit bitmap byte ≠ negated

def Means : List Tok → Bytes → Prop
  | [], input => input = []
  | tok :: tokens, input => ∃ text rest, input = text ++ rest ∧ tok.Means text ∧ Means tokens rest

section Classes

@[simp]
theorem testBit_setBit (bitmap : BitVec 256) (c byte : UInt8) :
    testBit (setBit bitmap c) byte = (testBit bitmap byte || byte == c) := by
  have inside : byte.toNat < 256 := byte.toNat_lt
  simp only [testBit, setBit, BitVec.getLsbD_or, BitVec.getLsbD_twoPow]
  by_cases same : byte = c
  · subst same
    simp [inside]
  · have differ : c.toNat ≠ byte.toNat := by
      intro equal
      exact same (UInt8.toNat_inj.mp equal.symm)
    simp [differ, same]

theorem testBit_foldl_setBit (bitmap : BitVec 256) (byte : UInt8)
    (codes : List Nat) (small : ∀ code ∈ codes, code < 256) :
    testBit (codes.foldl (fun bits c => setBit bits (UInt8.ofNat c)) bitmap)
        byte = true ↔
      testBit bitmap byte = true ∨ byte.toNat ∈ codes := by
  induction codes generalizing bitmap with
  | nil => simp
  | cons code rest ih =>
    have smallCode : code < 256 := small code mem_cons_self
    have same : byte = UInt8.ofNat code ↔ byte.toNat = code := by
      rw [← UInt8.toNat_inj, UInt8.toNat_ofNat_of_lt' smallCode]
    rw [foldl_cons, ih _ (forall_mem_cons.mp small).2]
    simp only [testBit_setBit, Bool.or_eq_true, beq_iff_eq, same, mem_cons]
    tauto

theorem testBit_setRange (bitmap : BitVec 256) (a b byte : UInt8) :
    testBit (setRange bitmap a b) byte = true ↔
      testBit bitmap byte = true ∨ a ≤ byte ∧ byte ≤ b := by
  have smallB : b.toNat < 256 := b.toNat_lt
  rw [setRange, testBit_foldl_setBit, mem_range'_1, UInt8.le_iff_toNat_le, UInt8.le_iff_toNat_le]
  · grind
  · grind

theorem testBit_classBits {body : Bytes} {start bitmap : BitVec 256}
    (compiled : classBits body start = .ok bitmap) (byte : UInt8) :
    testBit bitmap byte = true ↔ testBit start byte = true ∨ InClass body byte := by
  fun_induction classBits body start with
  | case1 start =>
    cases compiled
    simp [InClass]
  | case2 start a b rest wrong => simp at compiled
  | case3 start a b rest right ih =>
    rw [ih compiled, testBit_setRange]
    simp only [InClass, if_true]
    tauto
  | case4 start a sep b rest noDash ih =>
    rw [ih compiled]
    simp only [testBit_setBit, Bool.or_eq_true, beq_iff_eq, InClass, noDash, if_false]
    tauto
  | case5 c rest start short ih =>
    rw [ih compiled]
    have cut : InClass (c :: rest) byte ↔ byte = c ∨ InClass rest byte := by
      cases rest with
      | nil => simp [InClass]
      | cons second more =>
        cases more with
        | nil => simp [InClass]
        | cons third others => exact (short second third others rfl).elim
    rw [cut, testBit_setBit, Bool.or_eq_true, beq_iff_eq]
    tauto

theorem inClass_iff {body : Bytes} {bitmap : BitVec 256}
    (compiled : classBits body 0 = .ok bitmap) (byte : UInt8) :
    InClass body byte ↔ testBit bitmap byte = true := by
  rw [testBit_classBits compiled]
  simp [testBit]

end Classes

section Options

variable {content : Bytes}

theorem scanGroup_ok {rest after : Bytes} (scanned : scanGroup rest = .ok (content, after)) :
    rest = content ++ closeBrace :: after ∧ closeBrace ∉ content := by
  fun_induction scanGroup rest generalizing content with
  | case1 | case3 | case5 => cases scanned
  | case2 =>
    cases scanned
    simp
  | case4 b rest isClose _ content after below ih => grind

theorem scanClass_ok {rest after : Bytes} (scanned : scanClass rest = .ok (content, after)) :
    rest = content ++ closeBracket :: after ∧ closeBracket ∉ content := by
  fun_induction scanClass rest generalizing content with
  | case1 | case4 => cases scanned
  | case2 =>
    cases scanned
    simp
  | case3 b rest isClose content after below ih => grind

/-- The alternatives are the parts between the commas, and none is empty. -/
theorem splitOptions_ok {piece : Bytes} {count : Nat} {options : List Bytes}
    (split : splitOptions content piece count = .ok options) (noComma : comma ∉ piece) :
    options = splitAtEvery comma (piece ++ content) ∧ [] ∉ options := by
  fun_induction splitOptions content piece count generalizing options with
  | case1 | case3 | case4 | case6 => cases split
  | case2 piece _ empty =>
    cases split
    rw [append_nil, splitAtEvery_of_not_mem noComma]
    have nonempty : piece ≠ [] := by simpa using empty
    simpa using Ne.symm nonempty
  | case5 rest piece count _ empty others below ih =>
    cases split
    obtain ⟨same, nonempty⟩ := ih below (by simp)
    rw [splitAtEvery_append_sep noComma, same]
    have pieceNonempty : piece ≠ [] := by simpa using empty
    refine ⟨rfl, ?_⟩
    rw [mem_cons, not_or]
    exact ⟨Ne.symm pieceNonempty, by simpa [same] using nonempty⟩
  | case7 b rest piece count isComma ih => grind

end Options

inductive Spells : Bytes → Tok → Bytes → Prop where
  | literal {text after : Bytes} (nonempty : text ≠ [])
      (plain : ∀ b ∈ text, isPlain b = true) :
      Spells text (.literal text) after
  | wildcard {after : Bytes} (single : after.head? ≠ some star) : Spells [star] .wildcard after
  | deepWildcard {after : Bytes} (noDir : after.head? ≠ some slash) :
      Spells [star, star] .deepWildcard after
  | deepWildcardDir {after : Bytes} : Spells [star, star, slash] .deepWildcardDir after
  | anyChar {after : Bytes} : Spells [question] .anyChar after
  | group {content after : Bytes} {options : List Bytes}
      (closed : closeBrace ∉ content)
      (split : options = splitAtEvery comma content)
      (nonempty : [] ∉ options) :
      Spells (openBrace :: (content ++ [closeBrace])) (.group options) after
  | charClass {body after : Bytes} {bitmap : BitVec 256}
      (closed : closeBracket ∉ body) (positive : body.head? ≠ some caret)
      (compiled : classBits body 0 = .ok bitmap) :
      Spells (openBracket :: (body ++ [closeBracket])) (.charClass bitmap false) after
  | negatedClass {body after : Bytes} {bitmap : BitVec 256}
      (closed : closeBracket ∉ body)
      (compiled : classBits body 0 = .ok bitmap) :
      Spells (openBracket :: caret :: (body ++ [closeBracket])) (.charClass bitmap true) after

variable {after pattern input : Bytes}

theorem Spells.ne_nil {piece : Bytes} {tok : Tok}
    (spells : Spells piece tok after) : piece ≠ [] := by
  cases spells with
  | literal nonempty plain => exact nonempty
  | _ => simp

variable {tokens : List Tok}

/-- A successful turn of the tokenizer reads the text of one token. -/
theorem tokenizeLoop_cons {rounds deepCount : Nat} {b : UInt8} {rest : Bytes}
    (tokenized : tokenizeLoop (rounds + 1) (b :: rest) deepCount = .ok tokens) :
    ∃ piece after tok others deepAfter,
      b :: rest = piece ++ after ∧ tokens = tok :: others ∧
        Spells piece tok after ∧
        tokenizeLoop rounds after deepAfter = .ok others := by
  generalize whole : b :: rest = text at *
  generalize turns : rounds + 1 = limit at *
  suffices pushed : ∃ piece after tok deepAfter, text = piece ++ after ∧ Spells piece tok after ∧
      prepend tok (tokenizeLoop rounds after deepAfter) = .ok tokens by
    obtain ⟨piece, after, tok, deepAfter, cut, spells, result⟩ := pushed
    cases below : tokenizeLoop rounds after deepAfter with
    | error error => simp [below, prepend] at result
    | ok others =>
      simp only [below, prepend] at result
      cases result
      exact ⟨piece, after, tok, others, deepAfter, cut, rfl, spells, below⟩
  revert tokenized
  -- the branches of the loop that push a token; those that fail or stop are gone
  fun_cases tokenizeLoop limit text deepCount <;> cases turns <;> intro tokenized <;>
    try cases tokenized
  case case2 => cases whole
  case case3 => exact ⟨_, _, _, _, by simp, .wildcard (by simp), tokenized⟩
  case case5 => exact ⟨_, _, _, _, by simp, .deepWildcard (by simp), tokenized⟩
  case case6 => exact ⟨_, _, _, _, by simp, .deepWildcardDir, tokenized⟩
  case case7 notDir _ => exact ⟨_, _, _, _, by simp, .deepWildcard (by simpa using notDir), tokenized⟩
  case case8 notDeep => exact ⟨_, _, _, _, by simp, .wildcard (by simpa using notDeep), tokenized⟩
  case case9 => exact ⟨_, _, _, _, by simp, .anyChar, tokenized⟩
  case case13 scanned _ _ divided _ _ =>
    obtain ⟨cut, closed⟩ := scanGroup_ok scanned
    obtain ⟨same, nonempty⟩ := splitOptions_ok divided (by simp)
    exact ⟨_, _, _, _, by simp [cut], .group closed (by simpa using same) nonempty, tokenized⟩
  case case17 rest negated body after scanned _ _ compiled _ _ _ =>
    obtain ⟨cut, closed⟩ := scanClass_ok scanned
    by_cases isNegated : rest.head? = some caret
    · obtain ⟨more, rfl⟩ := List.head?_eq_some_iff.mp isNegated
      exact ⟨_, _, _, _, by simpa [negated] using cut, .negatedClass closed compiled, tokenized⟩
    · have positive : negated = false := by simpa [negated] using isNegated
      simp only [positive, Bool.false_eq_true, if_false] at cut tokenized
      have bodyPositive : body.head? ≠ some caret := by grind
      exact ⟨_, _, _, _, by simp [cut], .charClass closed bodyPositive compiled, tokenized⟩
  case case18 isStar isQuestion isBrace isBracket =>
    refine ⟨_, _, _, _, takeWhile_append_dropWhile.symm, .literal ?_ ?_, tokenized⟩
    · simp [isPlain, isStar, isQuestion, isBrace, isBracket]
    · intro other member
      exact all_eq_true.mp all_takeWhile other member

theorem documented_plain {c : UInt8} (plain : isPlain c = true) :
    Documented (c :: pattern) input ↔ ∃ rest, input = c :: rest ∧ Documented pattern rest := by
  constructor
  · intro documented
    cases documented with
    | byte _ rest => exact ⟨_, rfl, rest⟩
    | _ => simp [isPlain] at plain
  · rintro ⟨rest, rfl, documented⟩
    exact .byte plain documented

theorem documented_literal {text : Bytes} (plain : ∀ b ∈ text, isPlain b = true) :
    Documented (text ++ after) input ↔ ∃ rest, input = text ++ rest ∧ Documented after rest := by
  induction text generalizing input with
  | nil => simp
  | cons c text ih =>
    rw [cons_append, documented_plain (plain c mem_cons_self)]
    constructor
    · simp_all
    · simp_all

section Brackets

variable {body : Bytes}

theorem documented_group (closed : closeBrace ∉ body) :
    Documented (openBrace :: (body ++ closeBrace :: after)) input ↔
      ∃ text rest, input = text ++ rest ∧ text ∈ splitAtEvery comma body ∧
        Documented after rest := by
  constructor
  · intro documented
    generalize whole : openBrace :: (body ++ closeBrace :: after) = pattern at documented
    cases documented with
    | nil => cases whole
    | byte plain _ => simp [isPlain, ← (List.cons.inj whole).1] at plain
    | group closedOther alternative below =>
      obtain ⟨rfl, rfl⟩ := cut_unique closed closedOther (List.cons.inj whole).2
      exact ⟨_, _, rfl, alternative, below⟩
    | _ => exact absurd (List.cons.inj whole).1 (by decide)
  · rintro ⟨text, rest, rfl, alternative, documented⟩
    exact .group closed alternative documented

theorem documented_charClass (closed : closeBracket ∉ body) (positive : body.head? ≠ some caret) :
    Documented (openBracket :: (body ++ closeBracket :: after)) input ↔
      ∃ text rest, input = text ++ rest ∧ (∃ byte, text = [byte] ∧ InClass body byte) ∧
        Documented after rest := by
  constructor
  · intro documented
    generalize whole : openBracket :: (body ++ closeBracket :: after) = pattern at documented
    cases documented with
    | nil => cases whole
    | byte plain _ => simp [isPlain, ← (List.cons.inj whole).1] at plain
    | charClass closedOther _ member below =>
      obtain ⟨rfl, rfl⟩ := cut_unique closed closedOther (List.cons.inj whole).2
      exact ⟨[_], _, rfl, ⟨_, rfl, member⟩, below⟩
    | negatedClass closedOther _ below =>
      have heads := congrArg List.head? (List.cons.inj whole).2
      cases body with
      | nil => exact absurd (Option.some.inj heads) (by decide)
      | cons first others => exact absurd heads positive
    | _ => exact absurd (List.cons.inj whole).1 (by decide)
  · rintro ⟨text, rest, rfl, ⟨byte, rfl, member⟩, documented⟩
    exact .charClass closed positive member documented

theorem documented_negatedClass (closed : closeBracket ∉ body) :
    Documented (openBracket :: caret :: (body ++ closeBracket :: after)) input ↔
      ∃ text rest, input = text ++ rest ∧ (∃ byte, text = [byte] ∧ ¬ InClass body byte) ∧
        Documented after rest := by
  constructor
  · intro documented
    generalize whole :
      openBracket :: caret :: (body ++ closeBracket :: after) = pattern at documented
    cases documented with
    | nil => cases whole
    | byte plain _ => simp [isPlain, ← (List.cons.inj whole).1] at plain
    | @charClass other _ _ _ _ positive member below =>
      have heads := congrArg List.head? (List.cons.inj whole).2
      cases other with
      | nil => simp [InClass] at member
      | cons first others => exact absurd heads.symm positive
    | negatedClass closedOther notMember below =>
      obtain ⟨rfl, rfl⟩ := cut_unique closed closedOther (List.cons.inj (List.cons.inj whole).2).2
      exact ⟨[_], _, rfl, ⟨_, rfl, notMember⟩, below⟩
    | _ => exact absurd (List.cons.inj whole).1 (by decide)
  · rintro ⟨text, rest, rfl, ⟨byte, rfl, notMember⟩, documented⟩
    exact .negatedClass closed notMember documented

end Brackets

/-- A token means what its text is documented to mean. -/
theorem Spells.documented_iff {piece : Bytes} {tok : Tok} (spells : Spells piece tok after) :
    Documented (piece ++ after) input ↔
      ∃ text rest, input = text ++ rest ∧ tok.Means text ∧ Documented after rest := by
  cases spells with
  | literal nonempty plain =>
    rw [documented_literal plain]
    simp [Tok.Means]
  | wildcard single =>
    constructor
    · intro documented
      cases documented with
      | byte plain _ => simp [isPlain] at plain
      | wildcard _ noSlash rest => exact ⟨_, _, rfl, noSlash, rest⟩
      | deepWildcard | deepWildcardDir => simp at single
    · rintro ⟨text, rest, rfl, noSlash, documented⟩
      exact .wildcard single noSlash documented
  | deepWildcard noDir =>
    constructor
    · intro documented
      cases documented with
      | byte plain _ => simp [isPlain] at plain
      | wildcard single _ _ => simp at single
      | deepWildcard _ rest => exact ⟨_, _, rfl, trivial, rest⟩
      | deepWildcardDir _ _ => simp at noDir
    · rintro ⟨text, rest, rfl, -, documented⟩
      exact .deepWildcard noDir documented
  | deepWildcardDir =>
    constructor
    · intro documented
      cases documented with
      | byte plain _ => simp [isPlain] at plain
      | wildcard single _ _ => simp at single
      | deepWildcard noDir _ => simp at noDir
      | deepWildcardDir segments rest => exact ⟨_, _, rfl, segments, rest⟩
    · rintro ⟨text, rest, rfl, segments, documented⟩
      exact .deepWildcardDir segments documented
  | anyChar =>
    constructor
    · intro documented
      cases documented with
      | byte plain _ => simp [isPlain] at plain
      | anyChar single noSlash rest => exact ⟨_, _, rfl, ⟨single, noSlash⟩, rest⟩
    · rintro ⟨text, rest, rfl, ⟨single, noSlash⟩, documented⟩
      exact .anyChar single noSlash documented
  | group closed split nonempty =>
    rw [cons_append, append_assoc, singleton_append, documented_group closed, ← split]
    rfl
  | charClass closed positive compiled =>
    rw [cons_append, append_assoc, singleton_append, documented_charClass closed positive]
    simp [Tok.Means, inClass_iff compiled]
  | negatedClass closed compiled =>
    rw [cons_append, cons_append, append_assoc, singleton_append, documented_negatedClass closed]
    simp [Tok.Means, inClass_iff compiled]

theorem documented_nil_iff : Documented [] input ↔ input = [] := by
  refine ⟨fun documented => ?_, fun isNil => isNil ▸ .nil⟩
  cases documented
  rfl

theorem documented_iff_means_loop {rounds deepCount : Nat}
    (tokenized : tokenizeLoop rounds pattern deepCount = .ok tokens)
    (enough : pattern.length ≤ rounds) :
    Documented pattern input ↔ Means tokens input := by
  induction rounds generalizing pattern input tokens deepCount with
  | zero =>
    have empty : pattern = [] := length_eq_zero_iff.mp (by omega)
    subst empty
    cases tokenized
    exact documented_nil_iff
  | succ rounds ih =>
    cases pattern with
    | nil =>
      cases tokenized
      exact documented_nil_iff
    | cons b rest =>
      obtain ⟨piece, after, tok, others, deepAfter, cut, rfl, spells,
        below⟩ := tokenizeLoop_cons tokenized
      have shorter : after.length ≤ rounds := by
        have lengths := congrArg List.length cut
        have nonempty := length_pos_iff.mpr spells.ne_nil
        simp only [length_append, length_cons] at lengths enough
        omega
      rw [cut, spells.documented_iff]
      simp only [Means, ih below shorter]

/-- The tokens of an accepted pattern mean what the pattern is documented to
mean. -/
theorem documented_iff_means (tokenized : tokenize pattern = .ok tokens) :
    Documented pattern input ↔ Means tokens input := by
  unfold tokenize at tokenized
  by_cases empty : pattern.isEmpty = true
  · rw [if_pos empty] at tokenized
    cases tokenized
    have isNil : pattern = [] := by simpa using empty
    subst isNil
    simp [documented_nil_iff, Means, Tok.Means]
  · rw [if_neg empty] at tokenized
    exact documented_iff_means_loop tokenized (Nat.le_refl _)

end Ophan.Glob
