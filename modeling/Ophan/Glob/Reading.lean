import Ophan.Glob.Follow
import Ophan.Glob.Language

/-!
# How the search reads a pattern

`Reads` states the language of the search token by token: a `**` or `**/` that
ends the pattern takes any rest, one that meets the end of the input accepts
without the rest of the pattern, any other takes whole segments, and a `?`
takes one byte.
-/

namespace Ophan.Glob

open List

def Tok.Takes : Tok → Bytes → Prop
  | .literal word, text => text = word
  | .wildcard, text => slash ∉ text
  | .deepWildcard, text => WholeSegments text
  | .deepWildcardDir, text => WholeSegments text
  | .anyChar, text => ∃ byte, text = [byte] ∧ byte ≠ slash
  | .group options, text => text ∈ options
  | .charClass bitmap negated, text => ∃ byte, text = [byte] ∧ testBit bitmap byte ≠ negated

def Reads : List Tok → Bytes → Prop
  | [], input => input = []
  | [tok], input => tok.isDeep = true ∨ tok.Takes input
  | tok :: next :: rest, input =>
    tok.isDeep = true ∧ input = [] ∨
      ∃ text more, input = text ++ more ∧ tok.Takes text ∧ Reads (next :: rest) more

variable {tokens : List Tok} {input next piece after : Bytes} {tok : Tok}

section Tails

theorem mem_leave {option : Bytes} : leave option input = some next ↔ input = option ++ next := by
  unfold leave
  constructor
  · intro left
    split at left
    · rename_i fits
      obtain ⟨rest, rfl⟩ := isPrefixOf_iff_prefix.mp fits
      cases left
      simp
    · simp at left
  · simp_all

theorem mem_segmentTails :
    next ∈ segmentTails input ↔ ∃ text, input = text ++ next ∧ slash ∉ text := by
  induction input with
  | nil =>
    simp only [segmentTails, mem_singleton]
    constructor
    · simp
    · simp
  | cons b rest ih =>
    by_cases isSlash : b = slash
    · simp only [segmentTails, isSlash, if_true, mem_singleton]
      constructor
      · simp_all
      · rintro ⟨text, cut, noSlash⟩
        cases text with
        | nil => exact cut.symm
        | cons first others => simp_all
    · simp only [segmentTails, isSlash, if_false, mem_cons, ih]
      constructor
      · rintro (rfl | ⟨text, rfl, noSlash⟩)
        · exact ⟨[], rfl, by simp⟩
        · exact ⟨b :: text, rfl, by simp [Ne.symm isSlash, noSlash]⟩
      · rintro ⟨text, cut, noSlash⟩
        cases text with
        | nil => exact Or.inl cut.symm
        | cons first others => simp_all

theorem mem_afterSlashes : next ∈ afterSlashes input ↔ ∃ text, input = text ++ slash :: next := by
  induction input with
  | nil => simp [afterSlashes]
  | cons b rest ih =>
    have below : (∃ text, b :: rest = text ++ slash :: next) ↔
        b = slash ∧ rest = next ∨ ∃ text, rest = text ++ slash :: next := by
      constructor
      · rintro ⟨text, cut⟩
        cases text with
        | nil => exact Or.inl (List.cons.inj cut)
        | cons first others => simp_all
      · rintro (⟨rfl, rfl⟩ | ⟨text, rfl⟩)
        · exact ⟨[], rfl⟩
        · exact ⟨b :: text, rfl⟩
    rw [below]
    by_cases isSlash : b = slash
    · simp [afterSlashes, isSlash, ih, eq_comm]
    · simp [afterSlashes, isSlash, ih]

theorem mem_deepTails :
    next ∈ input :: afterSlashes input ↔ ∃ text, input = text ++ next ∧ WholeSegments text := by
  rw [mem_cons, mem_afterSlashes]
  constructor
  · rintro (rfl | ⟨text, rfl⟩)
    · exact ⟨[], rfl, Or.inl rfl⟩
    · exact ⟨text ++ [slash], by simp, Or.inr (by simp)⟩
  · rintro ⟨text, rfl, rfl | ends⟩
    · exact Or.inl rfl
    · obtain ⟨front, rfl⟩ := List.getLast?_eq_some_iff.mp ends
      exact Or.inr ⟨front, by simp⟩

theorem mem_single {P : UInt8 → Prop} [DecidablePred P] {b : UInt8} {rest : Bytes} :
    next ∈ (if P b then [rest] else []) ↔
      ∃ text, b :: rest = text ++ next ∧ ∃ byte, text = [byte] ∧ P byte := by
  constructor
  · simp_all
  · simp_all

theorem mem_nexts : next ∈ tok.nexts input ↔ ∃ text, input = text ++ next ∧ tok.Takes text := by
  cases tok with
  | literal word =>
    rw [Tok.nexts, Option.mem_toList, mem_leave]
    simp [Tok.Takes]
  | wildcard => exact mem_segmentTails
  | deepWildcard | deepWildcardDir => exact mem_deepTails
  | anyChar =>
    cases input with
    | nil => simp [Tok.nexts, Tok.Takes]
    | cons b rest => exact @mem_single next (fun byte => byte ≠ slash) _ b rest
  | charClass bitmap negated =>
    cases input with
    | nil => simp [Tok.nexts, Tok.Takes]
    | cons b rest => exact @mem_single next (fun byte => testBit bitmap byte ≠ negated) _ b rest
  | group options =>
    simp only [Tok.nexts, mem_filterMap, mem_leave, Tok.Takes]
    constructor
    · simp_all
    · simp_all

end Tails

def Tok.Solid : Tok → Prop
  | .literal text => text ≠ []
  | .group options => [] ∉ options
  | _ => True

/-- The tokens of a pattern that has text: none is empty, and no `*` stands
before another wildcard. -/
def Regular : List Tok → Prop
  | [] => True
  | tok :: rest =>
    tok.Solid ∧
      (tok = .wildcard → ∀ next, rest.head? = some next → next.isDeep = false ∧ next ≠ .wildcard) ∧
      Regular rest

theorem takes_nil (solid : tok.Solid)
    (notDeep : tok.isDeep = false) : tok.Takes [] ↔ tok = .wildcard := by
  cases tok with
  | literal text =>
    simp only [Tok.Takes, reduceCtorEq, iff_false]
    exact Ne.symm solid
  | group options =>
    simp only [Tok.Takes, reduceCtorEq, iff_false]
    exact solid
  | deepWildcard | deepWildcardDir => simp [Tok.isDeep] at notDeep
  | _ => simp [Tok.Takes]

/-- The loop follows the tokens of a pattern exactly where it reads them. -/
theorem follows_iff_reads (regular : Regular tokens) (nonempty : tokens ≠ []) (input : Bytes) :
    Follows tokens input ↔ Reads tokens input := by
  induction tokens generalizing input with
  | nil => exact absurd rfl nonempty
  | cons tok rest ih =>
    obtain ⟨solid, apart, restRegular⟩ := regular
    cases rest with
    | nil =>
      cases input with
      | nil =>
        simp only [Follows, Reads, and_true]
        cases deep : tok.isDeep with
        | true => simp
        | false => simp [takes_nil solid deep]
      | cons b input =>
        simp only [Follows, Reads, and_true, or_false, exists_eq_right,
          mem_nexts, append_nil, exists_eq_left']
    | cons next rest =>
      have below := ih restRegular (by simp)
      cases input with
      | nil =>
        simp only [Follows, Reads, reduceCtorEq, and_false, or_false, and_true]
        cases deep : tok.isDeep with
        | true => simp
        | false =>
          simp only [Bool.false_eq_true, false_or, false_iff]
          rintro ⟨text, more, cut, takes, reads⟩
          obtain ⟨rfl, rfl⟩ := append_eq_nil_iff.mp cut.symm
          have isWildcard := (takes_nil solid deep).mp takes
          obtain ⟨notDeep, notWildcard⟩ := apart isWildcard next rfl
          rcases (below []).mpr reads with isDeep | ⟨again, -⟩
          · simp [notDeep] at isDeep
          · exact notWildcard again
      | cons b input =>
        simp only [Follows, Reads, reduceCtorEq, and_false, false_or, mem_nexts, below]
        constructor
        · grind
        · grind

section Tokenized

theorem Spells.solid (spells : Spells piece tok after) : tok.Solid := by
  cases spells with
  | literal nonempty plain => exact nonempty
  | group closed split nonempty => exact nonempty
  | _ => trivial

/-- Only a star begins a wildcard that can take several bytes. -/
theorem Spells.head_eq_star (spells : Spells piece tok after)
    (star? : tok.isDeep = true ∨ tok = .wildcard) :
    piece.head? = some star := by
  cases spells with
  | wildcard | deepWildcard | deepWildcardDir => rfl
  | _ => simp [Tok.isDeep] at star?

theorem regular_tokenizeLoop {rounds deepCount : Nat} {pattern : Bytes}
    (tokenized : tokenizeLoop rounds pattern deepCount = .ok tokens) :
    Regular tokens ∧
      ∀ tok, tokens.head? = some tok →
        tok.isDeep = true ∨ tok = .wildcard → pattern.head? = some star := by
  induction rounds generalizing pattern tokens deepCount with
  | zero =>
    cases tokenized
    simp [Regular]
  | succ rounds ih =>
    cases pattern with
    | nil =>
      cases tokenized
      simp [Regular]
    | cons b rest =>
      obtain ⟨piece, after, tok, others, deepAfter, cut, rfl, spells,
        below⟩ := tokenizeLoop_cons tokenized
      obtain ⟨regular, starts⟩ := ih below
      refine ⟨⟨spells.solid, ?_, regular⟩, ?_⟩
      · intro isWildcard next isNext
        have notStar : after.head? ≠ some star := by
          rw [isWildcard] at spells
          cases spells with
          | wildcard single => exact single
        constructor
        · simp_all
        · simp_all
      · intro other isFirst star?
        cases Option.some.inj isFirst
        have isStar := spells.head_eq_star star?
        rw [cut, List.head?_append, isStar]
        rfl

theorem tokenizeLoop_ne_nil {rounds deepCount : Nat} {b : UInt8} {rest : Bytes}
    (tokenized : tokenizeLoop (rounds + 1) (b :: rest) deepCount = .ok tokens) :
    tokens ≠ [] := by
  obtain ⟨piece, after, tok, others, deepAfter, cut, rfl, -⟩ := tokenizeLoop_cons tokenized
  simp

/-- The tokens of a pattern with text. -/
theorem tokenize_regular {pattern : Bytes} (tokenized : tokenize pattern = .ok tokens)
    (nonempty : pattern ≠ []) :
    Regular tokens ∧ tokens ≠ [] := by
  obtain ⟨b, rest, rfl⟩ := exists_cons_of_ne_nil nonempty
  rw [tokenize, if_neg (by simp)] at tokenized
  exact ⟨(regular_tokenizeLoop tokenized).1, tokenizeLoop_ne_nil tokenized⟩

theorem tokenize_nil (tokenized : tokenize [] = .ok tokens) : tokens = [.literal []] := by
  cases tokenized
  rfl

end Tokenized

/-- Every `**` ends the pattern, and there is no `**/`. -/
def DeepLast : List Tok → Prop
  | [] => True
  | [tok] => tok ≠ .deepWildcardDir
  | tok :: next :: rest => tok.isDeep = false ∧ DeepLast (next :: rest)

theorem isUtf8Char_of_ascii {text : Bytes} (ascii : ∀ b ∈ text, b < 0x80) :
    isUtf8Char text = true ↔ ∃ byte, text = [byte] := by
  match text with
  | [] => simp [isUtf8Char]
  | [a] => simpa [isUtf8Char] using ascii
  | [_, last] | [_, _, last] | [_, _, _, last] =>
    simp [isUtf8Char, isContinuation_of_ascii (ascii last (by simp))]
  | _ :: _ :: _ :: _ :: _ :: _ => simp [isUtf8Char]

theorem takes_iff_means (shallow : tok.isDeep = false) {text : Bytes}
    (ascii : ∀ b ∈ text, b < 0x80) :
    tok.Takes text ↔ tok.Means text := by
  cases tok with
  | anyChar =>
    rw [Tok.Takes, Tok.Means, isUtf8Char_of_ascii ascii]
    constructor
    · simp_all
    · simp_all
  | deepWildcard | deepWildcardDir => cases shallow
  | _ => rfl

/-- For such a pattern the search reads the documented language. -/
theorem reads_iff_means (deepLast : DeepLast tokens) (ascii : ∀ b ∈ input, b < 0x80) :
    Reads tokens input ↔ Means tokens input := by
  induction tokens generalizing input with
  | nil => rfl
  | cons tok rest ih =>
    cases rest with
    | nil =>
      have single : Means [tok] input ↔ tok.Means input := by simp [Means]
      rw [Reads, single]
      by_cases deep : tok.isDeep = true
      · cases tok with
        | deepWildcard => simp [Tok.isDeep, Tok.Means]
        | deepWildcardDir => exact absurd rfl deepLast
        | _ => cases deep
      · rw [Bool.not_eq_true] at deep
        rw [takes_iff_means deep ascii]
        simp [deep]
    | cons next rest =>
      obtain ⟨shallow, restLast⟩ := deepLast
      rw [Reads, Means]
      simp only [shallow, Bool.false_eq_true, false_and, false_or]
      apply exists_congr
      intro text
      apply exists_congr
      intro more
      apply and_congr_right
      intro cut
      rw [cut] at ascii
      rw [takes_iff_means shallow (fun b member => ascii b (mem_append_left _ member)),
        ih restLast (fun b member => ascii b (mem_append_right _ member))]

end Ophan.Glob
