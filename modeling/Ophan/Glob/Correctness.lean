import Mathlib.Data.List.TakeWhile
import Ophan.Glob.Matching
import Ophan.Glob.Reading

/-!
# What a glob set matches

A set matches an input exactly when the search reads it with one of the
patterns and does not end on a full stack.  The documented language is another
one: it is compared here with what the search reads.
-/

namespace Ophan.Glob

open List

theorem GlobPattern.literal?_eq_some {pattern : GlobPattern} {word : Bytes} :
    pattern.literal? = some word ↔ pattern.tokens = [.literal word] := by
  unfold GlobPattern.literal?
  constructor
  · grind
  · simp_all

namespace PathMatcherSet

theorem verdict_nil (set : PathMatcherSet) (rounds : Nat) : set.verdict rounds [] = .left := by
  cases rounds with
  | zero | succ => rfl

/-- How the search of a set ends; a set that is compared is not searched. -/
def outcome (set : PathMatcherSet) (input : Bytes) : Verdict :=
  match set.fast with
  | some .general =>
    if set.nodes.isEmpty then .left
    else set.verdict (set.rounds input) [⟨input, set.root.1, set.root.2, 0⟩]
  | _ => if set.isMatch input then .found else .left

theorem isMatch_iff_outcome (set : PathMatcherSet) (input : Bytes) :
    set.isMatch input = true ↔ set.outcome input = .found := by
  unfold outcome
  split
  · rename_i general
    rw [isMatch, general]
    simp only [matchesBacktrack]
    split
    · simp
    · exact set.run_eq_true_iff _ _
  · split <;> simp_all

/-- The search of a set ends as the searches for the lists below the root. -/
theorem sees_outcome {set : PathMatcherSet} {level : List Temp}
    (fast : set.fast = some .general) (laid : Laid set.nodes 0 set.root level)
    (length : set.nodes.length = levelSize level) (working : Working set level)
    (input : Bytes) :
    Sees (Listed set.toStore level) (search · 1 input) (set.outcome input) := by
  obtain ⟨laidAt, stop⟩ := laid.laidAt
  obtain ⟨count, few, verdict, sees, works⟩ :=
    level_works set (input.length + set.groupSpans.length + 2) level set.root.1 input []
      laidAt working (Nat.le_refl _)
  rw [← stop] at works
  have bound := levelWork_le (input.length + set.groupSpans.length + 2) level
  have enough : count ≤ set.rounds input := by
    rw [rounds, length]
    omega
  obtain ⟨more, isMore⟩ := Nat.exists_eq_add_of_le enough
  simp only [outcome, fast]
  by_cases empty : set.nodes.isEmpty = true
  · have noLevel : level = [] := by
      rw [isEmpty_iff.mp empty] at length
      cases level with
      | nil => rfl
      | cons temp rest =>
        rw [levelSize, temp.size_eq, length_nil] at length
        omega
    rw [if_pos empty, noLevel]
    exact fun tokens listed => absurd listed not_listed_nil
  · rw [if_neg empty, isMore, works, verdict_nil, verdict.orElse_left]
    exact sees

/-- A set with a trie is searched as each of its patterns. -/
theorem outcome_general {patterns : List GlobPattern}
    (mixed : (patterns.all fun pattern => pattern.literal?.isSome) = false)
    (nonempty : ∀ pattern ∈ patterns, pattern.tokens ≠ [])
    (proper : ∀ pattern ∈ patterns, ∀ tok ∈ pattern.tokens, tok.Proper) (input : Bytes) :
    Sees (fun tokens => ∃ pattern ∈ patterns, pattern.tokens = tokens) (search · 1 input)
      ((fromPatterns patterns).outcome input) := by
  have present : patterns.isEmpty = false := by grind
  have listed (tokens : List Tok) :
      Listed (buildTrie patterns).1 (buildTrie patterns).2 tokens ↔
        ∃ pattern ∈ patterns, pattern.tokens = tokens := by
    rw [listed_buildTrie]
    grind
  obtain ⟨-, laid, length⟩ := flattened_flatten (buildTrie patterns).2 []
  have alive := alive_buildTrie patterns
  simp only [fromPatterns, present, mixed, Bool.false_eq_true, if_false]
  simp only [← listed]
  exact sees_outcome rfl laid (length.trans (Nat.zero_add _)) ⟨alive, by grind⟩ input

theorem isMatch_literals {patterns : List GlobPattern}
    (literals : (patterns.all fun pattern => pattern.literal?.isSome) = true) (input : Bytes) :
    (fromPatterns patterns).isMatch input = true ↔
      ∃ pattern ∈ patterns, pattern.literal? = some input := by
  have contained : input ∈ patterns.filterMap GlobPattern.literal? ↔
      ∃ pattern ∈ patterns, pattern.literal? = some input :=
    mem_filterMap
  rw [← contained]
  unfold fromPatterns
  by_cases empty : patterns.isEmpty = true
  · have noPatterns : patterns = [] := by simpa using empty
    simp [noPatterns, isMatch, plain]
  · rw [if_neg empty, if_pos literals]
    generalize patterns.filterMap GlobPattern.literal? = texts
    split
    · simp [isMatch, plain]
    · simp [isMatch, plain]

theorem compilePatterns_ok {patterns : List Bytes}
    {parsed : List GlobPattern} (compiled : compilePatterns patterns = .ok parsed) :
    (∀ text ∈ patterns, ∃ pattern ∈ parsed, tokenize text = .ok pattern.tokens) ∧
      ∀ pattern ∈ parsed, ∃ text ∈ patterns, tokenize text = .ok pattern.tokens := by
  fun_induction compilePatterns patterns generalizing parsed with
  | case1 =>
    cases compiled
    simp
  | case2 | case3 => cases compiled
  | case4 text rest pattern isPattern parsedRest others ih =>
    cases compiled
    obtain ⟨forward, backward⟩ := ih others
    have tokenized : tokenize text = .ok pattern.tokens := by
      rw [GlobPattern.compile] at isPattern
      split at isPattern <;> cases isPattern
      assumption
    constructor
    · simp_all
    · simp_all

theorem compile_ok {patterns : List Bytes} {set : PathMatcherSet}
    (compiled : compile patterns = .ok set) :
    ∃ parsed, compilePatterns patterns = .ok parsed ∧ set = fromPatterns parsed := by
  unfold compile at compiled
  cases parsed : compilePatterns patterns with
  | error error => simp [parsed] at compiled
  | ok patterns => simp_all

end PathMatcherSet

section Texts

variable {pattern : Bytes} {tokens : List Tok}

theorem tokenize_cons (tokenized : tokenize pattern = .ok tokens) (nonempty : pattern ≠ []) :
    ∃ piece after tok others,
      pattern = piece ++ after ∧ tokens = tok :: others ∧
        Spells piece tok after ∧ (others = [] → after = []) := by
  obtain ⟨b, rest, rfl⟩ := exists_cons_of_ne_nil nonempty
  rw [tokenize, if_neg (by simp)] at tokenized
  obtain ⟨piece, after, tok, others, deepAfter, cut, isTokens, spells, below⟩ :=
    tokenizeLoop_cons tokenized
  refine ⟨piece, after, tok, others, cut, isTokens, spells, ?_⟩
  intro alone
  rw [alone] at below
  cases after with
  | nil => rfl
  | cons c more =>
    have shorter := congrArg List.length cut
    have positive : 0 < piece.length := length_pos_of_ne_nil spells.ne_nil
    simp only [length_cons, length_append] at shorter
    obtain ⟨left, isLeft⟩ : ∃ left, rest.length = left + 1 := ⟨rest.length - 1, by omega⟩
    rw [isLeft] at below
    exact absurd rfl (tokenizeLoop_ne_nil below)

theorem tokenize_plain (plain : ∀ b ∈ pattern, isPlain b = true) :
    tokenize pattern = .ok [.literal pattern] := by
  cases pattern with
  | nil => rfl
  | cons b rest =>
    have bPlain := plain b mem_cons_self
    simp only [isPlain, Bool.not_eq_true', Bool.or_eq_false_iff, beq_eq_false_iff_ne] at bPlain
    obtain ⟨⟨⟨notStar, notQuestion⟩, notBrace⟩, notBracket⟩ := bPlain
    have taken : (b :: rest).takeWhile isPlain = b :: rest := takeWhile_eq_self_iff.mpr plain
    have dropped : (b :: rest).dropWhile isPlain = [] := dropWhile_eq_nil_iff.mpr plain
    rw [tokenize, if_neg (by simp), length_cons, tokenizeLoop.eq_def]
    simp only []
    rw [if_neg notStar, if_neg notQuestion, if_neg notBrace, if_neg notBracket, taken, dropped]
    cases rest.length with
    | zero | succ => rfl

theorem tokenize_literal {word : Bytes} (tokenized : tokenize pattern = .ok [.literal word]) :
    word = pattern ∧ ∀ b ∈ pattern, isPlain b = true := by
  by_cases nonempty : pattern = []
  · rw [nonempty] at tokenized ⊢
    cases tokenized
    simp
  · obtain ⟨piece, after, tok, others, cut, isTokens, spells, ends⟩ :=
      tokenize_cons tokenized nonempty
    cases isTokens
    rw [ends rfl, append_nil] at cut
    rw [cut]
    cases spells with
    | literal nonempty plain => exact ⟨rfl, plain⟩

end Texts

def ReadsPattern (pattern input : Bytes) : Prop :=
  ∃ tokens, tokenize pattern = .ok tokens ∧ Reads tokens input

/-- The patterns have no special byte: such a set is compared, not searched. -/
def AllLiteral (patterns : List Bytes) : Prop :=
  ∀ pattern ∈ patterns, ∀ b ∈ pattern, isPlain b = true

/-- The frames the search can have on its stack for a pattern: one for each
token but the last, and for a group one for each alternative, above the first
frame. -/
def framesOf (pattern : Bytes) : Nat :=
  match tokenize pattern with
  | .ok tokens => weight tokens + 1
  | .error _ => 0

def FitsStack (patterns : List Bytes) : Prop :=
  ∀ pattern ∈ patterns, framesOf pattern ≤ maxStackDepth

instance (patterns : List Bytes) : Decidable (AllLiteral patterns) :=
  inferInstanceAs (Decidable (∀ _ ∈ _, _))

instance (patterns : List Bytes) : Decidable (FitsStack patterns) :=
  inferInstanceAs (Decidable (∀ _ ∈ _, _))

variable {pattern input : Bytes}

theorem readsPattern_plain (plain : ∀ b ∈ pattern, isPlain b = true) :
    ReadsPattern pattern input ↔ input = pattern := by
  constructor
  · rintro ⟨tokens, tokenized, reads⟩
    rw [tokenize_plain plain] at tokenized
    cases tokenized
    simpa [Reads, Tok.isDeep, Tok.Takes] using reads
  · intro same
    refine ⟨_, tokenize_plain plain, ?_⟩
    simp [Reads, Tok.Takes, same]

variable {tokens : List Tok}

theorem readsPattern_iff (tokenized : tokenize pattern = .ok tokens) :
    ReadsPattern pattern input ↔ Reads tokens input := by
  constructor
  · rintro ⟨others, again, reads⟩
    rw [tokenized] at again
    cases again
    exact reads
  · intro reads
    exact ⟨tokens, tokenized, reads⟩

/-- What the loop follows with the tokens of a pattern: the empty pattern is
followed nowhere. -/
theorem follows_tokenize (tokenized : tokenize pattern = .ok tokens) :
    Follows tokens input ↔ ReadsPattern pattern input ∧ pattern ≠ [] := by
  rw [readsPattern_iff tokenized]
  by_cases empty : pattern = []
  · rw [empty] at tokenized
    rw [tokenize_nil tokenized]
    cases input with
    | nil => simp [Follows, Tok.isDeep, empty]
    | cons b rest => simp [Follows, Tok.isDeep, Tok.nexts, leave, empty]
  · obtain ⟨regular, nonempty⟩ := tokenize_regular tokenized empty
    rw [follows_iff_reads regular nonempty]
    simp [empty]

theorem Regular.proper (regular : Regular tokens) : ∀ tok ∈ tokens, tok.Proper := by
  induction tokens with
  | nil => simp
  | cons tok rest ih =>
    obtain ⟨solid, apart, restRegular⟩ := regular
    intro other member
    rcases mem_cons.mp member with rfl | inRest
    · cases other with
      | group options => exact solid
      | _ => trivial
    · exact ih restRegular other inRest

theorem tokenize_proper (tokenized : tokenize pattern = .ok tokens) :
    tokens ≠ [] ∧ ∀ tok ∈ tokens, tok.Proper := by
  by_cases empty : pattern = []
  · rw [empty] at tokenized
    rw [tokenize_nil tokenized]
    simp [Tok.Proper]
  · obtain ⟨regular, nonempty⟩ := tokenize_regular tokenized empty
    exact ⟨nonempty, regular.proper⟩

/-- The search reads the input with one of the patterns.  An empty pattern
counts only in a set that is compared. -/
def SetReads (patterns : List Bytes) (input : Bytes) : Prop :=
  ∃ pattern ∈ patterns, ReadsPattern pattern input ∧ (pattern = [] → AllLiteral patterns)

namespace PathMatcherSet

variable {patterns : List Bytes} {set : PathMatcherSet}

theorem allLiteral_iff {parsed : List GlobPattern}
    (compiled : compilePatterns patterns = .ok parsed) :
    (parsed.all fun pattern => pattern.literal?.isSome) = true ↔ AllLiteral patterns := by
  obtain ⟨forward, backward⟩ := compilePatterns_ok compiled
  rw [all_eq_true]
  constructor
  · intro literals text member
    obtain ⟨pattern, inParsed, tokenized⟩ := forward text member
    obtain ⟨word, isWord⟩ := Option.isSome_iff_exists.mp (literals pattern inParsed)
    rw [GlobPattern.literal?_eq_some] at isWord
    rw [isWord] at tokenized
    exact (tokenize_literal tokenized).2
  · intro literals pattern member
    obtain ⟨text, inPatterns, tokenized⟩ := backward pattern member
    rw [tokenize_plain (literals text inPatterns)] at tokenized
    simp [GlobPattern.literal?, ← Except.ok.inj tokenized]

/-- A set that is compared matches what one of its patterns reads. -/
theorem isMatch_allLiteral (compiled : compile patterns = .ok set) (literals : AllLiteral patterns)
    (input : Bytes) :
    (set.isMatch input = true ↔ SetReads patterns input) ∧ set.outcome input ≠ .full := by
  obtain ⟨parsed, isParsed, rfl⟩ := compile_ok compiled
  obtain ⟨forward, backward⟩ := compilePatterns_ok isParsed
  have allParsed := (allLiteral_iff isParsed).mpr literals
  constructor
  · rw [isMatch_literals allParsed]
    constructor
    · rintro ⟨pattern, member, isWord⟩
      rw [GlobPattern.literal?_eq_some] at isWord
      obtain ⟨text, inPatterns, tokenized⟩ := backward pattern member
      rw [isWord] at tokenized
      obtain ⟨same, plain⟩ := tokenize_literal tokenized
      exact ⟨text, inPatterns, (readsPattern_plain plain).mpr same, fun _ => literals⟩
    · rintro ⟨text, inPatterns, reads, -⟩
      have plain := literals text inPatterns
      rw [readsPattern_plain plain] at reads
      obtain ⟨pattern, member, tokenized⟩ := forward text inPatterns
      rw [tokenize_plain plain] at tokenized
      refine ⟨pattern, member, ?_⟩
      rw [GlobPattern.literal?_eq_some, ← Except.ok.inj tokenized, reads]
  · have compares : (fromPatterns parsed).fast ≠ some .general := by
      rw [fromPatterns, if_pos allParsed]
      repeat' split
      all_goals simp [plain]
    grind [outcome]

/-- A set that is searched ends as the searches for its patterns. -/
theorem outcome_searched (compiled : compile patterns = .ok set) (mixed : ¬ AllLiteral patterns)
    (input : Bytes) :
    Sees (fun tokens => ∃ text ∈ patterns, tokenize text = .ok tokens) (search · 1 input)
      (set.outcome input) := by
  obtain ⟨parsed, isParsed, rfl⟩ := compile_ok compiled
  obtain ⟨forward, backward⟩ := compilePatterns_ok isParsed
  have notAll : (parsed.all fun pattern => pattern.literal?.isSome) = false :=
    Bool.eq_false_iff.mpr fun literal => mixed ((allLiteral_iff isParsed).mp literal)
  have same (tokens : List Tok) : (∃ pattern ∈ parsed, pattern.tokens = tokens) ↔
      ∃ text ∈ patterns, tokenize text = .ok tokens := by
    constructor
    · rintro ⟨pattern, member, rfl⟩
      exact backward pattern member
    · rintro ⟨text, member, tokenized⟩
      obtain ⟨pattern, inParsed, again⟩ := forward text member
      exact ⟨pattern, inParsed, Except.ok.inj (again.symm.trans tokenized)⟩
  have proper (pattern : GlobPattern) (member : pattern ∈ parsed) :
      pattern.tokens ≠ [] ∧ ∀ tok ∈ pattern.tokens, tok.Proper := by
    obtain ⟨text, inPatterns, tokenized⟩ := backward pattern member
    exact tokenize_proper tokenized
  have sees := outcome_general notAll (fun pattern member => (proper pattern member).1)
    (fun pattern member => (proper pattern member).2) input
  simpa only [same] using sees

/-- What a compiled set matches: what one of its patterns reads, unless the search ends on a
full stack. -/
theorem isMatch_iff (compiled : compile patterns = .ok set) (input : Bytes) :
    set.isMatch input = true ↔ SetReads patterns input ∧ set.outcome input ≠ .full := by
  by_cases literals : AllLiteral patterns
  · obtain ⟨same, notFull⟩ := isMatch_allLiteral compiled literals input
    rw [same]
    exact ⟨fun reads => ⟨reads, notFull⟩, And.left⟩
  have sees := outcome_searched compiled literals input
  have searched : (∃ tokens, (∃ text ∈ patterns, tokenize text = .ok tokens) ∧
      Follows tokens input) ↔ SetReads patterns input := by
    constructor
    · rintro ⟨tokens, ⟨text, member, tokenized⟩, follows⟩
      obtain ⟨reads, nonempty⟩ := (follows_tokenize tokenized).mp follows
      exact ⟨text, member, reads, fun empty => absurd empty nonempty⟩
    · rintro ⟨text, member, ⟨tokens, tokenized, reads⟩, whenEmpty⟩
      exact ⟨tokens, ⟨text, member, tokenized⟩, (follows_tokenize tokenized).mpr
        ⟨⟨tokens, tokenized, reads⟩, fun empty => literals (whenEmpty empty)⟩⟩
  rw [isMatch_iff_outcome, ← searched]
  have spec (tokens : List Tok) := search_spec tokens 1 input
  cases ends : set.outcome input with
  | found =>
    rw [ends] at sees
    obtain ⟨tokens, listed, found⟩ := sees
    have follows := spec tokens
    simp only [found] at follows
    exact iff_of_true rfl ⟨⟨tokens, listed, follows⟩, nofun⟩
  | left =>
    rw [ends] at sees
    refine iff_of_false nofun ?_
    rintro ⟨⟨tokens, listed, follows⟩, -⟩
    have fails := spec tokens
    simp only [sees tokens listed] at fails
    exact fails follows
  | full => exact iff_of_false nofun fun both => both.2 rfl

/-- Patterns that need no more frames than the stack has never fill it. -/
theorem outcome_ne_full (compiled : compile patterns = .ok set) (fits : FitsStack patterns)
    (input : Bytes) : set.outcome input ≠ .full := by
  by_cases literals : AllLiteral patterns
  · exact (isMatch_allLiteral compiled literals input).2
  intro full
  have sees := outcome_searched compiled literals input
  rw [full] at sees
  obtain ⟨tokens, ⟨text, member, tokenized⟩, isFull⟩ := sees
  have spec := search_spec tokens 1 input
  have bound := fits text member
  simp only [isFull] at spec
  simp only [framesOf, tokenized] at bound
  omega

variable {pattern : Bytes}

theorem compile_tokenize (compiled : compile patterns = .ok set) (member : pattern ∈ patterns) :
    ∃ tokens, tokenize pattern = .ok tokens := by
  obtain ⟨parsed, isParsed, -⟩ := compile_ok compiled
  obtain ⟨found, -, tokenized⟩ := (compilePatterns_ok isParsed).1 pattern member
  exact ⟨found.tokens, tokenized⟩

/-- Where every `**` ends its pattern and no `**/` is used, an ASCII path is
matched as documented. -/
theorem isMatch_iff_documented (compiled : compile patterns = .ok set)
    (fits : FitsStack patterns) (nonempty : [] ∉ patterns)
    (deepLast : ∀ pattern ∈ patterns, ∀ tokens, tokenize pattern = .ok tokens → DeepLast tokens)
    {input : Bytes} (ascii : ∀ b ∈ input, b < 0x80) :
    set.isMatch input = true ↔ ∃ pattern ∈ patterns, Documented pattern input := by
  have notFull := outcome_ne_full compiled fits input
  rw [isMatch_iff compiled]
  have same : ∀ pattern ∈ patterns, ReadsPattern pattern input ↔ Documented pattern input := by
    intro pattern member
    obtain ⟨tokens, tokenized⟩ := compile_tokenize compiled member
    rw [readsPattern_iff tokenized, documented_iff_means tokenized]
    exact reads_iff_means (deepLast pattern member _ tokenized) ascii
  constructor
  · rintro ⟨⟨pattern, member, reads, -⟩, -⟩
    exact ⟨pattern, member, (same pattern member).mp reads⟩
  · rintro ⟨pattern, member, documented⟩
    refine ⟨⟨pattern, member, (same pattern member).mpr documented, ?_⟩, notFull⟩
    intro empty
    rw [empty] at member
    exact absurd member nonempty

theorem isMatch_iff_documented_api :
    (fromPatterns [⟨[.literal [47, 97, 47], .deepWildcard]⟩]).isMatch [47, 97, 47, 120] = true ↔
      ∃ pattern ∈ [[47, 97, 47, 42, 42]], Documented pattern [47, 97, 47, 120] := by
  refine isMatch_iff_documented (by rfl) (by decide) (by decide) ?_ (by simp)
  intro pattern member tokens isTokens
  cases mem_singleton.mp member
  cases isTokens
  exact ⟨rfl, nofun⟩

end PathMatcherSet

end Ophan.Glob
