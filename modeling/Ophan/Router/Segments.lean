import Ophan.Lib.Split
import Ophan.Router.Routes

/-!
# Tokens and segments of a route

A normalized route that reads as tokens is plain up to its first wildcard, and
the end of a segment is the end of a token: an insert that cuts a route at
either place is left with routes that read as tokens again.
-/

namespace Ophan.Router

open List

/-! ## Routes that read as tokens -/

def Readable (marks : List Mark) : Prop := ∃ routeTokens, Reads marks routeTokens

inductive IsWildcard : List Mark → Prop
  | param {c : UInt8} : IsLetter c → IsWildcard (letterMarks c)
  | catchAll {flag : Bool} {name : List Mark} :
      CatchAllName name → IsWildcard (Node.catchAllMarks flag name)

variable {c : UInt8}

theorem IsLetter.ne_star (letter : IsLetter c) : c ≠ star := by
  rintro rfl
  exact absurd letter.1 (by decide)

theorem IsLetter.ne_slash (letter : IsLetter c) : c ≠ slash := by
  rintro rfl
  exact absurd letter.1 (by decide)

theorem IsLetter.ne_closeBrace (letter : IsLetter c) : c ≠ closeBrace := by
  rintro rfl
  exact absurd letter.2 (by decide)

variable {wildcard marks initial rest : List Mark}

theorem IsWildcard.raw (isWildcard : IsWildcard wildcard) : RawWildcard wildcard := by
  cases isWildcard with
  | @param c letter =>
    have noBody : WildcardBody [] := by simp [WildcardBody]
    exact RawWildcard.mk letter.ne_closeBrace noBody (fun _ => letter.ne_star)
  | @catchAll flag name named =>
    exact RawWildcard.mk star_ne_closeBrace named.body (fun empty => absurd empty named.nonempty)

theorem IsWildcard.slash_not_mem (isWildcard : IsWildcard wildcard) :
    slash ∉ wildcard.map Prod.fst := by
  cases isWildcard with
  | @param c letter => simp [letterMarks, letter.ne_slash.symm]
  | @catchAll flag name named =>
    have noSlash : ∀ mark ∈ name, mark.1 ≠ slash := fun mark member => (named.body mark member).2.1
    simp only [Node.catchAllMarks, map_cons, map_append, map_nil, mem_cons, mem_append, mem_map,
      not_mem_nil, or_false, not_or, not_exists, not_and]
    simp_all

theorem IsWildcard.head (isWildcard : IsWildcard wildcard) (rest : List Mark) :
    (wildcard ++ rest).head? = some (openBrace, false) := by
  cases isWildcard with
  | param | catchAll => rfl

theorem not_plain_openBrace : ¬ Plain (openBrace, false) := by
  decide

/-! ## Tokens are unique -/

section Inversion

variable {routeTokens : List Token}

theorem Reads.of_plain_cons {mark : Mark} (plain : Plain mark)
    (reads : Reads (mark :: rest) routeTokens) :
    ∃ restTokens, routeTokens = .byte mark.1 :: restTokens ∧ Reads rest restTokens := by
  cases reads with
  | byte _ restReads => exact ⟨_, rfl, restReads⟩
  | param | catchAll => exact absurd plain not_plain_openBrace

theorem Reads.of_plain_append (plain : ∀ mark ∈ initial, Plain mark)
    (reads : Reads (initial ++ rest) routeTokens) :
    ∃ restTokens,
      routeTokens = (initial.map Prod.fst).map Token.byte ++ restTokens ∧
      Reads rest restTokens := by
  induction initial generalizing routeTokens with
  | nil => exact ⟨routeTokens, rfl, reads⟩
  | cons mark tail ih =>
    obtain ⟨headPlain, tailPlain⟩ := forall_mem_cons.mp plain
    obtain ⟨tailTokens, rfl, tailReads⟩ := reads.of_plain_cons headPlain
    simp_all

theorem Reads.of_letter_append (letter : IsLetter c)
    (reads : Reads (letterMarks c ++ rest) routeTokens) :
    ∃ restTokens, routeTokens = .param :: restTokens ∧ Reads rest restTokens := by
  change Reads ((openBrace, false) :: (c, false) :: (closeBrace, false) :: rest) _ at reads
  generalize whole : (closeBrace, false) :: rest = behind at reads
  cases reads with
  | byte plain _ => exact absurd plain not_plain_openBrace
  | param _ restReads => simp_all
  | catchAll => exact absurd rfl letter.ne_star

theorem Reads.behind_catchAll {flag : Bool} {name : List Mark} (named : CatchAllName name)
    (reads : Reads ((openBrace, false) :: (star, flag) :: (name ++ (closeBrace, false) :: rest))
      routeTokens) :
    ∃ restTokens,
      routeTokens = .catchAll (name.map Prod.fst) :: restTokens ∧
      Reads rest restTokens := by
  have closed : ∀ {name : List Mark}, CatchAllName name → (closeBrace, false) ∉ name :=
    fun named member => absurd ((named.body _ member).2.2 rfl) (by simp)
  generalize whole : name ++ (closeBrace, false) :: rest = behind at reads
  cases reads with
  | byte plain _ => exact absurd plain not_plain_openBrace
  | param letter _ => exact absurd rfl letter.ne_star
  | catchAll otherNamed restReads =>
    obtain ⟨rfl, rfl⟩ := cut_unique (closed named) (closed otherNamed) whole
    exact ⟨_, rfl, restReads⟩

theorem Reads.of_catchAll_append {flag : Bool} {name : List Mark} (named : CatchAllName name)
    (reads : Reads (Node.catchAllMarks flag name ++ rest) routeTokens) :
    ∃ restTokens,
      routeTokens = .catchAll (name.map Prod.fst) :: restTokens ∧
      Reads rest restTokens := by
  rw [Node.catchAllMarks, cons_append, cons_append, append_assoc] at reads
  exact reads.behind_catchAll named

end Inversion

/-- A text reads as tokens in one way. -/
theorem Reads.unique {first second : List Token}
    (readsFirst : Reads marks first) (readsSecond : Reads marks second) :
    first = second := by
  induction readsFirst generalizing second with
  | nil =>
    cases readsSecond
    rfl
  | byte plain _ ih =>
    obtain ⟨rest, rfl, readsRest⟩ := readsSecond.of_plain_cons plain
    rw [ih readsRest]
  | param letter _ ih =>
    obtain ⟨rest, rfl, readsRest⟩ := Reads.of_letter_append letter readsSecond
    rw [ih readsRest]
  | catchAll named _ ih =>
    obtain ⟨rest, rfl, readsRest⟩ := readsSecond.behind_catchAll named
    rw [ih readsRest]

namespace Readable

variable {rest : List Mark}

theorem cases_cons {mark : Mark} (readable : Readable (mark :: rest)) :
    (Plain mark ∧ Readable rest) ∨
      ∃ wildcard behind,
        mark :: rest = wildcard ++ behind ∧
        IsWildcard wildcard ∧ Readable behind := by
  obtain ⟨routeTokens, reads⟩ := readable
  generalize whole : mark :: rest = marks at reads
  cases reads with
  | nil => cases whole
  | byte plain tailReads =>
    injection whole with sameMark sameRest
    subst sameMark sameRest
    exact Or.inl ⟨plain, _, tailReads⟩
  | @param c behind _ letter tailReads =>
    exact Or.inr ⟨letterMarks c, behind, rfl, IsWildcard.param letter, _, tailReads⟩
  | @catchAll flag name behind _ named tailReads =>
    exact Or.inr ⟨Node.catchAllMarks flag name, behind,
      by simp [Node.catchAllMarks], IsWildcard.catchAll named,
      _, tailReads⟩

theorem of_plain_append {initial : List Mark} (plain : ∀ mark ∈ initial, Plain mark)
    (readable : Readable (initial ++ rest)) : Readable rest := by
  obtain ⟨routeTokens, reads⟩ := readable
  obtain ⟨restTokens, _, restReads⟩ := reads.of_plain_append plain
  exact ⟨restTokens, restReads⟩

theorem of_letter_append {c : UInt8}
    (letter : IsLetter c) (readable : Readable (letterMarks c ++ rest)) :
    Readable rest := by
  obtain ⟨routeTokens, reads⟩ := readable
  obtain ⟨restTokens, _, restReads⟩ := reads.of_letter_append letter
  exact ⟨restTokens, restReads⟩

/-- A readable text is plain, or a plain start, a wildcard and a rest. -/
theorem first {marks : List Mark} (readable : Readable marks) : (∀ mark ∈ marks, Plain mark) ∨
      ∃ initial wildcard rest,
        marks = initial ++ (wildcard ++ rest) ∧
        (∀ mark ∈ initial, Plain mark) ∧
        IsWildcard wildcard ∧ Readable rest := by
  induction marks with
  | nil => exact Or.inl (by simp)
  | cons mark tail ih =>
    rcases readable.cases_cons with
      ⟨headPlain, tailReadable⟩ | ⟨wildcard, rest, cut, isWildcard, reads⟩
    · grind
    · exact Or.inr ⟨[], wildcard, rest, cut, by simp, isWildcard, reads⟩

end Readable

theorem letter_prefix (letter : IsLetter c) (readable : Readable marks)
    (starts : marks.head? = some (openBrace, false)) (agrees :
      ((letterMarks c).map Prod.fst).length ≤ (marks.map Prod.fst).length →
        (marks.map Prod.fst).take ((letterMarks c).map Prod.fst).length =
          (letterMarks c).map Prod.fst) :
    letterMarks c <+: marks := by
  cases marks with
  | nil => cases starts
  | cons mark rest =>
    rw [List.head?_cons, Option.some.injEq] at starts
    subst starts
    rcases readable.cases_cons with
      ⟨plain, _⟩ | ⟨wildcard, behind, cut, isWildcard, _⟩
    · exact absurd plain not_plain_openBrace
    · rw [cut] at agrees ⊢
      cases isWildcard with
      | @param d other =>
        have same := agrees (by simp [letterMarks])
        simp only [letterMarks, map_cons, map_nil, map_append, length_cons, length_nil,
          cons_append, take_succ_cons, take_zero,
          List.cons.injEq] at same
        simp_all
      | @catchAll flag name named =>
        have same := agrees (by
          have nonempty := length_pos_of_ne_nil named.nonempty
          simp only [letterMarks, Node.catchAllMarks, map_cons, map_nil, length_cons, length_nil,
            length_map, length_append]
          omega)
        simp only [letterMarks, Node.catchAllMarks, map_cons, map_nil, length_cons, length_nil,
          cons_append, take_succ_cons, List.cons.injEq] at same
        exact absurd same.2.1.symm letter.ne_star

/-! ## Regular routes -/

/-- At most one wildcard in each segment, and a catch-all only at the end;
`wild` says that the segment has a wildcard already. -/
def regularFrom : Bool → List Token → Bool
  | _, [] => true
  | wild, .byte b :: rest => regularFrom (wild && b ≠ slash) rest
  | wild, .param :: rest => !wild && regularFrom true rest
  | wild, .catchAll _ :: rest => !wild && rest.isEmpty

/-- A text that does not read as a regular route. -/
def Irregular (marks : List Mark) : Prop :=
  ∀ routeTokens, Reads marks routeTokens → regularFrom false routeTokens = false

theorem regularFrom_bytes_append (wild : Bool) (bytes : Bytes) (rest : List Token) :
    regularFrom wild (bytes.map Token.byte ++ rest) =
      regularFrom (wild && !bytes.contains slash) rest := by
  induction bytes generalizing wild with
  | nil => simp
  | cons b tail ih =>
    rw [map_cons, cons_append, regularFrom, ih]
    congr 1
    by_cases isSlash : b = slash
    · simp [isSlash]
    · grind

variable {routeTokens : List Token}

theorem Reads.ne_nil (reads : Reads marks routeTokens) (nonempty : marks ≠ []) :
    routeTokens ≠ [] := by
  cases reads with
  | nil => exact absurd rfl nonempty
  | byte | param | catchAll => simp

theorem irregular_catchAll {flag : Bool} {name : List Mark} (plain : ∀ mark ∈ initial, Plain mark)
    (named : CatchAllName name) (more : rest ≠ []) :
    Irregular (initial ++ (Node.catchAllMarks flag name ++ rest)) := by
  intro routeTokens reads
  obtain ⟨behind, rfl, behindReads⟩ := reads.of_plain_append plain
  obtain ⟨restTokens, rfl, restReads⟩ := behindReads.of_catchAll_append named
  rw [regularFrom_bytes_append]
  simp [regularFrom, restReads.ne_nil more]

theorem irregular_param (letter : IsLetter c) (plain : ∀ mark ∈ initial, Plain mark)
    (isWildcard : IsWildcard wildcard) (noSlash : slash ∉ initial.map Prod.fst) :
    Irregular (letterMarks c ++ (initial ++ (wildcard ++ rest))) := by
  intro routeTokens reads
  obtain ⟨behind, rfl, behindReads⟩ := reads.of_letter_append letter
  obtain ⟨after, rfl, afterReads⟩ := behindReads.of_plain_append plain
  have stillWild : (initial.map Prod.fst).contains slash = false := by simpa using noSlash
  rw [regularFrom, regularFrom_bytes_append, stillWild]
  cases isWildcard with
  | param otherLetter =>
    obtain ⟨restTokens, rfl, _⟩ := afterReads.of_letter_append otherLetter
    simp [regularFrom]
  | catchAll named =>
    obtain ⟨restTokens, rfl, _⟩ := afterReads.of_catchAll_append named
    simp [regularFrom]

/-! ## Segments -/

theorem terminatorOf_append {initial : Bytes} (rest : Bytes) (noSlash : slash ∉ initial) :
    terminatorOf (initial ++ rest) = initial.length + terminatorOf rest := by
  have notFound : initial.findIdx? (· = slash) = none := by grind
  simp only [terminatorOf, List.findIdx?_append, notFound, Option.none_or, length_append]
  cases rest.findIdx? (· = slash) with
  | none => rfl
  | some i => grind

theorem terminatorOf_le (bytes : Bytes) : terminatorOf bytes ≤ bytes.length := by
  simp only [terminatorOf]
  split
  · rename_i i found
    have inside := (List.findIdx?_eq_some_iff_findIdx_eq.mp found).1
    omega
  · exact Nat.le_refl _

theorem terminatorOf_slash_cons (rest : Bytes) : terminatorOf (slash :: rest) = 1 := by
  simp [terminatorOf, List.findIdx?_cons]

/-- The first segment of a text, with its slash, in front of the rest. -/
def IsSegment (segment rest : Bytes) : Prop := terminatorOf (segment ++ rest) = segment.length

theorem isSegment_take_drop (bytes : Bytes) :
    IsSegment (bytes.take (terminatorOf bytes)) (bytes.drop (terminatorOf bytes)) := by
  rw [IsSegment, take_append_drop, length_take]
  have bound := terminatorOf_le bytes
  omega

theorem IsSegment.nothing {rest : Bytes} (segment : IsSegment [] rest) : rest = [] := by
  rw [IsSegment, nil_append, length_nil] at segment
  cases rest with
  | nil => rfl
  | cons b tail =>
    simp only [terminatorOf] at segment
    split at segment <;> cases segment

theorem IsSegment.slash_not_mem {first second rest : Bytes}
    (segment : IsSegment (first ++ second) rest) (nonempty : second ≠ []) :
    slash ∉ first := by
  intro member
  obtain ⟨front, back, rfl, noSlash⟩ := eq_append_cons_of_mem member
  have positive := length_pos_of_ne_nil nonempty
  rw [IsSegment, append_assoc, append_assoc, cons_append,
    terminatorOf_append _ noSlash, terminatorOf_slash_cons] at segment
  simp only [length_append, length_cons] at segment
  omega

theorem IsSegment.ends {segment rest : Bytes}
    (isSegment : IsSegment segment rest) (more : rest ≠ []) :
    ∃ front, segment = front ++ [slash] ∧ slash ∉ front := by
  by_cases member : slash ∈ segment
  · obtain ⟨front, back, rfl, noSlash⟩ := eq_append_cons_of_mem member
    rw [IsSegment, append_assoc, cons_append,
      terminatorOf_append _ noSlash, terminatorOf_slash_cons] at isSegment
    have noBack : back = [] := by simp_all
    exact ⟨front, by rw [noBack], noSlash⟩
  · have shorter : IsSegment [] rest := by
      rw [IsSegment, terminatorOf_append _ member] at isSegment
      rw [IsSegment, nil_append, length_nil]
      omega
    exact absurd shorter.nothing more

/-- The end of a segment is the end of a token. -/
theorem Readable.segment (readable : Readable marks) :
    Readable (marks.take (terminatorOf (marks.map Prod.fst))) ∧
      Readable (marks.drop (terminatorOf (marks.map Prod.fst))) := by
  obtain ⟨routeTokens, reads⟩ := readable
  have step :
      ∀ {label rest : List Mark} {labelTokens : List Token},
        Reads label labelTokens → slash ∉ label.map Prod.fst →
        Readable (rest.take (terminatorOf (rest.map Prod.fst))) ∧
          Readable (rest.drop (terminatorOf (rest.map Prod.fst))) →
        Readable ((label ++ rest).take (terminatorOf ((label ++ rest).map Prod.fst))) ∧
          Readable ((label ++ rest).drop (terminatorOf ((label ++ rest).map Prod.fst))) := by
    intro label rest labelTokens labelReads noSlash below
    obtain ⟨⟨frontTokens, front⟩, behind⟩ := below
    rw [map_append, terminatorOf_append _ noSlash, length_map,
      take_length_add_append, drop_length_add_append]
    exact ⟨⟨_, labelReads.append front⟩, behind⟩
  induction reads with
  | nil => exact ⟨⟨_, Reads.nil⟩, ⟨_, Reads.nil⟩⟩
  | @byte mark rest tailTokens plain tailReads ih =>
    by_cases isSlash : mark.1 = slash
    · rw [map_cons, isSlash, terminatorOf_slash_cons]
      exact ⟨⟨_, Reads.byte plain Reads.nil⟩, ⟨_, tailReads⟩⟩
    · have noSlash : slash ∉ [mark].map Prod.fst := by simpa using Ne.symm isSlash
      exact step (Reads.byte plain Reads.nil) noSlash ih
  | @param c rest tailTokens letter tailReads ih =>
    exact step (Reads.param letter Reads.nil) (IsWildcard.param letter).slash_not_mem ih
  | @catchAll flag name rest tailTokens named tailReads ih =>
    have noSlash : slash ∉ (Node.catchAllMarks flag name).map Prod.fst :=
      (IsWildcard.catchAll named).slash_not_mem
    have whole :
        (openBrace, false) :: (star, flag) :: (name ++ (closeBrace, false) :: rest) =
          Node.catchAllMarks flag name ++ rest := by
      simp [Node.catchAllMarks]
    rw [whole]
    exact step (Reads.catchAll named Reads.nil) noSlash ih

end Ophan.Router
