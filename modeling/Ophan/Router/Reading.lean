import Ophan.Router.Wildcard

/-!
# What the wildcard search finds

The search of `findWildcard` either runs through a route whose bytes are all
plain, or cuts it into a plain start, one complete wildcard and a rest.  Both
readings of a route follow these cuts.
-/

namespace Ophan.Router

open List

def WildcardBody (body : List Mark) : Prop :=
  ∀ mark ∈ body, mark.1 ≠ star ∧ mark.1 ≠ slash ∧ (mark.1 = closeBrace → mark.2 = true)

inductive RawWildcard : List Mark → Prop
  | mk {first : UInt8} {flag : Bool} {body : List Mark} :
      first ≠ closeBrace →
      WildcardBody body →
      (body = [] → first ≠ star) →
      RawWildcard ((openBrace, false) :: (first, flag) :: (body ++ [(closeBrace, false)]))

def wildcardName (wildcard : List Mark) : Bytes := ((wildcard.map Prod.fst).drop 1).dropLast

theorem wildcardName_mk (first : UInt8) (flag : Bool) (body : List Mark) :
    wildcardName ((openBrace, false) :: (first, flag) :: (body ++ [(closeBrace, false)])) =
      first :: body.map Prod.fst := by
  rw [wildcardName, map_cons, drop_one, tail_cons, ← cons_append, map_append]
  exact dropLast_concat

variable {wildcard : List Mark}

theorem RawWildcard.three_le_length (raw : RawWildcard wildcard) : 3 ≤ wildcard.length := by
  cases raw with
  | mk _ _ _ => simp

/-! ## The closing brace -/

theorem findClose_cons {mark : Mark} (valid :
      mark.1 ≠ star ∧ mark.1 ≠ slash ∧ (mark.1 = closeBrace → mark.2 = true))
    (rest : List Mark) (previous : UInt8) (start i : Nat) :
    findClose (mark :: rest) previous start i = findClose rest mark.1 start (i + 1) := by
  obtain ⟨c, escaped⟩ := mark
  obtain ⟨notStar, notSlash, closes⟩ := valid
  simp only at notStar notSlash closes
  by_cases close : c = closeBrace
  · simp [findClose, close, closes close]
  · simp [findClose, close, notStar, notSlash]

theorem findClose_of_body {body : List Mark} (valid : WildcardBody body) :
    ∀ (previous : UInt8) (start i : Nat) (rest : List Mark),
      (body = [] → previous ≠ star) →
      findClose (body ++ (closeBrace, false) :: rest) previous start i =
        .ok (some (start, i + body.length + 1)) := by
  induction body with
  | nil =>
    intro previous start i rest named
    simp [findClose, named rfl]
  | cons mark tail ih =>
    intro previous start i rest _
    obtain ⟨here, tailValid⟩ := forall_mem_cons.mp valid
    rw [cons_append, findClose_cons here, ih tailValid _ _ _ _ fun _ => here.1, length_cons]
    congr 4
    omega

theorem findClose_ok {found : Option (Nat × Nat)} {marks : List Mark} {previous : UInt8}
    {start i : Nat} (search : findClose marks previous start i = .ok found) :
    ∃ body rest,
      marks = body ++ (closeBrace, false) :: rest ∧
      WildcardBody body ∧
      (body = [] → previous ≠ star) ∧
      found = some (start, i + body.length + 1) := by
  fun_induction findClose marks previous start i with
  | case1 | case3 | case5 => cases search
  | case4 escaped rest previous start i clear notStar =>
    cases search
    exact ⟨[], rest, by simpa using clear, by simp [WildcardBody], fun _ => notStar, rfl⟩
  | case2 | case6 =>
    rename_i ih
    obtain ⟨body, rest, rfl, valid, -, rfl⟩ := ih search
    refine ⟨_ :: body, rest, rfl, forall_mem_cons.mpr ⟨?_, valid⟩, by simp, ?_⟩
    · grind
    · grind

/-! ## The first wildcard -/

theorem findWildcardFrom_cons_plain
    {mark : Mark} (plain : Plain mark) (marks : List Mark) (start : Nat) :
    findWildcardFrom (mark :: marks) start = findWildcardFrom marks (start + 1) := by
  obtain ⟨c, escaped⟩ := mark
  cases escaped with
  | true => simp [findWildcardFrom]
  | false =>
    obtain ⟨notOpen, notClose⟩ := plain rfl
    simp only at notOpen notClose
    simp [findWildcardFrom, notOpen, notClose]

theorem findWildcardFrom_plain_append {initial : List Mark} (plain : ∀ mark ∈ initial, Plain mark)
    (marks : List Mark) (start : Nat) :
    findWildcardFrom (initial ++ marks) start =
      findWildcardFrom marks (start + initial.length) := by
  induction initial generalizing start with
  | nil => rfl
  | cons mark tail ih =>
    obtain ⟨markPlain, tailPlain⟩ := forall_mem_cons.mp plain
    rw [cons_append, findWildcardFrom_cons_plain markPlain, ih tailPlain, length_cons]
    congr 1
    omega

theorem findWildcardFrom_wildcard (raw : RawWildcard wildcard) (rest : List Mark) (start : Nat) :
    findWildcardFrom (wildcard ++ rest) start = .ok (some (start, start + wildcard.length)) := by
  cases raw with
  | @mk first flag body notClose valid named =>
    have closing := findClose_of_body valid first start (start + 2) rest named
    simp [findWildcardFrom, notClose, closing]
    omega

theorem findWildcardFrom_plain
    {marks : List Mark} (plain : ∀ mark ∈ marks, Plain mark) (start : Nat) :
    findWildcardFrom marks start = .ok none := by
  have search := findWildcardFrom_plain_append plain [] start
  simpa [findWildcardFrom] using search

/-- What the result of the search says about the route. -/
theorem findWildcardFrom_ok {found : Option (Nat × Nat)} {marks : List Mark} {start : Nat}
    (search : findWildcardFrom marks start = .ok found) :
    (found = none ∧ ∀ mark ∈ marks, Plain mark) ∨
      ∃ initial wildcard rest,
        marks = initial ++ (wildcard ++ rest) ∧
        (∀ mark ∈ initial, Plain mark) ∧
        RawWildcard wildcard ∧
        found = some (start + initial.length, start + initial.length + wildcard.length) := by
  fun_induction findWildcardFrom marks start with
  | case1 start => simp_all
  | case3 c escaped tail start notClose isPlain ih =>
    have plain : Plain (c, escaped) := by
      simp only [Plain]
      grind
    rcases ih search with
      ⟨none, tailPlain⟩ | ⟨initial, wildcard, rest, split, initialPlain, raw, location⟩
    · exact Or.inl ⟨none, forall_mem_cons.mpr ⟨plain, tailPlain⟩⟩
    · grind
  | case6 c escaped start _ notPlain first flag body close =>
    push Not at notPlain
    obtain ⟨rfl, clear⟩ := notPlain
    obtain ⟨inside, rest, split, valid, named, location⟩ := findClose_ok search
    refine Or.inr ⟨[], (openBrace, false) :: (first, flag) ::
        (inside ++ [(closeBrace, false)]), rest, ?_, by simp, RawWildcard.mk close valid named, ?_⟩
    · simp [split, clear]
    · grind
  | case2 | case4 | case5 => cases search

/-! ## The pieces of a pattern -/

theorem readOutside_cons_plain {mark : Mark} (plain : Plain mark) (marks : List Mark) :
    readOutside (mark :: marks) = (readOutside marks).map (Piece.byte mark.1 :: ·) := by
  obtain ⟨c, escaped⟩ := mark
  cases escaped with
  | true => simp [readOutside]
  | false =>
    obtain ⟨notOpen, notClose⟩ := plain rfl
    simp only at notOpen notClose
    simp [readOutside, notOpen, notClose]

theorem readOutside_plain_append {initial : List Mark} (plain : ∀ mark ∈ initial, Plain mark)
    (marks : List Mark) :
    readOutside (initial ++ marks) =
      (readOutside marks).map (initial.map (fun mark => Piece.byte mark.1) ++ ·) := by
  induction initial with
  | nil => simp
  | cons mark tail ih =>
    obtain ⟨markPlain, tailPlain⟩ := forall_mem_cons.mp plain
    rw [cons_append, readOutside_cons_plain markPlain, ih tailPlain, Option.map_map]
    rfl

private theorem readName_body {body : List Mark} (valid : WildcardBody body)
    (rest : List Mark) (name : Bytes) :
    readName (body ++ (closeBrace, false) :: rest) name =
      (readOutside rest).map (wildcardPiece (name ++ body.map Prod.fst) :: ·) := by
  induction body generalizing name with
  | nil => simp [readName]
  | cons mark tail ih =>
    obtain ⟨here, tailValid⟩ := forall_mem_cons.mp valid
    have stays : ¬ (mark.1 = closeBrace ∧ mark.2 = false) := fun ⟨close, clear⟩ => by
      simp [here.2.2 close] at clear
    rw [cons_append, readName, if_neg stays, ih tailValid, map_cons, append_assoc]
    rfl

theorem readOutside_wildcard (raw : RawWildcard wildcard) (rest : List Mark) :
    readOutside (wildcard ++ rest) =
      (readOutside rest).map (wildcardPiece (wildcardName wildcard) :: ·) := by
  cases raw with
  | @mk first flag body notClose valid named =>
    rw [wildcardName_mk]
    have inside := readName_body valid rest [first]
    simp only [cons_append, append_assoc, nil_append] at inside ⊢
    simp only [readOutside, and_self, if_true, readName]
    simp_all

/-! ## The tokens of a normalized route -/

namespace Reads

theorem append {first second : List Mark} {firstTokens secondTokens : List Token}
    (readsFirst : Reads first firstTokens) (readsSecond : Reads second secondTokens) :
    Reads (first ++ second) (firstTokens ++ secondTokens) := by
  induction readsFirst with
  | nil => exact readsSecond
  | byte plain _ ih => exact Reads.byte plain ih
  | param letter _ ih => exact Reads.param letter ih
  | catchAll named _ ih => simpa [append_assoc] using Reads.catchAll named ih

theorem of_plain {marks : List Mark} (plain : ∀ mark ∈ marks, Plain mark) :
    Reads marks (marks.map fun mark => Token.byte mark.1) := by
  induction marks with
  | nil => exact Reads.nil
  | cons mark tail ih =>
    obtain ⟨markPlain, tailPlain⟩ := forall_mem_cons.mp plain
    exact Reads.byte markPlain (ih tailPlain)

theorem of_catchAll {wildcard : List Mark} (raw : RawWildcard wildcard)
    (starred : wildcard[1]?.map Prod.fst = some star) :
    Reads wildcard [.catchAll ((wildcardName wildcard).drop 1)] := by
  cases raw with
  | @mk first flag body notClose valid named =>
    have isStar : first = star := by simpa using starred
    subst isStar
    rw [wildcardName_mk]
    have nonempty : body ≠ [] := fun empty => named empty rfl
    exact Reads.catchAll ⟨nonempty, valid⟩ Reads.nil

end Reads

@[simp]
theorem paramCount_append (first second : List Token) :
    paramCount (first ++ second) = paramCount first + paramCount second := by
  induction first with
  | nil => simp [paramCount]
  | cons token rest ih => cases token <;> (simp [paramCount, ih]; try omega)

@[simp]
theorem paramCount_bytes (bytes : Bytes) : paramCount (bytes.map Token.byte) = 0 := by
  induction bytes with
  | nil => rfl
  | cons b rest ih => simpa [paramCount] using ih

end Ophan.Router
