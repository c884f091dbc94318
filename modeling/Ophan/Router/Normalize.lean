import Ophan.Router.Reading

/-!
# Normalized parameters

`normalizeParams` splices a letter over the name of each parameter.  The
splice keeps the bytes around the wildcard and their escape flags, with one
exception: the flag of a character that directly follows the wildcard stays at
its old position.
-/

namespace Ophan.Router

open List

/-! ## Splicing -/

variable {path route : UnescapedRoute} {front read initial wildcard rest : List Mark}

theorem UnescapedRoute.marks_eq (path : UnescapedRoute) :
    path.marks = path.inner.mapIdx fun i b => (b, path.isEscaped i) := by
  apply ext_getElem?
  intro i
  rw [getElem?_marks, List.getElem?_mapIdx]

/-- Where the flags of a spliced route come from: the one at the end of the range stays. -/
private theorem isEscaped_splice {start stop i : Nat} {replace : Bytes} :
    (path.splice start stop replace).1.isEscaped i = true ↔
      ∃ x, path.isEscaped x = true ∧ (x < start ∨ stop ≤ x) ∧
        (if stop < x then x + replace.length - (stop - start) else x) = i := by
  simp only [UnescapedRoute.isEscaped, UnescapedRoute.splice, contains_iff_mem, mem_map,
    mem_filter, Bool.not_eq_true', Bool.and_eq_false_iff, decide_eq_false_iff_not, and_assoc]
  refine exists_congr fun x => and_congr_right fun _ => and_congr (by omega) ?_
  split <;> omega

/-- A splice that does not lengthen the route keeps what stands before it and inserts unescaped
bytes.  It keeps the flags behind it too if none stands at the end of the range, or if the length
does not change. -/
private theorem splice_wildcard (cut : path.marks = front ++ (wildcard ++ rest))
    {replace : Bytes} (shorter : replace.length ≤ wildcard.length)
    {spliced : UnescapedRoute × Bytes}
    (splice : spliced = path.splice front.length (front.length + wildcard.length) replace) :
    spliced.2 = wildcard.map Prod.fst ∧
    ∃ rest',
      spliced.1.marks = (front ++ replace.map fun b => (b, false)) ++ rest' ∧
      ((rest.head?.map Prod.snd = some true → wildcard.length = replace.length) →
        rest' = rest) := by
  have bytes : path.inner = front.map Prod.fst ++ (wildcard.map Prod.fst ++ rest.map Prod.fst) := by
    rw [← path.map_fst_marks, cut]
    simp
  have sameFlag {i j : Nat} (origin : ∀ x, path.isEscaped x = true →
      ((x < front.length ∨ front.length + wildcard.length ≤ x) ∧
        (if front.length + wildcard.length < x then x + replace.length - wildcard.length
          else x) = i ↔ x = j)) :
      spliced.1.isEscaped i = path.isEscaped j := by
    rw [Bool.eq_iff_iff, splice, isEscaped_splice, Nat.add_sub_cancel_left]
    constructor
    · grind
    · grind
  have behind : path.inner.drop (front.length + wildcard.length) = rest.map Prod.fst := by grind
  have inner : spliced.1.inner = front.map Prod.fst ++ (replace ++ rest.map Prod.fst) := by
    rw [splice, UnescapedRoute.splice, behind, bytes]
    simp
  rw [UnescapedRoute.marks_eq, bytes, mapIdx_append, mapIdx_append] at cut
  obtain ⟨isFront, cut⟩ := append_inj cut (by simp)
  have isRest := (append_inj cut (by simp)).2
  rw [UnescapedRoute.marks_eq, inner, mapIdx_append, mapIdx_append, ← append_assoc]
  refine ⟨by simp [splice, UnescapedRoute.splice, bytes], _,
    congr_arg (· ++ _) (congr_arg₂ (· ++ ·) (Eq.trans ?_ isFront) ?_), fun unshifted => ?_⟩
  · refine mapIdx_eq_mapIdx_iff.mpr fun i inside => congr_arg _ (sameFlag fun x _ => ?_)
    rw [length_map] at inside
    split <;> omega
  · refine mapIdx_eq_iff.mpr fun i => ?_
    rw [List.getElem?_map]
    by_cases inside : i < replace.length
    · have unflagged : spliced.1.isEscaped (i + (front.map Prod.fst).length) = false := by
        rw [← Bool.not_eq_true, splice, isEscaped_splice, length_map]
        rintro ⟨x, -, outside, moved⟩
        split at moved <;> omega
      rw [unflagged]
    · rw [List.getElem?_eq_none (Nat.le_of_not_lt inside)]
      rfl
  · refine Eq.trans (mapIdx_eq_mapIdx_iff.mpr fun i inside => ?_) isRest
    refine congr_arg _ (sameFlag fun x flagged => ?_)
    have atEnd : x = front.length + wildcard.length → wildcard.length = replace.length := by
      rintro rfl
      apply unshifted
      cases rest with
      | nil => cases inside
      | cons head tail =>
        rw [← isRest]
        simpa [Nat.add_comm] using flagged
    simp only [length_map]
    split <;> omega

/-! ## One round of the loop -/

private theorem wildcard_second (cut : path.marks = front ++ (wildcard ++ rest))
    (raw : RawWildcard wildcard) :
    path.inner[front.length + 1]? = wildcard[1]?.map Prod.fst := by
  have long := raw.three_le_length
  have location : (path.marks)[front.length + 1]? = wildcard[1]? := by grind
  rw [← location, UnescapedRoute.getElem?_marks, Option.map_map]
  cases path.inner[front.length + 1]? <;> rfl

private theorem wildcardPiece_of_star (raw : RawWildcard wildcard)
    (starred : wildcard[1]?.map Prod.fst = some star) :
    wildcardPiece (wildcardName wildcard) = .catchAll ((wildcardName wildcard).drop 1) := by
  cases raw with
  | @mk first flag body _ _ _ =>
    have isStar : first = star := by simpa using starred
    simp [wildcardPiece, wildcardName_mk, isStar]

private theorem wildcardPiece_of_not_star (raw : RawWildcard wildcard)
    (unstarred : wildcard[1]?.map Prod.fst ≠ some star) :
    wildcardPiece (wildcardName wildcard) = .param (wildcardName wildcard) := by
  cases raw with
  | @mk first flag body _ _ _ =>
    have notStar : first ≠ star := by simpa using unstarred
    simp [wildcardPiece, wildcardName_mk, notStar]

private theorem length_wildcardName (raw : RawWildcard wildcard) :
    (wildcardName wildcard).length + 2 = wildcard.length := by
  cases raw with
  | @mk first flag body _ _ _ => simp [wildcardName_mk]

variable {next : UInt8}

private theorem isLetter_of_next (lower : 97 ≤ next) (upper : next + 1 ≤ 122) (room : next ≤ 122) :
    IsLetter next ∧ 97 ≤ next + 1 ∧ next + 1 ≤ 122 := by
  refine ⟨⟨lower, room⟩, ?_, upper⟩
  simp only [UInt8.le_iff_toNat_le, UInt8.toNat_add, UInt8.reduceToNat] at *
  omega

def letterMarks (next : UInt8) : List Mark := [openBrace, next, closeBrace].map fun b => (b, false)

private theorem reads_letter (letter : IsLetter next) : Reads (letterMarks next) [.param] :=
  Reads.param letter Reads.nil

private theorem normalizeLoop_round {todo : List Mark} {original : ParamRemapping} {rounds : Nat}
    {result : UnescapedRoute × ParamRemapping} (cut : path.marks = read ++ todo)
    (run : normalizeLoop (rounds + 1) path read.length original next = .ok result) :
    ((∀ mark ∈ todo, Plain mark) ∧ result = (path, original)) ∨
    ∃ initial wildcard rest,
      todo = initial ++ (wildcard ++ rest) ∧
      (∀ mark ∈ initial, Plain mark) ∧
      RawWildcard wildcard ∧
      ((wildcard[1]?.map Prod.fst = some star ∧
          normalizeLoop rounds path
            (read ++ initial ++ wildcard).length original next = .ok result) ∨
        (wildcard[1]?.map Prod.fst ≠ some star ∧ next + 1 ≤ 122 ∧
          ∃ path' rest',
            path'.marks = (read ++ initial ++ letterMarks next) ++ rest' ∧
            ((rest.head?.map Prod.snd = some true → wildcard.length = 3) → rest' = rest) ∧
            normalizeLoop rounds path' (read ++ initial ++ letterMarks next).length
              (original ++ [wildcardName wildcard]) (next + 1) = .ok result)) := by
  have slice : (path.asRef.sliceOff read.length).marks = todo := by simp [cut]
  simp only [normalizeLoop, findWildcard, slice] at run
  cases search : findWildcardFrom todo 0 with
  | err | panic => simp [search] at run
  | ok found =>
    rcases findWildcardFrom_ok search with
      ⟨rfl, plain⟩ | ⟨initial, wildcard, rest, split, plain, raw, rfl⟩
    · simp_all
    · right
      refine ⟨initial, wildcard, rest, split, plain, raw, ?_⟩
      rw [split, ← append_assoc] at cut
      have long := raw.three_le_length
      have wide : ¬ (0 + initial.length + wildcard.length +
          read.length - (0 + initial.length + read.length) < 2) := by
        omega
      have startEq : 0 + initial.length + read.length = (read ++ initial).length := by grind
      have stopEq : 0 + initial.length + wildcard.length + read.length =
          (read ++ initial).length + wildcard.length := by
        rw [length_append]
        omega
      simp only [search, if_neg wide] at run
      rw [startEq, stopEq, wildcard_second cut raw] at run
      split at run
      · grind
      · rename_i unstarred
        split at run
        · rename_i room
          obtain ⟨removed, rest', spliced, same⟩ :=
            @splice_wildcard _ _ _ _ cut [openBrace, next, closeBrace] long _ rfl
          refine Or.inr ⟨unstarred, room, _, rest', spliced, same, ?_⟩
          rw [@length_append _ (read ++ initial) (letterMarks next), wildcardName, ← removed]
          exact run
        · cases run

/-! ## Names and flags -/

def FlagsOnBraces (marks : List Mark) : Prop :=
  ∀ mark ∈ marks, mark.2 = true → mark.1 = openBrace ∨ mark.1 = closeBrace

theorem FlagsOnBraces.append {first second : List Mark}
    (onFirst : FlagsOnBraces first) (onSecond : FlagsOnBraces second) :
    FlagsOnBraces (first ++ second) :=
  forall_mem_append.mpr ⟨onFirst, onSecond⟩

theorem FlagsOnBraces.of_append
    {first second : List Mark} (both : FlagsOnBraces (first ++ second)) :
    FlagsOnBraces first ∧ FlagsOnBraces second :=
  ⟨fun mark member => both mark (mem_append_left second member),
    fun mark member => both mark (mem_append_right first member)⟩

private theorem flagsOnBraces_letter (next : UInt8) : FlagsOnBraces (letterMarks next) := by
  intro mark member flagged
  simp only [letterMarks, map_cons, map_nil, mem_cons, not_mem_nil, or_false] at member
  rcases member with rfl | rfl | rfl <;> cases flagged

private theorem unescapeFrom_escaped (text : Bytes) (k i : Nat)
    (member : i ∈ (UnescapedRoute.unescapeFrom text k).2) :
    k ≤ i ∧
      ((UnescapedRoute.unescapeFrom text k).1[i - k]? = some openBrace ∨
        (UnescapedRoute.unescapeFrom text k).1[i - k]? = some closeBrace) := by
  fun_induction UnescapedRoute.unescapeFrom text k with
  | case1 | case2 => cases member
  | case3 c d rest k doubled tail ih => grind
  | case4 c d rest k _ tail ih => grind

theorem flagsOnBraces_new (text : Bytes) : FlagsOnBraces (UnescapedRoute.new text).marks := by
  intro mark member flagged
  obtain ⟨i, located⟩ := mem_iff_getElem?.mp member
  rw [UnescapedRoute.getElem?_marks] at located
  obtain ⟨b, atByte, rfl⟩ := Option.map_eq_some_iff.mp located
  have escaped : i ∈ (UnescapedRoute.unescapeFrom text 0).2 := by
    simpa [UnescapedRoute.isEscaped, UnescapedRoute.new] using flagged
  have brace := (unescapeFrom_escaped text 0 i escaped).2
  have atByte' : (UnescapedRoute.unescapeFrom text 0).1[i]? = some b := atByte
  simpa [atByte'] using brace

def Piece.IsBrace : Piece → Bool
  | .byte b => b = openBrace || b = closeBrace
  | _ => false

/-- No literal brace directly follows a parameter whose name is longer than
one byte: there the flag of the brace survives the normalization. -/
def Unshifted : List Piece → Bool
  | [] => true
  | .param name :: rest => (!(rest.head?.any Piece.IsBrace) || name.length = 1) && Unshifted rest
  | _ :: rest => Unshifted rest

private theorem unshifted_bytes_append (bytes : Bytes) (rest : List Piece) :
    Unshifted (bytes.map Piece.byte ++ rest) = Unshifted rest := by
  induction bytes with
  | nil => rfl
  | cons b tail ih => simpa [Unshifted] using ih

private theorem paramNames_bytes_append (bytes : Bytes) (rest : List Piece) :
    paramNames (bytes.map Piece.byte ++ rest) = paramNames rest := by
  induction bytes with
  | nil => rfl
  | cons b tail ih => simpa [paramNames] using ih

private theorem tokens_bytes_append (bytes : Bytes) (rest : List Piece) :
    tokens (bytes.map Piece.byte ++ rest) =
      bytes.map Token.byte ++ tokens rest := by
  simp [tokens, Piece.token]

variable {pieces : List Piece}

private theorem head_isBrace_of_flagged (flags : FlagsOnBraces rest)
    (reading : readOutside rest = some pieces) (flagged : rest.head?.map Prod.snd = some true) :
    pieces.head?.any Piece.IsBrace = true := by
  cases rest with
  | nil => simp at flagged
  | cons mark tail =>
    obtain ⟨c, escaped⟩ := mark
    have isFlagged : escaped = true := by simpa using flagged
    subst isFlagged
    rw [readOutside_cons_plain (by simp [Plain])] at reading
    obtain ⟨tailPieces, _, rfl⟩ := Option.map_eq_some_iff.mp reading
    have brace := flags (c, true) mem_cons_self rfl
    simpa [Piece.IsBrace] using brace

private theorem readOutside_split (plain : ∀ mark ∈ initial, Plain mark)
    (raw : RawWildcard wildcard) (reading :
      readOutside (initial ++ (wildcard ++ rest)) = some pieces) :
    ∃ restPieces,
      readOutside rest = some restPieces ∧
      pieces = (initial.map Prod.fst).map Piece.byte ++
        wildcardPiece (wildcardName wildcard) :: restPieces := by
  rw [readOutside_plain_append plain, readOutside_wildcard raw,
    Option.map_map, Option.map_eq_some_iff] at reading
  obtain ⟨restPieces, restReading, rfl⟩ := reading
  exact ⟨restPieces, restReading, by simp [Function.comp_def]⟩

/-! ## The whole loop -/

private theorem reads_initial {readTokens : List Token}
    (reads : Reads read readTokens) (plain : ∀ mark ∈ initial, Plain mark) :
    Reads (read ++ initial) (readTokens ++ (initial.map Prod.fst).map Token.byte) := by
  have plainReads := Reads.of_plain plain
  rw [map_map]
  exact reads.append plainReads

variable {remapping : ParamRemapping}

private theorem normalizeLoop_reads :
    ∀ (rounds : Nat) {path : UnescapedRoute} {read todo : List Mark}
      {readTokens : List Token} {original : ParamRemapping} {next : UInt8},
      path.marks = read ++ todo →
      Reads read readTokens →
      original.length = paramCount readTokens →
      97 ≤ next → next ≤ 122 →
      normalizeLoop rounds path read.length original next = .ok (route, remapping) →
      ∃ routeTokens,
        Reads route.marks routeTokens ∧
        remapping.length = paramCount routeTokens ∧
        ∀ {pieces : List Piece}, FlagsOnBraces (read ++ todo) →
          readOutside todo = some pieces → Unshifted pieces = true →
          routeTokens = readTokens ++ tokens pieces ∧
            remapping = original ++ paramNames pieces ∧
            FlagsOnBraces route.marks
  | 0, _, _, _, _, _, _, _, _, _, _, _, run => by simp [normalizeLoop] at run
  | rounds + 1, path, read, todo, readTokens, original, next,
      cut, reads, counted, lower, upper, run => by
      rcases normalizeLoop_round cut run with
        ⟨plain, finished⟩ | ⟨initial, wildcard, rest, rfl, plain, raw,
          ⟨starred, continued⟩ | ⟨unstarred, room, path', rest', cut', same, continued⟩⟩
      · injection finished with sameRoute sameNames
        subst sameRoute sameNames
        refine ⟨_, cut ▸ reads_initial reads plain, by simp [counted, -map_map], ?_⟩
        intro pieces flags reading _
        have piecesEq : pieces = (todo.map Prod.fst).map Piece.byte := by
          have plainReading := readOutside_plain_append plain []
          rw [append_nil, reading] at plainReading
          simpa [readOutside, Function.comp_def] using plainReading
        have noNames := paramNames_bytes_append (todo.map Prod.fst) []
        have bytes := tokens_bytes_append (todo.map Prod.fst) []
        rw [append_nil] at noNames bytes
        rw [piecesEq, noNames, bytes, cut]
        exact ⟨by simp [tokens], by simp [paramNames], flags⟩
      · have wildReads := (reads_initial reads plain).append (Reads.of_catchAll raw starred)
        have cutBehind : path.marks = read ++ initial ++ wildcard ++ rest := by simpa using cut
        obtain ⟨routeTokens, routeReads, routeCounted, pattern⟩ :=
          normalizeLoop_reads rounds cutBehind wildReads
            (by simp [counted, paramCount, -map_map]) lower upper continued
        refine ⟨routeTokens, routeReads, routeCounted, ?_⟩
        intro pieces flags reading unshifted
        obtain ⟨restPieces, restReading, rfl⟩ := readOutside_split plain raw reading
        rw [unshifted_bytes_append, wildcardPiece_of_star raw starred] at unshifted
        rw [paramNames_bytes_append, tokens_bytes_append, wildcardPiece_of_star raw starred]
        have result := pattern (by simpa [append_assoc] using flags) restReading unshifted
        simpa [tokens, Piece.token, paramNames, append_assoc] using result
      · obtain ⟨letter, nextLower, nextUpper⟩ := isLetter_of_next lower room upper
        have letterReads := (reads_initial reads plain).append (reads_letter letter)
        obtain ⟨routeTokens, routeReads, routeCounted, pattern⟩ :=
          normalizeLoop_reads rounds cut' letterReads
            (by simp [counted, paramCount, -map_map]) nextLower nextUpper continued
        refine ⟨routeTokens, routeReads, routeCounted, ?_⟩
        intro pieces flags reading unshifted
        obtain ⟨restPieces, restReading, rfl⟩ := readOutside_split plain raw reading
        rw [unshifted_bytes_append, wildcardPiece_of_not_star raw unstarred] at unshifted
        rw [paramNames_bytes_append, tokens_bytes_append, wildcardPiece_of_not_star raw unstarred]
        simp only [Unshifted, Bool.and_eq_true, Bool.or_eq_true,
          Bool.not_eq_true', decide_eq_true_eq] at unshifted
        have restFlags : FlagsOnBraces rest := flags.of_append.2.of_append.2.of_append.2
        have restEq : rest' = rest := by
          apply same
          intro flagged
          have follows := head_isBrace_of_flagged restFlags restReading flagged
          have short : (wildcardName wildcard).length = 1 := by simp_all
          have width := length_wildcardName raw
          omega
        subst restEq
        have newFlags : FlagsOnBraces ((read ++ initial ++ letterMarks next) ++ rest') :=
          ((flags.of_append.1.append
            flags.of_append.2.of_append.1).append (flagsOnBraces_letter next)).append restFlags
        have result := pattern newFlags restReading unshifted.2
        simpa [tokens, Piece.token, paramNames, append_assoc] using result

/-- Every normalized route reads as tokens, and has one name for each of its
parameters. -/
theorem normalizeParams_reads (run : normalizeParams path = .ok (route, remapping)) :
    ∃ routeTokens,
      Reads route.marks routeTokens ∧
      remapping.length = paramCount routeTokens := by
  have nothingRead : path.marks = [] ++ path.marks := rfl
  obtain ⟨routeTokens, reads, counted, -⟩ := normalizeLoop_reads (path.inner.length + 1)
    nothingRead Reads.nil rfl (by decide) (by decide) run
  exact ⟨routeTokens, reads, counted⟩

/-- The normalized route of a pattern without a shifted flag has the tokens of
the pattern, and its names are stored in order. -/
theorem normalizeParams_pattern {text : Bytes}
    (reading : readPattern text = some pieces) (unshifted : Unshifted pieces = true)
    (run : normalizeParams (UnescapedRoute.new text) = .ok (route, remapping)) :
    Reads route.marks (tokens pieces) ∧
    remapping = paramNames pieces ∧
    FlagsOnBraces route.marks := by
  have nothingRead : (UnescapedRoute.new text).marks = [] ++ (UnescapedRoute.new text).marks := rfl
  obtain ⟨routeTokens, reads, -, pattern⟩ :=
    normalizeLoop_reads ((UnescapedRoute.new text).inner.length + 1)
      nothingRead Reads.nil rfl (by decide) (by decide) run
  obtain ⟨rfl, result⟩ := pattern (flagsOnBraces_new text) reading unshifted
  exact ⟨reads, result⟩

end Ophan.Router
