import Ophan.Glob.Layout

/-!
# The lists the search follows

`Follows` is the language the search accepts for one list of tokens, read off
the branches of the loop: what every token can leave of the input, what is
accepted at the end of the input, and nothing about stacks or tries.  `search`
is the same for a stack of limited height, in the order of the loop.
-/

namespace Ophan.Glob

/-- What a `*` can leave: the tails up to the first slash. -/
def segmentTails : Bytes → List Bytes
  | [] => [[]]
  | b :: rest => if b = slash then [b :: rest] else (b :: rest) :: segmentTails rest

def afterSlashes : Bytes → List Bytes
  | [] => []
  | b :: rest => if b = slash then rest :: afterSlashes rest else afterSlashes rest

/-- What an alternative leaves. -/
def leave (option input : Bytes) : Option Bytes :=
  if option.isPrefixOf input then some (input.drop option.length) else none

namespace Tok

def isDeep : Tok → Bool
  | deepWildcard => true
  | deepWildcardDir => true
  | _ => false

def nexts : Tok → Bytes → List Bytes
  | literal text, input => (leave text input).toList
  | wildcard, input => segmentTails input
  | deepWildcard, input => input :: afterSlashes input
  | deepWildcardDir, input => input :: afterSlashes input
  | anyChar, input =>
    match input with
    | [] => []
    | b :: rest => if b ≠ slash then [rest] else []
  | charClass bitmap negated, input =>
    match input with
    | [] => []
    | b :: rest => if testBit bitmap b ≠ negated then [rest] else []
  | group options, input => options.filterMap fun option => leave option input

def width : Tok → Nat
  | group options => options.length
  | _ => 1

def Proper : Tok → Prop
  | group options => [] ∉ options
  | _ => True

end Tok

def Follows : List Tok → Bytes → Prop
  | [], _ => False
  | tok :: rest, [] => tok.isDeep = true ∨ tok = .wildcard ∧ rest = []
  | tok :: rest, b :: input =>
    tok.isDeep = true ∧ rest = [] ∨
      ∃ next ∈ tok.nexts (b :: input), next = [] ∧ rest = [] ∨ Follows rest next

/-- The frames a list of tokens can need above its first one. -/
def weight : List Tok → Nat
  | [] => 0
  | [_] => 0
  | tok :: rest => tok.width + weight rest

theorem weight_cons {tok : Tok} {rest : List Tok} (nonempty : rest ≠ []) :
    weight (tok :: rest) = tok.width + weight rest := by
  cases rest with
  | nil => exact absurd rfl nonempty
  | cons next rest => rfl

/-- How a search ends: with a match, with nothing left to try, or on a full stack. -/
inductive Verdict where
  | found
  | left
  | full
  deriving DecidableEq, Repr

/-- A search that has nothing left goes on with another. -/
def Verdict.orElse : Verdict → Verdict → Verdict
  | .left, other => other
  | verdict, _ => verdict

def tryEach (attempt : Bytes → Verdict) : List Bytes → Verdict
  | [] => .left
  | next :: rest => (attempt next).orElse (tryEach attempt rest)

/-- The frames of several tails stand on each other, the first one on top. -/
def tryFrames (attempt : Nat → Bytes → Verdict) (height : Nat) :
    List Bytes → Verdict
  | [] => .left
  | next :: rest => (attempt (height + rest.length + 1) next).orElse (tryFrames attempt height rest)

/-- The frames for what a token leaves: a group pushes all of them in one turn, any other
token comes back to its own frame after each. -/
def Tok.tryTails (tok : Tok) (attempt : Nat → Bytes → Verdict) (height : Nat)
    (tails : List Bytes) : Verdict :=
  match tok with
  | group _ =>
    if tails ≠ [] ∧ height + tails.length > maxStackDepth then .full
    else tryFrames attempt height tails
  | _ =>
    tryEach (fun next => if height ≥ maxStackDepth then .full else attempt (height + 1) next) tails

/-- The search for one list of tokens, by a frame that makes the stack so high. -/
def search : List Tok → Nat → Bytes → Verdict
  | [], _, _ => .left
  | tok :: rest, _, [] => if tok.isDeep = true ∨ tok = .wildcard ∧ rest = [] then .found else .left
  | tok :: rest, height, b :: input =>
    if rest = [] then
      if tok.isDeep = true ∨ [] ∈ tok.nexts (b :: input) then .found else .left
    else tok.tryTails (search rest) height (tok.nexts (b :: input))

theorem tryEach_spec (attempt : Bytes → Verdict) (tails : List Bytes) :
    match tryEach attempt tails with
    | .left => ∀ next ∈ tails, attempt next = .left
    | verdict => ∃ next ∈ tails, attempt next = verdict := by
  induction tails with
  | nil => simp [tryEach]
  | cons next rest ih =>
    rw [tryEach]
    cases first : attempt next with
    | found | full => exact ⟨next, List.mem_cons_self, first⟩
    | left =>
      simp only [Verdict.orElse]
      grind

theorem tryFrames_spec (attempt : Nat → Bytes → Verdict) (height : Nat) (tails : List Bytes) :
    match tryFrames attempt height tails with
    | .left => ∀ next ∈ tails, ∃ higher, attempt higher next = .left
    | verdict =>
      ∃ next ∈ tails, ∃ higher ≤ height + tails.length, attempt higher next = verdict := by
  induction tails with
  | nil => simp [tryFrames]
  | cons next rest ih =>
    rw [tryFrames]
    cases first : attempt (height + rest.length + 1) next with
    | found | full => exact ⟨next, List.mem_cons_self, _, Nat.le_refl _, first⟩
    | left =>
      simp only [Verdict.orElse]
      grind

theorem Tok.tryTails_spec (tok : Tok) (attempt : Nat → Bytes → Verdict) (height : Nat)
    (input : Bytes) :
    match tok.tryTails attempt height (tok.nexts input) with
    | .found => ∃ next ∈ tok.nexts input, ∃ higher, attempt higher next = .found
    | .left => ∀ next ∈ tok.nexts input, ∃ higher, attempt higher next = .left
    | .full => maxStackDepth < height + tok.width ∨
        ∃ next, ∃ higher ≤ height + tok.width, attempt higher next = .full := by
  cases tok with
  | group options =>
    have fewer := List.length_filterMap_le (leave · input) options
    have spec := tryFrames_spec attempt height (options.filterMap (leave · input))
    simp only [tryTails, nexts, width]
    grind
  | _ =>
    have spec := tryEach_spec
      (fun next => if height ≥ maxStackDepth then .full else attempt (height + 1) next)
    simp only [tryTails, width]
    grind

theorem follows_cons {tok : Tok} {rest : List Tok} (nonempty : rest ≠ []) (b : UInt8)
    (input : Bytes) :
    Follows (tok :: rest) (b :: input) ↔
      ∃ next ∈ tok.nexts (b :: input), Follows rest next := by
  simp [Follows, nonempty]

/-- Up to the height of the stack, the search for a list accepts what the list follows. -/
theorem search_spec (tokens : List Tok) (height : Nat) (input : Bytes) :
    match search tokens height input with
    | .found => Follows tokens input
    | .left => ¬ Follows tokens input
    | .full => maxStackDepth < height + weight tokens := by
  induction tokens generalizing height input with
  | nil => simp [search, Follows]
  | cons tok rest ih =>
    cases input with
    | nil =>
      by_cases accepts : tok.isDeep = true ∨ tok = .wildcard ∧ rest = [] <;>
        simp [search, accepts, Follows]
    | cons b input =>
      by_cases last : rest = []
      · by_cases accepts : tok.isDeep = true ∨ [] ∈ tok.nexts (b :: input) <;>
          simp [search, last, accepts, Follows]
      · rw [follows_cons last, weight_cons last, search, if_neg last]
        have spec := tok.tryTails_spec (search rest) height (b :: input)
        cases verdict : tok.tryTails (search rest) height (tok.nexts (b :: input)) <;> grind

section Tails

theorem length_segmentTails (input : Bytes) : (segmentTails input).length ≤ input.length + 1 := by
  induction input with
  | nil => simp [segmentTails]
  | cons b rest ih =>
    by_cases isSlash : b = slash
    · simp [segmentTails, isSlash]
    · simpa [segmentTails, isSlash] using ih

variable {input : Bytes}

/-- The test of the loop on an offset it can reach. -/
theorem segmentTails_getElem? {offset : Nat} (reached : offset ≤ (segmentTails input).length) :
    (segmentTails input)[offset]? =
      if offset ≤ input.length ∧ (offset = 0 ∨ input[offset - 1]? ≠ some slash) then
        some (input.drop offset)
      else none := by
  induction input generalizing offset with
  | nil =>
    rcases offset with _ | _ | offset
    · simp [segmentTails]
    · simp [segmentTails]
    · simp [segmentTails] at reached
  | cons b rest ih =>
    by_cases isSlash : b = slash
    · rcases offset with _ | _ | offset
      · simp [segmentTails, isSlash]
      · simp [segmentTails, isSlash]
      · simp [segmentTails, isSlash] at reached
    · cases offset with
      | zero => simp [segmentTails, isSlash]
      | succ offset =>
        have below := @ih offset (by simpa [segmentTails, isSlash] using reached)
        simp only [segmentTails, isSlash, if_false,
          List.getElem?_cons_succ, below, List.length_cons,
          List.drop_succ_cons, Nat.add_le_add_iff_right]
        cases offset with
        | zero => simp [isSlash]
        | succ offset => simp

theorem length_afterSlashes (input : Bytes) : (afterSlashes input).length ≤ input.length := by
  induction input with
  | nil => simp [afterSlashes]
  | cons b rest ih =>
    by_cases isSlash : b = slash
    · simpa [afterSlashes, isSlash] using ih
    · simp only [afterSlashes, isSlash, if_false, List.length_cons]
      omega

theorem length_le_of_mem_afterSlashes {next : Bytes} (member : next ∈ input :: afterSlashes input) :
    next.length ≤ input.length := by
  induction input with
  | nil =>
    simp [afterSlashes] at member
    simp [member]
  | cons b rest ih =>
    rcases List.mem_cons.mp member with rfl | behind
    · exact Nat.le_refl _
    · have inRest : next ∈ rest :: afterSlashes rest := by
        by_cases isSlash : b = slash
        · simpa [afterSlashes, isSlash] using behind
        · rw [afterSlashes, if_neg isSlash] at behind
          exact List.mem_cons_of_mem rest behind
      have shorter := ih inRest
      simp only [List.length_cons]
      omega

theorem afterSlashes_eq (input : Bytes) :
    afterSlashes input =
      match afterSlash input with
      | some rest => rest :: afterSlashes rest
      | none => [] := by
  induction input with
  | nil => rfl
  | cons b rest ih =>
    by_cases isSlash : b = slash
    · simp [afterSlashes, afterSlash, isSlash]
    · simpa [afterSlashes, afterSlash, isSlash] using ih

/-- Skipping the slashes already found ends behind the last of them, and the
frame is not moved on. -/
theorem skipDirs_eq {count : Nat}
    (found : count ≤ (afterSlashes input).length) (frame : MatchFrame) :
    ∃ slice, skipDirs count input frame = (slice, frame) ∧
      (input :: afterSlashes input)[count]? = some slice ∧
      afterSlash slice = (input :: afterSlashes input)[count + 1]? := by
  induction count generalizing input with
  | zero =>
    refine ⟨input, rfl, rfl, ?_⟩
    rw [afterSlashes_eq]
    cases afterSlash input with
    | none | some => rfl
  | succ count ih =>
    rw [afterSlashes_eq] at found ⊢
    cases first : afterSlash input with
    | none => simp [first] at found
    | some rest =>
      simp only [first, List.length_cons, Nat.add_le_add_iff_right] at found
      obtain ⟨slice, skipped, atSlice, next⟩ := ih found
      refine ⟨slice, ?_, ?_, ?_⟩
      · simp only [skipDirs, first]
        exact skipped
      · simpa using atSlice
      · simpa using next

end Tails

end Ophan.Glob
