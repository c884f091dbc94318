import Ophan.Router.Segments

/-!
# Hanging a route behind a node

`insert_route` creates the nodes of a new route.  `Hung` says which nodes a
text makes behind the prefix of a node, with one constructor for each way the
source creates them, and an end that says whether the value was stored.  An
error leaves the nodes behind that were created before it.
-/

namespace Ophan.Router

open List

universe u

variable {T : Type u}

namespace Node

def fresh (pfx : UnescapedRoute) : Node T := { empty with priority := 1, pfx := pfx }

def addWild (node child : Node T) : Node T :=
  { node with wildChild := true, children := node.children ++ [child] }

inductive Hung (names : ParamRemapping) (val : T) :
    Node T → List Mark → Node T → Bool → Prop
  | value {node : Node T} :
      node.value = none →
      Hung names val node [] { node with value := some val, remapping := names } true
  | refused {node : Node T} {marks : List Mark} :
      Irregular marks →
      Hung names val node marks node false
  | static {node child : Node T} {pfx : UnescapedRoute} {b : UInt8}
      {bytes : Bytes} {marks : List Mark} {stored : Bool} :
      node.children = [] → node.indices = [] → node.wildChild = false →
      pfx.inner = b :: bytes → (∀ mark ∈ pfx.marks, Plain mark) →
      Hung names val (fresh pfx) marks child stored →
      Hung names val node (pfx.marks ++ marks)
        { node with indices := [b], children := [child] } stored
  | staticRefused {node : Node T} {mark : Mark} {marks : List Mark} :
      node.children = [] → node.indices = [] → node.wildChild = false →
      Plain mark → Irregular (mark :: marks) →
      Hung names val node (mark :: marks)
        { node with
          indices := [mark.1], children := [fresh UnescapedRoute.empty] } false
  | catchAll {node : Node T} {pfx : UnescapedRoute} {flag : Bool}
      {name : List Mark} :
      node.wildChild = false →
      CatchAllName name → pfx.marks = catchAllMarks flag name →
      Hung names val node pfx.marks
        (node.addWild { fresh pfx with
          nodeType := .catchAll, value := some val, remapping := names }) true
  | param {node : Node T} {pfx : UnescapedRoute} {c : UInt8} :
      node.wildChild = false → IsLetter c → pfx.marks = letterMarks c →
      Hung names val node pfx.marks
        (node.addWild { fresh pfx with
          nodeType := .param false, value := some val,
          remapping := names }) true
  | suffix {node below : Node T} {pfx suffix : UnescapedRoute} {c : UInt8}
      {marks : List Mark} {stored : Bool} :
      node.wildChild = false → IsLetter c → pfx.marks = letterMarks c →
      suffix.inner ≠ [] → (∀ mark ∈ suffix.marks, Plain mark) →
      IsSegment suffix.inner (marks.map Prod.fst) →
      Hung names val (fresh suffix) marks below stored →
      Hung names val node (pfx.marks ++ (suffix.marks ++ marks))
        (node.addWild { fresh pfx with
          nodeType := .param (!emptyOrSlash suffix.inner),
          children := [below] }) stored

/-- The result of `insert_route`: the text behind the plain start of the route
is hung behind a node with that start as its prefix. -/
inductive Planted (names : ParamRemapping) (val : T) :
    Node T → List Mark → Node T → Bool → Prop
  | refused {node : Node T} {marks : List Mark} :
      Irregular marks →
      Planted names val node marks node false
  | wild {node changed : Node T} {marks : List Mark} {stored : Bool} :
      marks.head? = some (openBrace, false) →
      Hung names val node marks changed stored →
      Planted names val node marks changed stored
  | static {node changed : Node T} {pfx : UnescapedRoute} {marks : List Mark}
      {stored : Bool} :
      (marks = [] ∨ pfx.inner ≠ []) → (∀ mark ∈ pfx.marks, Plain mark) →
      Hung names val { node with pfx := pfx } marks changed stored →
      Planted names val node (pfx.marks ++ marks) changed stored

section Plant

variable {names : ParamRemapping} {val : T}

variable {node : Node T} {marks initial rest : List Mark} {stored : Bool}

theorem Planted.hung_wild {changed : Node T} (planted : Planted names val node marks changed stored)
    (starts : marks.head? = some (openBrace, false)) :
    Hung names val node marks changed stored := by
  cases planted with
  | refused irregular => exact Hung.refused irregular
  | wild _ hung => exact hung
  | @static _ pfx marks _ nonempty plain hung =>
    exfalso
    cases cut : pfx.marks with
    | nil =>
      rcases nonempty with rfl | someBytes
      · simp [cut] at starts
      · exact someBytes (pfx.marks_eq_nil_iff.mp cut)
    | cons mark rest =>
      have headPlain := plain mark (by simp [cut])
      rw [cut, cons_append, List.head?_cons, Option.some.injEq] at starts
      rw [starts] at headPlain
      exact not_plain_openBrace headPlain

/-- A route that begins with a plain byte is refused, or the node takes its plain start
as a prefix. -/
theorem Planted.of_plain {changed : Node T} {mark : Mark}
    (planted : Planted names val node (mark :: marks) changed stored) (plain : Plain mark) :
    (Irregular (mark :: marks) ∧ changed = node ∧ stored = false) ∨
      ∃ pfx bytes rest, pfx.inner = mark.1 :: bytes ∧ (∀ other ∈ pfx.marks, Plain other) ∧
        mark :: marks = pfx.marks ++ rest ∧
        Hung names val { node with pfx := pfx } rest changed stored := by
  generalize whole : mark :: marks = route at planted
  cases planted with
  | refused irregular => exact Or.inl ⟨irregular, rfl, rfl⟩
  | wild starts _ =>
    rw [← whole, List.head?_cons, Option.some.injEq] at starts
    rw [starts] at plain
    exact absurd plain not_plain_openBrace
  | @static _ pfx rest _ nonempty allPlain hung =>
    cases bytes : pfx.inner with
    | nil =>
      rcases nonempty with rfl | someBytes
      · simp [pfx.marks_eq_nil_iff.mpr bytes] at whole
      · exact absurd bytes someBytes
    | cons b tail =>
      have heads := congrArg (fun list => (list.map Prod.fst).head?) whole
      simp only [map_append, pfx.map_fst_marks, bytes, map_cons, List.head?_cons, cons_append,
        Option.some.injEq] at heads
      exact Or.inr ⟨pfx, tail, rest, by rw [bytes, heads], allPlain, rfl, hung⟩

theorem Planted.hung_static {child : Node T} {mark : Mark} (planted :
      Planted names val (fresh UnescapedRoute.empty) (mark :: marks) child stored)
    (plain : Plain mark) (noChildren : node.children = [])
    (noIndices : node.indices = []) (noWild : node.wildChild = false) :
    Hung names val node (mark :: marks)
      { node with indices := [mark.1], children := [child] } stored := by
  rcases planted.of_plain plain with
    ⟨irregular, rfl, rfl⟩ | ⟨pfx, bytes, rest, first, allPlain, cut, hung⟩
  · exact Hung.staticRefused noChildren noIndices noWild plain irregular
  · rw [cut]
    exact Hung.static noChildren noIndices noWild first allPlain hung

/-! ## Hanging a route -/

/-- What `insert_route` and the walk hang behind a suffix or a parameter. -/
def hang (names : ParamRemapping) (val : T) (rounds : Nat) (last : Node T) (rest : UnescapedRef) :
    Node T × Outcome InsertError Unit :=
  match rest.inner with
  | [] => ({ last with value := some val, remapping := names }, .ok ())
  | next :: _ =>
    if startsWildcard rest then
      insertRoute names val rounds last rest
    else
      let child := insertRoute names val rounds (fresh UnescapedRoute.empty) rest
      ({ (last.addChild child.1).1 with indices := last.indices ++ [next] }, child.2)

theorem startsWildcard_eq (slice : UnescapedRef) :
    startsWildcard slice = decide (slice.marks.head? = some (openBrace, false)) := by
  rw [startsWildcard, List.head?_eq_getElem?, List.head?_eq_getElem?, slice.getElem?_marks]
  cases slice.inner[0]? with
  | none => simp
  | some b => simp [Bool.decide_and]

def Plants (names : ParamRemapping) (val : T) (rounds : Nat) : Prop :=
  ∀ (node : Node T) (route : UnescapedRef),
    Readable route.marks → route.inner.length < rounds →
    node.wildChild = false →
    (node.value = none ∨ route.marks.head? = some (openBrace, false)) →
    Planted names val node route.marks (insertRoute names val rounds node route).1
      (insertRoute names val rounds node route).2.isOk

variable {rounds : Nat}

theorem hang_hung (plants : Plants names val rounds)
    {last : Node T} {rest : UnescapedRef} (readable : Readable rest.marks)
    (short : rest.inner.length < rounds)
    (noChildren : last.children = []) (noIndices : last.indices = [])
    (noWild : last.wildChild = false) (noValue : last.value = none) :
    Hung names val last rest.marks (hang names val rounds last rest).1
      (hang names val rounds last rest).2.isOk := by
  rw [hang]
  cases bytes : rest.inner with
  | nil =>
    rw [rest.marks_eq_nil_iff.mpr bytes]
    exact Hung.value noValue
  | cons next tail =>
    simp only
    by_cases starts : rest.marks.head? = some (openBrace, false)
    · rw [if_pos (by rw [startsWildcard_eq]; exact decide_eq_true starts)]
      exact (plants last rest readable short noWild (Or.inr starts)).hung_wild starts
    · rw [if_neg (by rw [startsWildcard_eq]; simpa using starts)]
      obtain ⟨mark, marks, cut⟩ : ∃ mark marks, rest.marks = mark :: marks := by
        apply exists_cons_of_ne_nil
        intro noMarks
        simp [rest.marks_eq_nil_iff, bytes] at noMarks
      have plain : Plain mark := by
        have first := readable
        rw [cut] at first
        rcases first.cases_cons with
          ⟨plain, _⟩ | ⟨wildcard, behind, wildcardCut, isWildcard, _⟩
        · exact plain
        · exfalso
          apply starts
          rw [cut, wildcardCut]
          exact isWildcard.head behind
      have isNext : mark.1 = next := by
        have firsts := congrArg List.head? rest.map_fst_marks
        simp_all
      have planted := plants (fresh UnescapedRoute.empty) rest readable short rfl (Or.inl rfl)
      rw [cut] at planted ⊢
      have hung := planted.hung_static plain noChildren noIndices noWild
      simpa [addChild, noChildren, noIndices, noWild, isNext] using hung

/-- The prefix of a node is replaced by the plain start of a route, unless a
wildcard comes first. -/
private def withStart (node : Node T) (start : UnescapedRoute) : Node T :=
  if start.inner = [] then node else { node with pfx := start }

private theorem planted_withStart {changed : Node T} {start : UnescapedRoute}
    (plain : ∀ mark ∈ start.marks, Plain mark) (starts : marks.head? = some (openBrace, false))
    (hung : Hung names val (withStart node start) marks changed stored) :
    Planted names val node (start.marks ++ marks) changed stored := by
  by_cases noBytes : start.inner = []
  · rw [withStart, if_pos noBytes] at hung
    rw [start.marks_eq_nil_iff.mpr noBytes]
    exact Planted.wild starts hung
  · rw [withStart, if_neg noBytes] at hung
    exact Planted.static (Or.inr noBytes) plain hung

@[simp]
private theorem withStart_wildChild (node : Node T) (start : UnescapedRoute) :
    (withStart node start).wildChild = node.wildChild := by
  rw [withStart]
  split <;> rfl

private theorem addChild_eq_addWild {child : Node T} (noWild : node.wildChild = false) :
    { (node.addChild child).1 with wildChild := true } = node.addWild child := by
  simp [addChild, addWild, noWild]

variable {route : UnescapedRef}

theorem findWildcard_cut {wildcard : List Mark} (cut : route.marks = initial ++ (wildcard ++ rest))
    (plain : ∀ mark ∈ initial, Plain mark) (isWildcard : IsWildcard wildcard) :
    findWildcard route = .ok (some (initial.length, initial.length + wildcard.length)) := by
  rw [findWildcard, cut, findWildcardFrom_plain_append plain,
    findWildcardFrom_wildcard isWildcard.raw]
  simp

private theorem withStart_sliceUntil (node : Node T) (route : UnescapedRef)
    {behind : List Mark} (cut : route.marks = initial ++ behind) :
    (if 0 < initial.length then
        { node with pfx := (route.sliceUntil initial.length).toOwned }
      else node) =
      withStart node (route.sliceUntil initial.length).toOwned := by
  have sameLength : route.inner.length = initial.length + behind.length := by
    rw [← route.length_marks, cut, length_append]
  have startLength : (route.sliceUntil initial.length).toOwned.inner.length = initial.length := by
    simp only [UnescapedRef.inner_toOwned, UnescapedRef.inner_sliceUntil, length_take]
    omega
  rw [withStart]
  by_cases nothing : initial.length = 0
  · simp_all
  · grind

private theorem insertRoute_catchAll {flag : Bool} {name : List Mark}
    (cut : route.marks = initial ++ (catchAllMarks flag name ++ rest))
    (plain : ∀ mark ∈ initial, Plain mark) (named : CatchAllName name)
    (noWild : node.wildChild = false) :
    Planted names val node route.marks
      (insertRoute names val (rounds + 1) node route).1
      (insertRoute names val (rounds + 1) node route).2.isOk := by
  have found := findWildcard_cut cut plain (IsWildcard.catchAll named)
  have starred : route.inner[initial.length + 1]? = some star := by
    rw [← route.map_fst_marks, cut]
    simp [catchAllMarks]
  rw [insertRoute, found]
  simp only [starred, if_true]
  have sameLength := congrArg List.length cut
  rw [route.length_marks, length_append, length_append] at sameLength
  split
  · rename_i inside
    have more : rest ≠ [] := by simp_all
    rw [cut]
    exact Planted.refused (irregular_catchAll plain named more)
  · rename_i atEnd
    have noRest : rest = [] := by simp_all
    subst noRest
    rw [append_nil] at cut
    have wildcardMarks :
        (route.sliceOff initial.length).toOwned.marks = catchAllMarks flag name := by
      simp [cut]
    have startMarks : (route.sliceUntil initial.length).toOwned.marks = initial := by simp [cut]
    rw [withStart_sliceUntil node route cut,
      addChild_eq_addWild (by rw [withStart_wildChild, noWild])]
    have hung :
        Hung names val (withStart node (route.sliceUntil initial.length).toOwned)
          (route.sliceOff initial.length).toOwned.marks _ true :=
      Hung.catchAll (by rw [withStart_wildChild, noWild]) named wildcardMarks
    rw [wildcardMarks] at hung
    have planted := planted_withStart (by rw [startMarks]; exact plain) rfl hung
    rw [startMarks, ← cut] at planted
    exact planted

variable {c : UInt8}

private theorem param_slices
    (cut : route.marks = initial ++ (letterMarks c ++ rest)) (letter : IsLetter c) :
    let behind := route.sliceOff initial.length
    let terminator := terminatorOf behind.inner
    let width := initial.length + (letterMarks c).length - initial.length
    (behind.sliceUntil width).marks = letterMarks c ∧
    ((behind.sliceUntil terminator).sliceOff width).marks =
      rest.take (terminatorOf (rest.map Prod.fst)) ∧
    (behind.sliceOff terminator).marks = rest.drop (terminatorOf (rest.map Prod.fst)) := by
  intro behind terminator width
  have behindMarks : behind.marks = letterMarks c ++ rest := by simp [behind, cut]
  have isWidth : width = (letterMarks c).length := by simp [width]
  have noSlash := (IsWildcard.param letter).slash_not_mem
  have isTerminator : terminator = (letterMarks c).length + terminatorOf (rest.map Prod.fst) := by
    have bytes : behind.inner = (letterMarks c ++ rest).map Prod.fst := by
      rw [← behindMarks, behind.map_fst_marks]
    simp only [terminator, bytes]
    rw [map_append, terminatorOf_append _ noSlash, length_map]
  refine ⟨?_, ?_, ?_⟩
  · rw [UnescapedRef.marks_sliceUntil, behindMarks, isWidth, take_left]
  · rw [UnescapedRef.marks_sliceOff, UnescapedRef.marks_sliceUntil,
      behindMarks, isWidth, isTerminator, take_length_add_append,
      drop_left]
  · rw [UnescapedRef.marks_sliceOff, behindMarks, isTerminator, drop_length_add_append]

theorem plain_of_not_hasWildcard {slice : UnescapedRef}
    (readable : Readable slice.marks) (without : hasWildcard slice = false) :
    ∀ mark ∈ slice.marks, Plain mark := by
  rcases readable.first with
    plain | ⟨initial, wildcard, rest, cut, plain, isWildcard, _⟩
  · exact plain
  · simp [hasWildcard, findWildcard_cut cut plain isWildcard] at without

/-- What `insert_route` does at the first parameter of a route. -/
private def plantParam (names : ParamRemapping) (val : T) (rounds : Nat)
    (start : Node T) (wildcard suffix rest : UnescapedRef) :
    Node T × Outcome InsertError Unit :=
  if hasWildcard suffix then
    (start, .err .invalidParamSegment)
  else
    let param : Node T :=
      { fresh wildcard.toOwned with
        nodeType := .param (!emptyOrSlash suffix.inner) }
    let last : Node T := if suffix.inner = [] then param else fresh suffix.toOwned
    let below := hang names val rounds last rest
    let child : Node T := if suffix.inner = [] then below.1 else param.addSuffixChild below.1
    ({ (start.addChild child).1 with wildChild := true }, below.2)

private theorem plantParam_hung (plants : Plants names val rounds) {start : Node T}
    {wildcard suffix rest : UnescapedRef} (noWild : start.wildChild = false) (letter : IsLetter c)
    (wildcardMarks : wildcard.marks = letterMarks c)
    (suffixReadable : Readable suffix.marks) (restReadable : Readable rest.marks)
    (segment : IsSegment suffix.inner rest.inner) (short : rest.inner.length < rounds) :
    Hung names val start (wildcard.marks ++ (suffix.marks ++ rest.marks))
      (plantParam names val rounds start wildcard suffix rest).1
      (plantParam names val rounds start wildcard suffix rest).2.isOk := by
  rw [plantParam]
  by_cases wildSuffix : hasWildcard suffix = true
  · rw [if_pos wildSuffix]
    apply Hung.refused
    rcases suffixReadable.first with
      plain | ⟨initial, wildcardMarks', more, cut, plain, isWildcard, _⟩
    · simp [hasWildcard, findWildcard, findWildcardFrom_plain plain] at wildSuffix
    · have noSlash : slash ∉ initial.map Prod.fst := by
        have bytes := suffix.map_fst_marks
        rw [cut, map_append] at bytes
        rw [← bytes] at segment
        apply segment.slash_not_mem
        have three := isWildcard.raw.three_le_length
        intro nothing
        have noLength := congrArg List.length nothing
        rw [length_map, length_append, length_nil] at noLength
        omega
      rw [wildcardMarks, cut, append_assoc, append_assoc]
      exact irregular_param letter plain isWildcard noSlash
  · rw [if_neg wildSuffix]
    have plain := plain_of_not_hasWildcard suffixReadable (by simpa using wildSuffix)
    simp only
    rw [addChild_eq_addWild noWild]
    by_cases noSuffix : suffix.inner = []
    · have noRest : rest.inner = [] := by
        rw [noSuffix] at segment
        exact segment.nothing
      have hung : Hung names val start wildcard.toOwned.marks _ true :=
        Hung.param noWild letter (by rw [wildcard.marks_toOwned, wildcardMarks])
      rw [wildcard.marks_toOwned] at hung
      rw [suffix.marks_eq_nil_iff.mpr noSuffix, rest.marks_eq_nil_iff.mpr noRest, append_nil,
        append_nil]
      simpa [noSuffix, hang, noRest, emptyOrSlash, fresh] using hung
    · have below :
          Hung names val (fresh suffix.toOwned) rest.marks
            (hang names val rounds (fresh suffix.toOwned) rest).1
            (hang names val rounds (fresh suffix.toOwned) rest).2.isOk :=
        hang_hung plants restReadable short rfl rfl rfl rfl
      have hung :
          Hung names val start
            (wildcard.toOwned.marks ++ (suffix.toOwned.marks ++ rest.marks))
            _ _ :=
        Hung.suffix noWild letter (by rw [wildcard.marks_toOwned, wildcardMarks])
          (by simpa using noSuffix)
          (by rw [suffix.marks_toOwned]; exact plain)
          (by rw [rest.map_fst_marks]; exact segment) below
      rw [wildcard.marks_toOwned, suffix.marks_toOwned] at hung
      simpa [noSuffix, addSuffixChild, fresh, empty] using hung

private theorem insertRoute_param (plants : Plants names val rounds)
    (cut : route.marks = initial ++ (letterMarks c ++ rest))
    (plain : ∀ mark ∈ initial, Plain mark) (letter : IsLetter c)
    (restReadable : Readable rest) (short : route.inner.length < rounds + 1)
    (noWild : node.wildChild = false) :
    Planted names val node route.marks
      (insertRoute names val (rounds + 1) node route).1
      (insertRoute names val (rounds + 1) node route).2.isOk := by
  have found := findWildcard_cut cut plain (IsWildcard.param letter)
  have notStarred : route.inner[initial.length + 1]? ≠ some star := by
    rw [← route.map_fst_marks, cut]
    simpa [letterMarks] using letter.ne_star
  obtain ⟨wildcard, suffix, behind, unfolded, wildcardMarks, suffixMarks, restMarks⟩ :
      ∃ wildcard suffix behind, insertRoute names val (rounds + 1) node route =
          plantParam names val rounds (withStart node (route.sliceUntil initial.length).toOwned)
            wildcard suffix behind ∧
        wildcard.marks = letterMarks c ∧
        suffix.marks = rest.take (terminatorOf (rest.map Prod.fst)) ∧
        behind.marks = rest.drop (terminatorOf (rest.map Prod.fst)) := by
    refine ⟨_, _, _, ?_, param_slices cut letter⟩
    rw [insertRoute, found, ← withStart_sliceUntil node route cut]
    simp only [if_neg notStarred]
    rfl
  have readableCuts := restReadable.segment
  have segmentBytes := isSegment_take_drop (rest.map Prod.fst)
  rw [unfolded]
  have startMarks : (route.sliceUntil initial.length).toOwned.marks = initial := by simp [cut]
  have segment : IsSegment suffix.inner behind.inner := by
    rw [← suffix.map_fst_marks, ← behind.map_fst_marks, suffixMarks, restMarks, map_take, map_drop]
    exact segmentBytes
  have shortRest : behind.inner.length < rounds := by
    have sameLength := congrArg List.length cut
    rw [route.length_marks, length_append, length_append] at sameLength
    rw [← behind.length_marks, restMarks, length_drop]
    have three : (letterMarks c).length = 3 := rfl
    omega
  have hung :=
    plantParam_hung plants
      (withStart_wildChild node (route.sliceUntil initial.length).toOwned ▸ noWild)
      letter wildcardMarks
      (by rw [suffixMarks]; exact readableCuts.1)
      (by rw [restMarks]; exact readableCuts.2) segment shortRest
  have planted :=
    planted_withStart (by rw [startMarks]; exact plain) (by rw [wildcardMarks]; rfl) hung
  rw [startMarks, wildcardMarks, suffixMarks, restMarks, take_append_drop, ← cut] at planted
  exact planted

theorem insertRoute_plants : ∀ rounds, Plants names val rounds
  | 0 => by
      intro node route _ short
      cases short
  | rounds + 1 => by
      intro node route readable short noWild noValue
      rcases readable.first with
        plain | ⟨initial, wildcard, rest, cut, plain, isWildcard, behind⟩
      · have found : findWildcard route = .ok none := by
          rw [findWildcard, findWildcardFrom_plain plain]
        have noValue' : node.value = none := by
          rcases noValue with noValue | starts
          · exact noValue
          · exact absurd (plain _ (mem_of_head? starts)) not_plain_openBrace
        have planted : Planted names val node (route.toOwned.marks ++ []) _ true :=
          Planted.static (Or.inl rfl)
            (by rw [route.marks_toOwned]; exact plain) (Hung.value noValue')
        rw [route.marks_toOwned, append_nil] at planted
        rw [insertRoute, found]
        exact planted
      · cases isWildcard with
        | param letter =>
          exact insertRoute_param (insertRoute_plants rounds) cut plain letter behind short noWild
        | catchAll named => exact insertRoute_catchAll cut plain named noWild

end Plant

end Node

end Ophan.Router
