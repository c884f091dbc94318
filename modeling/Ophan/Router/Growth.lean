import Ophan.Router.Hanging

/-!
# What an insert does to a tree

`Grown` says how a tree takes up a route, with one constructor for each way
the walk of `insert` changes a node, and an end that says whether the value was
stored.  The walk is shown to be one of these changes once; every property of
inserts is then an induction on them.
-/

namespace Ophan.Router

open List

universe u

variable {T : Type u}

namespace Node

/-- A tree that took up a route, or that was left behind by an error. -/
inductive Grown (names : ParamRemapping) (val : T) :
    Node T → List Mark → Node T → Bool → Prop
  | refused {node : Node T} {marks : List Mark} : Grown names val node marks node false
  | fork {node changed : Node T} {marks : List Mark} {common : Nat}
      {stored : Bool} :
      node.isWild = false → common < node.pfx.inner.length →
      node.pfx.marks.take common <+: marks →
      node.pfx.marks[common]? ≠ marks[common]? →
      Grown names val (node.fork common) marks changed stored →
      Grown names val node marks changed stored
  | value {node : Node T} :
      node.value = none →
      Grown names val node node.pfx.marks { node with value := some val, remapping := names } true
  | static {node child changed : Node T} {mark : Mark} {rest : List Mark}
      {i j : Nat} {stored : Bool} :
      node.isWild = false → Plain mark →
      node.indices[i]? = some mark.1 → node.children[i]? = some child →
      j ≤ i →
      Grown names val child.bump (mark :: rest) changed stored →
      Grown names val node (node.pfx.marks ++ mark :: rest)
        { node with
          children := rotateRight (node.children.set i changed) j i
          indices := rotateRight node.indices j i } stored
  | newStatic {node child : Node T} {statics wild : List (Node T)}
      {mark : Mark} {rest : List Mark} {j : Nat} {stored : Bool} :
      node.isWild = false → Forked node statics wild → Plain mark →
      mark.1 ∉ node.indices → j ≤ statics.length →
      Planted names val (fresh UnescapedRoute.empty) (mark :: rest) child stored →
      Grown names val node (node.pfx.marks ++ mark :: rest)
        { node with
          children := rotateRight (statics ++ child :: wild) j statics.length
          indices := rotateRight (node.indices ++ [mark.1]) j statics.length } stored
  | wild {node child changed : Node T} {others : List (Node T)}
      {rest : List Mark} {stored : Bool} :
      node.isWild = false → node.wildChild = true →
      node.children = others ++ [child] → child.isParam = true →
      child.pfx.marks <+: rest →
      Grown names val child.bump rest changed stored →
      Grown names val node (node.pfx.marks ++ rest)
        { node with children := others ++ [changed] } stored
  | wildRefused {node child : Node T} {others : List (Node T)}
      {marks : List Mark} :
      node.isWild = false → node.wildChild = true →
      node.children = others ++ [child] →
      Grown names val node marks { node with children := others ++ [child.bump] } false
  | newWild {node changed : Node T} {rest : List Mark} {stored : Bool} :
      node.isWild = false → node.wildChild = false →
      rest.head? = some (openBrace, false) →
      Hung names val node rest changed stored →
      Grown names val node (node.pfx.marks ++ rest) changed stored
  | suffix {node child changed : Node T} {rest : List Mark} {i : Nat}
      {stored : Bool} :
      node.isParam = true → node.children[i]? = some child →
      child.pfx.inner = (rest.map Prod.fst).take (terminatorOf (rest.map Prod.fst)) →
      Grown names val child.bump rest changed stored →
      Grown names val node (node.pfx.marks ++ rest)
        { node with children := node.children.set i changed } stored
  | newSuffix {node below : Node T} {suffix : UnescapedRoute}
      {hasSuffix : Bool} {rest : List Mark} {stored : Bool} :
      node.nodeType = .param hasSuffix →
      suffix.inner ≠ [] → (∀ mark ∈ suffix.marks, Plain mark) →
      IsSegment suffix.inner (rest.map Prod.fst) →
      (∀ child ∈ node.children, child.pfx.inner ≠ suffix.inner) →
      Hung names val (fresh suffix) rest below stored →
      Grown names val node (node.pfx.marks ++ (suffix.marks ++ rest))
        { node.addSuffixChild below with
          nodeType := .param (hasSuffix || !emptyOrSlash suffix.inner) } stored

/-! ## The common prefix -/

theorem firstIndex_spec {test : Nat → Bool} {bound : Nat} (first : Nat)
    (isFirst : ((List.range bound).find? test).getD bound = first) :
    first ≤ bound ∧ (∀ i < first, test i = false) ∧ (first < bound → test first = true) := by
  subst isFirst
  cases search : (List.range bound).find? test with
  | none => simp_all
  | some first =>
    obtain ⟨passes, inside, earlier⟩ := List.find?_range_eq_some.mp search
    grind

theorem commonPrefix_le (node : Node T) (remaining : UnescapedRef) :
    node.commonPrefix remaining ≤ remaining.inner.length ∧
      node.commonPrefix remaining ≤ node.pfx.inner.length :=
  Nat.le_min.mp (firstIndex_spec _ rfl).1

variable {node : Node T}

theorem getElem?_marks_of_lt_commonPrefix {remaining : UnescapedRef} {i : Nat}
    (before : i < node.commonPrefix remaining) :
    node.pfx.marks[i]? = remaining.marks[i]? := by
  have same := (firstIndex_spec (node.commonPrefix remaining) rfl).2.1 i before
  simp only [Bool.or_eq_false_iff, decide_eq_false_iff_not, not_not, bne_eq_false_iff_eq] at same
  rw [UnescapedRoute.getElem?_marks, UnescapedRef.getElem?_marks, same.1, same.2]

theorem take_commonPrefix (node : Node T) (remaining : UnescapedRef) :
    node.pfx.marks.take (node.commonPrefix remaining) =
      remaining.marks.take (node.commonPrefix remaining) := by
  apply ext_getElem?
  intro i
  rw [List.getElem?_take, List.getElem?_take]
  split
  · rename_i before
    exact getElem?_marks_of_lt_commonPrefix before
  · rfl

theorem getElem?_commonPrefix_ne {remaining : UnescapedRef}
    (shorter : node.commonPrefix remaining < node.pfx.inner.length) :
    node.pfx.marks[node.commonPrefix remaining]? ≠
      remaining.marks[node.commonPrefix remaining]? := by
  intro same
  rw [UnescapedRoute.getElem?_marks, UnescapedRef.getElem?_marks,
    List.getElem?_eq_getElem shorter, Option.map_some] at same
  have inside : node.commonPrefix remaining < remaining.inner.length := by grind
  have differs := (firstIndex_spec (node.commonPrefix remaining) rfl).2.2
    (Nat.lt_min.mpr ⟨inside, shorter⟩)
  rw [List.getElem?_eq_getElem inside, Option.map_some, Option.some.injEq, Prod.mk.injEq] at same
  rw [List.getElem?_eq_getElem inside, List.getElem?_eq_getElem shorter, same.1, same.2] at differs
  simp at differs

/-! ## One round of the walk -/

theorem conflictWith_isOk (route : UnescapedRoute) (remapping : ParamRemapping) :
    (conflictWith route remapping).isOk = false := by
  simp only [conflictWith]
  split
  · split <;> rfl
  · rfl

@[simp]
theorem conflict_isOk (route : UnescapedRoute) (remaining : UnescapedRef)
    (current : Node T) : (conflict route remaining current).isOk = false := by
  simp only [conflict]
  split <;> exact conflictWith_isOk _ _

/-- A step of the walk changes a node as an insert does. -/
abbrev Grows (names : ParamRemapping) (val : T) (node : Node T) (marks : List Mark)
    (result : Node T × Outcome InsertError Unit) : Prop :=
  Grown names val node marks result.1 result.2.isOk

theorem grows_conflict {names : ParamRemapping} {val : T} {marks : List Mark}
    {route : UnescapedRoute} {remaining : UnescapedRef} {current changed : Node T}
    (refused : Grown names val node marks changed false) :
    Grows names val node marks (changed, conflict route remaining current) := by
  rwa [Grows, conflict_isOk]

theorem wellShaped_bump (shaped : WellShaped node) : WellShaped node.bump :=
  WellShaped.store shaped _ _ fun _ stored => stored

theorem addChild_eq {statics wild : List (Node T)} (children : node.children = statics ++ wild)
    (single : wild.length = node.wildChild.toNat) (child : Node T) :
    node.addChild child = ({ node with children := statics ++ child :: wild }, statics.length) := by
  simp only [addChild, children]
  cases flag : node.wildChild with
  | false => simp_all
  | true => simp_all

def Enters (node : Node T) (marks : List Mark) : Prop :=
  node.isWild = false ∨ (node.isParam = true ∧ node.pfx.marks <+: marks)

theorem isWild_of_static (static : node.nodeType = .static) : node.isWild = false := by
  simp [isWild, static]

theorem nodeType_ne_catchAll (notWild : node.isWild = false) : node.nodeType ≠ .catchAll := by
  intro isCatchAll
  simp [isWild, isCatchAll] at notWild

theorem marks_cons {slice : UnescapedRef} {next : UInt8} {tail : Bytes}
    (bytes : slice.inner = next :: tail) :
    ∃ rest, slice.marks = (next, slice.isEscaped 0) :: rest := by
  have first := slice.getElem?_marks 0
  rw [bytes, List.getElem?_cons_zero, Option.map_some] at first
  cases cut : slice.marks with
  | nil =>
    simp [cut] at first
  | cons mark rest => simp_all

section Walk

variable {route : UnescapedRoute} {names : ParamRemapping} {val : T}
variable
  {descend : Option (Node T → Node T) → Node T → UnescapedRef → Node T × Outcome InsertError Unit}

/-- Continuing the walk changes a child as an insert does. -/
def Continues (names : ParamRemapping) (val : T)
    (descend :
      Option (Node T → Node T) → Node T → UnescapedRef →
        Node T × Outcome InsertError Unit) : Prop :=
  ∀ (parent : Option (Node T → Node T)) (child : Node T) (remaining : UnescapedRef),
    WellShaped child → Enters child remaining.marks →
    Readable remaining.marks →
    Grown names val child remaining.marks (descend parent child remaining).1
      (descend parent child remaining).2.isOk

variable {node : Node T} {rest whole : UnescapedRef}

theorem insertSuffix_grown {hasSuffix : Bool} (isParam : node.nodeType = .param hasSuffix)
    (nonempty : rest.inner ≠ []) (readable : Readable rest.marks) (without :
      hasWildcard (rest.sliceUntil (terminatorOf rest.inner)) = false)
    (isNew : ∀ child ∈ node.children, child.pfx.inner ≠ rest.inner.take (terminatorOf rest.inner)) :
    Grows names val node (node.pfx.marks ++ rest.marks)
      (insertSuffix names val node hasSuffix (terminatorOf rest.inner) rest) := by
  have cuts := readable.segment
  rw [rest.map_fst_marks, ← UnescapedRef.marks_sliceUntil, ← UnescapedRef.marks_sliceOff] at cuts
  have segment := isSegment_take_drop rest.inner
  have someSuffix : rest.inner.take (terminatorOf rest.inner) ≠ [] := by
    intro noSuffix
    rw [noSuffix] at segment
    have noRest := segment.nothing
    simp_all
  have grown :
      Grown names val node
        (node.pfx.marks ++
          ((rest.sliceUntil (terminatorOf rest.inner)).toOwned.marks ++
            (rest.sliceOff (terminatorOf rest.inner)).marks)) _ _ :=
    Grown.newSuffix isParam someSuffix
      (by
        rw [UnescapedRef.marks_toOwned]
        exact plain_of_not_hasWildcard cuts.1 without)
      (by rw [UnescapedRef.map_fst_marks]; exact segment)
      isNew
      (hang_hung (insertRoute_plants _) cuts.2 (Nat.lt_succ_self _) rfl rfl rfl rfl)
  rw [UnescapedRef.marks_toOwned, UnescapedRef.marks_sliceUntil,
    UnescapedRef.marks_sliceOff, take_append_drop] at grown
  exact grown

theorem walkParam_grown (continues : Continues names val descend)
    {parent : Option (Node T → Node T)} {hasSuffix : Bool}
    (shaped : WellShaped node) (isParam : node.nodeType = .param hasSuffix)
    (nonempty : rest.inner ≠ []) (readable : Readable rest.marks) :
    Grows names val node (node.pfx.marks ++ rest.marks)
      (walkParam route names val descend parent node hasSuffix whole rest) := by
  have static : ∀ child ∈ node.children, child.nodeType = .static := by
    cases shaped.here with
    | static notWild => simp [isWild, isParam] at notWild
    | param _ _ _ _ _ static => exact static
    | catchAll isCatchAll => simp [isParam] at isCatchAll
  simp only [walkParam]
  cases search :
      node.children.findIdx? fun child =>
        decide (child.pfx.inner = (rest.sliceUntil (terminatorOf rest.inner)).inner) with
  | some i =>
    obtain ⟨inside, same, _⟩ := List.findIdx?_eq_some_iff_getElem.mp search
    have located : node.children[i]? = some node.children[i] := List.getElem?_eq_getElem inside
    have member := getElem_mem inside
    simp only [located, descendInto]
    apply Grown.suffix _ located
    · rw [rest.map_fst_marks]
      exact of_decide_eq_true same
    · apply continues
      · exact wellShaped_bump (shaped.child member)
      · exact Or.inl (isWild_of_static (static node.children[i] member))
      · exact readable
    · simp [Node.isParam, isParam]
  | none =>
    have isNew : ∀ child ∈ node.children,
        child.pfx.inner ≠ rest.inner.take (terminatorOf rest.inner) := by
      intro child member
      exact of_decide_eq_false (List.findIdx?_eq_none_iff.mp search child member)
    simp only
    split
    · exact grows_conflict .refused
    · split
      · exact Grown.refused
      · rename_i without
        exact insertSuffix_grown isParam nonempty readable (by simpa using without) isNew

variable {statics wild : List (Node T)} {next : UInt8} {tail : Bytes}

section

variable (notWild : node.isWild = false) (forked : Forked node statics wild)
  (bytes : rest.inner = next :: tail) (readable : Readable rest.marks)
  (plain : Plain (next, rest.isEscaped 0)) (isNew : next ∉ node.indices)

include notWild forked bytes readable plain isNew

theorem insertStaticChild_grown :
    Grows names val node (node.pfx.marks ++ rest.marks)
      (insertStaticChild names val node next rest) := by
  obtain ⟨behind, cut⟩ := marks_cons bytes
  have added := @addChild_eq _ { node with indices := node.indices ++ [next] } statics wild
    forked.children forked.single empty
  have located : (statics ++ (empty : Node T) :: wild)[statics.length]? = some empty := by simp
  obtain ⟨j, bound, position, atChild, put⟩ :=
    putChild_updateChildPriority
      ({ node with
          indices := node.indices ++ [next]
          children := statics ++ empty :: wild } : Node T) located
  have planted :
      Planted names val (fresh UnescapedRoute.empty) rest.marks
        (insertRoute names val (rest.inner.length + 1) (fresh UnescapedRoute.empty) rest).1
        (insertRoute names val (rest.inner.length + 1) (fresh UnescapedRoute.empty) rest).2.isOk :=
    insertRoute_plants _ _ _ readable (Nat.lt_succ_self _) rfl (Or.inl rfl)
  simp only [insertStaticChild, added, position, atChild]
  rw [put, set_append_right _ _ (Nat.le_refl _), Nat.sub_self, set_cons_zero]
  rw [cut] at planted ⊢
  exact Grown.newStatic notWild forked plain isNew bound planted

theorem walkStaticChild_grown :
    Grows names val node (node.pfx.marks ++ rest.marks)
      (walkStaticChild route names val node next rest) := by
  fun_cases walkStaticChild route names val node next rest with
  | case1 | case2 => exact grows_conflict .refused
  | case3 | case4 => exact insertStaticChild_grown notWild forked bytes readable plain isNew

end

theorem walkWildChild_grown (continues : Continues names val descend)
    (shaped : WellShaped node) (notWild : node.isWild = false)
    (forked : Forked node statics wild) (flagged : node.wildChild = true)
    (readable : Readable rest.marks) (starts : rest.marks.head? = some (openBrace, false)) :
    Grows names val node (node.pfx.marks ++ rest.marks)
      (walkWildChild route descend node rest) := by
  obtain ⟨child, rfl, _⟩ := forked.only flagged
  have children := forked.children
  have isWild := forked.wild child (by simp)
  have childShaped : WellShaped child := shaped.child (by rw [children]; simp)
  have located : node.children[node.children.length - 1]? = some child := by
    rw [children]
    simp
  have put :
      ∀ changed : Node T,
        node.putChild (node.children.length - 1) changed =
          { node with children := statics ++ [changed] } := by
    intro changed
    rw [putChild, children]
    simp
  have refused :
      Grown names val node (node.pfx.marks ++ rest.marks)
        (node.putChild (node.children.length - 1) child.bump) false := by
    rw [put]
    exact Grown.wildRefused notWild flagged children
  simp only [walkWildChild, located]
  split_ifs with differs isCatchAll
  iterate 3 exact grows_conflict refused
  obtain ⟨hasSuffix, c, isParam, letter, childMarks⟩ :
      ∃ hasSuffix c, child.nodeType = .param hasSuffix ∧ IsLetter c ∧
        child.pfx.marks = letterMarks c := by
    cases childShaped.here with
    | static notWildChild => simp [isWild] at notWildChild
    | param isParam letter marks => exact ⟨_, _, isParam, letter, marks⟩
    | catchAll isCatchAllToo => exact absurd isCatchAllToo isCatchAll
  have enters : child.pfx.marks <+: rest.marks := by
    rw [childMarks]
    exact letter_prefix letter readable starts
      (by
        have bytes : child.pfx.inner = (letterMarks c).map Prod.fst := by
          rw [← child.pfx.map_fst_marks, childMarks]
        rw [← bytes, rest.map_fst_marks]
        intro long
        by_contra differsThere
        exact differs ⟨long, differsThere⟩)
  have putBack :
      ∀ changed : Node T,
        (node.putChild (node.children.length - 1) child.bump).putChild
            (node.children.length - 1) changed =
          { node with children := statics ++ [changed] } := by
    intro changed
    rw [← put, putChild, putChild, putChild, set_set]
  simp only [descendInto]
  rw [putBack]
  apply Grown.wild notWild flagged children _ enters
  · apply continues
    · exact wellShaped_bump childShaped
    · exact Or.inr ⟨by simp [Node.isParam, bump, isParam], enters⟩
    · exact readable
  · simp [Node.isParam, isParam]

theorem walkNewWildcard_grown {common : Nat} (notWild : node.isWild = false)
    (unflagged : node.wildChild = false) (readable : Readable rest.marks)
    (starts : rest.marks.head? = some (openBrace, false)) :
    Grows names val node (node.pfx.marks ++ rest.marks)
      (walkNewWildcard route names val node common whole rest) := by
  fun_cases walkNewWildcard route names val node common whole rest with
  | case1 | case2 => exact grows_conflict .refused
  | case3 | case4 =>
    apply Grown.newWild notWild unflagged starts
    exact (insertRoute_plants _ _ _ readable (Nat.lt_succ_self _) unflagged
      (Or.inr starts)).hung_wild starts

theorem walkStatic_grown (continues : Continues names val descend) {common : Nat}
    (shaped : WellShaped node) (notWild : node.isWild = false) (bytes : rest.inner = next :: tail)
    (readable : Readable rest.marks) :
    Grows names val node (node.pfx.marks ++ rest.marks)
      (walkStatic route names val descend node common next whole rest) := by
  obtain ⟨_, statics, wild, forked⟩ := shaped.here.forked notWild
  obtain ⟨behind, cut⟩ := marks_cons bytes
  have notCatchAll := nodeType_ne_catchAll notWild
  have firstToken := readable
  rw [cut] at firstToken
  rcases firstToken.cases_cons with
    ⟨plain, _⟩ | ⟨wildcard, after, wildcardCut, isWildcard, _⟩
  · obtain ⟨static, enterStatic⟩ :
        ((next = openBrace || next = closeBrace) && !rest.isEscaped 0) = false ∧
          ((next ≠ openBrace || rest.isEscaped 0) && node.nodeType ≠ .catchAll) = true := by
      cases flag : rest.isEscaped 0 with
      | true => simp [notCatchAll]
      | false =>
        rw [flag] at plain
        obtain ⟨notOpen, notClose⟩ := plain rfl
        simp_all
    simp only [walkStatic, static, Bool.false_eq_true, if_false]
    cases search : node.indices.findIdx? fun x => decide (x = next) with
    | none =>
      simp only [enterStatic, if_true]
      have isNew : next ∉ node.indices := by grind
      exact walkStaticChild_grown notWild forked bytes readable plain isNew
    | some i =>
      obtain ⟨inside, same, _⟩ := List.findIdx?_eq_some_iff_getElem.mp search
      have index : node.indices[i]? = some next := by
        rw [List.getElem?_eq_getElem inside, of_decide_eq_true same]
      obtain ⟨child, member, located⟩ := forked.indexed inside
      obtain ⟨j, bound, position, atChild, put⟩ := putChild_updateChildPriority node located
      simp only [position, atChild, descendInto]
      rw [put, cut]
      apply Grown.static notWild plain index located bound
      rw [← cut]
      apply continues
      · exact wellShaped_bump (shaped.child (mem_of_getElem? located))
      · exact Or.inl (isWild_of_static (forked.static child member))
      · exact readable
  · have starts : rest.marks.head? = some (openBrace, false) := by
      rw [cut, wildcardCut]
      exact isWildcard.head after
    have first := starts
    rw [cut, List.head?_cons, Option.some.injEq, Prod.mk.injEq] at first
    simp only [walkStatic, first.1, first.2, decide_true, Bool.true_or,
      Bool.not_false, Bool.and_self, if_true, ne_eq, not_true_eq_false,
      decide_false, Bool.or_self, Bool.false_and, Bool.false_eq_true,
      if_false]
    cases flag : node.wildChild with
    | true => exact walkWildChild_grown continues shaped notWild forked flag readable starts
    | false => exact walkNewWildcard_grown notWild flag readable starts

/-- One round of the walk, behind the common prefix. -/
theorem walkForked_grown (continues : Continues names val descend) (route : UnescapedRoute)
    (parent : Option (Node T → Node T)) {remaining : UnescapedRef} {marks : List Mark}
    (shaped : WellShaped node) (notCatchAll : node.nodeType ≠ .catchAll)
    (cut : remaining.marks = node.pfx.marks ++ marks) (readable : Readable remaining.marks) :
    Grows names val node remaining.marks
      (walkForked route names val descend parent node node.pfx.inner.length remaining) := by
  have restMarks : (remaining.sliceOff node.pfx.inner.length).marks = marks := by
    rw [UnescapedRef.marks_sliceOff, cut, ← node.pfx.length_marks, drop_left]
  have restBytes :
      (remaining.sliceOff node.pfx.inner.length).inner =
        remaining.inner.drop node.pfx.inner.length := rfl
  have restReadable : Readable marks := by
    rw [cut] at readable
    cases shaped.here with
    | static _ plain _ => exact readable.of_plain_append plain
    | param _ letter pfxMarks =>
      rw [pfxMarks] at readable
      exact readable.of_letter_append letter
    | catchAll isCatchAll => exact absurd isCatchAll notCatchAll
  simp only [walkForked]
  cases bytes : remaining.inner.drop node.pfx.inner.length with
  | nil =>
    have noMarks : marks = [] := by
      rw [← restMarks, UnescapedRef.marks_eq_nil_iff, restBytes, bytes]
    rw [cut, noMarks, append_nil]
    simp only
    cases stored : node.value with
    | some old => exact grows_conflict .refused
    | none => exact Grown.value stored
  | cons next tail =>
    rw [bytes] at restBytes
    rw [← restMarks] at restReadable
    rw [cut, ← restMarks]
    simp only
    split
    · rename_i hasSuffix isParam
      exact walkParam_grown continues shaped isParam (by rw [restBytes]; simp) restReadable
    · rename_i notParam
      have notWild : node.isWild = false := by
        rw [isWild]
        cases kind : node.nodeType with
        | root | static => rfl
        | param hasSuffix => exact absurd kind (notParam hasSuffix)
        | catchAll => exact absurd kind notCatchAll
      exact walkStatic_grown continues shaped notWild restBytes restReadable

end Walk

/-! ## The whole walk -/

@[simp]
theorem fork_pfx_marks (node : Node T) (common : Nat) :
    (node.fork common).pfx.marks = node.pfx.marks.take common := by
  simp [fork]

theorem fork_pfx_length {common : Nat} (bound : common ≤ node.pfx.inner.length) :
    (node.fork common).pfx.inner.length = common := by
  rw [← UnescapedRoute.length_marks, fork_pfx_marks, length_take,
    UnescapedRoute.length_marks, Nat.min_eq_left bound]

theorem fork_wellShaped {common : Nat} (shaped : WellShaped node) (notWild : node.isWild = false)
    (shorter : common < node.pfx.inner.length) :
    WellShaped (node.fork common) := by
  obtain ⟨plain, statics, wild, forked⟩ := shaped.here.forked notWild
  have oneIndex : ((node.pfx.inner.drop common).take 1).length = 1 := by grind
  have stillStatic : (node.fork common).isWild = false := notWild
  apply Everywhere.mk
  · apply Shaped.static stillStatic
    · intro mark member
      rw [fork_pfx_marks] at member
      exact plain mark (mem_of_mem_take member)
    · exact
        { children := (append_nil _).symm
          indices := oneIndex.symm
          static := forall_mem_singleton.mpr rfl
          single := rfl
          wild := by simp }
  · refine forall_mem_singleton.mpr (Everywhere.mk ?_ ?_)
    · apply Shaped.static rfl
      · intro mark inside
        simp only [UnescapedRef.marks_toOwned, UnescapedRef.marks_sliceOff,
          UnescapedRoute.marks_asRef] at inside
        exact plain mark (mem_of_mem_drop inside)
      · exact { forked with }
    · exact shaped.children

theorem agrees_of_shorter {node : Node T} {marks : List Mark} {common : Nat}
    (isPrefix : node.pfx.marks <+: marks) (shorter : common < node.pfx.inner.length) :
    node.pfx.marks[common]? = marks[common]? := by
  obtain ⟨rest, rfl⟩ := isPrefix
  rw [List.getElem?_append_left]
  rw [UnescapedRoute.length_marks]
  exact shorter

section Insert

variable {names : ParamRemapping} {val : T}

/-- The walk changes a tree as an insert does. -/
theorem walk_continues (route : UnescapedRoute) :
    ∀ rounds, Continues names val (walk route names val rounds)
  | 0 => by
      intro parent node remaining _ _ _
      exact Grown.refused
  | rounds + 1 => by
      intro parent node remaining shaped enters readable
      have ih := walk_continues route rounds
      have bounds := commonPrefix_le node remaining
      simp only [walk]
      by_cases shorter : node.commonPrefix remaining < node.pfx.inner.length
      · have differs := getElem?_commonPrefix_ne shorter
        have notWild : node.isWild = false := by
          rcases enters with notWild | ⟨_, isPrefix⟩
          · exact notWild
          · exact absurd (agrees_of_shorter isPrefix shorter) differs
        have takesCommon :
            node.pfx.marks.take (node.commonPrefix remaining) <+: remaining.marks := by
          rw [take_commonPrefix]
          exact take_prefix _ _
        have cut :
            remaining.marks =
              (node.fork (node.commonPrefix remaining)).pfx.marks ++
                remaining.marks.drop (node.commonPrefix remaining) := by
          rw [fork_pfx_marks, take_commonPrefix, take_append_drop]
        have grown := walkForked_grown ih route parent
          (fork_wellShaped shaped notWild shorter) (nodeType_ne_catchAll notWild) cut readable
        rw [fork_pfx_length (Nat.le_of_lt shorter)] at grown
        rw [if_pos shorter]
        exact Grown.fork notWild shorter takesCommon differs grown
      · have whole : node.commonPrefix remaining = node.pfx.inner.length := by omega
        have cut :
            remaining.marks = node.pfx.marks ++ remaining.marks.drop node.pfx.inner.length := by
          have common := take_commonPrefix node remaining
          rw [whole, take_of_length_le (by rw [UnescapedRoute.length_marks])] at common
          conv_rhs => rw [common]
          rw [take_append_drop]
        have notCatchAll : node.nodeType ≠ .catchAll := by
          intro isCatchAll
          rcases enters with notWild | ⟨isParam, _⟩
          · exact nodeType_ne_catchAll notWild isCatchAll
          · simp [Node.isParam, isCatchAll] at isParam
        rw [if_neg shorter, whole]
        exact walkForked_grown ih route parent shaped notCatchAll cut readable

/-- What `insert` does to a tree. -/
theorem insert_cases {self : Node T} {text : Bytes}
    (shaped : WellShaped self) (notWild : self.isWild = false) :
    ((self.insert text val).1 = self ∧ (self.insert text val).2.isOk = false) ∨
    ∃ route names,
      normalizeParams (UnescapedRoute.new text) = .ok (route, names) ∧
      ((self.value = none ∧ self.children = [] ∧
          ∃ planted,
            Planted names val self.bump route.marks planted (self.insert text val).2.isOk ∧
            (self.insert text val).1 =
              if (self.insert text val).2.isOk then
                { planted with nodeType := .root }
              else
                planted) ∨
        ((self.value ≠ none ∨ self.children ≠ []) ∧
          Grown names val self.bump route.marks
            (self.insert text val).1 (self.insert text val).2.isOk)) := by
  cases normalized : normalizeParams (UnescapedRoute.new text) with
  | err | panic =>
    left
    simp [insert, normalized]
  | ok normal =>
    obtain ⟨route, names⟩ := normal
    right
    refine ⟨route, names, rfl, ?_⟩
    obtain ⟨routeTokens, reads, _⟩ := normalizeParams_reads normalized
    have readable : Readable route.asRef.marks := ⟨routeTokens, reads⟩
    by_cases isEmpty : self.value = none ∧ self.children = []
    · left
      refine ⟨isEmpty.1, isEmpty.2, ?_⟩
      have noWild : self.bump.wildChild = false := by
        obtain ⟨_, statics, wild, forked⟩ := shaped.here.forked notWild
        rcases forked.wild_cases with ⟨unflagged, _⟩ | ⟨last, _, rfl, _⟩
        · exact unflagged
        · have noChildren := forked.children
          simp [isEmpty.2] at noChildren
      have planted : Planted names val self.bump route.asRef.marks _ _ :=
        insertRoute_plants _ _ _ readable (Nat.lt_succ_self _) noWild (Or.inl isEmpty.1)
      have nothing : (self.bump.value.isNone && self.bump.children.isEmpty) = true := by
        simp [bump, isEmpty.1, isEmpty.2]
      have outcome :
          (self.insert text val).2.isOk =
            (insertRoute names val (route.inner.length + 1) self.bump route.asRef).2.isOk := by
        simp only [insert, normalized]
        rw [if_pos nothing]
        split
        · simp_all
        · rfl
      refine ⟨(insertRoute names val (route.inner.length + 1) self.bump
        route.asRef).1, by rw [outcome]; exact planted, ?_⟩
      rw [outcome]
      simp only [insert, normalized]
      rw [if_pos nothing]
      cases (insertRoute names val (route.inner.length + 1) self.bump route.asRef).2 <;> rfl
    · right
      have walked :
          self.insert text val =
            walk route names val self.bump.height none self.bump route.asRef := by
        have something : ¬ (self.bump.value.isNone && self.bump.children.isEmpty) = true := by
          simpa [bump] using isEmpty
        simp only [insert, normalized]
        rw [if_neg something]
      refine ⟨?_, ?_⟩
      · grind
      · rw [walked]
        apply walk_continues
        · exact wellShaped_bump shaped
        · exact Or.inl notWild
        · exact readable

end Insert

end Node

end Ophan.Router
