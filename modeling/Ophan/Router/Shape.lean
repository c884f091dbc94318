import Ophan.Router.History

/-!
# The order of the children

Behind inserts of regular routes the index bytes of a node are the first bytes
of its static children, and the suffixes of a parameter are complete segments
by descending length.  An irregular route can break both.
-/

namespace Ophan.Router

open List

universe u v

variable {T : Type u}

/-! ## Regular routes -/

/-- A byte that is escaped exactly when it is a brace. -/
def Canonical (mark : Mark) : Prop := mark.2 = (mark.1 = openBrace || mark.1 = closeBrace)

theorem Canonical.of_plain {mark : Mark} (plain : Plain mark)
    (flagged : mark.2 = true → mark.1 = openBrace ∨ mark.1 = closeBrace) : Canonical mark := by
  rw [Canonical]
  cases flag : mark.2 with
  | true => simp_all
  | false =>
    obtain ⟨notOpen, notClose⟩ := plain flag
    simp [notOpen, notClose]

theorem Canonical.eq_of_fst {first second : Mark}
    (canonicalFirst : Canonical first) (canonicalSecond : Canonical second)
    (sameByte : first.1 = second.1) : first = second := by
  apply Prod.ext sameByte
  rw [canonicalFirst, canonicalSecond, sameByte]

theorem eq_of_canonical {first second : List Mark} (canonicalFirst : ∀ mark ∈ first, Canonical mark)
    (canonicalSecond : ∀ mark ∈ second, Canonical mark)
    (sameBytes : first.map Prod.fst = second.map Prod.fst) :
    first = second := by
  induction first generalizing second with
  | nil => simp_all
  | cons mark rest ih =>
    cases second with
    | nil => cases sameBytes
    | cons other others =>
      rw [map_cons, map_cons, List.cons.injEq] at sameBytes
      obtain ⟨headCanonical, restCanonical⟩ := forall_mem_cons.mp canonicalFirst
      obtain ⟨otherCanonical, othersCanonical⟩ := forall_mem_cons.mp canonicalSecond
      rw [headCanonical.eq_of_fst otherCanonical sameBytes.1,
        ih restCanonical othersCanonical sameBytes.2]

/-- A text that reads as the rest of a regular route; `wild` says that the
segment has a wildcard already. -/
def Fit (wild : Bool) (marks : List Mark) : Prop :=
  FlagsOnBraces marks ∧ ∃ routeTokens, Reads marks routeTokens ∧ regularFrom wild routeTokens = true

namespace Fit

variable {wild : Bool} {initial rest marks : List Mark}

theorem nil : Fit wild [] := ⟨by simp [FlagsOnBraces], [], Reads.nil, rfl⟩

theorem canonical (fit : Fit wild (initial ++ rest)) (plain : ∀ mark ∈ initial, Plain mark) :
    ∀ mark ∈ initial, Canonical mark := by
  intro mark member
  exact Canonical.of_plain (plain mark member) (fit.1 mark (mem_append_left rest member))

theorem of_plain_append (fit : Fit wild (initial ++ rest)) (plain : ∀ mark ∈ initial, Plain mark) :
    Fit (wild && !(initial.map Prod.fst).contains slash) rest := by
  obtain ⟨flags, routeTokens, reads, regular⟩ := fit
  obtain ⟨restTokens, rfl, restReads⟩ := reads.of_plain_append plain
  rw [regularFrom_bytes_append] at regular
  exact ⟨flags.of_append.2, restTokens, restReads, regular⟩

theorem of_letter_append {c : UInt8} (fit : Fit wild (letterMarks c ++ rest))
    (letter : IsLetter c) : wild = false ∧ Fit true rest := by
  obtain ⟨flags, routeTokens, reads, regular⟩ := fit
  obtain ⟨restTokens, rfl, restReads⟩ := reads.of_letter_append letter
  rw [regularFrom, Bool.and_eq_true, Bool.not_eq_true'] at regular
  exact ⟨regular.1, flags.of_append.2, restTokens, restReads, regular.2⟩

theorem not_irregular (fit : Fit false marks) : ¬ Irregular marks := by
  intro irregular
  obtain ⟨_, routeTokens, reads, regular⟩ := fit
  simp [irregular routeTokens reads] at regular

theorem of_segment {pfx : UnescapedRoute} (fit : Fit wild (pfx.marks ++ rest))
    (plain : ∀ mark ∈ pfx.marks, Plain mark) (segment : IsSegment pfx.inner (rest.map Prod.fst)) :
    Fit false rest := by
  by_cases noRest : rest = []
  · rw [noRest]
    exact nil
  · obtain ⟨front, whole, _⟩ := segment.ends (mt map_eq_nil_iff.mp noRest)
    have behind := fit.of_plain_append plain
    simp_all

end Fit

namespace Node

/-! ## The order of a node -/

structure StaticOrder (node : Node T) : Prop where
  canonical : ∀ mark ∈ node.pfx.marks, Canonical mark
  firsts :
    (node.children.take node.indices.length).map (fun child => child.pfx.inner.head?) =
      node.indices.map some
  distinct : node.indices.Nodup

structure IsSuffix (child : Node T) : Prop where
  nonempty : child.pfx.inner ≠ []
  segment : slash ∉ child.pfx.inner.dropLast
  ends : child.pfx.inner.getLast? = some slash ∨ child.children = []

structure ParamOrder (node : Node T) (hasSuffix : Bool) : Prop where
  suffixes : ∀ child ∈ node.children, IsSuffix child
  descending : node.children.Pairwise fun first second =>
    second.pfx.inner.length ≤ first.pfx.inner.length
  distinct : (node.children.map fun child => child.pfx.inner).Nodup
  slashOnly : hasSuffix = false → ∀ child ∈ node.children, child.pfx.inner = [slash]

structure Ordered (node : Node T) : Prop where
  static : node.isWild = false → StaticOrder node
  param : ∀ hasSuffix, node.nodeType = .param hasSuffix → ParamOrder node hasSuffix

abbrev WellOrdered (node : Node T) : Prop := Everywhere Ordered node

variable {node : Node T}

theorem not_param_of_not_wild (notWild : node.isWild = false)
    (hasSuffix : Bool) : node.nodeType ≠ .param hasSuffix := by
  intro isParam
  simp [isWild, isParam] at notWild

theorem Ordered.of_static (notWild : node.isWild = false)
    (static : StaticOrder node) : Ordered node :=
  ⟨fun _ => static, fun hasSuffix isParam =>
    absurd isParam (not_param_of_not_wild notWild hasSuffix)⟩

theorem Ordered.of_param {hasSuffix : Bool} (isParam : node.nodeType = .param hasSuffix)
    (param : ParamOrder node hasSuffix) : Ordered node := by
  refine ⟨?_, ?_⟩
  · intro notWild
    exact absurd isParam (not_param_of_not_wild notWild hasSuffix)
  · simp_all

theorem Ordered.of_catchAll (isCatchAll : node.nodeType = .catchAll) : Ordered node := by
  refine ⟨?_, ?_⟩
  · intro notWild
    simp [isWild, isCatchAll] at notWild
  · simp_all

/-- A suffix that ends a path holds a value. -/
def Valued (node : Node T) : Prop :=
  node.isParam = true → ∀ child ∈ node.children,
    child.pfx.inner.getLast? = some slash ∨ child.value ≠ none

abbrev WellValued (node : Node T) : Prop := Everywhere Valued node

variable {changed : Node T}

theorem Valued.of_not_isWild (notWild : node.isWild = false) : Valued node := by
  intro isParam
  simp [not_isParam_of_not_isWild notWild] at isParam

theorem Valued.of_leaf (leaf : node.children = []) : Valued node := by
  intro _ child member
  simp [leaf] at member

theorem wellValued_of_not_isWild (notWild : node.isWild = false)
    (below : ∀ child ∈ node.children, WellValued child) : WellValued node :=
  Everywhere.mk (Valued.of_not_isWild notWild) below

theorem wellValued_leaf (leaf : node.children = []) : WellValued node :=
  Everywhere.leaf (Valued.of_leaf leaf) leaf

theorem wellValued_bump (valued : WellValued node) : WellValued node.bump :=
  Everywhere.mk valued.here valued.children

/-- An ordered tree, whose suffixes hold values if those of the other tree do. -/
structure Tidied (node changed : Node T) : Prop where
  ordered : WellOrdered changed
  valued : WellValued node → WellValued changed

theorem Tidied.refl (ordered : WellOrdered node) : Tidied node node := ⟨ordered, id⟩

/-- Priorities, values and names have no part in the order. -/
theorem Tidied.store (ordered : WellOrdered node) (priority : Nat) (value : Option T)
    (remapping : ParamRemapping) :
    Tidied node { node with priority := priority, value := value, remapping := remapping } where
  ordered := Everywhere.mk ⟨fun notWild => { ordered.here.static notWild with },
    fun hasSuffix kind => { ordered.here.param hasSuffix kind with }⟩ ordered.children
  valued valued := Everywhere.mk valued.here valued.children

theorem Tidied.trans {between : Node T} (first : Tidied node between)
    (second : Tidied between changed) : Tidied node changed :=
  ⟨second.ordered, fun valued => second.valued (first.valued valued)⟩

theorem wellOrdered_bump (ordered : WellOrdered node) : WellOrdered node.bump :=
  (Tidied.store ordered _ _ _).ordered

theorem Tidied.of_bump (tidied : Tidied node.bump changed) : Tidied node changed :=
  ⟨tidied.ordered, fun valued => tidied.valued (wellValued_bump valued)⟩

/-! ## Hung routes are ordered -/

section Order

variable {names : ParamRemapping} {val : T}

theorem fresh_wellOrdered {pfx : UnescapedRoute} (canonical : ∀ mark ∈ pfx.marks, Canonical mark) :
    WellOrdered (fresh pfx : Node T) := by
  have static : StaticOrder (fresh pfx : Node T) := ⟨canonical, rfl, nodup_nil⟩
  exact Everywhere.leaf (Ordered.of_static rfl static) rfl

variable {node child changed new : Node T} {statics wild : List (Node T)}

theorem Forked.take_statics (forked : Forked node statics wild) :
    node.children.take node.indices.length = statics := by
  rw [forked.children, ← forked.indices, take_left]

theorem addWild_tidied (shaped : WellShaped node)
    (ordered : WellOrdered node) (notWild : node.isWild = false)
    (childOrdered : WellOrdered child) (childValued : WellValued child) :
    Tidied node (node.addWild child) := by
  obtain ⟨_, statics, wild, forked⟩ := shaped.here.forked notWild
  have static := ordered.here.static notWild
  have stillStatic : (node.addWild child).isWild = false := notWild
  refine ⟨Everywhere.mk ?_ (Everywhere.added ordered.children childOrdered), fun valued => ?_⟩
  · apply Ordered.of_static stillStatic
    refine ⟨static.canonical, ?_, static.distinct⟩
    have enough : node.indices.length ≤ node.children.length := by
      rw [forked.children, length_append, ← forked.indices]
      omega
    rw [addWild, take_append_of_le_length enough]
    exact static.firsts
  · exact wellValued_of_not_isWild notWild (Everywhere.added valued.children childValued)

theorem letterMarks_ne_nil (c : UInt8) : letterMarks c ≠ [] := by
  simp [letterMarks]

variable {marks rest : List Mark} {stored : Bool}

theorem Hung.of_nil (hung : Hung names val node marks changed stored) (noMarks : marks = []) :
    changed.children = node.children ∧ (changed.value ≠ none ∨ Irregular marks) := by
  cases hung with
  | value => exact ⟨rfl, by simp⟩
  | refused irregular => exact ⟨rfl, Or.inr irregular⟩
  | @static _ _ pfx b bytes rest _ _ _ _ first =>
    have noPrefix := (append_eq_nil_iff.mp noMarks).1
    have noBytes := pfx.map_fst_marks
    simp [noPrefix, first] at noBytes
  | staticRefused => cases noMarks
  | catchAll _ _ pfxMarks =>
    rw [pfxMarks] at noMarks
    cases noMarks
  | param _ _ pfxMarks =>
    rw [pfxMarks] at noMarks
    exact absurd noMarks (letterMarks_ne_nil _)
  | suffix _ _ pfxMarks =>
    have noPrefix := (append_eq_nil_iff.mp noMarks).1
    rw [pfxMarks] at noPrefix
    exact absurd noPrefix (letterMarks_ne_nil _)

theorem not_irregular_nil : ¬ Irregular [] := by
  intro irregular
  have impossible := irregular [] Reads.nil
  cases impossible

theorem getLast_of_isSegment {segment : Bytes}
    (isSegment : IsSegment segment (marks.map Prod.fst)) :
    segment.getLast? = some slash ∨ marks = [] := by
  by_cases noMarks : marks = []
  · exact Or.inr noMarks
  · obtain ⟨front, rfl, _⟩ := isSegment.ends (mt map_eq_nil_iff.mp noMarks)
    exact Or.inl getLast?_concat

theorem Hung.isSuffix {below : Node T} {suffix : UnescapedRoute}
    (hung : Hung names val (fresh suffix) marks below stored) (nonempty : suffix.inner ≠ [])
    (segment : IsSegment suffix.inner (marks.map Prod.fst)) : IsSuffix below := by
  have samePrefix : below.pfx = suffix := hung.pfx_eq
  refine ⟨samePrefix ▸ nonempty, ?_, ?_⟩
  · rw [← dropLast_append_getLast nonempty] at segment
    rw [samePrefix]
    exact segment.slash_not_mem (by simp)
  · rw [samePrefix]
    exact (getLast_of_isSegment segment).imp_right fun noMarks => (hung.of_nil noMarks).1

theorem Hung.suffix_valued {below : Node T} {suffix : UnescapedRoute}
    (hung : Hung names val (fresh suffix) marks below stored)
    (segment : IsSegment suffix.inner (marks.map Prod.fst)) :
    below.pfx.inner.getLast? = some slash ∨ below.value ≠ none := by
  have samePrefix : below.pfx = suffix := hung.pfx_eq
  rw [samePrefix]
  exact (getLast_of_isSegment segment).imp_right fun noMarks =>
    (hung.of_nil noMarks).2.resolve_right (noMarks ▸ not_irregular_nil)

theorem Hung.tidied (hung : Hung names val node marks changed stored)
    (shaped : WellShaped node) (ordered : WellOrdered node)
    (notWild : node.isWild = false) (fit : Fit false marks) :
    Tidied node changed := by
  induction hung with
  | value => exact .store ordered _ _ _
  | refused => exact .refl ordered
  | @static node child pfx b bytes marks stored _ _ _ first plain below
      ih =>
    have tidied : Tidied (fresh pfx) child :=
      ih (fresh_wellShaped plain) (fresh_wellOrdered (fit.canonical plain)) rfl
        (fit.of_plain_append plain)
    have static := ordered.here.static notWild
    refine ⟨Everywhere.mk ?_ tidied.ordered.single, fun _ => ?_⟩
    · apply Ordered.of_static (by exact notWild)
      refine ⟨static.canonical, ?_, by simp⟩
      have samePrefix : child.pfx = pfx := below.pfx_eq
      simp [samePrefix, first]
    · exact wellValued_of_not_isWild notWild (tidied.valued (wellValued_leaf rfl)).single
  | staticRefused _ _ _ _ irregular => exact absurd irregular fit.not_irregular
  | catchAll =>
    exact addWild_tidied shaped ordered notWild
      (Everywhere.leaf (Ordered.of_catchAll rfl) rfl) (wellValued_leaf rfl)
  | param =>
    apply addWild_tidied shaped ordered notWild _ (wellValued_leaf rfl)
    apply Everywhere.leaf _ rfl
    apply Ordered.of_param rfl
    exact ⟨fun _ member => absurd member not_mem_nil, List.Pairwise.nil, nodup_nil,
      fun _ _ member => absurd member not_mem_nil⟩
  | @suffix node below pfx suffix c marks stored _ letter pfxMarks nonempty
      plain segment hung ih =>
    rw [pfxMarks] at fit
    have suffixFit := (fit.of_letter_append letter).2
    have tidied : Tidied (fresh suffix) below :=
      ih (fresh_wellShaped plain) (fresh_wellOrdered (suffixFit.canonical plain)) rfl
        (suffixFit.of_segment plain segment)
    have samePrefix : below.pfx = suffix := hung.pfx_eq
    apply addWild_tidied shaped ordered notWild
    · refine Everywhere.mk (Ordered.of_param rfl ?_) tidied.ordered.single
      refine ⟨?_, pairwise_singleton _ _, by simp, ?_⟩
      · exact forall_mem_singleton.mpr (hung.isSuffix nonempty segment)
      · intro slashOnly
        rw [forall_mem_singleton, samePrefix]
        simpa [emptyOrSlash, nonempty] using slashOnly
    · refine Everywhere.mk ?_ (tidied.valued (wellValued_leaf rfl)).single
      intro _
      exact forall_mem_singleton.mpr (hung.suffix_valued segment)

/-! ## Grown trees are ordered -/

theorem Grown.pfx_eq (grown : Grown names val node marks changed stored)
    (isPrefix : node.pfx.marks <+: marks) : changed.pfx = node.pfx := by
  cases grown with
  | fork _ shorter _ differs => exact absurd (agrees_of_shorter isPrefix shorter) differs
  | newWild _ _ _ hung => exact hung.pfx_eq
  | _ => rfl

theorem Grown.head_eq {mark : Mark} (grown : Grown names val node (mark :: marks) changed stored)
    (sameHead : node.pfx.marks.head? = some mark) :
    changed.pfx.inner.head? = some mark.1 := by
  have byteOf : ∀ pfx : UnescapedRoute, pfx.marks.head? = some mark →
      pfx.inner.head? = some mark.1 := by
    intro pfx head
    rw [← pfx.map_fst_marks, List.head?_map, head]
    rfl
  by_cases isPrefix : node.pfx.marks <+: mark :: marks
  · rw [grown.pfx_eq isPrefix]
    exact byteOf node.pfx sameHead
  · generalize whole : mark :: marks = all at grown isPrefix
    cases grown with
    | @fork _ _ _ common _ _ _ takes differs below =>
      have samePrefix : changed.pfx = (node.fork common).pfx := by
        apply below.pfx_eq
        rw [fork_pfx_marks]
        exact takes
      rw [samePrefix]
      apply byteOf
      rw [fork_pfx_marks]
      cases common with
      | zero =>
        exfalso
        apply differs
        rw [← List.head?_eq_getElem?, ← List.head?_eq_getElem?, sameHead, ← whole]
        rfl
      | succ common =>
        rw [List.head?_take]
        simpa using sameHead
    | newWild _ _ _ hung => simp_all
    | _ => exact byteOf _ sameHead

/-- A text that the walk takes to a node: the rest of a regular route, or one
whose first segment is the suffix that the node holds. -/
def Takes (node : Node T) (marks : List Mark) : Prop :=
  Fit false marks ∨
    (Fit true marks ∧
      ∃ rest, marks = node.pfx.marks ++ rest ∧ IsSegment node.pfx.inner (rest.map Prod.fst))

theorem Takes.behind (takes : Takes node (node.pfx.marks ++ rest))
    (plain : ∀ mark ∈ node.pfx.marks, Plain mark) : Fit false rest := by
  rcases takes with fit | ⟨fit, other, same, segment⟩
  · exact fit.of_plain_append plain
  · have sameRest : other = rest := (append_cancel_left same).symm
    subst sameRest
    exact fit.of_segment plain segment

theorem Takes.fork {common : Nat} (takes : Takes node marks)
    (shorter : common < node.pfx.inner.length)
    (differs : node.pfx.marks[common]? ≠ marks[common]?) : Takes (node.fork common) marks := by
  rcases takes with fit | ⟨_, rest, cut, _⟩
  · exact Or.inl fit
  · exact absurd (agrees_of_shorter ⟨rest, cut.symm⟩ shorter) differs

theorem Takes.behindParam {c : UInt8}
    (takes : Takes node (node.pfx.marks ++ rest)) (letter : IsLetter c)
    (marks : node.pfx.marks = letterMarks c) : Fit true rest := by
  rcases takes with fit | ⟨fit, _⟩
  all_goals
    rw [marks] at fit
    exact (fit.of_letter_append letter).2

theorem plain_of_fit_true (fit : Fit true marks) :
    ∀ mark ∈ marks.take (terminatorOf (marks.map Prod.fst)), Plain mark := by
  obtain ⟨flags, routeTokens, reads, regular⟩ := fit
  clear flags
  induction reads with
  | nil => simp
  | @byte mark rest restTokens plain _ ih =>
    by_cases isSlash : mark.1 = slash
    · rw [map_cons, isSlash, terminatorOf_slash_cons]
      simpa using plain
    · have noSlash : slash ∉ [mark.1] := by simpa using Ne.symm isSlash
      have further :
          terminatorOf ((mark :: rest).map Prod.fst) = 1 + terminatorOf (rest.map Prod.fst) :=
        terminatorOf_append (rest.map Prod.fst) noSlash
      have restRegular : regularFrom true restTokens = true := by
        simpa [regularFrom, isSlash] using regular
      grind
  | param | catchAll => cases regular

theorem Grown.children_of_exact (grown : Grown names val node marks changed stored)
    (exact : marks = node.pfx.marks) (notWild : node.isWild = false)
    (leaf : node.children = []) : changed.children = [] := by
  have nothing : ∀ {rest : List Mark}, node.pfx.marks ++ rest = node.pfx.marks → rest = [] := by
    simp
  have notParam : ¬ node.isParam = true := by
    rw [not_isParam_of_not_isWild notWild]
    decide
  cases grown with
  | refused | value => exact leaf
  | fork _ shorter _ differs => simp_all
  | static | newStatic => cases nothing exact
  | wild _ _ children | wildRefused _ _ children => simp_all
  | newWild _ _ starts => simp [nothing exact] at starts
  | suffix isParam => exact absurd isParam notParam
  | newSuffix isParam => exact absurd (by rw [Node.isParam, isParam]) notParam

theorem Grown.value_of_exact (grown : Grown names val node marks changed stored)
    (exact : marks = node.pfx.marks) (stored : node.value ≠ none) : changed.value ≠ none := by
  cases grown with
  | fork _ _ _ differs => simp_all
  | value => simp
  | @newWild _ _ rest _ _ _ starts => simp_all
  | _ => exact stored

theorem fork_tidied {common : Nat} (ordered : WellOrdered node) (notWild : node.isWild = false)
    (shorter : common < node.pfx.inner.length) :
    Tidied node (node.fork common) := by
  have static := ordered.here.static notWild
  have stillStatic : (node.fork common).isWild = false := notWild
  have below :
      node.pfx.inner.drop common = node.pfx.inner[common] :: node.pfx.inner.drop (common + 1) :=
    drop_eq_getElem_cons shorter
  have indices : (node.fork common).indices = [node.pfx.inner[common]] := by
    rw [fork, below, take_succ_cons, take_zero]
  refine ⟨Everywhere.mk ?_ ?_, fun valued => ?_⟩
  · apply Ordered.of_static stillStatic
    refine ⟨?_, ?_, ?_⟩
    · intro mark member
      rw [fork_pfx_marks] at member
      exact static.canonical mark (mem_of_mem_take member)
    · rw [indices, fork, length_singleton, take_succ_cons, take_zero, map_singleton, map_singleton]
      exact congrArg (fun bytes => [bytes.head?]) below
    · simp_all
  · refine forall_mem_singleton.mpr (Everywhere.mk ?_ ?_)
    · apply Ordered.of_static (by rfl)
      refine ⟨?_, static.firsts, static.distinct⟩
      intro mark inside
      simp only [UnescapedRef.marks_toOwned, UnescapedRef.marks_sliceOff,
        UnescapedRoute.marks_asRef] at inside
      exact static.canonical mark (mem_of_mem_drop inside)
    · exact ordered.children
  · apply wellValued_of_not_isWild stillStatic
    exact forall_mem_singleton.mpr (wellValued_of_not_isWild rfl valued.children)

variable {i : Nat}

theorem map_set_of_eq {α : Type u} {β : Type v} {f : α → β} {items : List α}
    {old new : α} (located : items[i]? = some old) (same : f new = f old) :
    (items.set i new).map f = items.map f := by
  obtain ⟨inside, rfl⟩ := List.getElem?_eq_some_iff.mp located
  rw [map_set, same, ← List.getElem_map f (h := by simpa using inside), set_getElem_self]

theorem ParamOrder.set {result : Node T} {hasSuffix : Bool}
    (param : ParamOrder node hasSuffix) (located : node.children[i]? = some child)
    (samePrefix : changed.pfx = child.pfx)
    (ends : changed.pfx.inner.getLast? = some slash ∨ changed.children = [])
    (children : result.children = node.children.set i changed) :
    ParamOrder result hasSuffix := by
  have sameBytes :
      (node.children.set i changed).map (fun inner => inner.pfx.inner) =
        node.children.map fun inner => inner.pfx.inner :=
    map_set_of_eq located (congrArg UnescapedRoute.inner samePrefix)
  have childMember : child ∈ node.children := mem_of_getElem? located
  have childSuffix := param.suffixes child childMember
  refine ⟨?_, ?_, ?_, ?_⟩
  · intro inner member
    rw [children] at member
    rcases mem_or_eq_of_mem_set member with old | rfl
    · exact param.suffixes inner old
    · refine ⟨?_, ?_, ?_⟩
      · rw [samePrefix]
        exact childSuffix.nonempty
      · rw [samePrefix]
        exact childSuffix.segment
      · exact ends
  · apply List.Pairwise.of_map (fun inner : Node T => inner.pfx.inner)
      (S := fun first second => second.length ≤ first.length)
      (fun _ _ shorter => shorter)
    rw [children, sameBytes]
    exact param.descending.map _ fun _ _ shorter => shorter
  · rw [children, sameBytes]
    exact param.distinct
  · intro slashOnly inner member
    rw [children] at member
    rcases mem_or_eq_of_mem_set member with old | rfl
    · exact param.slashOnly slashOnly inner old
    · rw [samePrefix]
      exact param.slashOnly slashOnly child childMember

/-- A suffix child goes in front of the shorter ones. -/
theorem descending_addSuffixChild {items : List (Node T)}
    (descending : items.Pairwise fun first second =>
      second.pfx.inner.length ≤ first.pfx.inner.length) :
    let i := Lib.partitionPoint
      (fun other => decide (new.pfx.inner.length ≤ other.pfx.inner.length))
      items
    (items.take i ++ new :: items.drop i).Pairwise fun first second =>
      second.pfx.inner.length ≤ first.pfx.inner.length := by
  obtain ⟨before, behind⟩ := @Lib.partitionPoint_cuts _ items
    (fun other => decide (new.pfx.inner.length ≤ other.pfx.inner.length))
    (descending.imp fun shorter => by simpa using (Nat.le_trans · shorter))
  simp only [decide_eq_true_eq, decide_eq_false_iff_not, Nat.not_le] at before behind
  refine pairwise_append.mpr ⟨descending.take, pairwise_cons.mpr ⟨?_, descending.drop⟩, ?_⟩
  · intro other member
    exact Nat.le_of_lt (behind other member)
  · intro first inFront second inBack
    rcases mem_cons.mp inBack with rfl | later
    · exact before first inFront
    · exact Nat.le_trans (Nat.le_of_lt (behind second later)) (before first inFront)

theorem ParamOrder.addSuffixChild {hasSuffix : Bool}
    (param : ParamOrder node hasSuffix) (newSuffix : IsSuffix new)
    (notYet : ∀ child ∈ node.children, child.pfx.inner ≠ new.pfx.inner) :
    ParamOrder (node.addSuffixChild new) (hasSuffix || !emptyOrSlash new.pfx.inner) := by
  refine ⟨?_, descending_addSuffixChild param.descending, ?_, ?_⟩
  · intro child member
    rcases mem_addSuffixChild.mp member with rfl | old
    · exact newSuffix
    · exact param.suffixes child old
  · rw [Node.addSuffixChild, (perm_middle.map _).nodup_iff, map_cons, take_append_drop, nodup_cons]
    refine ⟨?_, param.distinct⟩
    simp_all
  · intro slashOnly child member
    rw [Bool.or_eq_false_iff, Bool.not_eq_false'] at slashOnly
    rcases mem_addSuffixChild.mp member with rfl | old
    · simpa [emptyOrSlash, newSuffix.nonempty] using slashOnly.2
    · exact param.slashOnly slashOnly.1 child old

theorem StaticOrder.of_firsts (canonical : ∀ mark ∈ node.pfx.marks, Canonical mark)
    (children : node.children = statics ++ wild) (firsts :
      statics.map (fun child => child.pfx.inner.head?) = node.indices.map some)
    (distinct : node.indices.Nodup) : StaticOrder node := by
  refine ⟨canonical, ?_, distinct⟩
  have sameLength : statics.length = node.indices.length := by
    simpa using congrArg List.length firsts
  rw [children, ← sameLength, take_left]
  exact firsts

theorem StaticOrder.statics_firsts (static : StaticOrder node) (forked : Forked node statics wild) :
    statics.map (fun child => child.pfx.inner.head?) = node.indices.map some := by
  rw [← forked.take_statics]
  exact static.firsts

/-- A child is replaced by one that takes its place in the order. -/
theorem putChild_tidied (ordered : WellOrdered node) (located : node.children[i]? = some child)
    (first : node.isWild = false → i < node.indices.length →
      changed.pfx.inner.head? = child.pfx.inner.head?)
    (suffix : node.isParam = true → changed.pfx = child.pfx ∧ (child.children = [] →
      child.pfx.inner.getLast? = some slash ∨
        changed.children = [] ∧ (child.value ≠ none → changed.value ≠ none)))
    (tidied : Tidied child changed) : Tidied node (node.putChild i changed) := by
  have childMember := mem_of_getElem? located
  refine ⟨Everywhere.mk ⟨?_, ?_⟩ (ordered.set tidied.ordered), fun valued =>
    Everywhere.mk ?_ (valued.set (tidied.valued (valued.child childMember)))⟩
  · intro notWild
    have static := ordered.here.static notWild
    refine ⟨static.canonical, ?_, static.distinct⟩
    by_cases inside : i < node.indices.length
    · have sameFirsts := @map_set_of_eq _ _ _ (fun child : Node T => child.pfx.inner.head?) _ _ _
        ((List.getElem?_take_of_lt inside).trans located) (first notWild inside)
      rw [putChild, take_set]
      exact sameFirsts.trans static.firsts
    · rw [putChild, take_set_of_le (Nat.not_lt.mp inside)]
      exact static.firsts
  · intro hasSuffix kind
    change node.nodeType = _ at kind
    have param := ordered.here.param hasSuffix kind
    obtain ⟨samePrefix, leaf⟩ := suffix (by rw [Node.isParam, kind])
    apply param.set located samePrefix _ rfl
    rw [samePrefix]
    rcases (param.suffixes child childMember).ends with slashed | noChildren
    · exact Or.inl slashed
    · exact (leaf noChildren).imp_right And.left
  · intro isParam inner member
    rcases mem_or_eq_of_mem_set member with old | rfl
    · exact valued.here isParam inner old
    · obtain ⟨samePrefix, leaf⟩ := suffix isParam
      obtain ⟨hasSuffix, kind⟩ := nodeType_of_isParam isParam
      rw [samePrefix]
      rcases valued.here isParam child childMember with slashed | value
      · exact Or.inl slashed
      · rcases ((ordered.here.param hasSuffix kind).suffixes child childMember).ends with
          slashed | noChildren
        · exact Or.inl slashed
        · exact (leaf noChildren).imp_right fun kept => kept.2 value

theorem rotate_tidied {j : Nat} (ordered : WellOrdered node) (notWild : node.isWild = false)
    (bound : j ≤ i) (inside : i < node.indices.length) :
    Tidied node { node with
      children := rotateRight node.children j i
      indices := rotateRight node.indices j i } := by
  have static := ordered.here.static notWild
  have sameLength : (node.children.take node.indices.length).length = node.indices.length := by
    simpa using congrArg List.length static.firsts
  have insideChildren : i < node.children.length := by grind
  have cut : rotateRight node.children j i =
      rotateRight (node.children.take node.indices.length) j i ++
        node.children.drop node.indices.length := by
    conv_lhs => rw [← take_append_drop node.indices.length node.children]
    exact rotateRight_append _ bound (by omega)
  have sameMembers := perm_rotateRight bound insideChildren
  refine ⟨Everywhere.mk ?_ fun inner member => ordered.child (sameMembers.mem_iff.mp member),
    fun valued => wellValued_of_not_isWild notWild fun inner member =>
      valued.child (sameMembers.mem_iff.mp member)⟩
  apply Ordered.of_static (by exact notWild)
  apply StaticOrder.of_firsts (by exact static.canonical) cut
  · rw [map_rotateRight, map_rotateRight, static.firsts]
  · exact (perm_rotateRight bound inside).nodup_iff.mpr static.distinct

/-- The last child has no part in the order of the static children. -/
theorem lastChild_tidied {others : List (Node T)} (shaped : WellShaped node)
    (ordered : WellOrdered node) (notWild : node.isWild = false)
    (flagged : node.wildChild = true) (children : node.children = others ++ [child])
    (tidied : Tidied child.bump changed) :
    Tidied node { node with children := others ++ [changed] } := by
  obtain ⟨_, statics, wild, forked⟩ := shaped.here.forked notWild
  obtain ⟨located, put⟩ := putChild_last children changed
  rw [← put]
  refine putChild_tidied ordered located (fun _ inside => ?_) (fun isParam => ?_)
    tidied.of_bump
  · rw [← forked.indices, (forked.lastChild flagged children).1] at inside
    exact absurd inside (Nat.lt_irrefl _)
  · simp [not_isParam_of_not_isWild notWild] at isParam

theorem StaticOrder.first {b : UInt8}
    (static : StaticOrder node) (index : node.indices[i]? = some b)
    (located : node.children[i]? = some child) :
    child.pfx.inner.head? = some b := by
  have inside : i < node.indices.length := (List.getElem?_eq_some_iff.mp index).1
  have same :
      ((node.children.take node.indices.length).map
          fun child => child.pfx.inner.head?)[i]? =
        (node.indices.map some)[i]? := by
    rw [static.firsts]
  rw [List.getElem?_map, List.getElem?_map, List.getElem?_take_of_lt inside, located, index] at same
  exact Option.some.inj same

/-- The child behind an index byte starts with the mark of that byte. -/
theorem StaticOrder.marks_head {mark : Mark} (static : StaticOrder node)
    (index : node.indices[i]? = some mark.1) (located : node.children[i]? = some child)
    (childStatic : StaticOrder child) (canonical : Canonical mark) :
    child.pfx.marks.head? = some mark := by
  have first := static.first index located
  rw [← child.pfx.map_fst_marks, List.head?_map, Option.map_eq_some_iff] at first
  obtain ⟨other, isFirst, sameByte⟩ := first
  have otherCanonical := childStatic.canonical other (mem_of_head? isFirst)
  rw [isFirst, otherCanonical.eq_of_fst canonical sameByte]

/-- A static child with a new first byte goes behind the other static children. -/
theorem addStatic_tidied {b : UInt8} {pfx : UnescapedRoute} (ordered : WellOrdered node)
    (notWild : node.isWild = false) (forked : Forked node statics wild) (notYet : b ∉ node.indices)
    (first : child.pfx.inner.head? = some b) (tidied : Tidied (fresh pfx) child) :
    Tidied node { node with
      children := statics ++ child :: wild
      indices := node.indices ++ [b] } := by
  have static := ordered.here.static notWild
  refine ⟨Everywhere.mk ?_ (ordered.between forked.children tidied.ordered), fun valued =>
    wellValued_of_not_isWild notWild
      (valued.between forked.children (tidied.valued (wellValued_leaf rfl)))⟩
  apply Ordered.of_static (by exact notWild)
  apply StaticOrder.of_firsts (by exact static.canonical) (by exact append_cons ..)
  · rw [map_append, map_append, static.statics_firsts forked, map_singleton, map_singleton, first]
  · rw [perm_append_comm.nodup_iff, singleton_append, nodup_cons]
    exact ⟨notYet, static.distinct⟩

/-- A new suffix takes its place among the suffixes of a parameter. -/
theorem addSuffix_tidied {hasSuffix : Bool} {suffix : UnescapedRoute} (ordered : WellOrdered node)
    (kind : node.nodeType = .param hasSuffix) (isSuffix : IsSuffix new)
    (notYet : ∀ child ∈ node.children, child.pfx.inner ≠ new.pfx.inner)
    (ends : new.pfx.inner.getLast? = some slash ∨ new.value ≠ none)
    (tidied : Tidied (fresh suffix) new) :
    Tidied node { node.addSuffixChild new with
      nodeType := .param (hasSuffix || !emptyOrSlash new.pfx.inner) } := by
  have param := (ordered.here.param hasSuffix kind).addSuffixChild isSuffix notYet
  refine ⟨Everywhere.mk (Ordered.of_param rfl { param with })
    (ordered.addSuffixChild tidied.ordered), fun valued =>
      Everywhere.mk ?_ (valued.addSuffixChild (tidied.valued (wellValued_leaf rfl)))⟩
  intro _ inner member
  rcases mem_addSuffixChild.mp member with rfl | old
  · exact ends
  · exact valued.here (by rw [Node.isParam, kind]) inner old

theorem Planted.tidied (planted : Planted names val node marks changed stored)
    (shaped : WellShaped node) (ordered : WellOrdered node)
    (notWild : node.isWild = false) (fit : Fit false marks) :
    Tidied node changed := by
  cases planted with
  | refused irregular => exact absurd irregular fit.not_irregular
  | wild _ hung => exact hung.tidied shaped ordered notWild fit
  | @static _ pfx marks _ _ plain hung =>
    obtain ⟨_, statics, wild, forked⟩ := shaped.here.forked notWild
    have static := ordered.here.static notWild
    have startShaped : WellShaped { node with pfx := pfx } := by
      apply Everywhere.mk
      · exact Shaped.static (by exact notWild) (by exact plain) { forked with }
      · exact shaped.children
    have startOrdered : WellOrdered { node with pfx := pfx } := by
      apply Everywhere.mk
      · apply Ordered.of_static (by exact notWild)
        exact ⟨fit.canonical plain, static.firsts, static.distinct⟩
      · exact ordered.children
    have tidied := hung.tidied startShaped startOrdered notWild (fit.of_plain_append plain)
    exact ⟨tidied.ordered, fun valued =>
      tidied.valued (Everywhere.mk valued.here valued.children)⟩

theorem Planted.first {mark : Mark} (planted :
      Planted names val (fresh UnescapedRoute.empty) (mark :: marks) child stored)
    (plain : Plain mark) (fit : Fit false (mark :: marks)) :
    child.pfx.inner.head? = some mark.1 := by
  rcases planted.of_plain plain with ⟨irregular, _⟩ | ⟨pfx, bytes, rest, first, _, _, hung⟩
  · exact absurd irregular fit.not_irregular
  · have samePrefix : child.pfx = pfx := hung.pfx_eq
    rw [samePrefix, first, List.head?_cons]

theorem suffix_cut (canonical : ∀ mark ∈ child.pfx.marks, Canonical mark)
    (fit : Fit true rest) (sameText :
      child.pfx.inner = (rest.map Prod.fst).take (terminatorOf (rest.map Prod.fst))) :
    rest = child.pfx.marks ++ rest.drop (terminatorOf (rest.map Prod.fst)) ∧
      IsSegment child.pfx.inner ((rest.drop (terminatorOf (rest.map Prod.fst))).map Prod.fst) := by
  have whole : Fit true
      (rest.take (terminatorOf (rest.map Prod.fst)) ++
        rest.drop (terminatorOf (rest.map Prod.fst))) := by
    rw [take_append_drop]
    exact fit
  have childMarks : child.pfx.marks = rest.take (terminatorOf (rest.map Prod.fst)) := by
    apply eq_of_canonical canonical (whole.canonical (plain_of_fit_true fit))
    rw [child.pfx.map_fst_marks, sameText, map_take]
  refine ⟨?_, ?_⟩
  · rw [childMarks, take_append_drop]
  · rw [sameText, map_drop]
    exact isSegment_take_drop _

/-- What a route that goes into a suffix child has in front. -/
theorem Takes.suffix (takes : Takes node (node.pfx.marks ++ rest)) (shaped : WellShaped node)
    (ordered : WellOrdered node) (isParam : node.isParam = true) (member : child ∈ node.children)
    (sameText : child.pfx.inner = (rest.map Prod.fst).take (terminatorOf (rest.map Prod.fst))) :
    child.isWild = false ∧ Fit true rest ∧
      rest = child.pfx.marks ++ rest.drop (terminatorOf (rest.map Prod.fst)) ∧
      IsSegment child.pfx.inner ((rest.drop (terminatorOf (rest.map Prod.fst))).map Prod.fst) := by
  obtain ⟨c, letter, marks, _, _, static⟩ := shaped.here.param_children isParam
  have fit : Fit true rest := takes.behindParam letter marks
  have childStatic : child.isWild = false := isWild_of_static (static child member)
  have canonical := ((ordered.child member).here.static childStatic).canonical
  exact ⟨childStatic, fit, suffix_cut canonical fit sameText⟩

theorem Grown.tidied (grown : Grown names val node marks changed stored)
    (shaped : WellShaped node) (ordered : WellOrdered node)
    (takes : Takes node marks) : Tidied node changed := by
  induction grown with
  | refused => exact .refl ordered
  | @fork node changed marks common stored notWild shorter isPrefix differs _
      ih =>
    have forked := fork_tidied ordered notWild shorter
    exact forked.trans (ih (fork_wellShaped shaped notWild shorter) forked.ordered
      (takes.fork shorter differs))
  | value => exact .store ordered _ _ _
  | @static node child changed mark rest i j stored notWild plainMark index
      located bound below ih =>
    obtain ⟨plain, statics, wild, forked⟩ := shaped.here.forked notWild
    have static := ordered.here.static notWild
    have fit : Fit false (mark :: rest) := takes.behind plain
    have childMember : child ∈ node.children := mem_of_getElem? located
    have tidied : Tidied child.bump changed :=
      ih (wellShaped_bump (shaped.child childMember))
        (wellOrdered_bump (ordered.child childMember)) (Or.inl fit)
    have childStatic : child.isWild = false := isWild_of_static (forked.static_at index located)
    have markCanonical : Canonical mark :=
      @Fit.canonical _ [mark] _ fit (by simpa using plainMark) mark (by simp)
    have childHead : child.pfx.marks.head? = some mark :=
      static.marks_head index located ((ordered.child childMember).here.static childStatic)
        markCanonical
    have sameFirst : changed.pfx.inner.head? = child.pfx.inner.head? := by
      rw [static.first index located]
      exact below.head_eq childHead
    have put := putChild_tidied ordered located (fun _ _ => sameFirst)
      (fun isParam => absurd isParam (by simp [not_isParam_of_not_isWild notWild])) tidied.of_bump
    exact put.trans (rotate_tidied put.ordered notWild bound (List.getElem?_eq_some_iff.mp index).1)
  | @newStatic node child statics wild mark rest j stored notWild forked
      plainMark notYet bound planted =>
    obtain ⟨plain, _⟩ := shaped.here.forked notWild
    have fit : Fit false (mark :: rest) := takes.behind plain
    have tidied : Tidied (fresh UnescapedRoute.empty) child :=
      planted.tidied (fresh_wellShaped (by simp)) (fresh_wellOrdered (by simp)) rfl fit
    have added := addStatic_tidied ordered notWild forked notYet (planted.first plainMark fit)
      tidied
    exact added.trans (rotate_tidied added.ordered notWild bound (by simp [forked.indices]))
  | @wild node child changed others rest stored notWild flagged children
      _ _ _ ih =>
    obtain ⟨plain, _⟩ := shaped.here.forked notWild
    have childMember : child ∈ node.children := by
      rw [children]
      simp
    apply lastChild_tidied shaped ordered notWild flagged children
    exact ih (wellShaped_bump (shaped.child childMember))
      (wellOrdered_bump (ordered.child childMember))
      (Or.inl (takes.behind plain))
  | @wildRefused node child others marks notWild flagged children =>
    have childMember : child ∈ node.children := by
      rw [children]
      simp
    apply lastChild_tidied shaped ordered notWild flagged children
    exact .refl (wellOrdered_bump (ordered.child childMember))
  | newWild notWild _ _ hung =>
    obtain ⟨plain, _⟩ := shaped.here.forked notWild
    exact hung.tidied shaped ordered notWild (takes.behind plain)
  | @suffix node child changed rest i stored isParam located sameText below
      ih =>
    have childMember : child ∈ node.children := mem_of_getElem? located
    obtain ⟨childStatic, fit, cut, segment⟩ :=
      takes.suffix shaped ordered isParam childMember sameText
    have samePrefix : changed.pfx = child.pfx := below.pfx_eq ⟨_, cut.symm⟩
    have tidied : Tidied child.bump changed :=
      ih (wellShaped_bump (shaped.child childMember)) (wellOrdered_bump (ordered.child childMember))
        (Or.inr ⟨fit, _, cut, segment⟩)
    -- Behind a suffix without a slash at its end there is nothing.
    have ends : changed.pfx.inner.getLast? = some slash ∨ rest = child.pfx.marks := by
      rw [samePrefix]
      refine (getLast_of_isSegment segment).imp_right fun nothing => ?_
      rwa [nothing, append_nil] at cut
    refine putChild_tidied ordered located (fun notWild _ => ?_)
      (fun _ => ⟨samePrefix, fun leaf => ?_⟩) tidied.of_bump
    · simp [not_isParam_of_not_isWild notWild] at isParam
    · rw [← samePrefix]
      exact ends.imp_right fun same =>
        ⟨below.children_of_exact (by exact same) (by exact childStatic) (by exact leaf),
          below.value_of_exact same⟩
  | @newSuffix node below suffix hasSuffix rest stored kind nonempty plain
      segment notYet hung =>
    obtain ⟨c, letter, marks, _⟩ := shaped.here.param_children (by rw [Node.isParam, kind])
    have fit : Fit true (suffix.marks ++ rest) := takes.behindParam letter marks
    have tidied : Tidied (fresh suffix) below :=
      hung.tidied (fresh_wellShaped plain) (fresh_wellOrdered (fit.canonical plain)) rfl
        (fit.of_segment plain segment)
    have samePrefix : below.pfx = suffix := hung.pfx_eq
    rw [← samePrefix] at notYet ⊢
    exact addSuffix_tidied ordered kind (hung.isSuffix nonempty segment) notYet
      (hung.suffix_valued segment) tidied

/-! ## Pruned trees are ordered -/

theorem Pruned.eq_of_leaf {bytes : Bytes}
    {removed : Option T} (pruned : Pruned names node bytes changed removed)
    (leaf : node.children = []) : changed = node := by
  cases pruned with
  | kept => rfl
  | dropWild _ _ children => simp_all
  | dropStatic _ _ located => simp [leaf] at located
  | dropSuffix _ located => simp [leaf] at located
  | clear located | descend located => simp [leaf] at located

theorem Pruned.tidied {bytes : Bytes}
    {removed : Option T} (pruned : Pruned names node bytes changed removed)
    (shaped : WellShaped node) (ordered : WellOrdered node) : Tidied node changed := by
  induction pruned with
  | kept => exact .refl ordered
  | @dropStatic node child i notWild inside located _ _ =>
    obtain ⟨_, statics, wild, forked⟩ := shaped.here.forked notWild
    have static := ordered.here.static notWild
    have insideStatics : i < statics.length := by
      rw [forked.indices]
      exact inside
    have children : node.children.eraseIdx i = statics.eraseIdx i ++ wild := by
      rw [forked.children, eraseIdx_append_of_lt_length insideStatics]
    have firsts :
        (statics.eraseIdx i).map (fun child => child.pfx.inner.head?) =
          (node.indices.eraseIdx i).map some := by
      rw [← eraseIdx_map, ← eraseIdx_map, static.statics_firsts forked]
    refine ⟨Everywhere.mk ?_ fun inner member => ordered.child (mem_of_mem_eraseIdx member),
      fun valued => ?_⟩
    · apply Ordered.of_static (by exact notWild)
      exact StaticOrder.of_firsts static.canonical children firsts
        (static.distinct.sublist (eraseIdx_sublist _ _))
    · exact wellValued_of_not_isWild notWild fun inner member =>
        valued.child (mem_of_mem_eraseIdx member)
  | @dropWild node child others notWild flagged children _ _ =>
    obtain ⟨_, statics, wild, forked⟩ := shaped.here.forked notWild
    obtain ⟨rfl, rfl⟩ := forked.lastChild flagged children
    have static := ordered.here.static notWild
    refine ⟨Everywhere.mk ?_ (ordered.front children), fun valued =>
      wellValued_of_not_isWild notWild (valued.front children)⟩
    apply Ordered.of_static (by exact notWild)
    exact StaticOrder.of_firsts static.canonical (append_nil _).symm (static.statics_firsts forked)
      static.distinct
  | @dropSuffix node child i isParam located _ _ =>
    obtain ⟨hasSuffix, kind⟩ := nodeType_of_isParam isParam
    have param := ordered.here.param hasSuffix kind
    have fewer : (node.children.eraseIdx i).Sublist node.children := eraseIdx_sublist _ _
    refine ⟨Everywhere.mk ?_ fun inner member => ordered.child (fewer.subset member),
      fun valued => Everywhere.mk ?_ fun inner member => valued.child (fewer.subset member)⟩
    · apply Ordered.of_param (by exact kind)
      exact
        { suffixes := fun inner member =>
            param.suffixes inner (fewer.subset member)
          descending := param.descending.sublist fewer
          distinct := param.distinct.sublist (fewer.map _)
          slashOnly := fun slashOnly inner member =>
            param.slashOnly slashOnly inner (fewer.subset member) }
    · intro _ inner member
      exact valued.here isParam inner (fewer.subset member)
  | clear located _ someChildren =>
    exact putChild_tidied ordered located (fun _ _ => rfl)
      (fun _ => ⟨rfl, fun leaf => absurd leaf someChildren⟩)
      (.store (ordered.child (mem_of_getElem? located)) _ _ _)
  | @descend node child changed i bytes removed located below ih =>
    have childMember := mem_of_getElem? located
    refine putChild_tidied ordered located (fun _ _ => by rw [below.pfx_eq])
      (fun _ => ⟨below.pfx_eq, fun leaf => Or.inr ?_⟩)
      (ih (shaped.child childMember) (ordered.child childMember))
    rw [below.eq_of_leaf leaf]
    exact ⟨leaf, id⟩

end Order

/-! ## Regular histories -/

/-- The pattern of a text reads as it is stored, with one wildcard in a
segment at most and nothing behind a catch-all. -/
def IsRegular (text : Bytes) : Prop :=
  ∃ pieces, readPattern text = some pieces ∧ Unshifted pieces = true ∧
    regularFrom false (tokens pieces) = true

/-- The condition on one call: an inserted text that normalizes is a regular
pattern. -/
def Regular (_ : Node T) : Call T → Prop
  | .insert text _ =>
    ∀ normal, normalizeParams (UnescapedRoute.new text) = .ok normal → IsRegular text
  | .remove _ => True

theorem fit_of_isRegular {text : Bytes} {route : UnescapedRoute}
    {names : ParamRemapping} (regular : IsRegular text) (normalized :
      normalizeParams (UnescapedRoute.new text) = .ok (route, names)) :
    Fit false route.marks := by
  obtain ⟨pieces, reading, unshifted, isRegular⟩ := regular
  obtain ⟨reads, _, flags⟩ := normalizeParams_pattern reading unshifted normalized
  exact ⟨flags, tokens pieces, reads, isRegular⟩

theorem insert_tidied {self : Node T} {text : Bytes} {val : T}
    (rooted : Rooted self) (ordered : WellOrdered self)
    (regular : Regular self (.insert text val)) :
    Tidied self (self.insert text val).1 := by
  rcases insert_cases rooted.shaped rooted.notWild with
    ⟨unchanged, _⟩ | ⟨route, names, normalized, planted | ⟨_, grown⟩⟩
  · rw [unchanged]
    exact .refl ordered
  · have fit := fit_of_isRegular (regular _ normalized) normalized
    obtain ⟨_, _, node, planted, result⟩ := planted
    have tidied : Tidied self.bump node :=
      planted.tidied (wellShaped_bump rooted.shaped) (wellOrdered_bump ordered) rooted.notWild fit
    have sameType := (planted.wellShaped (wellShaped_bump rooted.shaped) rooted.notWild).2
    have static : StaticOrder node := by
      apply tidied.ordered.here.static
      rw [isWild, sameType]
      exact rooted.notWild
    rw [result]
    split
    · refine ⟨Everywhere.mk ?_ tidied.ordered.children, fun valued =>
        wellValued_of_not_isWild rfl (tidied.valued (wellValued_bump valued)).children⟩
      apply Ordered.of_static (by rfl)
      exact ⟨static.canonical, static.firsts, static.distinct⟩
    · exact tidied.of_bump
  · have fit := fit_of_isRegular (regular _ normalized) normalized
    exact (grown.tidied (wellShaped_bump rooted.shaped) (wellOrdered_bump ordered)
      (Or.inl fit)).of_bump

theorem empty_wellOrdered : WellOrdered (empty : Node T) := by
  apply Everywhere.leaf _ rfl
  apply Ordered.of_static rfl
  exact ⟨by simp [empty], rfl, nodup_nil⟩

theorem remove_tidied {self : Node T} (rooted : Rooted self)
    (ordered : WellOrdered self) (text : Bytes) :
    Tidied self (self.remove text).1 := by
  rcases remove_cases self text rooted.shaped with
    ⟨unchanged, _⟩ | ⟨route, names, _, ⟨_, _, result⟩ | ⟨_, pruned, _⟩⟩
  · rw [unchanged]
    exact .refl ordered
  · rw [result]
    split
    · exact ⟨empty_wellOrdered, fun _ => wellValued_leaf rfl⟩
    · exact .store ordered _ _ _
  · exact pruned.tidied rooted.shaped ordered

structure Sorted (tree : Node T) : Prop extends Rooted tree where
  ordered : WellOrdered tree

theorem run_sorted (calls : List (Call T)) (regular : Admits Regular calls) :
    Sorted (run calls) ∧ WellValued (run calls) := by
  apply @run_induction T Regular (fun _ tree => Sorted tree ∧ WellValued tree) _ _ calls regular
  · exact ⟨{ empty_rooted with ordered := empty_wellOrdered }, wellValued_leaf rfl⟩
  · intro calls next kept condition
    obtain ⟨sorted, valued⟩ := kept
    cases next with
    | insert text val =>
      have tidied := insert_tidied sorted.toRooted sorted.ordered condition
      exact ⟨{ insert_rooted sorted.toRooted text val with ordered := tidied.ordered },
        tidied.valued valued⟩
    | remove text =>
      have tidied := remove_tidied sorted.toRooted sorted.ordered text
      exact ⟨{ remove_rooted sorted.toRooted text with ordered := tidied.ordered },
        tidied.valued valued⟩

/-! ## The shape of every tree -/

def staticChildren (node : Node T) : List (Node T) :=
  if node.isParam then [] else node.children.filter fun child => !child.isWild

def suffixChildren (node : Node T) : List (Node T) :=
  if node.isParam then node.children.filter fun child => !child.isWild else []

/-- The index bytes are the distinct first bytes of the static children, a
wildcard child is there exactly when the flag says so and is the last child,
and the suffixes of a parameter descend in length. -/
structure KeepsShape (node : Node T) : Prop where
  indices : node.staticChildren.map (fun child => child.pfx.inner.head?) = node.indices.map some
  distinct : node.indices.Nodup
  wildChild : (∃ child ∈ node.children, child.isWild = true) ↔ node.wildChild = true
  wildLast : ∀ child ∈ node.children.dropLast, child.isWild = false
  descending :
    node.suffixChildren.Pairwise fun first second =>
      second.pfx.inner.length ≤ first.pfx.inner.length

theorem keepsShape_of_static {statics wild : List (Node T)}
    (notWild : node.isWild = false) (forked : Forked node statics wild)
    (static : StaticOrder node) : KeepsShape node := by
  have notParam := not_isParam_of_not_isWild notWild
  have staticsKept : ∀ child ∈ statics, child.isWild = false := by
    intro child member
    exact isWild_of_static (forked.static child member)
  have kept : statics.filter (fun child => !child.isWild) = statics := by simp_all
  refine ⟨?_, static.distinct, ?_, ?_, ?_⟩
  · rw [staticChildren, notParam, forked.children, filter_append, kept,
      filter_eq_nil_iff.mpr fun child member => by simp [forked.wild child member], append_nil]
    exact static.statics_firsts forked
  · rcases forked.wild_cases with ⟨unflagged, rfl⟩ | ⟨last, flagged, rfl, isWild⟩
    · rw [forked.children, unflagged]
      simpa using staticsKept
    · rw [forked.children, flagged]
      simp [isWild]
  · rw [forked.children]
    rcases forked.wild_cases with ⟨_, rfl⟩ | ⟨last, _, rfl, _⟩
    · rw [append_nil]
      exact fun child member => staticsKept child (mem_of_mem_dropLast member)
    · simp_all
  · rw [suffixChildren, notParam]
    exact List.Pairwise.nil

theorem keepsShape_of_wild (noStatics : node.staticChildren = []) (noIndices : node.indices = [])
    (noWild : node.wildChild = false) (static : ∀ child ∈ node.children, child.nodeType = .static)
    (descending : node.children.Pairwise fun first second =>
      second.pfx.inner.length ≤ first.pfx.inner.length) : KeepsShape node := by
  refine ⟨?_, ?_, ?_, ?_, ?_⟩
  · simp_all
  · simp_all
  · rw [noWild]
    refine ⟨?_, fun flagged => by cases flagged⟩
    intro present
    obtain ⟨child, member, isWild⟩ := present
    simp [isWild_of_static (static child member)] at isWild
  · intro child member
    exact isWild_of_static (static child (mem_of_mem_dropLast member))
  · unfold suffixChildren
    split
    · exact descending.sublist filter_sublist
    · exact List.Pairwise.nil

theorem keepsShape (shaped : Shaped node) (ordered : Ordered node) : KeepsShape node := by
  cases shaped with
  | static notWild _ forked => exact keepsShape_of_static notWild forked (ordered.static notWild)
  | param kind _ _ noIndices noWild static =>
    exact keepsShape_of_wild (by simp [staticChildren, Node.isParam, kind]) noIndices noWild
      static (ordered.param _ kind).descending
  | catchAll _ _ _ noIndices noWild noChildren =>
    exact keepsShape_of_wild (by simp [staticChildren, noChildren]) noIndices noWild
      (by simp [noChildren]) (by simp [noChildren])

theorem Sorted.keepsShape {tree : Node T} (sorted : Sorted tree) : Everywhere KeepsShape tree := by
  have shaped := sorted.shaped
  have ordered := sorted.ordered
  clear sorted
  induction shaped with
  | mk here _ ih =>
    apply Everywhere.mk
    · exact Node.keepsShape here ordered.here
    · intro child member
      exact ih child member (ordered.child member)

/-- Behind every regular history each node keeps its shape. -/
theorem run_keepsShape (calls : List (Call T))
    (regular : Admits Regular calls) : Everywhere KeepsShape (run calls) :=
  (run_sorted calls regular).1.keepsShape

theorem run_keepsShape_users :
    let calls : List (Call Nat) :=
      [.insert (bytes "/u/\x7bid\x7d") 7,
        .insert (bytes "/u/\x7bid\x7d.json") 8,
        .remove (bytes "/u/\x7bid\x7d")]
    Everywhere KeepsShape (run calls) := by
  intro calls
  apply run_keepsShape calls
  apply Admits.of_forall
  intro tree call member
  simp only [calls, mem_cons, not_mem_nil, or_false] at member
  rcases member with rfl | rfl | rfl
  · intro _ _
    exact ⟨(bytes "/u/").map Piece.byte ++ [Piece.param (bytes "id")],
      by decide +kernel, by decide +kernel, by decide +kernel⟩
  · intro _ _
    exact ⟨(bytes "/u/").map Piece.byte ++
        Piece.param (bytes "id") :: (bytes ".json").map Piece.byte,
      by decide +kernel, by decide +kernel, by decide +kernel⟩
  · trivial

/-- A catch-all in front of more text is refused when its node is already
there, indexed by a byte that its empty prefix does not have. -/
theorem refused_insert_breaks_shape :
    let calls : List (Call Nat) := [.insert (bytes "/x") 1, .insert (bytes "/y\x7b*a\x7db") 2]
    ¬ Everywhere KeepsShape (run calls) := by
  intro calls everywhere
  have unlike :
      (run calls).staticChildren.map (fun child => child.pfx.inner.head?) ≠
        (run calls).indices.map some := by
    decide +kernel
  exact unlike everywhere.here.indices

end Node

end Ophan.Router
