import Ophan.Router.Lookup

/-!
# Inserts and the table of a tree

An insert adds the suffixes of its route to those that the tree offers, and
nothing else.  So behind successful inserts of regular routes the table of the
tree is the one of its routes, whatever their order.
-/

namespace Ophan.Router

open List

universe u

variable {T : Type u}

/-- A text that stands directly behind a parameter of the route. -/
def Presents (routeTokens front : List Token) (text : Bytes) : Prop :=
  ∃ back, routeTokens = front ++ .param :: back ∧ suffixOf back = text ∧ text ≠ []

theorem Presents.behind {routeTokens front : List Token} {text : Bytes}
    (presents : Presents routeTokens front text) (label : List Token) :
    Presents (label ++ routeTokens) (label ++ front) text := by
  obtain ⟨back, rfl, isText, nonempty⟩ := presents
  exact ⟨back, by rw [append_assoc], isText, nonempty⟩

namespace Node

/-! ## Offers of a changed tree -/

section Widens

variable {node changed result child : Node T}
variable {routeTokens : List Token}

/-- What was on offer stays, and what comes to it is presented by the route. -/
structure Widening (routeTokens : List Token) (before after : List Token → Bytes → Prop) :
    Prop where
  gained : ∀ {front : List Token} {text : Bytes},
    after front text → before front text ∨ Presents routeTokens front text
  kept : ∀ {front : List Token} {text : Bytes}, before front text → after front text

abbrev Widens (node changed : Node T) (routeTokens : List Token) : Prop :=
  Widening routeTokens (Offers node) (Offers changed)

abbrev WidensBelow (node changed : Node T) (routeTokens : List Token) : Prop :=
  Widening routeTokens node.tableBelow.offers changed.tableBelow.offers

section

variable {before before' after : List Token → Bytes → Prop}

theorem Widening.of_iff (same : ∀ front text, after front text ↔ before front text) :
    Widening routeTokens before after :=
  ⟨fun offered => Or.inl ((same _ _).mp offered), (same _ _).mpr⟩

theorem Widening.of_before (widens : Widening routeTokens before' after)
    (same : ∀ front text, before' front text ↔ before front text) :
    Widening routeTokens before after :=
  ⟨fun offered => (widens.gained offered).imp_left (same _ _).mp,
    fun offered => widens.kept ((same _ _).mpr offered)⟩

end

theorem WidensBelow.of_children (same : result.children = node.children) :
    WidensBelow node result routeTokens :=
  .of_iff fun _ _ => by rw [tableBelow, tableBelow, same]

theorem mem_set_of_located {items : List (Node T)} {i : Nat}
    (located : items[i]? = some child) : changed ∈ items.set i changed := by
  have inside := (List.getElem?_eq_some_iff.mp located).1
  exact mem_set inside changed

theorem mem_or_mem_set {items : List (Node T)} {i : Nat} {inner : Node T}
    (located : items[i]? = some child) (member : inner ∈ items) :
    inner = child ∨ inner ∈ items.set i changed := by
  obtain ⟨k, found⟩ := mem_iff_getElem?.mp member
  by_cases same : k = i
  · simp_all
  · right
    apply mem_of_getElem? (i := k)
    grind

theorem WidensBelow.of_replaced {i : Nat} (widens : Widens child changed routeTokens)
    (located : node.children[i]? = some child)
    (same : result.children.Perm (node.children.set i changed)) :
    WidensBelow node result routeTokens := by
  refine ⟨?_, ?_⟩
  · intro front text offered
    obtain ⟨inner, member, inside⟩ := offered
    rcases mem_or_eq_of_mem_set (same.mem_iff.mp member) with isOld | rfl
    · exact Or.inl ⟨inner, isOld, inside⟩
    · exact (widens.gained inside).imp_left fun before => ⟨child, mem_of_getElem? located, before⟩
  · intro front text offered
    obtain ⟨inner, member, inside⟩ := offered
    rcases mem_or_mem_set located member with rfl | stays
    · exact ⟨changed, same.mem_iff.mpr (mem_set_of_located located), widens.kept inside⟩
    · exact ⟨inner, same.mem_iff.mpr stays, inside⟩

theorem WidensBelow.of_added {new : Node T} (same : result.children.Perm (new :: node.children))
    (presents : ∀ {front : List Token} {text : Bytes},
      Offers new front text → Presents routeTokens front text) :
    WidensBelow node result routeTokens := by
  refine ⟨?_, ?_⟩
  · intro front text offered
    obtain ⟨inner, member, inside⟩ := offered
    rcases mem_cons.mp (same.mem_iff.mp member) with rfl | isOld
    · exact Or.inr (presents inside)
    · exact Or.inl ⟨inner, isOld, inside⟩
  · intro front text offered
    obtain ⟨inner, member, inside⟩ := offered
    exact ⟨inner, same.mem_iff.mpr (mem_cons_of_mem _ member), inside⟩

theorem WidensBelow.widens (below : WidensBelow node result routeTokens)
    (notWild : node.isWild = false) (sameWild : result.isWild = node.isWild)
    (sameLabel : result.label = node.label) :
    Widens node result (node.label ++ routeTokens) := by
  have notParam := not_isParam_of_not_isWild notWild
  have stillNotParam : result.isParam = false := not_isParam_of_not_isWild (sameWild.trans notWild)
  refine ⟨?_, ?_⟩
  · intro front text offered
    obtain ⟨rest, isFront, inside⟩ := (offers_of_not_param stillNotParam).mp offered
    rw [sameLabel] at isFront
    rcases below.gained inside with before | presents
    · exact Or.inl ((offers_of_not_param notParam).mpr ⟨rest, isFront, before⟩)
    · rw [isFront]
      exact Or.inr (presents.behind _)
  · intro front text offered
    obtain ⟨rest, isFront, inside⟩ := (offers_of_not_param notParam).mp offered
    rw [← sameLabel] at isFront
    exact (offers_of_not_param stillNotParam).mpr ⟨rest, isFront, below.kept inside⟩

theorem WidensBelow.widens_param {hasSuffix stillSuffix : Bool}
    (below : WidensBelow node result routeTokens) (kind : node.nodeType = .param hasSuffix)
    (stillParam : result.nodeType = .param stillSuffix)
    (texts : ∀ inner ∈ result.children,
      (∃ old ∈ node.children, old.pfx.inner = inner.pfx.inner) ∨
        (suffixOf routeTokens = inner.pfx.inner ∧ inner.pfx.inner ≠ []))
    (keptTexts : ∀ inner ∈ node.children,
      ∃ old ∈ result.children, old.pfx.inner = inner.pfx.inner) :
    Widens node result (.param :: routeTokens) := by
  refine ⟨?_, ?_⟩
  · intro front text offered
    rcases (offers_of_param stillParam).mp offered with
      ⟨rfl, inner, member, rfl⟩ | ⟨rest, rfl, inside⟩
    · rcases texts inner member with before | ⟨isText, nonempty⟩
      · exact Or.inl ((offers_of_param kind).mpr (Or.inl ⟨rfl, before⟩))
      · exact Or.inr ⟨routeTokens, rfl, isText, nonempty⟩
    · rcases below.gained inside with before | presents
      · exact Or.inl ((offers_of_param kind).mpr (Or.inr ⟨rest, rfl, before⟩))
      · exact Or.inr (presents.behind [.param])
  · intro front text offered
    rcases (offers_of_param kind).mp offered with
      ⟨rfl, inner, member, rfl⟩ | ⟨rest, rfl, inside⟩
    · exact (offers_of_param stillParam).mpr (Or.inl ⟨rfl, keptTexts inner member⟩)
    · exact (offers_of_param stillParam).mpr (Or.inr ⟨rest, rfl, below.kept inside⟩)

theorem offers_congr {front : List Token} {text : Bytes} (sameLabel : result.label = node.label)
    (sameKind : result.isParam = node.isParam) (sameChildren : result.children = node.children) :
    Offers result front text ↔ Offers node front text := by
  rw [offers_iff, offers_iff, sameLabel, sameKind]
  simp only [tableBelow, sameChildren]

theorem offers_bump {front : List Token} {text : Bytes} :
    Offers node.bump front text ↔ Offers node front text := offers_congr rfl rfl rfl

theorem Widens.of_bump (widens : Widens node.bump changed routeTokens) :
    Widens node changed routeTokens := widens.of_before fun _ _ => offers_bump

end Widens

/-! ## Hung routes -/

section Inserted

variable {names : ParamRemapping} {val : T}

variable {node changed : Node T} {front routeTokens : List Token} {text : Bytes}

theorem suffixOf_segment {suffix : UnescapedRoute} {rest : List Mark}
    {restTokens : List Token} (nonempty : suffix.inner ≠ [])
    (segment : IsSegment suffix.inner (rest.map Prod.fst)) (reads : Reads rest restTokens) :
    suffixOf (suffix.inner.map Token.byte ++ restTokens) = suffix.inner := by
  by_cases noRest : rest = []
  · have noTokens : restTokens = [] := by
      rw [noRest] at reads
      exact reads.unique Reads.nil
    have cut := dropLast_append_getLast nonempty
    rw [← cut] at segment
    rw [noTokens, append_nil]
    exact suffixOf_bytes (segment.slash_not_mem (by simp))
  · obtain ⟨front, whole, noSlash⟩ := segment.ends (mt map_eq_nil_iff.mp noRest)
    rw [whole]
    exact suffixOf_slash noSlash restTokens

theorem WidensBelow.of_last_added {result new : Node T}
    (children : result.children = node.children ++ [new])
    (presents : ∀ {front : List Token} {text : Bytes},
      Offers new front text → Presents routeTokens front text) :
    WidensBelow node result routeTokens :=
  .of_added (children ▸ perm_append_singleton ..) presents

variable {marks : List Mark} {stored : Bool}

theorem Hung.isWild_eq (hung : Hung names val node marks changed stored) :
    changed.isWild = node.isWild := by
  rw [isWild, hung.nodeType_eq]
  rfl

/-- What is hung at a node without children is presented behind its prefix. -/
theorem Hung.presents (hung : Hung names val node marks changed stored)
    (below : WidensBelow node changed routeTokens) (noChildren : node.children = [])
    (static : changed.isWild = false) (offered : Offers changed front text) :
    Presents (node.pfx.inner.map Token.byte ++ routeTokens) front text := by
  obtain ⟨rest, isFront, inside⟩ :=
    (offers_of_not_param (not_isParam_of_not_isWild static)).mp offered
  rw [label_of_static static, hung.pfx_eq] at isFront
  rcases below.gained inside with ⟨inner, member, _⟩ | presents
  · simp [noChildren] at member
  · rw [isFront]
    exact presents.behind _

theorem Hung.widensBelow (hung : Hung names val node marks changed stored)
    (reads : Reads marks routeTokens) :
    WidensBelow node changed routeTokens := by
  induction hung generalizing routeTokens with
  | value | refused => exact WidensBelow.of_children rfl
  | @static node child pfx b bytes marks stored noChildren _ _ first plain
      below ih =>
    obtain ⟨restTokens, rfl, restReads⟩ := reads.of_plain_append plain
    apply @WidensBelow.of_last_added _ _ _ _ child (by rw [noChildren]; rfl)
    intro front text offered
    rw [pfx.map_fst_marks]
    exact below.presents (ih restReads) rfl below.isWild_eq offered
  | staticRefused noChildren =>
    apply WidensBelow.of_last_added (by rw [noChildren]; rfl)
    intro front text offered
    exact absurd offered (not_offers_of_leaf rfl)
  | catchAll | param =>
    apply WidensBelow.of_last_added rfl
    intro front text offered
    exact absurd offered (not_offers_of_leaf rfl)
  | @suffix node below pfx suffix c marks stored _ letter pfxMarks nonempty
      plain segment hung ih =>
    rw [pfxMarks] at reads
    obtain ⟨suffixTokens, rfl, suffixReads⟩ := reads.of_letter_append letter
    obtain ⟨restTokens, rfl, restReads⟩ := suffixReads.of_plain_append plain
    rw [suffix.map_fst_marks]
    apply WidensBelow.of_last_added rfl
    intro front text offered
    rcases (offers_of_param (by rfl)).mp offered with
      ⟨rfl, inner, member, rfl⟩ | ⟨rest, rfl, inner, member, inside⟩
    · rw [mem_singleton] at member
      rw [member, hung.pfx_eq]
      exact ⟨_, rfl, suffixOf_segment nonempty segment restReads, nonempty⟩
    · rw [mem_singleton] at member
      rw [member] at inside
      exact (hung.presents (ih restReads) rfl hung.isWild_eq inside).behind [.param]

theorem Planted.presents {child : Node T} {mark : Mark} (planted :
      Planted names val (fresh UnescapedRoute.empty) (mark :: marks) child stored)
    (plain : Plain mark) (fit : Fit false (mark :: marks))
    (reads : Reads (mark :: marks) routeTokens) (offered : Offers child front text) :
    Presents routeTokens front text := by
  rcases planted.of_plain plain with ⟨irregular, _⟩ | ⟨pfx, _, rest, _, restPlain, cut, hung⟩
  · exact absurd irregular fit.not_irregular
  · rw [cut] at reads
    obtain ⟨restTokens, rfl, restReads⟩ := reads.of_plain_append restPlain
    rw [pfx.map_fst_marks]
    exact hung.presents (hung.widensBelow restReads) rfl hung.isWild_eq offered

/-! ## Grown trees -/

theorem offers_fork {common : Nat} (notWild : node.isWild = false) :
    Offers (node.fork common) front text ↔ Offers node front text := by
  have notParam := not_isParam_of_not_isWild notWild
  have forkStatic : (node.fork common).isWild = false := notWild
  have forkNotParam := not_isParam_of_not_isWild forkStatic
  rw [offers_of_not_param forkNotParam, offers_of_not_param notParam,
    label_of_static forkStatic, label_of_static notWild]
  have cut :
      node.pfx.inner.map Token.byte =
        (node.fork common).pfx.inner.map Token.byte ++
          (node.pfx.inner.drop common).map Token.byte := by
    rw [← map_append]
    exact congrArg (List.map Token.byte) (take_append_drop common _).symm
  constructor
  · intro offered
    obtain ⟨rest, rfl, child, member, inside⟩ := offered
    rw [fork, mem_singleton] at member
    rw [member, offers_of_not_param (by rfl), label_of_static (by rfl)] at inside
    obtain ⟨deeper, rfl, inner, innerMember, below⟩ := inside
    refine ⟨deeper, ?_, inner, innerMember, below⟩
    rw [cut, append_assoc]
    rfl
  · intro offered
    obtain ⟨rest, rfl, inner, innerMember, below⟩ := offered
    refine ⟨(node.pfx.inner.drop common).map Token.byte ++ rest, ?_, _, mem_singleton_self _, ?_⟩
    · rw [cut, append_assoc]
    · rw [offers_of_not_param (by rfl), label_of_static (by rfl)]
      exact ⟨rest, rfl, inner, innerMember, below⟩

/-- A suffix child is replaced by one with the same text. -/
theorem putSuffix_widens {child : Node T} {hasSuffix : Bool} {i : Nat}
    (kind : node.nodeType = .param hasSuffix) (located : node.children[i]? = some child)
    (samePrefix : changed.pfx = child.pfx) (widens : Widens child changed routeTokens) :
    Widens node { node with children := node.children.set i changed } (.param :: routeTokens) := by
  have replaced :
      WidensBelow node { node with children := node.children.set i changed } routeTokens :=
    .of_replaced widens located (List.Perm.refl _)
  apply replaced.widens_param kind (by exact kind)
  · intro inner member
    left
    rcases mem_or_eq_of_mem_set member with old | rfl
    · exact ⟨inner, old, rfl⟩
    · exact ⟨child, mem_of_getElem? located, by rw [samePrefix]⟩
  · intro inner member
    rcases mem_or_mem_set located member with rfl | stays
    · exact ⟨changed, mem_set_of_located located, by rw [samePrefix]⟩
    · exact ⟨inner, stays, rfl⟩

/-- A suffix child is added, with the text that the route has behind the parameter. -/
theorem addSuffix_widens {hasSuffix stillSuffix : Bool} (kind : node.nodeType = .param hasSuffix)
    (isText : suffixOf routeTokens = changed.pfx.inner) (nonempty : changed.pfx.inner ≠ [])
    (presents : ∀ {front : List Token} {text : Bytes},
      Offers changed front text → Presents routeTokens front text) :
    Widens node { node.addSuffixChild changed with nodeType := .param stillSuffix }
      (.param :: routeTokens) := by
  have added : WidensBelow node
      { node.addSuffixChild changed with nodeType := .param stillSuffix } routeTokens :=
    .of_added (perm_middle.trans (by rw [take_append_drop])) presents
  apply added.widens_param kind (by rfl)
  · intro inner member
    rcases mem_addSuffixChild.mp member with rfl | old
    · exact Or.inr ⟨isText, nonempty⟩
    · exact Or.inl ⟨inner, old, rfl⟩
  · intro inner member
    exact ⟨inner, mem_addSuffixChild.mpr (Or.inr member), rfl⟩

theorem Grown.widens (grown : Grown names val node marks changed stored)
    (shaped : WellShaped node) (ordered : WellOrdered node) (takes : Takes node marks)
    (reads : Reads marks routeTokens) : Widens node changed routeTokens := by
  induction grown generalizing routeTokens with
  | refused => exact .of_iff fun _ _ => Iff.rfl
  | @fork node changed marks common stored notWild shorter isPrefix differs _
      ih =>
    have widens :=
      ih (fork_wellShaped shaped notWild shorter)
        (fork_tidied ordered notWild shorter).ordered (takes.fork shorter differs) reads
    exact widens.of_before fun _ _ => offers_fork notWild
  | value => exact .of_iff fun _ _ => offers_congr rfl rfl rfl
  | @static node child changed mark rest i j stored notWild plainMark index
      located bound below ih =>
    obtain ⟨plain, _⟩ := shaped.here.forked notWild
    obtain ⟨restTokens, rfl, restReads⟩ := (reads_label shaped.here).mp reads
    have childMember : child ∈ node.children := mem_of_getElem? located
    have childWidens : Widens child changed restTokens :=
      (ih (wellShaped_bump (shaped.child childMember))
        (wellOrdered_bump (ordered.child childMember))
        (Or.inl (takes.behind plain)) restReads).of_bump
    apply WidensBelow.widens _ notWild (by rfl) (by rfl)
    exact .of_replaced childWidens located (perm_rotateRight_set changed bound located)
  | @newStatic node child statics wild mark rest j stored notWild forked
      plainMark notYet bound planted =>
    obtain ⟨plain, _⟩ := shaped.here.forked notWild
    obtain ⟨restTokens, rfl, restReads⟩ := (reads_label shaped.here).mp reads
    apply WidensBelow.widens _ notWild (by rfl) (by rfl)
    apply WidensBelow.of_added (forked.children ▸ perm_rotateRight_new _ _ _ bound)
    intro front text offered
    exact planted.presents plainMark (takes.behind plain) restReads offered
  | @wild node child changed others rest stored notWild flagged children
      _ _ _ ih =>
    obtain ⟨plain, _⟩ := shaped.here.forked notWild
    obtain ⟨restTokens, rfl, restReads⟩ := (reads_label shaped.here).mp reads
    obtain ⟨located, put⟩ := putChild_last children changed
    have childMember : child ∈ node.children := mem_of_getElem? located
    have childWidens : Widens child changed restTokens :=
      (ih (wellShaped_bump (shaped.child childMember))
        (wellOrdered_bump (ordered.child childMember))
        (Or.inl (takes.behind plain)) restReads).of_bump
    apply WidensBelow.widens _ notWild (by rfl) (by rfl)
    rw [← put]
    exact .of_replaced childWidens located (List.Perm.refl _)
  | @wildRefused node child others marks notWild flagged children =>
    have notParam := not_isParam_of_not_isWild notWild
    refine .of_iff fun front text => ?_
    rw [offers_of_not_param notParam, offers_of_not_param (by exact notParam)]
    simp [tableBelow, children, offers_bump, label, catchAllName, or_and_right, exists_or]
  | newWild notWild _ _ hung =>
    obtain ⟨restTokens, rfl, restReads⟩ := (reads_label shaped.here).mp reads
    apply (hung.widensBelow restReads).widens notWild hung.isWild_eq
    rw [label_of_static notWild, label_of_static (hung.isWild_eq.trans notWild), hung.pfx_eq]
  | @suffix node child changed rest i stored isParam located sameText below
      ih =>
    obtain ⟨hasSuffix, kind⟩ := nodeType_of_isParam isParam
    obtain ⟨restTokens, rfl, restReads⟩ := (reads_label shaped.here).mp reads
    have childMember : child ∈ node.children := mem_of_getElem? located
    obtain ⟨_, fit, cut, segment⟩ := takes.suffix shaped ordered isParam childMember sameText
    have samePrefix : changed.pfx = child.pfx := below.pfx_eq ⟨_, cut.symm⟩
    have childWidens : Widens child changed restTokens :=
      (ih (wellShaped_bump (shaped.child childMember))
        (wellOrdered_bump (ordered.child childMember))
        (Or.inr ⟨fit, _, cut, segment⟩) restReads).of_bump
    rw [label_of_param kind]
    exact putSuffix_widens kind located samePrefix childWidens
  | @newSuffix node below suffix hasSuffix rest stored kind nonempty plain
      segment notYet hung =>
    obtain ⟨routeRest, rfl, routeReads⟩ := (reads_label shaped.here).mp reads
    obtain ⟨restTokens, rfl, restReads⟩ := routeReads.of_plain_append plain
    have samePrefix : below.pfx = suffix := hung.pfx_eq
    rw [label_of_param kind, suffix.map_fst_marks]
    apply addSuffix_widens kind
    · rw [samePrefix]
      exact suffixOf_segment nonempty segment restReads
    · rwa [samePrefix]
    · exact hung.presents (hung.widensBelow restReads) rfl hung.isWild_eq

end Inserted

end Node

end Ophan.Router
