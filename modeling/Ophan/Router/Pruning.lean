import Ophan.Router.Frame

/-!
# What a removal does to the table of a tree

A removal takes out a route, and with it at most the text behind its last
parameter.  That such a text without a slash at its end is not left behind
alone is an invariant of the tree.
-/

namespace Ophan.Router

open List

universe u

variable {T : Type u}

namespace Node

variable {node changed : Node T}

/-! ## The child of a route -/

section Children

variable {node child other : Node T}

theorem label_head_of_wild (wild : child.isWild = true) :
    ∀ b, child.label.head? ≠ some (.byte b) := by
  intro b
  rcases kind_of_isWild wild with ⟨hasSuffix, kind⟩ | kind
  · rw [label_of_param kind]
    simp
  · rw [label, kind]
    simp

theorem label_head_of_static (notWild : child.isWild = false) (name : Bytes) :
    child.label.head? ≠ some (.catchAll name) := by
  rw [label_of_static notWild, List.head?_map]
  cases child.pfx.inner.head? with
  | none | some => simp

theorem eq_of_wild (shaped : WellShaped node) (notWild : node.isWild = false)
    (member : child ∈ node.children) (otherMember : other ∈ node.children)
    (wild : child.isWild = true) (otherWild : other.isWild = true) : child = other := by
  obtain ⟨_, statics, wilds, forked⟩ := shaped.here.forked notWild
  have inWilds : ∀ inner ∈ node.children, inner.isWild = true → inner ∈ wilds := by
    intro inner inChildren isWild
    rcases forked.mem_iff.mp inChildren with inStatics | inWild
    · simp [isWild_of_static (forked.static inner inStatics)] at isWild
    · exact inWild
  have inWild := inWilds child member wild
  have otherInWild := inWilds other otherMember otherWild
  rcases forked.wild_cases with ⟨_, rfl⟩ | ⟨last, _, rfl, _⟩
  · cases inWild
  · rw [mem_singleton.mp inWild, mem_singleton.mp otherInWild]

theorem eq_of_label_head (shaped : WellShaped node) (ordered : WellOrdered node)
    (notWild : node.isWild = false) (member : child ∈ node.children)
    (otherMember : other ∈ node.children)
    (same : child.label.head? = other.label.head?) : child = other := by
  obtain ⟨_, statics, wilds, forked⟩ := shaped.here.forked notWild
  have static := ordered.here.static notWild
  have wildHead : ∀ inner ∈ wilds, ∀ b, inner.label.head? ≠ some (.byte b) := by
    intro inner inWild
    exact label_head_of_wild (forked.wild inner inWild)
  have staticHead : ∀ inner ∈ statics, ∃ b, inner.label.head? = some (.byte b) ∧
      inner.pfx.inner.head? = some b := by
    intro inner inStatics
    obtain ⟨b, _, _, first⟩ := forked.begins shaped static inStatics
    refine ⟨b, ?_, first⟩
    rw [label_of_static (isWild_of_static (forked.static inner inStatics)), List.head?_map, first]
    rfl
  rcases forked.mem_iff.mp member with inStatics | inWild
  · obtain ⟨b, isHead, first⟩ := staticHead child inStatics
    rcases forked.mem_iff.mp otherMember with otherStatic | otherWild
    · obtain ⟨c, isOtherHead, otherFirst⟩ := staticHead other otherStatic
      have sameFirst : child.pfx.inner.head? = other.pfx.inner.head? := by simp_all
      have distinct : (statics.map fun inner => inner.pfx.inner.head?).Nodup := by
        rw [static.statics_firsts forked]
        exact static.distinct.map fun _ _ same => Option.some.inj same
      exact inj_on_of_nodup_map distinct inStatics otherStatic sameFirst
    · grind
  · rcases forked.mem_iff.mp otherMember with otherStatic | otherWild
    · grind
    · exact eq_of_wild shaped notWild member otherMember (forked.wild child inWild)
        (forked.wild other otherWild)

/-- A route that goes on below a node goes to this child. -/
def Under (node child : Node T) (routeTokens : List Token) : Prop :=
  if node.isParam then suffixOf routeTokens = child.pfx.inner
  else routeTokens.head? = child.label.head?

theorem suffix_of_param (ordered : WellOrdered node) (shaped : WellShaped node)
    (isParam : node.isParam = true) (member : child ∈ node.children) :
    IsSuffix child ∧ child.isWild = false := by
  obtain ⟨hasSuffix, kind⟩ := nodeType_of_isParam isParam
  obtain ⟨_, _, _, _, _, static⟩ := shaped.here.param_children isParam
  exact ⟨(ordered.here.param hasSuffix kind).suffixes child member,
    isWild_of_static (static child member)⟩

theorem isWild_of_not_isParam {node : Node T} (shaped : Shaped node)
    (notParam : node.isParam = false) (member : child ∈ node.children) :
    node.isWild = false := by
  cases wild : node.isWild with
  | false => rfl
  | true =>
    rcases kind_of_isWild wild with ⟨hasSuffix, kind⟩ | kind
    · simp [isParam_of_kind kind] at notParam
    · rw [shaped.children_of_catchAll kind] at member
      cases member

variable {routeTokens front : List Token} {names : ParamRemapping} {value : T}

section

variable (shaped : WellShaped node) (ordered : WellOrdered node) (member : child ∈ node.children)

include shaped ordered member

theorem label_ne_nil_of_mem : child.label ≠ [] := by
  cases isParam : node.isParam with
  | true =>
    obtain ⟨isSuffix, static⟩ := suffix_of_param ordered shaped isParam member
    exact label_ne_nil_of_suffix isSuffix static
  | false =>
    exact child_label_ne_nil shaped ordered
      (isWild_of_not_isParam shaped.here isParam member) member

theorem under_of_label {rest : List Token} (isRoute : routeTokens = child.label ++ rest)
    (ended : child.children = [] → rest = []) : Under node child routeTokens := by
  unfold Under
  by_cases isParam : node.isParam = true
  · obtain ⟨isSuffix, static⟩ := suffix_of_param ordered shaped isParam member
    rw [if_pos isParam, isRoute, label_of_static static]
    exact isSuffix.suffixOf_append ended
  · rw [if_neg isParam, isRoute,
      List.head?_append_of_ne_nil _ (label_ne_nil_of_mem shaped ordered member)]

theorem under_of_live (stored : child.table.live routeTokens names value) :
    Under node child routeTokens := by
  obtain ⟨rest, isTokens, below⟩ := (table_live (shaped.child member).here).mp stored
  exact under_of_label shaped ordered member isTokens fun leaf => tableBelow_of_leaf leaf below

theorem under_of_offers {text : Bytes} (offered : Offers child front text) (back : List Token) :
    Under node child (front ++ .param :: back) := by
  cases offered with
  | here childParam inside =>
    obtain ⟨hasSuffix, kind⟩ := nodeType_of_isParam childParam
    refine under_of_label shaped ordered member (by rw [label_of_param kind]; rfl) fun leaf => ?_
    simp [leaf] at inside
  | inner inside _ =>
    refine under_of_label shaped ordered member (append_assoc _ _ _) fun leaf => ?_
    simp [leaf] at inside

theorem eq_of_under (otherMember : other ∈ node.children) (under : Under node child routeTokens)
    (otherUnder : Under node other routeTokens) : child = other := by
  unfold Under at under otherUnder
  by_cases isParam : node.isParam = true
  · rw [if_pos isParam] at under otherUnder
    obtain ⟨hasSuffix, kind⟩ := nodeType_of_isParam isParam
    exact inj_on_of_nodup_map (ordered.here.param hasSuffix kind).distinct member
      otherMember (under.symm.trans otherUnder)
  · rw [if_neg isParam] at under otherUnder
    have notWild := isWild_of_not_isParam shaped.here (Bool.eq_false_iff.mpr isParam) member
    exact eq_of_label_head shaped ordered notWild member otherMember (under.symm.trans otherUnder)

theorem live_of_under (nonempty : routeTokens ≠ [])
    (under : Under node child routeTokens) (stored : node.tableBelow.live routeTokens names value) :
    child.table.live routeTokens names value := by
  rcases stored with ⟨isNil, _⟩ | ⟨other, otherMember, inside⟩
  · exact absurd isNil nonempty
  · have otherUnder := under_of_live shaped ordered otherMember inside
    rw [eq_of_under shaped ordered member otherMember under otherUnder]
    exact inside

end

theorem suffixOf_append_catchAll (front : List Token) (name : Bytes) :
    suffixOf (front ++ [.catchAll name]) = suffixOf front := by
  induction front with
  | nil => rfl
  | cons token front ih =>
    cases token with
    | byte b => rw [cons_append, suffixOf, suffixOf, ih]
    | param | catchAll => rfl

variable {name : Bytes}

theorem eq_of_under_catchAll (shaped : WellShaped node) (ordered : WellOrdered node)
    (member : child ∈ node.children) (otherMember : other ∈ node.children)
    {otherName : Bytes} (under : Under node child (front ++ [.catchAll name]))
    (otherUnder : Under node other (front ++ [.catchAll otherName])) :
    child = other := by
  by_cases isParam : node.isParam = true
  · apply eq_of_under shaped ordered member otherMember under
    unfold Under at otherUnder ⊢
    rw [if_pos isParam, suffixOf_append_catchAll] at otherUnder ⊢
    exact otherUnder
  · cases front with
    | cons token front =>
      apply eq_of_under shaped ordered member otherMember under
      unfold Under at otherUnder ⊢
      simp_all
    | nil =>
      unfold Under at under otherUnder
      rw [if_neg isParam] at under otherUnder
      have notWild := isWild_of_not_isParam shaped.here (Bool.eq_false_iff.mpr isParam) member
      have wild : ∀ {inner : Node T} {name : Bytes},
          ([.catchAll name] : List Token).head? = inner.label.head? → inner.isWild = true := by
        intro inner name isHead
        cases isWild : inner.isWild with
        | true => rfl
        | false => exact absurd isHead.symm (label_head_of_static isWild name)
      exact eq_of_wild shaped notWild member otherMember (wild under) (wild otherUnder)

theorem label_split {rest : List Token} (notCatchAll : node.nodeType ≠ .catchAll)
    (cut : front ++ [.catchAll name] = node.label ++ rest) :
    ∃ behind, front = node.label ++ behind ∧ rest = behind ++ [.catchAll name] := by
  rcases eq_nil_or_concat rest with rfl | ⟨behind, last, rfl⟩
  · exfalso
    rw [append_nil] at cut
    have inLabel : Token.catchAll name ∈ node.label := by
      rw [← cut]
      simp
    cases wild : node.isWild with
    | false =>
      rw [label_of_static wild] at inLabel
      simp at inLabel
    | true =>
      rcases kind_of_isWild wild with ⟨hasSuffix, kind⟩ | kind
      · rw [label_of_param kind] at inLabel
        simp at inLabel
      · exact notCatchAll kind
  · rw [concat_eq_append, ← append_assoc] at cut
    obtain ⟨isFront, isLast⟩ := append_inj' cut rfl
    simp_all

theorem catchAll_single {otherName : Bytes} {otherNames : ParamRemapping} {otherValue : T}
    (shaped : WellShaped node) (ordered : WellOrdered node)
    (stored : node.table.live (front ++ [.catchAll name]) names value)
    (otherStored : node.table.live (front ++ [.catchAll otherName]) otherNames
      otherValue) : otherName = name := by
  induction shaped generalizing front with
  | @mk node here below ih =>
    by_cases kind : node.nodeType = .catchAll
    · have isRoute := ((table_live_of_catchAll here kind).mp stored).1
      have isOther := ((table_live_of_catchAll here kind).mp otherStored).1
      have sameLast := (append_inj' (isRoute.trans isOther.symm) rfl).2
      cases sameLast
      rfl
    · obtain ⟨rest, cut, inside⟩ := (table_live here).mp stored
      obtain ⟨otherRest, otherCut, otherInside⟩ := (table_live here).mp otherStored
      obtain ⟨behind, isFront, rfl⟩ := label_split kind cut
      obtain ⟨otherBehind, otherFront, rfl⟩ := label_split kind otherCut
      have sameBehind : otherBehind = behind := append_cancel_left (otherFront.symm.trans isFront)
      subst sameBehind
      have shaped : WellShaped node := Everywhere.mk here below
      rcases inside with ⟨isNil, _⟩ | ⟨child, member, live⟩
      · simp at isNil
      · rcases otherInside with ⟨isNil, _⟩ | ⟨other, otherMember, otherLive⟩
        · simp at isNil
        · have same := eq_of_under_catchAll shaped ordered member otherMember
            (under_of_live shaped ordered member live)
            (under_of_live shaped ordered otherMember otherLive)
          subst same
          exact ih child member (ordered.child member) live otherLive

end Children

/-! ## The route that is taken out -/

/-- A node of the tree is spelled with these bytes. -/
inductive Spelled : Node T → List Token → Bytes → Prop
  | here {node : Node T} : Spelled node node.label node.pfx.inner
  | inner {node child : Node T} {front : List Token} {bytes : Bytes} :
      child ∈ node.children → Spelled child front bytes →
      Spelled node (node.label ++ front) (node.pfx.inner ++ bytes)

/-- A text that a tree offers no more without a route. -/
structure LostAt (node : Node T) (route front : List Token) (text : Bytes) :
    Prop where
  ends : route = front ++ .param :: text.map Token.byte
  nonempty : text ≠ []
  last : ∀ {other : List Token} {names : ParamRemapping} {value : T},
    node.table.live (front ++ .param :: other) names value → suffixOf other = text →
      other = text.map Token.byte
  stored : text.getLast? ≠ some slash → ∃ names value, node.table.live route names value

/-- A tree without a route, and perhaps without the text at its end. -/
structure Withdraws (names : ParamRemapping) (node changed : Node T)
    (removed : Option T) (route : List Token) : Prop where
  only : ∀ {own : ParamRemapping} {value : T},
    node.table.live route own value → own = names ∧ removed = some value
  routes : ∃ marks, Reads marks route ∧
    node.routes.Perm (removed.toList.map (Route.mk marks names) ++ changed.routes)
  offers : ∀ {front : List Token} {text : Bytes}, Offers changed front text → Offers node front text
  lost : ∀ {front : List Token} {text : Bytes},
    Offers node front text → ¬ Offers changed front text → LostAt node route front text

section Withdrawal

variable {names : ParamRemapping} {node child changed : Node T} {removed : Option T}

theorem reads_own (shaped : Shaped node) : Reads node.pfx.marks node.label := by
  have own := (@reads_label T node node.label shaped []).mpr ⟨[], by simp, Reads.nil⟩
  rwa [append_nil] at own

theorem reads_child (shaped : WellShaped node) (member : child ∈ node.children) :
    Reads (node.pfx.marks ++ child.pfx.marks) (node.label ++ child.label) := by
  rw [reads_label shaped.here]
  exact ⟨child.label, rfl, reads_own (shaped.child member).here⟩

variable {i : Nat}

variable {own : ParamRemapping} {value : T}

theorem value_of_label (shaped : WellShaped node)
    (ordered : WellOrdered node) (stored : node.table.live node.label own value) :
    node.remapping = own ∧ node.value = some value := by
  obtain ⟨rest, isLabel, below⟩ := (table_live shaped.here).mp stored
  rw [self_eq_append_right] at isLabel
  subst isLabel
  rcases below with ⟨_, isOwn⟩ | ⟨child, member, inside⟩
  · exact isOwn
  · obtain ⟨rest, isNil, _⟩ := (table_live (shaped.child member).here).mp inside
    have noLabel := (append_eq_nil_iff.mp isNil.symm).1
    exact absurd noLabel (label_ne_nil_of_mem shaped ordered member)

variable {route : List Token} {bytes : Bytes}

theorem Spelled.label_append (spelled : Spelled node route bytes) :
    ∃ rest, route = node.label ++ rest ∧ (node.children = [] → rest = []) := by
  cases spelled with
  | here => exact ⟨[], by simp, fun _ => rfl⟩
  | @inner _ child front bytes member inside => grind

section

variable (shaped : WellShaped node) (ordered : WellOrdered node) (member : child ∈ node.children)

include shaped ordered member

theorem live_of_spelled (spelled : Spelled child route bytes)
    (stored : node.table.live (node.label ++ route) own value) :
    child.table.live route own value := by
  obtain ⟨rest, isRest, below⟩ := (table_live shaped.here).mp stored
  rw [← append_cancel_left isRest] at below
  obtain ⟨behind, isRoute, ended⟩ := spelled.label_append
  have nonempty : route ≠ [] := by
    intro isNil
    rw [isNil] at isRoute
    have noLabel := (append_eq_nil_iff.mp isRoute.symm).1
    exact label_ne_nil_of_mem shaped ordered member noLabel
  exact live_of_under shaped ordered member nonempty
    (under_of_label shaped ordered member isRoute ended) below

theorem value_of_child (sameNames : child.remapping = names)
    (stored : node.table.live (node.label ++ child.label) own value) :
    own = names ∧ child.value = some value := by
  have inChild := live_of_spelled shaped ordered member Spelled.here stored
  obtain ⟨isOwn, isValue⟩ := value_of_label (shaped.child member) (ordered.child member) inChild
  exact ⟨isOwn.symm.trans sameNames, isValue⟩

end

theorem LostAt.behind {front : List Token} {text : Bytes}
    (shaped : WellShaped node) (ordered : WellOrdered node)
    (member : child ∈ node.children) (offered : Offers child front text)
    (lost : LostAt child route front text) :
    LostAt node (node.label ++ route) (node.label ++ front) text := by
  constructor
  · rw [lost.ends, append_assoc]
  · exact lost.nonempty
  · intro other names value stored isText
    rw [append_assoc, table_live shaped.here] at stored
    obtain ⟨rest, isRest, below⟩ := stored
    rw [← append_cancel_left isRest] at below
    have inChild := live_of_under shaped ordered member (by simp)
      (under_of_offers shaped ordered member offered other) below
    exact lost.last inChild isText
  · intro notSlashed
    obtain ⟨names, value, stored⟩ := lost.stored notSlashed
    exact ⟨names, value, (table_live shaped.here).mpr ⟨route, rfl, Or.inr ⟨child, member, stored⟩⟩⟩

theorem live_child (shaped : WellShaped node)
    (member : child ∈ node.children) (isValue : child.value = some value) :
    node.table.live (node.label ++ child.label) child.remapping value := by
  rw [table_live shaped.here]
  refine ⟨child.label, rfl, Or.inr ⟨child, member, ?_⟩⟩
  rw [table_live (shaped.child member).here]
  exact ⟨[], by simp, Or.inl ⟨rfl, rfl, isValue⟩⟩

theorem route_of_suffix {other : List Token} {otherNames : ParamRemapping}
    (shaped : WellShaped node) (ordered : WellOrdered node)
    (isParam : node.isParam = true) (member : child ∈ node.children) (leaf : child.children = [])
    (stored : node.table.live (.param :: other) otherNames value)
    (isText : suffixOf other = child.pfx.inner) :
    other = child.pfx.inner.map Token.byte := by
  obtain ⟨hasSuffix, kind⟩ := nodeType_of_isParam isParam
  obtain ⟨isSuffix, static⟩ := suffix_of_param ordered shaped isParam member
  rw [table_live shaped.here, label_of_param kind] at stored
  obtain ⟨rest, isRest, below⟩ := stored
  have sameRest : other = rest := (List.cons.inj isRest).2
  subst sameRest
  have nonempty : other ≠ [] := by
    rintro rfl
    exact isSuffix.nonempty isText.symm
  have under : Under node child other := by
    unfold Under
    rw [if_pos isParam]
    exact isText
  have inChild := live_of_under shaped ordered member nonempty under below
  rw [table_live (shaped.child member).here, label_of_static static] at inChild
  obtain ⟨rest, isTokens, ⟨isNil, _⟩ | ⟨inner, inLeaf, _⟩⟩ := inChild
  · rw [isTokens, isNil, append_nil]
  · simp [leaf] at inLeaf

section

variable (shaped : WellShaped node) (ordered : WellOrdered node)

include shaped ordered

theorem withdraws_leaf (notWild : node.isWild = false) (leaf : child.children = [])
    (sameNames : child.remapping = names) (sameType : changed.nodeType = node.nodeType)
    (same : SameHead node changed)
    (fewer : node.children.Perm (child :: changed.children)) :
    Withdraws names node changed child.value (node.label ++ child.label) := by
  have member : child ∈ node.children := fewer.mem_iff.mpr mem_cons_self
  have stillStatic : changed.isWild = false := by
    rw [isWild, sameType]
    exact notWild
  have sameLabel : changed.label = node.label := by
    rw [label_of_static stillStatic, label_of_static notWild]
    exact congrArg (fun head => head.1.inner.map Token.byte) same
  have below : ∀ {rest : List Token} {text : Bytes},
      changed.tableBelow.offers rest text ↔ node.tableBelow.offers rest text := by
    intro rest text
    constructor
    · rintro ⟨inner, inChanged, offered⟩
      exact ⟨inner, fewer.mem_iff.mpr (mem_cons_of_mem _ inChanged), offered⟩
    · rintro ⟨inner, inNode, offered⟩
      rcases mem_cons.mp (fewer.mem_iff.mp inNode) with rfl | still
      · exact absurd offered (not_offers_of_leaf leaf)
      · exact ⟨inner, still, offered⟩
  have offers : ∀ {front : List Token} {text : Bytes},
      Offers changed front text ↔ Offers node front text := by
    intro front text
    rw [offers_of_not_param (not_isParam_of_not_isWild stillStatic),
      offers_of_not_param (not_isParam_of_not_isWild notWild), sameLabel]
    simp only [below]
  constructor
  · intro own value stored
    exact value_of_child shaped ordered member sameNames stored
  · exact ⟨_, reads_child shaped member,
      perm_of_dropped sameNames leaf same fewer⟩
  · exact offers.mp
  · simp_all

/-- A suffix without children goes with its text. -/
theorem withdraws_suffix (valued : WellValued node)
    (isParam : node.isParam = true) (located : node.children[i]? = some child)
    (leaf : child.children = []) (sameNames : child.remapping = names) :
    Withdraws names node
      { node with children := node.children.eraseIdx i, wildChild := false }
      child.value (node.label ++ child.label) := by
  have member := mem_of_getElem? located
  have fewer := perm_eraseIdx located
  obtain ⟨hasSuffix, kind⟩ := nodeType_of_isParam isParam
  obtain ⟨isSuffix, static⟩ := suffix_of_param ordered shaped isParam member
  have isLabel : node.label ++ child.label = [] ++ .param :: child.pfx.inner.map Token.byte := by
    rw [label_of_param kind, label_of_static static]
    rfl
  constructor
  · intro own value stored
    exact value_of_child shaped ordered member sameNames stored
  · exact ⟨_, reads_child shaped member, perm_of_dropped sameNames leaf rfl fewer⟩
  · intro front text offered
    cases offered with
    | here _ inChanged => exact Offers.here isParam (mem_of_mem_eraseIdx inChanged)
    | inner inChanged inside => exact Offers.inner (mem_of_mem_eraseIdx inChanged) inside
  · intro front text offered gone
    cases offered with
    | @here _ inner _ inNode =>
      rcases mem_cons.mp (fewer.mem_iff.mp inNode) with rfl | still
      · refine ⟨isLabel, isSuffix.nonempty, ?_, ?_⟩
        · intro other otherNames value stored isText
          exact route_of_suffix shaped ordered isParam member leaf stored isText
        · intro notSlashed
          have hasValue := (valued.here isParam inner member).resolve_left notSlashed
          obtain ⟨value, isValue⟩ := Option.ne_none_iff_exists'.mp hasValue
          exact ⟨_, value, live_child shaped member isValue⟩
      · exfalso
        apply gone
        exact Offers.here isParam still
    | @inner _ inner front _ inNode inside =>
      rcases mem_cons.mp (fewer.mem_iff.mp inNode) with rfl | still
      · exact absurd inside (not_offers_of_leaf leaf)
      · exfalso
        apply gone
        exact Offers.inner still inside

theorem withdraws_clear (sameNames : node.remapping = names) :
    Withdraws names node { node with value := none } node.value node.label := by
  have reads := reads_own shaped.here
  have same (front : List Token) (text : Bytes) :
      Offers { node with value := none } front text ↔ Offers node front text :=
    offers_congr rfl rfl rfl
  constructor
  · intro own value stored
    obtain ⟨isOwn, isValue⟩ := value_of_label shaped ordered stored
    exact ⟨isOwn.symm.trans sameNames, isValue⟩
  · refine ⟨node.pfx.marks, reads, ?_⟩
    rw [← sameNames]
    exact routes_of_value_none
  · intro front text offered
    exact (same front text).mp offered
  · intro front text offered gone
    exact absurd ((same front text).mpr offered) gone

theorem withdraws_emptied (leaf : node.children = []) :
    Withdraws node.remapping node empty node.value node.label := by
  have cleared := withdraws_clear shaped ordered (@rfl _ node.remapping)
  obtain ⟨marks, reads, fewer⟩ := cleared.routes
  constructor
  · exact cleared.only
  · have noRoutes : ({ node with value := none } : Node T).routes = [] := routes_of_leaf leaf
    refine ⟨marks, reads, ?_⟩
    simp_all
  · intro front text offered
    exact absurd offered (not_offers_of_leaf rfl)
  · intro front text offered
    exact absurd offered (not_offers_of_leaf leaf)

end

/-- A removal below a node is a removal from the node. -/
theorem withdraws_put {below : Node T} (shaped : WellShaped node) (ordered : WellOrdered node)
    (located : node.children[i]? = some child) (samePrefix : below.pfx = child.pfx)
    (spelled : Spelled child route bytes) (withdraws : Withdraws names child below removed route) :
    Withdraws names node (node.putChild i below) removed (node.label ++ route) := by
  have member := mem_of_getElem? located
  have inside := (List.getElem?_eq_some_iff.mp located).1
  have inChanged : below ∈ (node.putChild i below).children := mem_set inside below
  constructor
  · intro own value stored
    exact withdraws.only (live_of_spelled shaped ordered member spelled stored)
  · obtain ⟨marks, reads, fewer⟩ := withdraws.routes
    refine ⟨node.pfx.marks ++ marks, ?_, ?_⟩
    · rw [reads_label shaped.here]
      exact ⟨route, rfl, reads⟩
    · exact perm_behind rfl (perm_flatMap_set_of_lost located fewer)
  · intro front text offered
    cases offered with
    | @here _ inner isParam inNode =>
      rcases mem_or_eq_of_mem_set inNode with still | rfl
      · exact Offers.here isParam still
      · rw [samePrefix]
        exact Offers.here isParam member
    | @inner _ inner front _ inNode offered =>
      rcases mem_or_eq_of_mem_set inNode with still | rfl
      · exact Offers.inner still offered
      · exact Offers.inner member (withdraws.offers offered)
  · intro front text offered gone
    have other : ∀ inner ∈ node.children,
        inner = child ∨ inner ∈ (node.putChild i below).children :=
      fun inner inNode => mem_or_mem_set located inNode
    cases offered with
    | @here _ inner isParam inNode =>
      exfalso
      apply gone
      rcases other inner inNode with rfl | still
      · rw [← samePrefix]
        exact Offers.here isParam inChanged
      · exact Offers.here isParam still
    | @inner _ inner front _ inNode offered =>
      rcases other inner inNode with rfl | still
      · have lost := withdraws.lost offered fun still => gone (Offers.inner inChanged still)
        exact lost.behind shaped ordered member offered
      · exfalso
        apply gone
        exact Offers.inner still offered

end Withdrawal

/-- What a removal does to the table of a tree. -/
theorem Pruned.withdraws {names : ParamRemapping} {bytes : Bytes} {removed : Option T}
    (pruned : Pruned names node bytes changed removed) (shaped : WellShaped node)
    (ordered : WellOrdered node) (valued : WellValued node) :
    (changed = node ∧ removed = none) ∨
      ∃ route, Spelled node route bytes ∧ Withdraws names node changed removed route := by
  induction pruned with
  | kept => exact Or.inl ⟨rfl, rfl⟩
  | @dropStatic node child i notWild _ located sameNames leaf =>
    have member := mem_of_getElem? located
    refine Or.inr ⟨node.label ++ child.label, Spelled.inner member Spelled.here, ?_⟩
    exact withdraws_leaf shaped ordered notWild leaf sameNames rfl rfl
      (perm_eraseIdx located)
  | @dropWild node child others notWild _ isLast sameNames leaf =>
    have member : child ∈ node.children := by
      rw [isLast]
      simp
    refine Or.inr ⟨node.label ++ child.label, Spelled.inner member Spelled.here, ?_⟩
    exact withdraws_leaf shaped ordered notWild leaf sameNames rfl rfl
      (isLast ▸ perm_append_singleton ..)
  | @dropSuffix node child i isParam located sameNames leaf =>
    have member := mem_of_getElem? located
    exact Or.inr ⟨node.label ++ child.label, Spelled.inner member Spelled.here,
      withdraws_suffix shaped ordered valued isParam located leaf sameNames⟩
  | @clear node child i located sameNames _ =>
    have member := mem_of_getElem? located
    exact Or.inr ⟨node.label ++ child.label, Spelled.inner member Spelled.here,
      withdraws_put shaped ordered located (by rfl) Spelled.here
        (withdraws_clear (shaped.child member) (ordered.child member) sameNames)⟩
  | @descend node child changed i bytes removed located below ih =>
    have member := mem_of_getElem? located
    rcases ih (shaped.child member) (ordered.child member)
      (valued.child member) with ⟨rfl, rfl⟩ | ⟨route, spelled, withdraws⟩
    · left
      refine ⟨?_, rfl⟩
      rw [putChild, set_self located]
      cases node
      rfl
    · exact Or.inr ⟨node.label ++ route, Spelled.inner member spelled,
        withdraws_put shaped ordered located below.pfx_eq spelled withdraws⟩

end Node

end Ophan.Router
