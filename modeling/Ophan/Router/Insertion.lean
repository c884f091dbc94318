import Ophan.Router.Growth

/-!
# Inserts and the routes of a tree

A successful insert adds its own route to the routes of the tree and a failed
one changes none of them, whatever nodes it forked, reordered or created on
the way.  Both keep the shape of the nodes.
-/

namespace Ophan.Router

open List

universe u

variable {T : Type u}

namespace Node

/-- The route that an insert stored, if it stored one. -/
def storedRoute (names : ParamRemapping) (val : T) (marks : List Mark) : Bool → List (Route T)
  | true => [{ marks := marks, names := names, value := val }]
  | false => []

theorem map_behind_storedRoute (names : ParamRemapping) (val : T)
    (label marks : List Mark) (stored : Bool) :
    (storedRoute names val marks stored).map (Route.behind label) =
      storedRoute names val (label ++ marks) stored := by
  cases stored <;> rfl

@[simp]
theorem inside_fresh (pfx : UnescapedRoute) : (fresh pfx : Node T).inside = [] := rfl

theorem routes_of_inside_nil {node : Node T} (nothing : node.inside = []) : node.routes = [] := by
  rw [routes_eq, nothing]
  rfl

section Stored

variable {names : ParamRemapping} {val : T}

variable {node changed child : Node T} {marks : List Mark} {stored : Bool}

theorem perm_routes_of_stored (samePrefix : changed.pfx.marks = node.pfx.marks)
    (grown : changed.inside.Perm (storedRoute names val marks stored ++ node.inside)) :
    changed.routes.Perm
      (storedRoute names val (node.pfx.marks ++ marks) stored ++ node.routes) := by
  have routesGrown := perm_routes_of_inside samePrefix grown
  rwa [map_behind_storedRoute] at routesGrown

theorem Hung.pfx_eq (hung : Hung names val node marks changed stored) : changed.pfx = node.pfx := by
  cases hung <;> rfl

/-- What was hung behind a new node is its only route. -/
theorem perm_routes_of_fresh {pfx : UnescapedRoute}
    (hung : Hung names val (fresh pfx) marks changed stored)
    (grown : changed.inside.Perm (storedRoute names val marks stored ++ (fresh pfx).inside)) :
    changed.routes.Perm (storedRoute names val (pfx.marks ++ marks) stored) := by
  have routesGrown := perm_routes_of_stored (by rw [hung.pfx_eq]) grown
  rwa [routes_of_inside_nil (inside_fresh pfx), append_nil] at routesGrown

variable {extra : List (Route T)}

theorem perm_inside_of_new_child {front back : List (Node T)}
    (same : SameHead node changed) (children : node.children = front ++ back)
    (added : changed.children.Perm (front ++ child :: back))
    (childRoutes : child.routes.Perm extra) :
    changed.inside.Perm (extra ++ node.inside) := by
  apply perm_inside_of_children same
  have moved : changed.children.Perm (child :: node.children) := by
    rw [children]
    exact added.trans perm_middle
  apply (moved.flatMap_right routes).trans
  rw [flatMap_cons]
  exact childRoutes.append_right _

theorem perm_inside_onlyChild (indices : Bytes) (noChildren : node.children = [])
    (childRoutes : child.routes.Perm extra) :
    ({ node with indices := indices, children := [child] } :
      Node T).inside.Perm (extra ++ node.inside) := by
  have cut : node.children = [] ++ [] := noChildren
  have added : ([child] : List (Node T)).Perm ([] ++ child :: []) := List.Perm.refl _
  exact perm_inside_of_new_child rfl cut added childRoutes

theorem perm_inside_addWild (childRoutes : child.routes.Perm extra) :
    (node.addWild child).inside.Perm (extra ++ node.inside) := by
  have cut : node.children = node.children ++ [] := (append_nil _).symm
  have added : (node.addWild child).children.Perm (node.children ++ child :: []) := List.Perm.refl _
  exact perm_inside_of_new_child rfl cut added childRoutes

/-! ## Hung routes -/

theorem Hung.nodeType_eq (hung : Hung names val node marks changed stored) :
    changed.nodeType = node.nodeType := by
  cases hung <;> rfl

theorem Hung.inside_perm (hung : Hung names val node marks changed stored) :
    changed.inside.Perm (storedRoute names val marks stored ++ node.inside) := by
  induction hung with
  | @value node noValue => simp [inside, noValue, storedRoute]
  | refused => exact List.Perm.refl _
  | @static node child pfx b bytes marks stored noChildren _ _ _ _ below
      ih =>
    exact perm_inside_onlyChild [b] noChildren (perm_routes_of_fresh below ih)
  | @staticRefused node mark marks noChildren _ _ _ _ =>
    have noRoutes : (fresh UnescapedRoute.empty : Node T).routes.Perm [] := by
      rw [routes_of_inside_nil (inside_fresh _)]
    exact perm_inside_onlyChild [mark.1] noChildren noRoutes
  | catchAll | param =>
    apply perm_inside_addWild
    rw [routes_eq]
    simp [inside, fresh, empty, storedRoute, Route.behind]
  | @suffix node below pfx suffix c marks stored _ _ _ _ _ _ hung
      ih =>
    apply perm_inside_addWild
    rw [routes_eq, ← map_behind_storedRoute]
    apply List.Perm.map
    simpa [inside, fresh, empty] using perm_routes_of_fresh hung ih

/-- A route planted at a node without routes is its only route, unless it
begins with a wildcard and the node kept a prefix. -/
theorem Planted.routes_perm (planted : Planted names val node marks changed stored)
    (nothing : node.inside = []) (noPrefix :
      marks.head? = some (openBrace, false) → node.pfx.marks = []) :
    changed.routes.Perm (storedRoute names val marks stored) := by
  cases planted with
  | refused =>
    rw [routes_of_inside_nil nothing]
    exact List.Perm.refl _
  | wild starts hung =>
    have grown := perm_routes_of_stored (by rw [hung.pfx_eq]) hung.inside_perm
    rwa [routes_of_inside_nil nothing, append_nil, noPrefix starts] at grown
  | @static _ pfx marks _ _ _ hung =>
    have stillNothing : ({ node with pfx := pfx } : Node T).inside = [] := nothing
    have grown := perm_routes_of_stored (by rw [hung.pfx_eq]) hung.inside_perm
    rwa [routes_of_inside_nil stillNothing, append_nil] at grown

/-! ## Grown trees -/

theorem routes_fork {common : Nat} : (node.fork common).routes = node.routes := by
  have insideFork :
      (node.fork common).inside = node.inside.map (Route.behind (node.pfx.marks.drop common)) := by
    simp only [fork, inside, Option.toList_none, map_nil,
      nil_append, flatMap_cons, flatMap_nil, append_nil]
    rw [routes_eq]
    simp only [UnescapedRef.marks_toOwned, UnescapedRef.marks_sliceOff, UnescapedRoute.marks_asRef]
    rfl
  rw [routes_eq, insideFork, fork_pfx_marks, map_map, routes_eq]
  apply map_congr_left
  intro route _
  rw [Function.comp_apply, Route.behind_behind, take_append_drop]

theorem Grown.routes_perm (grown : Grown names val node marks changed stored) :
    changed.routes.Perm (storedRoute names val marks stored ++ node.routes) := by
  induction grown with
  | refused => exact List.Perm.refl _
  | fork _ _ _ _ _ ih => rwa [routes_fork] at ih
  | @value node noValue =>
    have hung : Hung names val node [] _ true := Hung.value noValue
    have grown := perm_routes_of_stored (by rw [hung.pfx_eq]) hung.inside_perm
    rwa [append_nil] at grown
  | @static node child changed mark rest i j stored _ _ _ located bound _
      ih =>
    apply perm_routes_of_stored (by rfl)
    apply perm_inside_of_children (by rfl)
    have inside : i < (node.children.set i changed).length := by grind
    rw [routes_bump] at ih
    apply ((perm_rotateRight bound inside).flatMap_right routes).trans
    exact perm_flatMap_set located ih
  | @newStatic node child statics wild mark rest j stored _ forked plain _
      bound planted =>
    apply perm_routes_of_stored (by rfl)
    have inside : statics.length < (statics ++ child :: wild).length := by simp
    apply perm_inside_of_new_child (by rfl) forked.children (perm_rotateRight bound inside)
    exact planted.routes_perm rfl (fun _ => rfl)
  | @wild node child changed others rest stored _ _ children _ _ _
      ih =>
    apply perm_routes_of_stored (by rfl)
    apply perm_inside_of_children (by rfl)
    rw [routes_bump] at ih
    simp only [children, flatMap_append, flatMap_cons, flatMap_nil, append_nil]
    apply (ih.append_left _).trans
    rw [← append_assoc, ← append_assoc]
    exact perm_append_comm.append_right _
  | @wildRefused node child others marks _ _ children =>
    have sameInside :
        ({ node with children := others ++ [child.bump] } : Node T).inside = node.inside := by
      simp [inside, children]
    rw [routes_eq, sameInside, routes_eq node]
    exact List.Perm.refl _
  | newWild _ _ _ hung => exact perm_routes_of_stored (by rw [hung.pfx_eq]) hung.inside_perm
  | @suffix node child changed rest i stored _ located _ _
      ih =>
    apply perm_routes_of_stored (by rfl)
    apply perm_inside_of_children (by rfl)
    rw [routes_bump] at ih
    exact perm_flatMap_set located ih
  | @newSuffix node below suffix hasSuffix rest stored _ _ _ _ _ hung =>
    apply perm_routes_of_stored (by rfl)
    exact perm_inside_of_new_child (by rfl) (take_append_drop _ _).symm
      (List.Perm.refl _) (perm_routes_of_fresh hung hung.inside_perm)

/-! ## The shape of grown trees -/

theorem fresh_wellShaped {pfx : UnescapedRoute} (plain : ∀ mark ∈ pfx.marks, Plain mark) :
    WellShaped (fresh pfx : Node T) := by
  have noChildren : Forked (fresh pfx : Node T) [] [] :=
    { children := rfl
      indices := rfl
      static := by simp
      single := rfl
      wild := by simp }
  exact Everywhere.leaf (Shaped.static rfl plain noChildren) rfl

theorem addWild_wellShaped (shaped : WellShaped node) (notWild : node.isWild = false)
    (unflagged : node.wildChild = false) (childShaped : WellShaped child)
    (isWild : child.isWild = true) : WellShaped (node.addWild child) := by
  obtain ⟨plain, statics, wild, forked⟩ := shaped.here.forked notWild
  have noWild : wild = [] := by
    have single := forked.single
    simp_all
  have children : node.children = statics := by rw [forked.children, noWild, append_nil]
  apply Everywhere.mk
  · apply Shaped.static
    · exact notWild
    · exact plain
    · exact
        { children := by rw [addWild, children]
          indices := forked.indices
          static := forked.static
          single := rfl
          wild := by simpa using isWild }
  · exact Everywhere.added shaped.children childShaped

theorem onlyChild_wellShaped (b : UInt8) (shaped : WellShaped node) (notWild : node.isWild = false)
    (unflagged : node.wildChild = false) (childShaped : WellShaped child)
    (static : child.nodeType = .static) :
    WellShaped { node with indices := [b], children := [child] } := by
  obtain ⟨plain, _⟩ := shaped.here.forked notWild
  apply Everywhere.mk
  · apply Shaped.static
    · exact notWild
    · exact plain
    · exact
        { children := (append_nil [child]).symm
          indices := rfl
          static := by simpa using static
          single := by rw [unflagged]; rfl
          wild := by simp }
  · exact childShaped.single

theorem Hung.wellShaped (hung : Hung names val node marks changed stored)
    (shaped : WellShaped node) (notWild : node.isWild = false) :
    WellShaped changed := by
  induction hung with
  | value => exact WellShaped.store shaped _ _ (by simp)
  | refused => exact shaped
  | @static node child pfx b bytes marks stored _ _ noWild _ plain below
      ih =>
    have childShaped : WellShaped child := ih (fresh_wellShaped plain) rfl
    exact onlyChild_wellShaped b shaped notWild noWild childShaped below.nodeType_eq
  | @staticRefused node mark marks _ _ noWild _ _ =>
    have childShaped : WellShaped (fresh UnescapedRoute.empty : Node T) :=
      fresh_wellShaped (by simp)
    exact onlyChild_wellShaped mark.1 shaped notWild noWild childShaped rfl
  | @catchAll node pfx flag name noWild named pfxMarks =>
    apply addWild_wellShaped shaped notWild noWild
    · exact Everywhere.leaf (Shaped.catchAll rfl named pfxMarks rfl rfl rfl (by simp)) rfl
    · rfl
  | @param node pfx c noWild letter pfxMarks =>
    apply addWild_wellShaped shaped notWild noWild
    · apply Everywhere.leaf
      · apply Shaped.param rfl letter pfxMarks rfl rfl
        exact forall_mem_nil _
      · rfl
    · rfl
  | @suffix node below pfx suffix c marks stored noWild letter pfxMarks _
      plain _ hung ih =>
    have belowShaped : WellShaped below := ih (fresh_wellShaped plain) rfl
    have static : below.nodeType = .static := hung.nodeType_eq
    apply addWild_wellShaped shaped notWild noWild
    · apply Everywhere.mk
      · apply Shaped.param rfl letter pfxMarks rfl rfl
        exact forall_mem_singleton.mpr static
      · exact belowShaped.single
    · rfl

theorem Planted.wellShaped (planted : Planted names val node marks changed stored)
    (shaped : WellShaped node) (notWild : node.isWild = false) :
    WellShaped changed ∧ changed.nodeType = node.nodeType := by
  cases planted with
  | refused => exact ⟨shaped, rfl⟩
  | wild _ hung => exact ⟨hung.wellShaped shaped notWild, hung.nodeType_eq⟩
  | @static _ pfx marks _ _ plain hung =>
    obtain ⟨_, statics, wild, forked⟩ := shaped.here.forked notWild
    have moved : WellShaped ({ node with pfx := pfx } : Node T) := by
      apply Everywhere.mk
      · apply Shaped.static (by exact notWild) (by exact plain)
        exact { forked with }
      · exact shaped.children
    exact ⟨hung.wellShaped moved notWild, hung.nodeType_eq⟩

/-- An insert does not make another kind of node out of a node. -/
def SameKind (node changed : Node T) : Prop :=
  changed.nodeType = node.nodeType ∨ (node.isParam = true ∧ changed.isParam = true)

theorem isWild_of_isParam (isParam : node.isParam = true) : node.isWild = true := by
  cases kind : node.nodeType with
  | param | catchAll => rw [isWild, kind]
  | root | static => simp [Node.isParam, kind] at isParam

theorem SameKind.isWild_eq (same : SameKind node changed) : changed.isWild = node.isWild := by
  rcases same with same | ⟨before, after⟩
  · rw [isWild, isWild, same]
  · rw [isWild_of_isParam before, isWild_of_isParam after]

theorem SameKind.static (same : SameKind node changed) (static : node.nodeType = .static) :
    changed.nodeType = .static := by
  rcases same with same | ⟨before, _⟩
  · rw [same, static]
  · simp [Node.isParam, static] at before

theorem Grown.sameKind (grown : Grown names val node marks changed stored) :
    SameKind node changed := by
  induction grown with
  | fork _ _ _ _ _ ih => exact ih
  | newWild _ _ _ hung => exact Or.inl hung.nodeType_eq
  | newSuffix isParam => exact Or.inr ⟨by rw [Node.isParam, isParam], rfl⟩
  | _ => exact Or.inl rfl

theorem nodeType_of_isParam (isParam : node.isParam = true) :
    ∃ hasSuffix, node.nodeType = .param hasSuffix := by
  cases kind : node.nodeType with
  | param hasSuffix => exact ⟨hasSuffix, rfl⟩
  | _ => simp [Node.isParam, kind] at isParam

theorem not_isParam_of_not_isWild {node : Node T}
    (notWild : node.isWild = false) : node.isParam = false := by
  rw [← Bool.not_eq_true] at notWild ⊢
  exact mt isWild_of_isParam notWild

theorem Shaped.param_children (shaped : Shaped node) (isParam : node.isParam = true) :
    ∃ c, IsLetter c ∧ node.pfx.marks = letterMarks c ∧
      node.indices = [] ∧ node.wildChild = false ∧
      ∀ child ∈ node.children, child.nodeType = .static := by
  cases shaped with
  | static notWild => simp [isWild_of_isParam isParam] at notWild
  | param _ letter marks noIndices noWild static =>
    exact ⟨_, letter, marks, noIndices, noWild, static⟩
  | catchAll isCatchAll => simp [Node.isParam, isCatchAll] at isParam

variable {others : List (Node T)}

theorem Forked.lastChild {statics wild : List (Node T)}
    (forked : Forked node statics wild) (flagged : node.wildChild = true)
    (children : node.children = others ++ [child]) :
    statics = others ∧ wild = [child] := by
  obtain ⟨last, rfl, _⟩ := forked.only flagged
  obtain ⟨sameFront, sameLast⟩ := append_inj' (children.symm.trans forked.children) rfl
  exact ⟨sameFront.symm, sameLast.symm⟩

theorem Forked.static_at {statics wild : List (Node T)} {i : Nat} {b : UInt8}
    (forked : Forked node statics wild) (index : node.indices[i]? = some b)
    (located : node.children[i]? = some child) : child.nodeType = .static := by
  have inside : i < statics.length := by
    rw [forked.indices]
    exact (List.getElem?_eq_some_iff.mp index).1
  rw [forked.children, List.getElem?_append_left inside] at located
  exact forked.static child (mem_of_getElem? located)

/-- A child can be replaced by one of the same kind. -/
theorem putChild_wellShaped {i : Nat} (shaped : WellShaped node)
    (located : node.children[i]? = some child) (same : SameKind child changed)
    (changedShaped : WellShaped changed) : WellShaped (node.putChild i changed) := by
  apply Everywhere.mk
  · cases shaped.here with
    | @static statics wild notWild plain forked =>
      by_cases insideStatics : i < statics.length
      · have childStatic : child.nodeType = .static := by
          rw [forked.children, List.getElem?_append_left insideStatics] at located
          exact forked.static child (mem_of_getElem? located)
        apply Shaped.static (by exact notWild) (by exact plain)
        exact
          { children := by
              rw [putChild, forked.children, set_append_left _ _ insideStatics]
            indices := by
              rw [length_set]
              exact forked.indices
            static := by
              intro inner member
              rcases mem_or_eq_of_mem_set member with old | rfl
              · exact forked.static inner old
              · exact same.static childStatic
            single := forked.single
            wild := forked.wild }
      · have outside : statics.length ≤ i := Nat.not_lt.mp insideStatics
        have childWild : child.isWild = true := by
          rw [forked.children, List.getElem?_append_right outside] at located
          exact forked.wild child (mem_of_getElem? located)
        apply Shaped.static (by exact notWild) (by exact plain)
        exact
          { children := by
              rw [putChild, forked.children, set_append_right _ _ outside]
            indices := forked.indices
            static := forked.static
            single := by
              rw [length_set]
              exact forked.single
            wild := by
              intro inner member
              rcases mem_or_eq_of_mem_set member with old | rfl
              · exact forked.wild inner old
              · rw [same.isWild_eq, childWild] }
    | param isParam letter marks noIndices noWild static =>
      apply Shaped.param (by exact isParam) letter (by exact marks)
        (by exact noIndices) (by exact noWild)
      intro inner member
      rcases mem_or_eq_of_mem_set member with old | rfl
      · exact static inner old
      · exact same.static (static child (mem_of_getElem? located))
    | catchAll _ _ _ _ _ noChildren => simp [noChildren] at located
  · exact shaped.set changedShaped

theorem rotate_wellShaped {i j : Nat} (shaped : WellShaped node) (notWild : node.isWild = false)
    (bound : j ≤ i) (inside : i < node.indices.length) :
    WellShaped { node with
      children := rotateRight node.children j i
      indices := rotateRight node.indices j i } := by
  obtain ⟨plain, statics, wild, forked⟩ := shaped.here.forked notWild
  have insideStatics : i < statics.length := by
    rw [forked.indices]
    exact inside
  have insideChildren : i < node.children.length := by
    rw [forked.children, length_append]
    omega
  apply Everywhere.mk
  · apply Shaped.static (by exact notWild) (by exact plain)
    exact
      { children := by
          rw [forked.children, rotateRight_append wild bound insideStatics]
        indices := by
          rw [length_rotateRight bound insideStatics, length_rotateRight bound inside,
            forked.indices]
        static := fun inner member =>
          forked.static inner ((perm_rotateRight bound insideStatics).mem_iff.mp member)
        single := forked.single
        wild := forked.wild }
  · intro inner member
    exact shaped.child ((perm_rotateRight bound insideChildren).mem_iff.mp member)

theorem putChild_last (children : node.children = others ++ [child]) (changed : Node T) :
    node.children[others.length]? = some child ∧
      node.putChild others.length changed = { node with children := others ++ [changed] } := by
  simp [putChild, children]

theorem Grown.wellShaped (grown : Grown names val node marks changed stored)
    (shaped : WellShaped node) : WellShaped changed := by
  induction grown with
  | refused => exact shaped
  | fork notWild shorter _ _ _ ih => exact ih (fork_wellShaped shaped notWild shorter)
  | value => exact WellShaped.store shaped _ _ (by simp)
  | static notWild _ index located bound below ih =>
    have childShaped := wellShaped_bump (shaped.child (mem_of_getElem? located))
    have put := putChild_wellShaped shaped located below.sameKind (ih childShaped)
    exact rotate_wellShaped put notWild bound (List.getElem?_eq_some_iff.mp index).1
  | @newStatic node child statics wild mark rest j stored notWild forked
      plainMark _ bound planted =>
    obtain ⟨plain, _⟩ := shaped.here.forked notWild
    obtain ⟨childShaped, childStatic⟩ := planted.wellShaped (fresh_wellShaped (by simp)) rfl
    have added : WellShaped { node with
        children := statics ++ child :: wild
        indices := node.indices ++ [mark.1] } := by
      apply Everywhere.mk
      · apply Shaped.static (by exact notWild) (by exact plain)
        exact
          { children := append_cons ..
            indices := by simp [forked.indices]
            static := forall_mem_append.mpr ⟨forked.static, forall_mem_singleton.mpr childStatic⟩
            single := forked.single
            wild := forked.wild }
      · exact shaped.between forked.children childShaped
    exact rotate_wellShaped added notWild bound (by simp [forked.indices])
  | wild _ _ children _ _ below ih =>
    obtain ⟨located, put⟩ := putChild_last children _
    have childShaped := wellShaped_bump (shaped.child (mem_of_getElem? located))
    rw [← put]
    exact putChild_wellShaped shaped located below.sameKind (ih childShaped)
  | wildRefused _ _ children =>
    obtain ⟨located, put⟩ := putChild_last children _
    have childShaped := wellShaped_bump (shaped.child (mem_of_getElem? located))
    rw [← put]
    exact putChild_wellShaped shaped located (Or.inl rfl) childShaped
  | newWild notWild _ _ hung => exact hung.wellShaped shaped notWild
  | suffix _ located _ below ih =>
    have childShaped := wellShaped_bump (shaped.child (mem_of_getElem? located))
    exact putChild_wellShaped shaped located below.sameKind (ih childShaped)
  | @newSuffix node below suffix hasSuffix rest stored kind _ plain _ _
      hung =>
    obtain ⟨c, letter, marks, noIndices, noWild, static⟩ :=
      shaped.here.param_children (by rw [Node.isParam, kind])
    have belowShaped : WellShaped below := hung.wellShaped (fresh_wellShaped plain) rfl
    apply Everywhere.mk
    · apply Shaped.param (by rfl) letter (by exact marks) (by exact noIndices) (by exact noWild)
      intro inner member
      rcases mem_addSuffixChild.mp member with rfl | old
      · exact hung.nodeType_eq
      · exact static inner old
    · exact shaped.addSuffixChild belowShaped

/-! ## Inserting into a tree -/

/-- A tree whose root is not a wildcard, with the shape of its nodes. -/
structure Rooted (tree : Node T) : Prop where
  shaped : WellShaped tree
  notWild : tree.isWild = false

theorem empty_rooted : Rooted (empty : Node T) := by
  have shaped := @fresh_wellShaped T UnescapedRoute.empty (by simp)
  exact ⟨WellShaped.store shaped _ _ (fun _ stored => stored), rfl⟩

@[simp]
theorem routes_empty : (empty : Node T).routes = [] := routes_of_inside_nil rfl

theorem insert_rooted {self : Node T} (rooted : Rooted self)
    (text : Bytes) (val : T) : Rooted (self.insert text val).1 := by
  rcases insert_cases rooted.shaped rooted.notWild with
    ⟨unchanged, _⟩ | ⟨route, names, _, planted | ⟨_, grown⟩⟩
  · rw [unchanged]
    exact rooted
  · obtain ⟨_, _, node, planted, result⟩ := planted
    obtain ⟨shaped, sameType⟩ := planted.wellShaped (wellShaped_bump rooted.shaped) rooted.notWild
    have notWild : node.isWild = false := by
      rw [isWild, sameType]
      exact rooted.notWild
    rw [result]
    split
    · obtain ⟨plain, statics, wild, forked⟩ := shaped.here.forked notWild
      refine ⟨Everywhere.mk ?_ fun _ member => shaped.child member, rfl⟩
      apply Shaped.static (by rfl) (by exact plain)
      exact { forked with }
    · exact ⟨shaped, notWild⟩
  · exact ⟨grown.wellShaped (wellShaped_bump rooted.shaped),
      grown.sameKind.isWild_eq.trans rooted.notWild⟩

/-- The root of an emptied tree keeps its prefix; a route that begins with a
wildcard would be hung behind it. -/
def KeepsPrefix (self : Node T) (text : Bytes) : Prop :=
  ∃ route names,
    normalizeParams (UnescapedRoute.new text) = .ok (route, names) ∧
    self.value = none ∧ self.children = [] ∧
    route.marks.head? = some (openBrace, false) ∧ self.pfx.inner ≠ []

/-- What an insert does to the routes of a tree. -/
theorem insert_routes {self : Node T} {text : Bytes}
    (rooted : Rooted self) (cleared : ¬ KeepsPrefix self text) :
    ((self.insert text val).2.isOk = false ∧ (self.insert text val).1.routes.Perm self.routes) ∨
    ∃ route names,
      normalizeParams (UnescapedRoute.new text) = .ok (route, names) ∧
      (self.insert text val).2 = .ok () ∧
      (self.insert text val).1.routes.Perm
        ({ marks := route.marks, names := names, value := val } :: self.routes) := by
  rcases insert_cases rooted.shaped rooted.notWild with
    ⟨unchanged, failed⟩ | ⟨route, names, normalized, changed⟩
  · refine Or.inl ⟨failed, ?_⟩
    rw [unchanged]
  suffices grown : (self.insert text val).1.routes.Perm
      (storedRoute names val route.marks (self.insert text val).2.isOk ++ self.routes) by
    cases outcome : (self.insert text val).2 with
    | ok stored =>
      rw [outcome] at grown
      exact Or.inr ⟨route, names, normalized, rfl, grown⟩
    | err | panic =>
      rw [outcome] at grown
      exact Or.inl ⟨rfl, grown⟩
  rcases changed with planted | ⟨_, grown⟩
  · obtain ⟨noValue, noChildren, node, planted, result⟩ := planted
    have nothing : self.bump.inside = [] := by simp [inside, bump, noValue, noChildren]
    have noPrefix : route.marks.head? = some (openBrace, false) → self.bump.pfx.marks = [] := by
      intro starts
      have noBytes : self.pfx.inner = [] := by
        by_contra someBytes
        exact cleared ⟨route, names, normalized, noValue, noChildren, starts, someBytes⟩
      exact (UnescapedRoute.marks_eq_nil_iff _).mpr noBytes
    have sameRoutes : (self.insert text val).1.routes = node.routes := by
      rw [result]
      split
      · rw [routes_eq, routes_eq]
        rfl
      · rfl
    have noRoutes : self.routes = [] := by rw [← routes_bump, routes_of_inside_nil nothing]
    rw [sameRoutes, noRoutes, append_nil]
    exact planted.routes_perm nothing noPrefix
  · have routesGrown := grown.routes_perm
    rwa [routes_bump] at routesGrown

end Stored

end Node

end Ophan.Router
