import Mathlib.Data.List.Perm.Basic
import Ophan.Router.Insertion

/-!
# Removals and the routes of a tree

A removal that returns a value takes one route out of the tree: one with the
bytes and the names of the removed pattern, whatever its escapes.  Any other
removal leaves the routes as they are.
-/

namespace Ophan.Router

open List

universe u

variable {T : Type u}

namespace Node

/-- A tree after a removal, and the value that was taken out of it. -/
inductive Pruned (names : ParamRemapping) :
    Node T → Bytes → Node T → Option T → Prop
  | kept {node : Node T} {bytes : Bytes} : Pruned names node bytes node none
  | dropStatic {node child : Node T} {i : Nat} :
      node.isWild = false → i < node.indices.length →
      node.children[i]? = some child → child.remapping = names →
      child.children = [] →
      Pruned names node (node.pfx.inner ++ child.pfx.inner)
        { node with
          children := node.children.eraseIdx i
          indices := node.indices.eraseIdx i } child.value
  | dropWild {node child : Node T} {others : List (Node T)} :
      node.isWild = false → node.wildChild = true →
      node.children = others ++ [child] → child.remapping = names →
      child.children = [] →
      Pruned names node (node.pfx.inner ++ child.pfx.inner)
        { node with children := others, wildChild := false } child.value
  | dropSuffix {node child : Node T} {i : Nat} :
      node.isParam = true →
      node.children[i]? = some child → child.remapping = names →
      child.children = [] →
      Pruned names node (node.pfx.inner ++ child.pfx.inner)
        { node with
          children := node.children.eraseIdx i, wildChild := false }
        child.value
  | clear {node child : Node T} {i : Nat} :
      node.children[i]? = some child → child.remapping = names →
      child.children ≠ [] →
      Pruned names node (node.pfx.inner ++ child.pfx.inner)
        (node.putChild i { child with value := none }) child.value
  | descend {node child changed : Node T} {i : Nat} {bytes : Bytes}
      {removed : Option T} :
      node.children[i]? = some child →
      Pruned names child bytes changed removed →
      Pruned names node (node.pfx.inner ++ bytes) (node.putChild i changed) removed

/-! ## The walk of `remove` -/

section Walk

variable {names : ParamRemapping}

def Removes (names : ParamRemapping) (node : Node T) (bytes : Bytes)
    (result : Node T × Outcome Empty (Option T)) : Prop :=
  ∃ removed,
    Pruned names node bytes result.1 removed ∧
    (result.2 = .ok removed ∨ (result.2 = .panic ∧ removed = none))

variable {node child changed : Node T} {bytes : Bytes}

theorem Removes.kept : Removes names node bytes (node, .ok none) := ⟨none, Pruned.kept, Or.inl rfl⟩

theorem Removes.panic : Removes names node bytes (node, .panic) :=
  ⟨none, Pruned.kept, Or.inr ⟨rfl, rfl⟩⟩

variable {i : Nat}

/-- What is left to show is what happens to a leaf. -/
theorem removeChild_removes (located : node.children[i]? = some child)
    (dropped : child.remapping = names → child.children = [] →
      Removes names node (node.pfx.inner ++ child.pfx.inner)
        (let dropped : Node T := { node with children := node.children.eraseIdx i }
        if child.nodeType = .static && !node.isParam then
          if i < node.indices.length then
            ({ dropped with indices := node.indices.eraseIdx i }, .ok child.value)
          else (dropped, .panic)
        else ({ dropped with wildChild := false }, .ok child.value))) :
    Removes names node (node.pfx.inner ++ child.pfx.inner) (node.removeChild i names) := by
  simp only [removeChild, located]
  split
  · exact Removes.kept
  next sameNames =>
    have isNames := not_not.mp sameNames
    split
    next leaf => exact dropped isNames (List.isEmpty_iff.mp leaf)
    next inner =>
      exact ⟨_, Pruned.clear located isNames
        (fun leaf => inner (List.isEmpty_iff.mpr leaf)), Or.inl rfl⟩

theorem removeChild_static (notWild : node.isWild = false) (inside : i < node.indices.length)
    (located : node.children[i]? = some child) (static : child.nodeType = .static) :
    Removes names node (node.pfx.inner ++ child.pfx.inner) (node.removeChild i names) := by
  have notParam := not_isParam_of_not_isWild notWild
  apply removeChild_removes located
  intro isNames leaf
  rw [if_pos (by simp [static, notParam]), if_pos inside]
  exact ⟨_, Pruned.dropStatic notWild inside located isNames leaf, Or.inl rfl⟩

theorem removeChild_wild {others : List (Node T)}
    (notWild : node.isWild = false) (flagged : node.wildChild = true)
    (children : node.children = others ++ [child]) (isWild : child.isWild = true) :
    Removes names node (node.pfx.inner ++ child.pfx.inner)
      (node.removeChild (node.children.length - 1) names) := by
  have located : node.children[node.children.length - 1]? = some child := by
    rw [children]
    simp
  have notStatic : child.nodeType ≠ .static := by
    intro static
    simp [isWild_of_static static] at isWild
  have erased : node.children.eraseIdx (node.children.length - 1) = others := by grind
  apply removeChild_removes located
  intro isNames leaf
  rw [if_neg (by simp [notStatic]), erased]
  exact ⟨_, Pruned.dropWild notWild flagged children isNames leaf, Or.inl rfl⟩

theorem removeChild_suffix (isParam : node.isParam = true)
    (located : node.children[i]? = some child) :
    Removes names node (node.pfx.inner ++ child.pfx.inner) (node.removeChild i names) := by
  apply removeChild_removes located
  intro isNames leaf
  rw [if_neg (by simp [isParam])]
  exact ⟨_, Pruned.dropSuffix isParam located isNames leaf, Or.inl rfl⟩

variable {descend : Node T → Bytes → Node T × Outcome Empty (Option T)}

theorem removeInto_removes (located : node.children[i]? = some child)
    (continues : Removes names child bytes (descend child bytes)) :
    Removes names node (node.pfx.inner ++ bytes) (removeInto descend node i bytes) := by
  obtain ⟨removed, pruned, outcome⟩ := continues
  simp only [removeInto, located]
  exact ⟨removed, Pruned.descend located pruned, outcome⟩

theorem removeBelow_removes {next : UInt8} (shaped : WellShaped node)
    (continues : ∀ child ∈ node.children, ∀ rest, Removes names child rest (descend child rest)) :
    Removes names node (node.pfx.inner ++ bytes) (removeBelow names descend node next bytes) := by
  fun_cases removeBelow names descend node next bytes with
  | case1 i search =>
    have inside : i < node.indices.length := (List.findIdx?_eq_some_iff_getElem.mp search).1
    have notWild : node.isWild = false := by
      cases shaped.here with
      | static notWild => exact notWild
      | param _ _ _ noIndices | catchAll _ _ _ noIndices => simp [noIndices] at inside
    obtain ⟨_, statics, wild, forked⟩ := shaped.here.forked notWild
    obtain ⟨child, inStatics, located⟩ := forked.indexed inside
    simp only [removeAt, located]
    split
    · rename_i whole
      rw [← whole]
      exact removeChild_static notWild inside located (forked.static child inStatics)
    · exact removeInto_removes located (continues _ (mem_of_getElem? located) bytes)
  | case2 _ flagged =>
    have notWild : node.isWild = false := by
      cases shaped.here with
      | static notWild => exact notWild
      | param _ _ _ _ noWild | catchAll _ _ _ _ noWild => simp [noWild] at flagged
    obtain ⟨_, statics, wild, forked⟩ := shaped.here.forked notWild
    obtain ⟨child, rfl, located⟩ := forked.only flagged
    rw [getLast?_eq_getElem?] at located
    simp only [removeAt, located]
    split
    · rename_i whole
      rw [← whole]
      exact removeChild_wild notWild flagged forked.children (forked.wild child (by simp))
    · exact removeInto_removes located (continues _ (mem_of_getElem? located) bytes)
  | case3 => exact Removes.kept

theorem removeRound_removes (shaped : WellShaped node)
    (continues : ∀ child ∈ node.children, ∀ rest, Removes names child rest (descend child rest)) :
    Removes names node bytes (removeRound names descend node bytes) := by
  have cut : ∀ {rest : Bytes}, ¬ bytes.take node.pfx.inner.length ≠ node.pfx.inner →
      bytes.drop node.pfx.inner.length = rest → bytes = node.pfx.inner ++ rest := by
    rintro rest samePrefix rfl
    exact (prefix_iff_eq_append.mp (prefix_iff_eq_take.mpr (not_not.mp samePrefix).symm)).symm
  have atParam : ∀ {i : Nat} {text : Bytes},
      (if node.isParam then node.children.findIdx? fun child => child.pfx.inner = text
        else none) = some i →
      node.isParam = true ∧ ∃ child, node.children[i]? = some child ∧ child.pfx.inner = text := by
    intro i text search
    obtain ⟨isParam, search⟩ := Option.ite_none_right_eq_some.mp search
    obtain ⟨inside, same, _⟩ := List.findIdx?_eq_some_iff_getElem.mp search
    exact ⟨isParam, _, List.getElem?_eq_getElem inside, of_decide_eq_true same⟩
  fun_cases removeRound names descend node bytes with
  | case1 | case2 | case3 => exact Removes.kept
  | case4 _ samePrefix next rest isRest remaining terminator i search atEnd =>
    obtain ⟨isParam, child, located, same⟩ := atParam search
    have whole : child.pfx.inner = next :: rest := by rw [same, atEnd, take_length]
    rw [cut samePrefix isRest, ← whole]
    exact removeChild_suffix isParam located
  | case5 _ samePrefix next rest isRest remaining terminator i search _ =>
    obtain ⟨_, child, located, _⟩ := atParam search
    rw [cut samePrefix isRest]
    exact removeInto_removes located (continues _ (mem_of_getElem? located) _)
  | case6 _ samePrefix next rest isRest =>
    rw [cut samePrefix isRest]
    exact removeBelow_removes shaped continues

theorem removeWalk_removes :
    ∀ (rounds : Nat) (node : Node T) (bytes : Bytes),
      WellShaped node →
      Removes names node bytes (removeWalk names rounds node bytes)
  | 0, _, _, _ => Removes.panic
  | rounds + 1, node, bytes, shaped => by
      rw [removeWalk]
      apply removeRound_removes shaped
      intro child member rest
      exact removeWalk_removes rounds child rest (shaped.child member)

/-! ## The routes of a pruned tree -/

theorem routes_of_leaf (leaf : node.children = []) :
    node.routes = node.value.toList.map (Route.mk node.pfx.marks node.remapping) := by
  rw [routes_eq, inside, leaf]
  simp [Route.behind, Function.comp_def]

theorem routes_of_value_none :
    node.routes.Perm
      (node.value.toList.map (Route.mk node.pfx.marks node.remapping) ++
        ({ node with value := none } : Node T).routes) := by
  rw [routes_eq, routes_eq]
  simp [inside, Route.behind, Function.comp_def]

theorem set_self {children : List (Node T)} (located : children[i]? = some child) :
    children.set i child = children := by
  obtain ⟨inside, found⟩ := List.getElem?_eq_some_iff.mp located
  rw [← found, set_getElem_self]

variable {removed : Option T}

theorem perm_behind {marks : List Mark} (same : SameHead node changed)
    (fewer : (node.children.flatMap routes).Perm
      (removed.toList.map (Route.mk marks names) ++ changed.children.flatMap routes)) :
    node.routes.Perm
      (removed.toList.map (Route.mk (node.pfx.marks ++ marks) names) ++ changed.routes) := by
  have behindLabel :
      (removed.toList.map (Route.mk marks names)).map (Route.behind node.pfx.marks) =
        removed.toList.map (Route.mk (node.pfx.marks ++ marks) names) := by
    cases removed <;> rfl
  have samePrefix : changed.pfx = node.pfx := congrArg Prod.fst same
  have whole := perm_routes_of_inside (by rw [samePrefix]) (perm_inside_of_children same.symm fewer)
  rwa [samePrefix, behindLabel] at whole

theorem perm_flatMap_set_of_lost {items : List (Node T)} {lost : List (Route T)}
    (located : items[i]? = some child)
    (fewer : child.routes.Perm (lost ++ changed.routes)) :
    (items.flatMap routes).Perm (lost ++ (items.set i changed).flatMap routes) := by
  have inside := (List.getElem?_eq_some_iff.mp located).1
  have put : (items.set i changed)[i]? = some changed := List.getElem?_set_self inside
  have back := perm_flatMap_set put fewer
  rw [set_set, set_self located] at back
  exact back

theorem perm_eraseIdx {children : List (Node T)} (located : children[i]? = some child) :
    children.Perm (child :: children.eraseIdx i) := by
  obtain ⟨inside, rfl⟩ := List.getElem?_eq_some_iff.mp located
  exact (getElem_cons_eraseIdx_perm inside).symm

theorem perm_of_dropped (sameNames : child.remapping = names) (leaf : child.children = [])
    (same : SameHead node changed) (fewer : node.children.Perm (child :: changed.children)) :
    node.routes.Perm (child.value.toList.map
      (Route.mk (node.pfx.marks ++ child.pfx.marks) names) ++ changed.routes) := by
  have routesFewer := fewer.flatMap_right routes
  rw [flatMap_cons, routes_of_leaf leaf, sameNames] at routesFewer
  exact perm_behind same routesFewer

/-- What a removal does to the routes of a tree. -/
theorem Pruned.routes_perm (pruned : Pruned names node bytes changed removed) :
    ∃ marks : List Mark,
      (removed ≠ none → marks.map Prod.fst = bytes) ∧
      node.routes.Perm (removed.toList.map (Route.mk marks names) ++ changed.routes) := by
  induction pruned with
  | kept => exact ⟨[], fun some => absurd rfl some, List.Perm.refl _⟩
  | dropStatic _ _ located sameNames leaf | dropSuffix _ located sameNames leaf =>
    exact ⟨_, fun _ => by simp, perm_of_dropped sameNames leaf rfl (perm_eraseIdx located)⟩
  | dropWild _ _ children sameNames leaf =>
    exact ⟨_, fun _ => by simp,
      perm_of_dropped sameNames leaf rfl (children ▸ perm_append_singleton ..)⟩
  | @clear node child i located sameNames _ =>
    have lost := @routes_of_value_none T child
    rw [sameNames] at lost
    exact ⟨_, fun _ => by simp, perm_behind rfl (perm_flatMap_set_of_lost located lost)⟩
  | @descend node child changed i bytes removed located _ ih =>
    obtain ⟨marks, spelled, fewer⟩ := ih
    refine ⟨node.pfx.marks ++ marks, fun some => ?_,
      perm_behind rfl (perm_flatMap_set_of_lost located fewer)⟩
    rw [map_append, spelled some, UnescapedRoute.map_fst_marks]

/-! ## The shape of a pruned tree -/

theorem Pruned.nodeType_eq (pruned : Pruned names node bytes changed removed) :
    changed.nodeType = node.nodeType := by
  cases pruned <;> rfl

theorem Pruned.pfx_eq (pruned : Pruned names node bytes changed removed) :
    changed.pfx = node.pfx := by
  cases pruned <;> rfl

theorem cleared_wellShaped (shaped : WellShaped node) (notCatchAll : node.nodeType ≠ .catchAll) :
    WellShaped { node with value := none } := by
  exact WellShaped.store shaped _ _ fun isCatchAll => absurd isCatchAll notCatchAll

theorem Pruned.wellShaped (pruned : Pruned names node bytes changed removed)
    (shaped : WellShaped node) : WellShaped changed := by
  induction pruned with
  | kept => exact shaped
  | @dropStatic node child i notWild inside located _ _ =>
    obtain ⟨plain, statics, wild, forked⟩ := shaped.here.forked notWild
    have insideStatics : i < statics.length := by
      rw [forked.indices]
      exact inside
    apply Everywhere.mk
    · apply Shaped.static (by exact notWild) (by exact plain)
      exact
        { children := by
            rw [forked.children, eraseIdx_append_of_lt_length insideStatics]
          indices := by
            rw [length_eraseIdx_of_lt insideStatics, length_eraseIdx_of_lt inside, forked.indices]
          static := fun inner member => forked.static inner (mem_of_mem_eraseIdx member)
          single := forked.single
          wild := forked.wild }
    · intro inner member
      exact shaped.child (mem_of_mem_eraseIdx member)
  | @dropWild node child others notWild flagged children _ _ =>
    obtain ⟨plain, statics, wild, forked⟩ := shaped.here.forked notWild
    obtain ⟨rfl, rfl⟩ := forked.lastChild flagged children
    apply Everywhere.mk
    · apply Shaped.static (by exact notWild) (by exact plain)
      exact
        { children := (append_nil _).symm
          indices := forked.indices
          static := forked.static
          single := rfl
          wild := by simp }
    · exact shaped.front children
  | @dropSuffix node child i isParam located _ _ =>
    obtain ⟨c, letter, marks, noIndices, noWild, static⟩ := shaped.here.param_children isParam
    obtain ⟨hasSuffix, kind⟩ := nodeType_of_isParam isParam
    apply Everywhere.mk
    · apply Shaped.param (by exact kind) letter (by exact marks) (by exact noIndices) (by rfl)
      intro inner member
      exact static inner (mem_of_mem_eraseIdx member)
    · intro inner member
      exact shaped.child (mem_of_mem_eraseIdx member)
  | @clear node child i located _ inner =>
    have childShaped := shaped.child (mem_of_getElem? located)
    have notCatchAll : child.nodeType ≠ .catchAll := by
      intro isCatchAll
      cases childShaped.here with
      | static notWild => simp [isWild, isCatchAll] at notWild
      | param isParam => simp [isCatchAll] at isParam
      | catchAll _ _ _ _ _ noChildren => exact inner noChildren
    exact putChild_wellShaped shaped located (Or.inl rfl)
      (cleared_wellShaped childShaped notCatchAll)
  | descend located below ih =>
    have childShaped := shaped.child (mem_of_getElem? located)
    exact putChild_wellShaped shaped located (Or.inl below.nodeType_eq) (ih childShaped)

/-! ## Removing from a tree -/

/-- What `remove` does to a tree. -/
theorem remove_cases (self : Node T) (text : Bytes) (shaped : WellShaped self) :
    ((self.remove text).1 = self ∧
      ((self.remove text).2 = .ok none ∨ (self.remove text).2 = .panic)) ∨
    ∃ route names,
      normalizeParams (UnescapedRoute.new text) = .ok (route, names) ∧
      ((route.inner = self.pfx.inner ∧
          (self.remove text).2 = .ok self.value ∧
          (self.remove text).1 =
            if self.children = [] then empty
            else { self with value := none }) ∨
        Removes names self route.inner (self.remove text)) := by
  cases normalized : normalizeParams (UnescapedRoute.new text) with
  | err | panic => exact Or.inl (by simp [remove, normalized])
  | ok normal =>
    obtain ⟨route, names⟩ := normal
    refine Or.inr ⟨route, names, rfl, ?_⟩
    simp only [remove, normalized]
    by_cases atRoot : route.inner = self.pfx.inner
    · grind
    · right
      rw [if_neg atRoot]
      exact removeWalk_removes self.height self route.inner shaped

theorem remove_rooted {self : Node T} (rooted : Rooted self)
    (text : Bytes) : Rooted (self.remove text).1 := by
  rcases remove_cases self text rooted.shaped with
    ⟨unchanged, _⟩ | ⟨route, names, _, ⟨_, _, result⟩ | ⟨_, pruned, _⟩⟩
  · simp_all
  · rw [result]
    split
    · exact empty_rooted
    · exact ⟨cleared_wellShaped rooted.shaped (nodeType_ne_catchAll rooted.notWild),
        rooted.notWild⟩
  · refine ⟨pruned.wellShaped rooted.shaped, ?_⟩
    rw [isWild, pruned.nodeType_eq]
    exact rooted.notWild

/-- A removal takes out one route with the bytes of the pattern, or none. -/
theorem remove_routes {self : Node T} (rooted : Rooted self) (text : Bytes) :
    ((self.remove text).1.routes.Perm self.routes ∧
      ((self.remove text).2 = .ok none ∨ (self.remove text).2 = .panic)) ∨
    ∃ route names taken,
      normalizeParams (UnescapedRoute.new text) = .ok (route, names) ∧
      (self.remove text).2 = .ok (some taken.value) ∧
      taken.marks.map Prod.fst = route.inner ∧
      (taken.names = names ∨ taken.marks = self.pfx.marks) ∧
      self.routes.Perm (taken :: (self.remove text).1.routes) := by
  rcases remove_cases self text rooted.shaped with
    ⟨unchanged, outcome⟩ | ⟨route, names, normalized, atRoot | walked⟩
  · simp_all
  · obtain ⟨bytes, outcome, result⟩ := atRoot
    have sameRoutes :
        self.routes.Perm
          (self.value.toList.map
              (Route.mk self.pfx.marks self.remapping) ++
            (self.remove text).1.routes) := by
      rw [result]
      split
      · rename_i leaf
        rw [routes_of_leaf leaf, routes_empty, append_nil]
      · exact routes_of_value_none
    cases stored : self.value with
    | none =>
      rw [stored] at sameRoutes outcome
      exact Or.inl ⟨sameRoutes.symm, Or.inl outcome⟩
    | some value =>
      rw [stored] at sameRoutes outcome
      refine Or.inr ⟨route, names,
        { marks := self.pfx.marks, names := self.remapping, value := value },
        normalized, outcome, ?_, Or.inr rfl, sameRoutes⟩
      simp_all
  · obtain ⟨removed, pruned, outcome⟩ := walked
    obtain ⟨marks, spelled, fewer⟩ := pruned.routes_perm
    cases removed with
    | none =>
      refine Or.inl ⟨fewer.symm, ?_⟩
      rcases outcome with returned | ⟨panicked, _⟩
      · exact Or.inl returned
      · exact Or.inr panicked
    | some value => grind

end Walk

end Node

end Ophan.Router
