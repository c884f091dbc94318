import Ophan.Router.Children
import Ophan.Router.Normalize

/-!
# The routes of a tree

A tree stands for the list of its routes: for each value the marks on the way
to it, with the names stored beside it.  `Shaped` is the part of the shape of a
node that every operation keeps, whatever routes are inserted.
-/

namespace Ophan.Router

open List

universe u

variable {T : Type u}

/-- A stored route: its normalized text, the names of its parameters and its
value. -/
structure Route (T : Type u) where
  marks : List Mark
  names : ParamRemapping
  value : T

def Route.behind (label : List Mark) (route : Route T) : Route T :=
  { route with marks := label ++ route.marks }

theorem Route.behind_behind (first second : List Mark) (route : Route T) :
    (route.behind second).behind first = route.behind (first ++ second) := by
  simp [Route.behind]

namespace Node

mutual

def routes : Node T → List (Route T)
  | ⟨pfx, _, _, _, _, children, value, remapping⟩ =>
    (value.toList.map (Route.mk [] remapping) ++ routesOfList children).map (Route.behind pfx.marks)

def routesOfList : List (Node T) → List (Route T)
  | [] => []
  | child :: rest => child.routes ++ routesOfList rest

end

def inside (node : Node T) : List (Route T) :=
  node.value.toList.map (Route.mk [] node.remapping) ++ node.children.flatMap routes

theorem routesOfList_eq_flatMap (children : List (Node T)) :
    routesOfList children = children.flatMap routes := by
  induction children with
  | nil => rfl
  | cons child rest ih => rw [routesOfList, ih, flatMap_cons]

theorem routes_eq (node : Node T) :
    node.routes = node.inside.map (Route.behind node.pfx.marks) := by
  obtain ⟨pfx, priority, wildChild, indices, nodeType, children, value, remapping⟩ := node
  rw [routes, routesOfList_eq_flatMap]
  rfl

@[simp]
theorem routes_bump (node : Node T) : node.bump.routes = node.routes := by
  rw [routes_eq, routes_eq]
  rfl

variable {node changed : Node T} {extra : List (Route T)}

theorem perm_routes_of_inside (samePrefix : changed.pfx.marks = node.pfx.marks)
    (grown : changed.inside.Perm (extra ++ node.inside)) :
    changed.routes.Perm (extra.map (Route.behind node.pfx.marks) ++ node.routes) := by
  rw [routes_eq, routes_eq, samePrefix, ← map_append]
  exact grown.map _

/-- The same text and value, whatever the children are. -/
abbrev SameHead (node changed : Node T) : Prop :=
  (changed.pfx, changed.value, changed.remapping) = (node.pfx, node.value, node.remapping)

theorem perm_inside_of_children (same : SameHead node changed) (grown :
      (changed.children.flatMap routes).Perm (extra ++ node.children.flatMap routes)) :
    changed.inside.Perm (extra ++ node.inside) := by
  simp only [SameHead, Prod.mk.injEq] at same
  rw [inside, inside, same.2.1, same.2.2]
  apply (grown.append_left _).trans
  rw [← append_assoc, ← append_assoc]
  exact perm_append_comm.append_right _

theorem perm_flatMap_set {children : List (Node T)} {i : Nat} {child : Node T}
    (located : children[i]? = some child) (grown : changed.routes.Perm (extra ++ child.routes)) :
    ((children.set i changed).flatMap routes).Perm (extra ++ children.flatMap routes) := by
  induction children generalizing i with
  | nil => simp at located
  | cons first rest ih =>
    cases i with
    | zero =>
      simp only [List.getElem?_cons_zero, Option.some.injEq] at located
      subst located
      rw [set_cons_zero, flatMap_cons, flatMap_cons, ← append_assoc]
      exact grown.append_right _
    | succ i =>
      rw [List.getElem?_cons_succ] at located
      rw [set_cons_succ, flatMap_cons, flatMap_cons]
      apply ((ih located).append_left _).trans
      rw [← append_assoc, ← append_assoc]
      exact perm_append_comm.append_right _

/-! ## Properties of every node -/

inductive Everywhere (P : Node T → Prop) : Node T → Prop
  | mk {node : Node T} :
      P node → (∀ child ∈ node.children, Everywhere P child) →
      Everywhere P node

theorem mem_addSuffixChild {node new inner : Node T} :
    inner ∈ (node.addSuffixChild new).children ↔ inner = new ∨ inner ∈ node.children := by
  rw [Node.addSuffixChild, perm_middle.mem_iff, mem_cons, take_append_drop]

namespace Everywhere

variable {P : Node T → Prop} {node inner : Node T}

theorem here (everywhere : Everywhere P node) : P node := by
  cases everywhere with
  | mk holds _ => exact holds

theorem child (everywhere : Everywhere P node)
    (member : inner ∈ node.children) : Everywhere P inner := by
  cases everywhere with
  | mk _ holds => exact holds inner member

theorem leaf (holds : P node) (noChildren : node.children = []) : Everywhere P node := by
  apply mk holds
  rw [noChildren]
  exact forall_mem_nil _

theorem children (everywhere : Everywhere P node) : ∀ child ∈ node.children, Everywhere P child :=
  fun _ => everywhere.child

theorem single (holds : Everywhere P node) : ∀ child ∈ [node], Everywhere P child := by
  exact forall_mem_singleton.mpr holds

variable {changed : Node T}

theorem added {children : List (Node T)} (others : ∀ child ∈ children, Everywhere P child)
    (holds : Everywhere P changed) : ∀ child ∈ children ++ [changed], Everywhere P child :=
  forall_mem_append.mpr ⟨others, holds.single⟩

theorem front {first second : List (Node T)} (everywhere : Everywhere P node)
    (children : node.children = first ++ second) : ∀ child ∈ first, Everywhere P child := by
  intro child member
  apply everywhere.child
  rw [children]
  exact mem_append_left _ member

theorem set {i : Nat} (everywhere : Everywhere P node) (holds : Everywhere P changed) :
    ∀ child ∈ node.children.set i changed, Everywhere P child := by
  intro child member
  rcases mem_or_eq_of_mem_set member with old | rfl
  · exact everywhere.child old
  · exact holds

theorem between {first second : List (Node T)} (everywhere : Everywhere P node)
    (children : node.children = first ++ second) (holds : Everywhere P changed) :
    ∀ child ∈ first ++ changed :: second, Everywhere P child := by
  intro child member
  rcases mem_cons.mp (perm_middle.mem_iff.mp member) with rfl | old
  · exact holds
  · exact everywhere.child (by rwa [children])

theorem addSuffixChild (everywhere : Everywhere P node) (holds : Everywhere P changed) :
    ∀ child ∈ (node.addSuffixChild changed).children, Everywhere P child :=
  everywhere.between (take_append_drop _ _).symm holds

end Everywhere

/-! ## The shape of a node -/

/-- `matches!(node_type, NodeType::Param { .. } | NodeType::CatchAll)` -/
def isWild (node : Node T) : Bool :=
  match node.nodeType with
  | .param _ => true
  | .catchAll => true
  | _ => false

def catchAllMarks (flag : Bool) (name : List Mark) : List Mark :=
  (openBrace, false) :: (star, flag) :: (name ++ [(closeBrace, false)])

/-- Static children in front of at most one wildcard child, which is there
exactly when the flag of the node says so. -/
structure Forked (node : Node T) (statics wild : List (Node T)) : Prop where
  children : node.children = statics ++ wild
  indices : statics.length = node.indices.length
  static : ∀ child ∈ statics, child.nodeType = .static
  single : wild.length = node.wildChild.toNat
  wild : ∀ child ∈ wild, child.isWild = true

inductive Shaped (node : Node T) : Prop
  | static {statics wild : List (Node T)} :
      node.isWild = false →
      (∀ mark ∈ node.pfx.marks, Plain mark) →
      Forked node statics wild →
      Shaped node
  | param {hasSuffix : Bool} {c : UInt8} :
      node.nodeType = .param hasSuffix →
      IsLetter c → node.pfx.marks = letterMarks c →
      node.indices = [] → node.wildChild = false →
      (∀ child ∈ node.children, child.nodeType = .static) →
      Shaped node
  | catchAll {flag : Bool} {name : List Mark} :
      node.nodeType = .catchAll →
      CatchAllName name → node.pfx.marks = catchAllMarks flag name →
      node.indices = [] → node.wildChild = false → node.children = [] →
      node.value ≠ none →
      Shaped node

abbrev WellShaped (node : Node T) : Prop := Everywhere Shaped node

theorem Shaped.forked (shaped : Shaped node) (notWild : node.isWild = false) :
    (∀ mark ∈ node.pfx.marks, Plain mark) ∧ ∃ statics wild, Forked node statics wild := by
  cases shaped with
  | static _ plain forked => exact ⟨plain, _, _, forked⟩
  | param isParam => simp [isWild, isParam] at notWild
  | catchAll isCatchAll => simp [isWild, isCatchAll] at notWild

theorem Shaped.static_below (shaped : Shaped node) (isWild : node.isWild = true)
    {child : Node T} (member : child ∈ node.children) : child.nodeType = .static := by
  cases shaped with
  | static notWild => simp [isWild] at notWild
  | param _ _ _ _ _ static => exact static child member
  | catchAll _ _ _ _ _ noChildren => simp [noChildren] at member

section Forked

variable {statics wild : List (Node T)} (forked : Forked node statics wild)

include forked

theorem Forked.mem_iff {child : Node T} :
    child ∈ node.children ↔ child ∈ statics ∨ child ∈ wild := by
  rw [forked.children, mem_append]

theorem Forked.indexed {i : Nat} (inside : i < node.indices.length) :
    ∃ child ∈ statics, node.children[i]? = some child := by
  rw [← forked.indices] at inside
  refine ⟨statics[i], getElem_mem inside, ?_⟩
  rw [forked.children, List.getElem?_append_left inside, List.getElem?_eq_getElem inside]

theorem Forked.only (flagged : node.wildChild = true) :
    ∃ last, wild = [last] ∧ node.children.getLast? = some last := by
  have single := forked.single
  rw [flagged] at single
  obtain ⟨last, rfl⟩ := length_eq_one_iff.mp single
  exact ⟨last, rfl, by rw [forked.children, List.getLast?_concat]⟩

theorem Forked.wild_cases :
    (node.wildChild = false ∧ wild = []) ∨
      ∃ last, node.wildChild = true ∧ wild = [last] ∧ last.isWild = true := by
  cases flag : node.wildChild with
  | false =>
    have single := forked.single
    simp_all
  | true =>
    obtain ⟨last, rfl, _⟩ := forked.only flag
    exact Or.inr ⟨last, rfl, rfl, forked.wild last (by simp)⟩

end Forked

/-- Only a catch-all has to keep its value. -/
theorem WellShaped.store (shaped : WellShaped node) (priority : Nat) {value : Option T}
    (remapping : ParamRemapping)
    (valued : node.nodeType = .catchAll → node.value ≠ none → value ≠ none) :
    WellShaped { node with priority := priority, value := value, remapping := remapping } := by
  refine Everywhere.mk ?_ shaped.children
  cases shaped.here with
  | static notWild plain forked => exact Shaped.static notWild plain { forked with }
  | param isParam letter marks noIndices noWild static =>
    exact Shaped.param isParam letter marks noIndices noWild static
  | catchAll isCatchAll named marks noIndices noWild noChildren stored =>
    exact Shaped.catchAll isCatchAll named marks noIndices noWild noChildren
      (valued isCatchAll stored)

end Node

end Ophan.Router
