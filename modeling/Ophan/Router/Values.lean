import Ophan.Router.Withdrawal

/-!
# What the entries of a router have in common

Entries are made by `add_route` alone, and an implicit entry only ever loses
methods.  So a property that holds for what `add_route` puts in, and that is
kept when methods are taken away, holds for every entry of every reachable
router, and for the entry that answers a request.
-/

namespace Ophan.Router

open List
open Ophan.Http

universe u

variable {T : Type u}

/-! ## The values of a tree -/

namespace Node

structure Keeps (P : T → Prop) (tree : Node T) : Prop where
  rooted : Rooted tree
  values : ∀ route ∈ tree.routes, P route.value

variable {P : T → Prop} {tree : Node T}

theorem Keeps.empty : Keeps P (empty : Node T) := ⟨empty_rooted, by simp⟩

variable {names : ParamRemapping} {val : T} {marks : List Mark} {stored : Bool} {route : Route T}

theorem value_of_mem_storedRoute (member : route ∈ storedRoute names val marks stored) :
    route.value = val := by
  cases stored with
  | false => cases member
  | true => rw [mem_singleton.mp member]

theorem Hung.value_cases {node changed : Node T}
    (hung : Hung names val node marks changed stored) (nothing : node.inside = [])
    (member : route ∈ changed.routes) : route.value = val := by
  rw [routes_eq, mem_map] at member
  obtain ⟨inner, insideChanged, rfl⟩ := member
  have known := hung.inside_perm.mem_iff.mp insideChanged
  rw [nothing, append_nil] at known
  change inner.value = val
  exact value_of_mem_storedRoute known

theorem Planted.value_cases {node changed : Node T}
    (planted : Planted names val node marks changed stored) (nothing : node.inside = [])
    (member : route ∈ changed.routes) : route.value = val := by
  cases planted with
  | refused => simp [routes_of_inside_nil nothing] at member
  | wild _ hung => exact hung.value_cases nothing member
  | static _ _ hung => exact hung.value_cases nothing member

theorem insert_values (rooted : Rooted tree) (text : Bytes) (val : T)
    (member : route ∈ (tree.insert text val).1.routes) :
    route.value = val ∨ ∃ old ∈ tree.routes, old.value = route.value := by
  rcases insert_cases rooted.shaped rooted.notWild with
    ⟨unchanged, -⟩ | ⟨marks, names, -, planted | ⟨-, grown⟩⟩
  · rw [unchanged] at member
    exact Or.inr ⟨route, member, rfl⟩
  · obtain ⟨noValue, noChildren, node, planted, result⟩ := planted
    left
    have nothing : tree.bump.inside = [] := by simp [inside, bump, noValue, noChildren]
    have sameRoutes : (tree.insert text val).1.routes = node.routes := by
      rw [result]
      split
      · rw [routes_eq, routes_eq]
        rfl
      · rfl
    rw [sameRoutes] at member
    exact planted.value_cases nothing member
  · have known := grown.routes_perm.mem_iff.mp member
    rw [routes_bump] at known
    rcases mem_append.mp known with isNew | isOld
    · exact Or.inl (value_of_mem_storedRoute isNew)
    · exact Or.inr ⟨route, isOld, rfl⟩

theorem Keeps.insert (keeps : Keeps P tree) (text : Bytes)
    (holds : P val) : Keeps P (tree.insert text val).1 where
  rooted := insert_rooted keeps.rooted text val
  values := by
    intro route member
    rcases insert_values keeps.rooted text val member with
      isNew | ⟨old, isOld, same⟩
    · rw [isNew]
      exact holds
    · rw [← same]
      exact keeps.values old isOld

theorem Keeps.remove (keeps : Keeps P tree) (text : Bytes) :
    Keeps P (tree.remove text).1 ∧ ∀ value, (tree.remove text).2 = .ok (some value) → P value := by
  have rooted := remove_rooted keeps.rooted text
  rcases remove_routes keeps.rooted text with
    ⟨same, nothing⟩ | ⟨marks, names, taken, -, returned, -, -, split⟩
  · refine ⟨⟨rooted, ?_⟩, ?_⟩
    · intro route member
      exact keeps.values route (same.mem_iff.mp member)
    · grind
  · refine ⟨⟨rooted, ?_⟩, ?_⟩
    · intro route member
      exact keeps.values route (split.mem_iff.mpr (mem_cons_of_mem _ member))
    · intro value found
      rw [returned] at found
      have isTaken : taken.value = value := by simpa using found
      rw [← isTaken]
      exact keeps.values taken (split.mem_iff.mpr mem_cons_self)

theorem Keeps.atPath (keeps : Keeps P tree) {path : Bytes} {value : T}
    {params : Params} (found : tree.atPath path = .ok (value, params)) :
    P value := by
  have searched := atPath_eq_search keeps.rooted path
  rw [found] at searched
  cases result : search tree.height tree path with
  | none =>
    rw [result] at searched
    cases searched
  | some hit =>
    obtain ⟨route, member, -, -, sameValue, -⟩ :=
      search_finds tree.height tree keeps.rooted.shaped keeps.rooted.notWild path hit result
    rw [result] at searched
    have isValue : value = hit.value := by
      simp only [answerOf, Outcome.map_ok, finish] at searched
      split at searched
      · exact (Prod.mk.inj (Outcome.ok.inj searched)).1
      · cases searched
    rw [isValue, ← sameValue]
    exact keeps.values route member

end Node

/-! ## The entries of a router -/

section Entries

variable {P : T → HttpMethodSet → Prop}

def RouteSlot.Each (P : T → HttpMethodSet → Prop) (slot : RouteSlot T) : Prop :=
  ∀ entry ∈ slot.entries, P entry.value entry.methods

def Shrinks (P : T → HttpMethodSet → Prop) : Prop :=
  ∀ value methods other, P value methods → P value (methods.without other)

variable {value : T}

theorem Shrinks.foldl (shrinks : Shrinks P) (existing : List (RouteEntry T)) :
    ∀ {methods : HttpMethodSet}, P value methods →
      P value (existing.foldl (fun methods entry => methods.without entry.methods) methods) := by
  induction existing with
  | nil => simp
  | cons entry rest ih =>
    intro methods holds
    exact ih (shrinks value methods entry.methods holds)

theorem Shrinks.yieldTo (shrinks : Shrinks P) {existing : RouteEntry T}
    (entry : RouteEntry T) (holds : P existing.value existing.methods) :
    P (existing.yieldTo entry).value (existing.yieldTo entry).methods := by
  rw [RouteEntry.yieldTo]
  split
  · exact shrinks _ _ _ holds
  · exact holds

variable {entry : RouteEntry T}

theorem RouteSlot.Each.push {slot : RouteSlot T} (each : slot.Each P) (shrinks : Shrinks P)
    (holds : P entry.value entry.methods) : (slot.push entry).1.Each P := by
  intro other member
  rcases slot.push_cases entry with
    ⟨-, -, same | added⟩ | ⟨-, refused⟩ | ⟨-, -, -, shuffled⟩
  · rw [same] at member
    exact each other member
  · rw [added] at member
    rcases mem_append.mp member with isOld | isNew
    · exact each other isOld
    · rw [mem_singleton.mp isNew]
      exact shrinks.foldl slot.entries holds
  · rw [refused] at member
    exact each other member
  · rcases mem_cons.mp (shuffled.mem_iff.mp member) with rfl | kept
    · exact holds
    · obtain ⟨old, isOld, rfl⟩ := mem_map.mp (mem_filter.mp kept).1
      exact shrinks.yieldTo entry (each old isOld)

theorem insertEntry_keeps {tree : Node (RouteSlot T)}
    (keeps : Node.Keeps (RouteSlot.Each P) tree) (shrinks : Shrinks P)
    (pattern path : Bytes) (holds : P entry.value entry.methods) :
    Node.Keeps (RouteSlot.Each P) (insertEntry tree pattern entry path).1 := by
  obtain ⟨removed, taken⟩ := keeps.remove pattern
  fun_cases insertEntry tree pattern entry path
  case case1 => exact removed
  case case2 => exact removed.insert pattern (forall_mem_singleton.mpr holds)
  all_goals exact removed.insert pattern ((taken _ (by assumption)).push shrinks holds)

theorem insertPath_keeps {tree : Node (RouteSlot T)}
    (keeps : Node.Keeps (RouteSlot.Each P) tree) (shrinks : Shrinks P)
    (path : Bytes) (holds : P entry.value entry.methods) :
    Node.Keeps (RouteSlot.Each P) (insertPath tree path entry).1 := by
  have explicit (pattern text : Bytes) := insertEntry_keeps keeps shrinks pattern text holds
  fun_cases insertPath tree path entry
  case case1 => exact keeps
  case case4 | case5 => exact insertEntry_keeps (explicit _ _) shrinks _ _ holds
  all_goals exact explicit _ _

def Keeps (P : T → HttpMethodSet → Prop) (router : Router T) : Prop :=
  ∀ vhost ∈ router.routesBucket, Node.Keeps (RouteSlot.Each P) vhost.tree

theorem keeps_new : Keeps P (Router.new : Router T) := by
  exact forall_mem_singleton.mpr Node.Keeps.empty

variable {router : Router T}

theorem Keeps.insertInto (keeps : Keeps P router)
    (shrinks : Shrinks P) (id : Nat) (path : Bytes) (holds : P entry.value entry.methods) :
    Keeps P (router.insertInto id path entry).1 := by
  rw [Router.insertInto]
  split
  · exact keeps
  · rename_i vhost located
    intro other member
    rcases mem_or_eq_of_mem_set member with isOld | isNew
    · exact keeps other isOld
    · rw [isNew]
      exact insertPath_keeps (keeps vhost (mem_of_getElem? located)) shrinks path holds

theorem Keeps.insertAll {path : Bytes}
    (shrinks : Shrinks P) (holds : P entry.value entry.methods) (ids : List Nat)
    (keeps : Keeps P router) : Keeps P (router.insertAll path entry ids).1 := by
  fun_induction Router.insertAll router path entry ids with
  | case1 => exact keeps
  | case2 router id ids _ _ ih => exact ih (keeps.insertInto shrinks id path holds)
  | case3 router id => exact keeps.insertInto shrinks id path holds

theorem Keeps.vhostOf {next : Router T} {host : Bytes} {id : Nat}
    (keeps : Keeps P router) (found : router.vhostOf host = some (next, id)) :
    Keeps P next := by
  have added : Keeps P (router.addVhostInner host).1 :=
    forall_mem_append.mpr ⟨keeps, forall_mem_singleton.mpr Node.Keeps.empty⟩
  rcases Router.vhostOf_cases found with ⟨rfl, _⟩ | ⟨isNew, _⟩
  · exact keeps
  · simp_all

theorem Keeps.vhostIds {next : Router T} {hosts : List Bytes} {ids result : List Nat}
    (keeps : Keeps P router) (run : router.vhostIds hosts ids = some (next, result)) :
    Keeps P next := by
  fun_induction Router.vhostIds router hosts ids with
  | case1 =>
    cases run
    exact keeps
  | case2 => cases run
  | case3 router host hosts ids middle id found ih => exact ih (keeps.vhostOf found) run

/-- The methods that `add_route` registers. -/
def registered (methods : HttpMethodSet) : HttpMethodSet :=
  if methods.isEmpty then HttpMethodSet.all else methods

theorem Keeps.addRoute (keeps : Keeps P router)
    (shrinks : Shrinks P) (path : Bytes) {methods : HttpMethodSet}
    (hosts : List Bytes) (holds : P value (registered methods)) :
    Keeps P (router.addRoute path methods hosts value).1 := by
  rw [Router.addRoute]
  split
  · exact keeps
  · rename_i next ids run
    exact Keeps.insertAll shrinks holds ids (keeps.vhostIds run)

theorem RouteSlot.mem_of_find {slot : RouteSlot T} {method : Method}
    (found : slot.find method = some entry) :
    entry ∈ slot.entries ∧ entry.allows method = true := by
  rw [RouteSlot.find] at found
  split at found
  · rename_i allows
    rw [← Option.some.inj found]
    exact ⟨mem_cons_self, allows⟩
  · exact ⟨mem_cons_of_mem _ (mem_of_find?_eq_some found),
      List.find?_some (p := (RouteEntry.allows · method)) found⟩

/-- A matched value comes from an entry that allows the method. -/
theorem Keeps.matchRoute (keeps : Keeps P router)
    {host : Option Bytes} {method : Method} {path : Bytes} {params : Params}
    (found : router.matchRoute host method path = .ok (value, params)) :
    ∃ methods : HttpMethodSet, P value methods ∧ methods.Allows method := by
  rw [Router.matchRoute] at found
  split at found
  · cases found
  · rename_i vhost located
    obtain ⟨⟨slot, other⟩, looked, answered⟩ := Outcome.bind_eq_ok_iff.mp found
    have each := (keeps vhost (mem_of_getElem? located)).atPath looked
    cases hit : slot.find method with
    | none => simp_all
    | some entry =>
      simp only [hit] at answered
      have isValue := (Prod.mk.inj (Outcome.ok.inj answered)).1
      obtain ⟨member, allows⟩ := RouteSlot.mem_of_find hit
      refine ⟨entry.methods, ?_, (RouteEntry.allows_iff entry method).mp allows⟩
      rw [← isValue]
      exact each entry member

end Entries

end Ophan.Router
