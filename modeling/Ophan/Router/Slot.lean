import Ophan.Http.Method
import Ophan.Lib.Outcome

/-!
# The routes of one pattern

A slot holds the routes that were registered for one pattern, each with its
own methods.  A route `/x/*` also registers an implicit entry at `/x`, which
gives way to the explicit entries there.

`RouteSlot.push` keeps the methods of the entries apart unless a difference of
method sets leaves exactly the nine standard methods: that set stands for every
method.
-/

namespace Ophan.Router

open List
open Ophan.Http

universe u

/-- A routed value together with the HTTP methods its route accepts. -/
structure RouteEntry (T : Type u) where
  methods : HttpMethodSet
  value : T
  implicit : Bool
  deriving DecidableEq, Repr

structure RouteSlot (T : Type u) where
  first : RouteEntry T
  rest : List (RouteEntry T)
  deriving DecidableEq, Repr

variable {T : Type u}

namespace RouteEntry

def allows (entry : RouteEntry T) (method : Method) : Bool :=
  entry.methods.isAny || entry.methods.containsMethod method

theorem allows_iff (entry : RouteEntry T) (method : Method) :
    entry.allows method = true ↔ entry.methods.Allows method := by
  simp [allows, HttpMethodSet.Allows]

/-- `existing.methods = existing.methods.without(..)` for an implicit entry. -/
def yieldTo (existing entry : RouteEntry T) : RouteEntry T :=
  if existing.implicit then
    { existing with methods := existing.methods.without entry.methods }
  else
    existing

end RouteEntry

namespace RouteSlot

def new (entry : RouteEntry T) : RouteSlot T := { first := entry, rest := [] }

def entries (slot : RouteSlot T) : List (RouteEntry T) := slot.first :: slot.rest

def find (slot : RouteSlot T) (method : Method) : Option (RouteEntry T) :=
  if slot.first.allows method then
    some slot.first
  else
    slot.rest.find? (·.allows method)

/-- Adds an entry to the routes of this pattern, or gives it back. -/
def push (slot : RouteSlot T) (entry : RouteEntry T) : RouteSlot T × Outcome (RouteEntry T) Unit :=
  if entry.implicit then
    let methods := slot.entries.foldl (fun methods existing => methods.without existing.methods)
      entry.methods
    if methods.isEmpty then
      (slot, .ok ())
    else
      ({ slot with rest := slot.rest ++ [{ entry with methods := methods }] }, .ok ())
  else if slot.entries.any fun existing =>
      !existing.implicit && existing.methods.intersects entry.methods then
    (slot, .err entry)
  else
    let first := slot.first.yieldTo entry
    let rest := (slot.rest.map (·.yieldTo entry)).filter fun existing => !existing.methods.isEmpty
    if first.methods.isEmpty then
      ({ first := entry, rest := rest }, .ok ())
    else
      ({ first := first, rest := rest ++ [entry] }, .ok ())

/-! ## Runs of `push` -/

/-- The explicit entries accepted so far, after one more call. -/
def acceptedAfter (slot : RouteSlot T) (entry : RouteEntry T)
    (accepted : List (RouteEntry T)) : List (RouteEntry T) :=
  match (slot.push entry).2 with
  | .ok () => if entry.implicit then accepted else entry :: accepted
  | _ => accepted

/-- A slot built by `new` and any number of calls of `push`, each of which
meets `Step`, with the explicit entries that were accepted. -/
inductive PushRun (Step : RouteSlot T → RouteEntry T → Prop) :
    RouteSlot T → List (RouteEntry T) → Prop
  | new (entry : RouteEntry T) : PushRun Step (new entry) (if entry.implicit then [] else [entry])
  | push {slot : RouteSlot T} {accepted : List (RouteEntry T)}
      (entry : RouteEntry T) :
      PushRun Step slot accepted →
      Step slot entry →
      PushRun Step (slot.push entry).1 (acceptedAfter slot entry accepted)

def Separate (slot : RouteSlot T) : Prop :=
  slot.entries.Pairwise fun entry other =>
    ∀ method, ¬(entry.allows method = true ∧ other.allows method = true)

/-- Every method of an accepted entry is served by that entry. -/
def Serves (slot : RouteSlot T) (accepted : List (RouteEntry T)) : Prop :=
  ∀ entry ∈ accepted, ∀ method, entry.allows method = true → slot.find method = some entry

/-- Where a custom method is involved, the call leaves no implicit entry with
exactly the nine standard methods. -/
def LeavesNoStandard (slot : RouteSlot T) (entry : RouteEntry T) : Prop :=
  (∃ named ∈ entry :: slot.entries, named.methods.NamesCustom) →
    if entry.implicit then
      ¬entry.methods.LeavesStandard (slot.entries.map (·.methods))
    else
      ∀ existing ∈ slot.entries, existing.implicit = true →
        ¬existing.methods.LeavesStandard [entry.methods]

/-! ## One call -/

def Apart (entries : List (RouteEntry T)) : Prop :=
  entries.Pairwise fun entry other => entry.methods.Disjoint other.methods

/-- Every accepted entry is explicit, and is in the slot if it has a method. -/
def Holds (slot : RouteSlot T) (accepted : List (RouteEntry T)) : Prop :=
  ∀ entry ∈ accepted,
    entry.implicit = false ∧ (entry.methods.isEmpty = false → entry ∈ slot.entries)

variable {existing entry : RouteEntry T}

theorem containsMethod_yieldTo {method : Method} (contained :
      (existing.yieldTo entry).methods.containsMethod method = true) :
    existing.methods.containsMethod method = true := by
  unfold RouteEntry.yieldTo at contained
  split at contained
  · exact (HttpMethodSet.containsMethod_without contained).1
  · exact contained

variable {slot : RouteSlot T}

theorem unnamed_of_yieldTo_isAny {named : RouteEntry T}
    (step : LeavesNoStandard slot entry) (explicit : entry.implicit = false)
    (member : existing ∈ slot.entries) (namedMember : named ∈ entry :: slot.entries)
    (any : (existing.yieldTo entry).methods.isAny = true) :
    existing.methods.isAny = true ∧ existing.implicit = false ∨ ¬named.methods.NamesCustom := by
  by_cases implicitExisting : existing.implicit = true
  · right
    intro names
    have nothingLeft := step ⟨named, namedMember, names⟩
    rw [explicit] at nothingLeft
    rw [RouteEntry.yieldTo, if_pos implicitExisting] at any
    exact nothingLeft existing member implicitExisting (HttpMethodSet.leavesStandard_of_isAny any)
  · rw [RouteEntry.yieldTo, if_neg implicitExisting] at any
    exact .inl ⟨any, by simpa using implicitExisting⟩

theorem apart_map_yieldTo (step : LeavesNoStandard slot entry) (explicit : entry.implicit = false)
    (apart : Apart slot.entries) :
    Apart (slot.entries.map (·.yieldTo entry)) := by
  rw [Apart, pairwise_map]
  refine List.Pairwise.imp_of_mem ?_ apart
  intro existing other member otherMember disjoint
  refine disjoint.shrink (fun _ => containsMethod_yieldTo) (fun _ => containsMethod_yieldTo) ?_ ?_
  · intro any
    exact (unnamed_of_yieldTo_isAny step explicit member
      (mem_cons_of_mem _ otherMember) any).imp_left And.left
  · intro any
    exact (unnamed_of_yieldTo_isAny step explicit otherMember
      (mem_cons_of_mem _ member) any).imp_left And.left

theorem disjoint_yieldTo (step : LeavesNoStandard slot entry) (explicit : entry.implicit = false)
    (accepted : ∀ other ∈ slot.entries,
      other.implicit = false → other.methods.intersects entry.methods = false)
    (member : existing ∈ slot.entries) :
    (existing.yieldTo entry).methods.Disjoint entry.methods := by
  by_cases implicitExisting : existing.implicit = true
  · refine HttpMethodSet.disjoint_of_avoids ?_ ?_
    · intro method contained
      rw [RouteEntry.yieldTo, if_pos implicitExisting] at contained
      exact (HttpMethodSet.containsMethod_without contained).2
    · intro any
      rcases unnamed_of_yieldTo_isAny step explicit member
        (mem_cons_self ..) any with ⟨_, explicitExisting⟩ | unnamed
      · simp [implicitExisting] at explicitExisting
      · exact unnamed
  · rw [RouteEntry.yieldTo, if_neg implicitExisting]
    exact HttpMethodSet.disjoint_of_not_intersects
      (accepted existing member (by simpa using implicitExisting))

/-- The implicit entry with the methods that no entry of the slot has. -/
def addedTo (slot : RouteSlot T) (entry : RouteEntry T) : RouteEntry T :=
  { entry with
    methods :=
      slot.entries.foldl (fun methods other => methods.without other.methods) entry.methods }

/-- What one call does: an implicit entry is added with the methods that are left, an explicit
one is given back, or the implicit entries yield to it. -/
theorem push_cases (slot : RouteSlot T) (entry : RouteEntry T) :
    entry.implicit = true ∧ (slot.push entry).2 = .ok () ∧
        ((slot.push entry).1 = slot ∨
          (slot.push entry).1.entries = slot.entries ++ [addedTo slot entry]) ∨
      entry.implicit = false ∧ slot.push entry = (slot, .err entry) ∨
        entry.implicit = false ∧ (slot.push entry).2 = .ok () ∧
          (∀ other ∈ slot.entries, other.implicit = false →
            other.methods.intersects entry.methods = false) ∧
          (slot.push entry).1.entries.Perm (entry :: (slot.entries.map (·.yieldTo entry)).filter
            fun existing => !existing.methods.isEmpty) := by
  rw [push]
  by_cases implicit : entry.implicit = true
  · rw [if_pos implicit]
    left
    dsimp only
    split
    · exact ⟨implicit, rfl, Or.inl rfl⟩
    · exact ⟨implicit, rfl, Or.inr rfl⟩
  · rw [if_neg implicit]
    right
    split
    · exact Or.inl ⟨by simpa using implicit, rfl⟩
    · rename_i noShared
      refine Or.inr ⟨by simpa using implicit, ?_, by simpa using noShared, ?_⟩
      · grind
      · dsimp only
        split
        · rename_i firstEmpty
          simp [entries, firstEmpty]
        · rename_i firstKept
          simpa [entries, firstKept] using perm_append_singleton entry (_ :: _)

theorem apart_append (implicit : entry.implicit = true) (step : LeavesNoStandard slot entry)
    (apart : Apart slot.entries) :
    Apart (slot.entries ++ [addedTo slot entry]) := by
  rw [Apart, pairwise_append]
  refine ⟨apart, by simp, ?_⟩
  intro existing member added addedMember
  rw [mem_singleton.mp addedMember]
  apply HttpMethodSet.Disjoint.symm
  rw [addedTo, ← @foldl_map _ _ _ RouteEntry.methods HttpMethodSet.without]
  refine HttpMethodSet.disjoint_of_avoids ?_ ?_
  · intro method contained
    exact (HttpMethodSet.containsMethod_foldl_without contained).2 _ (mem_map_of_mem member)
  · intro any names
    have nothingLeft := step ⟨existing, mem_cons_of_mem _ member, names⟩
    rw [implicit] at nothingLeft
    exact nothingLeft (HttpMethodSet.leavesStandard_of_isAny any)

theorem apart_cons (explicit : entry.implicit = false) (step : LeavesNoStandard slot entry)
    (accepted : ∀ other ∈ slot.entries,
      other.implicit = false → other.methods.intersects entry.methods = false)
    (apart : Apart slot.entries) :
    Apart (entry :: (slot.entries.map (·.yieldTo entry)).filter
      fun existing => !existing.methods.isEmpty) := by
  refine pairwise_cons.mpr ⟨?_, (apart_map_yieldTo step explicit apart).sublist filter_sublist⟩
  intro kept member
  obtain ⟨existing, existingMember, rfl⟩ := mem_map.mp (mem_filter.mp member).1
  exact (disjoint_yieldTo step explicit accepted existingMember).symm

/-! ## Whole runs -/

/-- In a slot whose entries are apart, an entry serves all of its methods. -/
theorem find_eq_of_apart {method : Method} (apart : Apart slot.entries)
    (member : entry ∈ slot.entries) (allowed : entry.allows method = true) :
    slot.find method = some entry := by
  have whole : slot.find method = slot.entries.find? (·.allows method) := by
    simp only [find, entries, List.find?_cons]
    cases slot.first.allows method <;> rfl
  rw [whole]
  generalize slot.entries = entries at apart member
  induction entries with
  | nil => simp at member
  | cons first rest ih =>
    obtain ⟨firstApart, restApart⟩ := pairwise_cons.mp apart
    rcases mem_cons.mp member with rfl | inRest
    · simp [allowed]
    · have refused : first.allows method = false := by
        by_contra allowsFirst
        exact firstApart entry inRest method
          ((first.allows_iff method).mp (by simpa using allowsFirst))
          ((entry.allows_iff method).mp allowed)
      rw [List.find?_cons, refused]
      exact ih restApart inRest

/-- A run keeps the entries apart and holds the accepted ones. -/
theorem PushRun.apart_and_holds {accepted : List (RouteEntry T)}
    (run : PushRun LeavesNoStandard slot accepted) :
    Apart slot.entries ∧ Holds slot accepted := by
  induction run with
  | new entry =>
    refine ⟨by simp [Apart, entries, RouteSlot.new], ?_⟩
    intro kept member
    by_cases implicit : entry.implicit = true
    · simp [implicit] at member
    · simp only [implicit, Bool.false_eq_true, if_false, mem_singleton] at member
      subst member
      exact ⟨by simpa using implicit, fun _ => by simp [entries, RouteSlot.new]⟩
  | @push slot accepted entry _ step ih =>
    obtain ⟨apart, holds⟩ := ih
    rcases push_cases slot entry with
      ⟨implicit, returned, same | added⟩ | ⟨explicit, refused⟩ | ⟨explicit, returned, rest⟩
    · simp only [acceptedAfter, returned, implicit, if_true, same]
      exact ⟨apart, holds⟩
    · simp only [acceptedAfter, returned, implicit, if_true, Holds, added]
      refine ⟨apart_append implicit step apart, fun kept member => ?_⟩
      exact (holds kept member).imp_right fun inSlot nonempty => mem_append_left _ (inSlot nonempty)
    · simp only [acceptedAfter, refused]
      exact ⟨apart, holds⟩
    · obtain ⟨noShared, shuffled⟩ := rest
      simp only [acceptedAfter, returned, explicit, Bool.false_eq_true, if_false]
      refine ⟨(shuffled.pairwise_iff HttpMethodSet.Disjoint.symm).mpr
        (apart_cons explicit step noShared apart), fun kept member => ?_⟩
      rcases mem_cons.mp member with rfl | before
      · exact ⟨explicit, fun _ => shuffled.mem_iff.mpr mem_cons_self⟩
      · obtain ⟨explicitKept, inSlot⟩ := holds kept before
        refine ⟨explicitKept, fun nonempty => shuffled.mem_iff.mpr (mem_cons_of_mem _ ?_)⟩
        refine mem_filter.mpr ⟨mem_map.mpr ⟨kept, inSlot nonempty, ?_⟩, by simp [nonempty]⟩
        simp [RouteEntry.yieldTo, explicitKept]

/-- As long as no difference leaves exactly the nine standard methods next to
a custom method, no method is allowed by two entries, and an accepted explicit
entry serves all of its methods. -/
theorem pushRun_separate_serves {slot : RouteSlot T} {accepted : List (RouteEntry T)}
    (run : PushRun LeavesNoStandard slot accepted) :
    slot.Separate ∧ slot.Serves accepted := by
  obtain ⟨apart, holds⟩ := run.apart_and_holds
  constructor
  · refine apart.imp ?_
    rintro entry other disjoint method ⟨allowed, allowedToo⟩
    exact disjoint method ((entry.allows_iff method).mp allowed)
      ((other.allows_iff method).mp allowedToo)
  · intro entry member method allowed
    have nonempty : entry.methods.isEmpty = false := by
      by_contra empty
      exact HttpMethodSet.not_allows_of_isEmpty (by simpa using empty) method
        ((entry.allows_iff method).mp allowed)
    exact find_eq_of_apart apart ((holds entry member).2 nonempty) allowed

def implicitAny : RouteEntry Nat := { methods := HttpMethodSet.all, value := 1, implicit := true }

def explicitPost : RouteEntry Nat :=
  { methods := HttpMethodSet.new HttpMethod.post, value := 2,
    implicit := false }

def explicitPurge : RouteEntry Nat :=
  { methods := { standard := HttpMethod.none, custom := [bytes "PURGE"] },
    value := 3, implicit := false }

theorem pushRun_separate_serves_post : ((new implicitAny).push explicitPost).1.Separate ∧
      ((new implicitAny).push explicitPost).1.Serves [explicitPost] :=
  pushRun_separate_serves
    (.push explicitPost (.new implicitAny) (by
      rintro ⟨named, member, name, custom, _⟩
      simp only [entries, new, mem_cons, not_mem_nil, or_false] at member
      rcases member with rfl | rfl <;> cases custom))

/-- A custom method taken away from an implicit entry for every method is
still answered by that entry. -/
theorem pushRun_purge_served_by_implicit :
    ∃ slot accepted,
      PushRun (T := Nat) (fun _ _ => True) slot accepted ∧
        explicitPurge ∈ accepted ∧
        explicitPurge.allows (.extension (bytes "PURGE")) = true ∧
        slot.find (.extension (bytes "PURGE")) = some implicitAny ∧
        ¬slot.Separate := by
  refine ⟨_, _, .push explicitPurge (.new implicitAny) trivial,
    by decide +kernel, by decide +kernel, by decide +kernel, ?_⟩
  intro separate
  have overlap :=
    pairwise_cons.mp separate |>.1 explicitPurge (by decide +kernel) (.extension (bytes "PURGE"))
  exact overlap (by decide +kernel)

end RouteSlot

end Ophan.Router
