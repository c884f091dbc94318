import Mathlib.Data.List.Basic
import Mathlib.Data.List.Infix
import Ophan.Lib.Outcome
import Ophan.Lib.Utf8

/-!
# Unescaped routes

A route text escapes a literal brace by doubling it.  `UnescapedRoute` keeps
the unescaped bytes together with the positions of the braces that were
doubled, and `UnescapedRef` is a slice of one with an offset applied to these
positions.  What the router decides about a route depends on its `marks`: the
list of its bytes, each with its escape flag.
-/

namespace Ophan.Router

/-- `b'{'` -/
abbrev openBrace : UInt8 := 123

/-- `b'}'` -/
abbrev closeBrace : UInt8 := 125

/-- `b'*'` -/
abbrev star : UInt8 := 42

/-- `b'/'` -/
abbrev slash : UInt8 := 47

section Constants

@[simp] theorem openBrace_ne_closeBrace : openBrace ≠ closeBrace := by decide
@[simp] theorem slash_ne_openBrace : slash ≠ openBrace := by decide
@[simp] theorem star_ne_closeBrace : star ≠ closeBrace := by decide
@[simp] theorem slash_ne_closeBrace : slash ≠ closeBrace := by decide
@[simp] theorem slash_ne_star : slash ≠ star := by decide

end Constants

/-- A byte of a route together with whether it was escaped. -/
abbrev Mark := UInt8 × Bool

structure UnescapedRoute where
  inner : Bytes
  escaped : List Nat
  deriving DecidableEq, Repr

/-- A slice of an `UnescapedRoute`; `offset` is added to each escaped
position. -/
structure UnescapedRef where
  inner : Bytes
  escaped : List Nat
  offset : Int
  deriving DecidableEq, Repr

namespace UnescapedRoute

def empty : UnescapedRoute := { inner := [], escaped := [] }

/-- The loop of `UnescapedRoute::new` from position `i` on: of a doubled brace
the first character is removed and the position of the second recorded. -/
def unescapeFrom : Bytes → Nat → Bytes × List Nat
  | [], _ => ([], [])
  | [c], _ => ([c], [])
  | c :: d :: rest, i =>
    if (c = openBrace ∧ d = openBrace) ∨ (c = closeBrace ∧ d = closeBrace) then
      let tail := unescapeFrom rest (i + 1)
      (d :: tail.1, i :: tail.2)
    else
      let tail := unescapeFrom (d :: rest) (i + 1)
      (c :: tail.1, tail.2)

def new (text : Bytes) : UnescapedRoute :=
  let unescaped := unescapeFrom text 0
  { inner := unescaped.1, escaped := unescaped.2 }

def isEscaped (route : UnescapedRoute) (i : Nat) : Bool := route.escaped.contains i

/-- Replaces the characters in `start..stop`, returning the removed ones.  Only
escaped positions strictly behind `stop` are moved. -/
def splice (route : UnescapedRoute) (start stop : Nat) (replace : Bytes) : UnescapedRoute × Bytes :=
  let offset : Int := (replace.length : Int) - ((stop - start : Nat) : Int)
  let kept := route.escaped.filter fun x => !(start ≤ x && x < stop)
  let moved := kept.map fun i => if stop < i then ((i : Int) + offset).toNat else i
  ({ inner := route.inner.take start ++ replace ++ route.inner.drop stop
     escaped := moved },
   (route.inner.drop start).take (stop - start))

def append (route other : UnescapedRoute) : UnescapedRoute :=
  { inner := route.inner ++ other.inner
    escaped := route.escaped ++ other.escaped.map fun i => route.inner.length + i }

def truncate (route : UnescapedRoute) (size : Nat) : UnescapedRoute :=
  { inner := route.inner.take size
    escaped := route.escaped.filter fun x => x < size }

def asRef (route : UnescapedRoute) : UnescapedRef :=
  { inner := route.inner, escaped := route.escaped, offset := 0 }

end UnescapedRoute

namespace UnescapedRef

def toOwned (ref : UnescapedRef) : UnescapedRoute :=
  { inner := ref.inner
    escaped := ref.escaped.filterMap fun (i : Nat) =>
      let moved := (i : Int) + ref.offset
      if 0 ≤ moved ∧ moved.toNat < ref.inner.length then
        some moved.toNat
      else
        none }

def isEscaped (ref : UnescapedRef) (i : Nat) : Bool :=
  let position := (i : Int) - ref.offset
  if 0 ≤ position then ref.escaped.contains position.toNat else false

def sliceOff (ref : UnescapedRef) (start : Nat) : UnescapedRef :=
  { ref with inner := ref.inner.drop start, offset := ref.offset - start }

def sliceUntil (ref : UnescapedRef) (stop : Nat) : UnescapedRef :=
  { ref with inner := ref.inner.take stop }

/-- The bytes of the slice, each with its escape flag. -/
def marks (ref : UnescapedRef) : List Mark :=
  ref.inner.zipIdx.map fun (b, i) => (b, ref.isEscaped i)

@[simp]
theorem length_marks (ref : UnescapedRef) : ref.marks.length = ref.inner.length := by
  simp [marks]

theorem getElem?_marks (ref : UnescapedRef) (i : Nat) :
    ref.marks[i]? = ref.inner[i]?.map fun b => (b, ref.isEscaped i) := by
  simp only [marks, List.getElem?_map, List.getElem?_zipIdx]
  cases ref.inner[i]? with
  | none => rfl
  | some b => simp

@[simp]
theorem map_fst_marks (ref : UnescapedRef) : ref.marks.map Prod.fst = ref.inner := by
  apply List.ext_getElem?
  intro i
  rw [List.getElem?_map, getElem?_marks]
  cases ref.inner[i]? <;> rfl

theorem isEscaped_sliceOff (ref : UnescapedRef) (start i : Nat) :
    (ref.sliceOff start).isEscaped i = ref.isEscaped (start + i) := by
  have samePosition :
      (i : Int) - (ref.offset - start) = ((start + i : Nat) : Int) - ref.offset := by
    omega
  simp only [isEscaped, sliceOff, samePosition]

theorem marks_eq_nil_iff (ref : UnescapedRef) : ref.marks = [] ↔ ref.inner = [] := by
  rw [← ref.map_fst_marks, List.map_eq_nil_iff]

@[simp]
theorem marks_sliceOff (ref : UnescapedRef) (start : Nat) :
    (ref.sliceOff start).marks = ref.marks.drop start := by
  apply List.ext_getElem?
  intro i
  rw [getElem?_marks, List.getElem?_drop, getElem?_marks, isEscaped_sliceOff]
  simp [sliceOff]

@[simp]
theorem marks_sliceUntil (ref : UnescapedRef) (stop : Nat) :
    (ref.sliceUntil stop).marks = ref.marks.take stop := by
  apply List.ext_getElem?
  intro i
  rw [getElem?_marks, List.getElem?_take, getElem?_marks]
  by_cases inside : i < stop
  · simp [sliceUntil, inside, isEscaped]
  · have outside : (ref.inner.take stop)[i]? = none := by rw [List.getElem?_take, if_neg inside]
    rw [if_neg inside]
    simp only [sliceUntil, outside, Option.map_none]

@[simp]
theorem inner_sliceUntil (ref : UnescapedRef) (stop : Nat) :
    (ref.sliceUntil stop).inner = ref.inner.take stop := rfl

end UnescapedRef

namespace UnescapedRoute

def marks (route : UnescapedRoute) : List Mark := route.asRef.marks

theorem isEscaped_asRef (route : UnescapedRoute) (i : Nat) :
    route.asRef.isEscaped i = route.isEscaped i := by
  simp [UnescapedRef.isEscaped, asRef, isEscaped]

@[simp]
theorem marks_asRef (route : UnescapedRoute) : route.asRef.marks = route.marks := rfl

@[simp]
theorem length_marks (route : UnescapedRoute) : route.marks.length = route.inner.length :=
  route.asRef.length_marks

theorem getElem?_marks (route : UnescapedRoute) (i : Nat) :
    route.marks[i]? = route.inner[i]?.map fun b => (b, route.isEscaped i) := by
  rw [marks, UnescapedRef.getElem?_marks, isEscaped_asRef]
  rfl

@[simp]
theorem map_fst_marks (route : UnescapedRoute) : route.marks.map Prod.fst = route.inner :=
  route.asRef.map_fst_marks

theorem marks_eq_nil_iff (route : UnescapedRoute) : route.marks = [] ↔ route.inner = [] :=
  route.asRef.marks_eq_nil_iff

@[simp]
theorem marks_empty : empty.marks = [] := rfl

end UnescapedRoute

@[simp]
theorem UnescapedRef.marks_toOwned (ref : UnescapedRef) : ref.toOwned.marks = ref.marks := by
  apply List.ext_getElem?
  intro i
  rw [UnescapedRoute.getElem?_marks, getElem?_marks]
  by_cases inside : i < ref.inner.length
  · have sameFlag : ref.toOwned.isEscaped i = ref.isEscaped i := by
      rw [Bool.eq_iff_iff]
      simp only [UnescapedRoute.isEscaped, toOwned, isEscaped, List.contains_iff_mem,
        List.mem_filterMap, Option.ite_none_right_eq_some, Option.some.injEq]
      constructor
      · grind
      · intro flagged
        split at flagged
        · exact ⟨_, by simpa using flagged, by omega, by omega⟩
        · cases flagged
    rw [sameFlag]
    rfl
  · have outside : ref.inner[i]? = none := by simpa using inside
    simp [toOwned, outside]

@[simp]
theorem UnescapedRef.inner_toOwned (ref : UnescapedRef) : ref.toOwned.inner = ref.inner := rfl

end Ophan.Router
