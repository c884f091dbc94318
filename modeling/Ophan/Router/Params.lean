import Ophan.Router.Wildcard

/-!
# Route parameters

The parameters collected during a lookup are kept in an array of `small`
entries and move to a vector when more are pushed.  `toList` is the list both
stand for.
-/

namespace Ophan.Router

open List

structure Param where
  key : Bytes
  value : Bytes
  deriving DecidableEq, Repr

/-- The number of parameters kept without a heap allocation, `SMALL`. -/
def small : Nat := 3

/-- A list of parameters, `ParamsKind`.  The array of `small` always has
`small` entries, of which the first `len` are in use. -/
inductive Params where
  | small (arr : List Param) (len : Nat)
  | large (vec : List Param)
  deriving DecidableEq, Repr

/-- `node.remapping[i]` becomes the key of the `i`-th parameter; `none` stands
for an index outside of the stored names. -/
def renameKeys : ParamRemapping → List Param → Option (List Param)
  | _, [] => some []
  | [], _ :: _ => none
  | name :: names, param :: rest => (renameKeys names rest).map ({ param with key := name } :: ·)

namespace Params

def new : Params := .small (List.replicate Router.small { key := [], value := [] }) 0

def len : Params → Nat
  | .small _ len => len
  | .large vec => vec.length

def truncate : Params → Nat → Params
  | .small arr _, n => .small arr n
  | .large vec, n => .large (vec.take n)

def push (params : Params) (key value : Bytes) : Params :=
  let param : Param := { key := key, value := value }
  match params with
  | .small arr len =>
    if Router.small ≤ len then
      .large (arr ++ [param])
    else
      .small (arr.set len param) (len + 1)
  | .large vec => .large (vec ++ [param])

/-- `for_each_key_mut` with the names of a node. -/
def forEachKeyMut (params : Params) (remapping : ParamRemapping) : Option Params :=
  match params with
  | .small arr len =>
    (renameKeys remapping (arr.take len)).map fun renamed => .small (renamed ++ arr.drop len) len
  | .large vec => (renameKeys remapping vec).map .large

def toList : Params → List Param
  | .small arr len => arr.take len
  | .large vec => vec

/-- The array has its full size and no more entries are in use. -/
def Valid : Params → Prop
  | .small arr len => arr.length = Router.small ∧ len ≤ Router.small
  | .large _ => True

theorem new_valid : new.Valid := by
  simp [new, Valid]

variable {params : Params}

theorem len_eq (valid : params.Valid) : params.len = params.toList.length := by
  cases params with
  | small arr len =>
    obtain ⟨full, bound⟩ := valid
    simp [Params.len, toList, full, bound]
  | large vec => rfl

theorem push_valid (valid : params.Valid) (key value : Bytes) : (params.push key value).Valid := by
  cases params with
  | small arr len =>
    obtain ⟨full, bound⟩ := valid
    by_cases spill : Router.small ≤ len
    · simp [push, spill, Valid]
    · simp only [push, if_neg spill, Valid, length_set]
      exact ⟨full, by omega⟩
  | large vec => trivial

@[simp]
theorem toList_push (valid : params.Valid) (key value : Bytes) :
    (params.push key value).toList = params.toList ++ [{ key := key, value := value }] := by
  cases params with
  | small arr len =>
    obtain ⟨full, bound⟩ := valid
    by_cases spill : Router.small ≤ len
    · have whole : arr.take len = arr := take_of_length_le (by omega)
      simp [push, spill, toList, whole]
    · have inside : len < arr.length := by omega
      simp only [push, if_neg spill, toList]
      rw [take_succ_eq_append_getElem (by simpa using inside)]
      simp [take_set_of_le]
  | large vec => rfl

theorem truncate_valid (valid : params.Valid) {n : Nat} (within : n ≤ params.toList.length) :
    (params.truncate n).Valid := by
  cases params with
  | small arr len =>
    obtain ⟨full, bound⟩ := valid
    simp only [toList, length_take] at within
    exact ⟨full, by omega⟩
  | large vec => trivial

theorem toList_truncate {n : Nat} (within : n ≤ params.toList.length) :
    (params.truncate n).toList = params.toList.take n := by
  cases params with
  | small arr len =>
    simp only [toList, length_take] at within
    have smaller : n ≤ len := by omega
    simp [truncate, toList, take_take, Nat.min_eq_left smaller]
  | large vec => rfl

private theorem length_renameKeys :
    ∀ {remapping : ParamRemapping} {params renamed : List Param},
      renameKeys remapping params = some renamed →
      renamed.length = params.length
  | _, [], renamed, run => by
      simp only [renameKeys, Option.some.injEq] at run
      simp [← run]
  | [], _ :: _, renamed, run => by simp [renameKeys] at run
  | name :: names, param :: rest, renamed, run => by
      simp only [renameKeys, Option.map_eq_some_iff] at run
      obtain ⟨tail, tailRun, rfl⟩ := run
      simp [length_renameKeys tailRun]

theorem forEachKeyMut_toList (params : Params) (remapping : ParamRemapping) :
    (params.forEachKeyMut remapping).map toList = renameKeys remapping params.toList := by
  cases params with
  | small arr len =>
    simp only [forEachKeyMut, toList, Option.map_map]
    cases run : renameKeys remapping (arr.take len) with
    | none => rfl
    | some renamed =>
      have sameLength := length_renameKeys run
      simp only [length_take] at sameLength
      simp only [Option.map_some, Function.comp_apply, toList, Option.some.injEq]
      by_cases inside : len ≤ arr.length
      · exact take_left' (by omega)
      · have nothing : arr.drop len = [] := drop_of_length_le (by omega)
        rw [nothing, append_nil]
        exact take_of_length_le (by omega)
  | large vec => simp [forEachKeyMut, toList, Option.map_map, Function.comp_def]

theorem forEachKeyMut_valid {renamed : Params} (valid : params.Valid) {remapping : ParamRemapping}
    (run : params.forEachKeyMut remapping = some renamed) :
    renamed.Valid := by
  cases params with
  | small arr len =>
    obtain ⟨full, bound⟩ := valid
    simp only [forEachKeyMut, Option.map_eq_some_iff] at run
    obtain ⟨keys, keysRun, rfl⟩ := run
    have sameLength := length_renameKeys keysRun
    simp only [length_take] at sameLength
    refine ⟨?_, bound⟩
    simp only [length_append, length_drop]
    omega
  | large vec =>
    simp only [forEachKeyMut, Option.map_eq_some_iff] at run
    obtain ⟨keys, _, rfl⟩ := run
    trivial

end Params

end Ophan.Router
