import Mathlib.Data.List.Basic

/-!
# Binary search with a comparator

The search halves a window of a list and keeps the last position the
comparator does not call too large.  On a list that the comparator cuts into
a part that is too small, a part that is equal and a part that is too large,
it finds an equal element exactly when there is one.
-/

namespace Ophan.Lib

universe u

variable {α : Type u}

/-- One window `[base, base + size)` after another, until a single position
is left.  Every round takes at least one position away, so `rounds` is at most
the size of the first window. -/
def narrow (cmp : α → Ordering) (items : List α) : Nat → Nat → Nat → Nat
  | 0, base, _ => base
  | rounds + 1, base, size =>
    if 1 < size then
      let half := size / 2
      let mid := base + half
      match items[mid]? with
      | some item => narrow cmp items rounds (if cmp item = .gt then base else mid) (size - half)
      | none => base
    else base

/-- `slice::binary_search_by`: the position of an equal element, or the
position at which one would be put. -/
def binarySearchBy (cmp : α → Ordering) (items : List α) : Except Nat Nat :=
  let base := narrow cmp items items.length 0 items.length
  match items[base]? with
  | some item =>
    if cmp item = .eq then .ok base
    else .error (base + if cmp item = .lt then 1 else 0)
  | none => .error 0

/-- The comparator calls a first part of the list too small and a last part
too large. -/
def Partitioned (cmp : α → Ordering) (items : List α) : Prop :=
  items.Pairwise fun first second =>
    (cmp first = .gt → cmp second = .gt) ∧ (cmp second = .lt → cmp first = .lt)

variable {cmp : α → Ordering} {items : List α}

namespace Partitioned

section

variable (partitioned : Partitioned cmp items) {i j : Nat} {first second : α} (before : i < j)
  (atFirst : items[i]? = some first) (atSecond : items[j]? = some second)

include partitioned before atFirst atSecond

theorem gt_of_lt (isGt : cmp first = .gt) : cmp second = .gt := by
  obtain ⟨_, rfl⟩ := List.getElem?_eq_some_iff.mp atFirst
  obtain ⟨insideSecond, rfl⟩ := List.getElem?_eq_some_iff.mp atSecond
  exact (List.pairwise_iff_getElem.mp partitioned i j _ insideSecond before).1 isGt

theorem lt_of_lt (isLt : cmp second = .lt) : cmp first = .lt := by
  obtain ⟨_, rfl⟩ := List.getElem?_eq_some_iff.mp atFirst
  obtain ⟨insideSecond, rfl⟩ := List.getElem?_eq_some_iff.mp atSecond
  exact (List.pairwise_iff_getElem.mp partitioned i j _ insideSecond before).2 isLt

end

end Partitioned

/-- What every window keeps: its first position is not too large, unless the
search never moved, and everything behind it is. -/
structure Brackets (cmp : α → Ordering) (items : List α) (base size : Nat) :
    Prop where
  inside : base + size ≤ items.length
  first : base = 0 ∨ ∃ item, items[base]? = some item ∧ cmp item ≠ .gt
  behind : ∀ j item, base + size ≤ j → items[j]? = some item → cmp item = .gt

theorem Brackets.narrow (partitioned : Partitioned cmp items)
    {rounds base size : Nat} (brackets : Brackets cmp items base size)
    (nonempty : 0 < size) (enough : size ≤ rounds + 1) :
    Brackets cmp items (narrow cmp items rounds base size) 1 := by
  induction rounds generalizing base size with
  | zero =>
    have single : size = 1 := by omega
    subst single
    exact brackets
  | succ rounds ih =>
    unfold Lib.narrow
    by_cases large : 1 < size
    · have insideMid : base + size / 2 < items.length := by
        have := brackets.inside
        omega
      have atMid : items[base + size / 2]? = some items[base + size / 2] :=
        List.getElem?_eq_getElem insideMid
      simp only [large, if_true, atMid]
      apply ih
      · by_cases tooLarge : cmp items[base + size / 2] = .gt
        · simp only [tooLarge, if_true]
          refine ⟨?_, brackets.first, ?_⟩
          · omega
          · intro j item behind atItem
            rcases Nat.lt_or_ge (base + size / 2) j with after | notAfter
            · exact partitioned.gt_of_lt after atMid atItem tooLarge
            · grind
        · simp only [tooLarge, if_false]
          refine ⟨?_, Or.inr ⟨_, atMid, tooLarge⟩, ?_⟩
          · have := brackets.inside
            omega
          · intro j item behind atItem
            exact brackets.behind j item (by omega) atItem
      · omega
      · omega
    · grind

theorem brackets_narrow (partitioned : Partitioned cmp items) (nonempty : 0 < items.length) :
    Brackets cmp items (narrow cmp items items.length 0 items.length) 1 := by
  apply Brackets.narrow partitioned _ nonempty (by omega)
  refine ⟨by omega, Or.inl rfl, ?_⟩
  intro j item behind atItem
  obtain ⟨inside, _⟩ := List.getElem?_eq_some_iff.mp atItem
  omega

/-- The search succeeds exactly when the list has an equal element. -/
theorem binarySearchBy_isOk_iff (partitioned : Partitioned cmp items) :
    (binarySearchBy cmp items).isOk = true ↔ ∃ item ∈ items, cmp item = .eq := by
  rcases items.eq_nil_or_concat with rfl | ⟨_, _, concat⟩
  · simp [binarySearchBy, narrow, Except.isOk, Except.toBool]
  · have nonempty : 0 < items.length := by
      rw [concat]
      simp
    clear concat
    have brackets := brackets_narrow partitioned nonempty
    unfold binarySearchBy
    generalize narrow cmp items items.length 0 items.length = base at brackets
    have insideBase : base < items.length := by
      have := brackets.inside
      omega
    have atBase : items[base]? = some items[base] := List.getElem?_eq_getElem insideBase
    simp only [atBase]
    constructor
    · intro found
      by_cases equal : cmp items[base] = .eq
      · exact ⟨_, List.getElem_mem insideBase, equal⟩
      · simp [equal, Except.isOk, Except.toBool] at found
    · rintro ⟨item, member, equal⟩
      obtain ⟨i, insideItem, atItem⟩ := List.getElem_of_mem member
      have located : items[i]? = some item := by rw [List.getElem?_eq_getElem insideItem, atItem]
      have notBehind : i ≤ base := by
        by_contra after
        have tooLarge := brackets.behind i item (by omega) located
        simp [tooLarge] at equal
      have baseEqual : cmp items[base] = .eq := by
        rcases Nat.lt_or_ge i base with before | same
        · rcases brackets.first with atStart | ⟨other, atOther, notLarge⟩
          · omega
          · rw [atBase, Option.some.injEq] at atOther
            subst atOther
            cases order : cmp items[base] with
            | lt =>
              have := partitioned.lt_of_lt before located atBase order
              simp [this] at equal
            | eq => rfl
            | gt => exact absurd order notLarge
        · grind
      simp [baseEqual, Except.isOk, Except.toBool]

/-! ## Partition points -/

/-- `slice::partition_point`: the search never calls an item equal. -/
def partitionPoint (pred : α → Bool) (items : List α) : Nat :=
  match binarySearchBy (fun item => if pred item then .lt else .gt) items with
  | .ok found => found
  | .error position => position

/-- On a list that the predicate cuts in two, the point is the cut. -/
theorem partitionPoint_cuts {pred : α → Bool}
    (ordered : items.Pairwise fun first second => pred second = true → pred first = true) :
    (∀ item ∈ items.take (partitionPoint pred items), pred item = true) ∧
      ∀ item ∈ items.drop (partitionPoint pred items), pred item = false := by
  rcases items.eq_nil_or_concat with rfl | ⟨_, _, concat⟩
  · simp
  have nonempty : 0 < items.length := by
    rw [concat]
    simp
  clear concat
  have partitioned : Partitioned (fun item => if pred item then .lt else .gt) items := by
    refine ordered.imp fun before => ?_
    grind
  have brackets := brackets_narrow partitioned nonempty
  unfold partitionPoint binarySearchBy
  generalize narrow _ items items.length 0 items.length = base at brackets
  have inside : base < items.length := brackets.inside
  have atBase : items[base]? = some items[base] := List.getElem?_eq_getElem inside
  have behind : ∀ item ∈ items.drop (base + 1), pred item = false := by
    intro item member
    obtain ⟨i, located⟩ := List.mem_iff_getElem?.mp member
    rw [List.getElem?_drop] at located
    have tooLarge := brackets.behind _ item (Nat.le_add_right _ i) located
    grind
  cases holds : pred items[base] with
  | true =>
    simp only [atBase, holds, if_true, reduceCtorEq, if_false]
    refine ⟨?_, behind⟩
    intro item member
    obtain ⟨i, located⟩ := List.mem_iff_getElem?.mp member
    rw [List.getElem?_take, Option.ite_none_right_eq_some] at located
    rcases Nat.lt_or_ge i base with before | same
    · have isLt := partitioned.lt_of_lt before located.2 atBase (by simp [holds])
      grind
    · grind
  | false =>
    -- The search never moved.
    have atStart : base = 0 := by
      have first := brackets.first
      grind
    subst atStart
    simp only [atBase, holds, Bool.false_eq_true, if_false, reduceCtorEq]
    refine ⟨by simp, ?_⟩
    intro item member
    rcases items with _ | ⟨head, rest⟩
    · cases member
    · rcases List.mem_cons.mp member with rfl | later
      · exact holds
      · exact behind item later

end Ophan.Lib
