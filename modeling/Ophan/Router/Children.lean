import Ophan.Router.At

/-!
# Reordered children

A child that gains priority moves to the front past its siblings of lower
priority, and its index byte moves with it.  Both moves are the same rotation,
so that indices and children stay aligned.
-/

namespace Ophan.Router

open List

universe u v

namespace Node

/-! ## Rotations -/

section Rotation

variable {α : Type u} {β : Type v}

@[simp]
theorem rotateRight_self (items : List α) (i : Nat) : rotateRight items i i = items := by
  have front : (items.drop i).take 1 ++ items.drop (i + 1) = items.drop i := by simp
  simp only [rotateRight, Nat.sub_self, take_zero, nil_append]
  rw [front, take_append_drop]

theorem map_rotateRight (f : α → β) (items : List α) (start stop : Nat) :
    (rotateRight items start stop).map f = rotateRight (items.map f) start stop := by
  simp only [rotateRight, map_append, map_take, map_drop]

theorem rotateRight_cut (before between after : List α) (moved : α) :
    rotateRight (before ++ (between ++ moved :: after)) before.length
        (before.length + between.length) =
      before ++ (moved :: (between ++ after)) := by
  have atStop :
      (before ++ (between ++ moved :: after)).drop
          (before.length + between.length) = moved :: after := by
    rw [← append_assoc, ← length_append]
    exact drop_left
  have behindStop :
      (before ++ (between ++ moved :: after)).drop
          (before.length + between.length + 1) = after := by
    rw [← drop_drop, atStop]
    rfl
  simp only [rotateRight, atStop, behindStop]
  simp

variable {items : List α} {start stop : Nat}

theorem exists_rotation_cut (ordered : start ≤ stop) (inside : stop < items.length) :
    ∃ before between moved after,
      items = before ++ (between ++ moved :: after) ∧
      start = before.length ∧
      stop = before.length + between.length := by
  have cutStop : items = items.take stop ++ items[stop] :: items.drop (stop + 1) := by
    rw [getElem_cons_drop, take_append_drop]
  have cutStart : items.take stop = items.take start ++ (items.take stop).drop start := by
    have split := take_append_drop start (items.take stop)
    grind
  refine ⟨items.take start, (items.take stop).drop start, items[stop],
    items.drop (stop + 1), ?_, ?_, ?_⟩
  · rw [← append_assoc, ← cutStart]
    exact cutStop
  · rw [length_take]
    omega
  · rw [length_take, length_drop, length_take]
    omega

theorem perm_rotateRight (ordered : start ≤ stop) (inside : stop < items.length) :
    (rotateRight items start stop).Perm items := by
  obtain ⟨before, between, moved, after, rfl, rfl, rfl⟩ := exists_rotation_cut ordered inside
  rw [rotateRight_cut]
  apply List.Perm.append_left
  exact perm_middle.symm

theorem rotateRight_append {first : List α} (second : List α)
    (ordered : start ≤ stop) (inside : stop < first.length) :
    rotateRight (first ++ second) start stop = rotateRight first start stop ++ second := by
  obtain ⟨before, between, moved, after, rfl, rfl, rfl⟩ := exists_rotation_cut ordered inside
  have longer :
      (before ++ (between ++ moved :: after)) ++ second =
        before ++ (between ++ moved :: (after ++ second)) := by
    simp
  rw [longer, rotateRight_cut, rotateRight_cut]
  simp

theorem getElem?_rotateRight (ordered : start ≤ stop) (inside : stop < items.length) :
    (rotateRight items start stop)[start]? = items[stop]? := by
  obtain ⟨before, between, moved, after, rfl, rfl, rfl⟩ := exists_rotation_cut ordered inside
  rw [rotateRight_cut, ← append_assoc before between,
    ← length_append, List.getElem?_append_right (Nat.le_refl _),
    List.getElem?_append_right (Nat.le_refl _)]
  simp

theorem set_rotateRight (item : α) (ordered : start ≤ stop) (inside : stop < items.length) :
    (rotateRight items start stop).set start item =
      rotateRight (items.set stop item) start stop := by
  obtain ⟨before, between, moved, after, rfl, rfl, rfl⟩ := exists_rotation_cut ordered inside
  have replaced :
      (before ++ (between ++ moved :: after)).set (before.length + between.length) item =
        before ++ (between ++ item :: after) := by
    rw [← append_assoc, ← length_append, set_append_right _ _ (Nat.le_refl _)]
    simp
  rw [replaced, rotateRight_cut, rotateRight_cut, set_append_right _ _ (Nat.le_refl _)]
  simp

theorem length_rotateRight (ordered : start ≤ stop) (inside : stop < items.length) :
    (rotateRight items start stop).length = items.length :=
  (perm_rotateRight ordered inside).length_eq

theorem perm_rotateRight_set {item : α} (changed : α) (ordered : start ≤ stop)
    (located : items[stop]? = some item) :
    (rotateRight (items.set stop changed) start stop).Perm (items.set stop changed) := by
  apply perm_rotateRight ordered
  rw [length_set]
  exact (List.getElem?_eq_some_iff.mp located).1

theorem perm_rotateRight_new (first second : List α) (item : α) (ordered : start ≤ first.length) :
    (rotateRight (first ++ item :: second) start first.length).Perm (item :: (first ++ second)) :=
  (perm_rotateRight ordered (by simp)).trans perm_middle

theorem swapNext_cut (before after : List α) (a b : α) :
    swapNext (before ++ a :: b :: after) before.length = before ++ b :: a :: after := by
  induction before with
  | nil => rfl
  | cons first rest ih => simpa [swapNext] using ih

@[simp]
theorem length_swapNext (items : List α) (i : Nat) : (swapNext items i).length = items.length := by
  fun_induction swapNext items i with
  | case1 a b rest => rfl
  | case2 a rest i ih => simp [ih]
  | case3 => rfl
  | case4 a => rfl

/-- A swap in front of the moved item makes its rotation one longer. -/
theorem rotateRight_swapNext (ordered : start ≤ stop) (inside : stop + 1 < items.length) :
    rotateRight (swapNext items stop) start stop = rotateRight items start (stop + 1) := by
  obtain ⟨before, between, current, after, rfl, rfl, rfl⟩ :=
    exists_rotation_cut ordered (Nat.lt_of_succ_lt inside)
  cases after with
  | nil => grind
  | cons next after =>
    have swapped :
        swapNext (before ++ (between ++ current :: next :: after))
            (before.length + between.length) =
          before ++ (between ++ next :: current :: after) := by
      rw [← append_assoc, ← length_append, swapNext_cut]
      simp
    have longer :
        before ++ (between ++ current :: next :: after) =
          before ++ ((between ++ [current]) ++ next :: after) := by
      simp
    have further :
        before.length + between.length + 1 = before.length + (between ++ [current]).length := by
      simp [Nat.add_assoc]
    rw [swapped, rotateRight_cut, longer, further, rotateRight_cut]
    simp

end Rotation

variable {T : Type u}

/-! ## Priorities -/

theorem moveToFront_eq_rotateRight (priority : Nat) :
    ∀ (i : Nat) (children : List (Node T)), i < children.length →
      ∃ j ≤ i, moveToFront priority i children = (rotateRight children j i, j)
  | 0, children, _ => ⟨0, Nat.le_refl 0, by simp [moveToFront]⟩
  | i + 1, children, inside => by
      have before : children[i]? = some children[i] :=
        List.getElem?_eq_getElem (Nat.lt_of_succ_lt inside)
      simp only [moveToFront, before]
      split
      · have insideSwapped : i < (swapNext children i).length := by
          rw [length_swapNext]
          exact Nat.lt_of_succ_lt inside
        obtain ⟨j, bound, moved⟩ :=
          moveToFront_eq_rotateRight priority i (swapNext children i) insideSwapped
        refine ⟨j, Nat.le_succ_of_le bound, ?_⟩
        rw [moved, rotateRight_swapNext bound inside]
      · exact ⟨i + 1, Nat.le_refl _, by simp⟩

/-- A child that gains priority and its index byte move to the front
together. -/
theorem updateChildPriority_eq_rotateRight (node : Node T) {i : Nat} {child : Node T}
    (located : node.children[i]? = some child) :
    ∃ j ≤ i,
      node.updateChildPriority i =
        ({ node with
            children := rotateRight (node.children.set i child.bump) j i
            indices := rotateRight node.indices j i },
          j) := by
  have inside : i < (node.children.set i child.bump).length := by grind
  obtain ⟨j, bound, moved⟩ :=
    moveToFront_eq_rotateRight child.bump.priority i (node.children.set i child.bump) inside
  refine ⟨j, bound, ?_⟩
  simp only [updateChildPriority, located, moved]
  by_cases stays : j = i
  · subst stays
    simp
  · simp [stays]

/-- Continuing at a child that gains priority and putting the result back. -/
theorem putChild_updateChildPriority (node : Node T) {i : Nat} {child : Node T}
    (located : node.children[i]? = some child) :
    ∃ j ≤ i,
      (node.updateChildPriority i).2 = j ∧
      (node.updateChildPriority i).1.children[j]? = some child.bump ∧
      ∀ changed : Node T,
        (node.updateChildPriority i).1.putChild j changed =
          { node with
            children := rotateRight (node.children.set i changed) j i
            indices := rotateRight node.indices j i } := by
  obtain ⟨j, bound, updated⟩ := updateChildPriority_eq_rotateRight node located
  have inside : i < (node.children.set i child.bump).length := by grind
  refine ⟨j, bound, by rw [updated], ?_, ?_⟩
  · rw [updated]
    simp only
    rw [getElem?_rotateRight bound inside]
    rw [length_set] at inside
    simp [inside]
  · intro changed
    rw [updated]
    simp only [putChild]
    rw [set_rotateRight changed bound inside, set_set]

end Node

end Ophan.Router
