import Ophan.Glob.Trie

/-!
# The layout of the trie

Flattening places the nodes of a level next to each other and everything below
them behind.  `Laid` says that a range of the vector holds a trie; flattening
only appends and fills in the ranges of the nodes it has just placed, so what
was laid before stays laid.
-/

namespace Ophan.Glob

mutual

def Temp.size : Temp → Nat
  | ⟨_, _, children⟩ => 1 + levelSize children

def levelSize : List Temp → Nat
  | [] => 0
  | temp :: rest => temp.size + levelSize rest

end

theorem Temp.size_eq (temp : Temp) : temp.size = 1 + levelSize temp.children := by
  cases temp
  rw [Temp.size]

/-- What passes from the children of a node and the nodes behind it to a level holds for
every level. -/
theorem level_induction {motive : List Temp → Prop} (nil : motive [])
    (cons : ∀ temp rest, motive temp.children → motive rest → motive (temp :: rest))
    (level : List Temp) : motive level := by
  induction size : levelSize level using Nat.strongRecOn generalizing level with
  | ind size ih =>
    cases level with
    | nil => exact nil
    | cons temp rest =>
      rw [levelSize, temp.size_eq] at size
      exact cons temp rest (ih _ (by omega) _ rfl) (ih _ (by omega) _ rfl)

theorem flattenNode_eq (temp : Temp) (out : List Node) :
    flattenNode temp out = flatten temp.children out := by
  cases temp
  rw [flattenNode, flatten]

/-- The range of the vector holds the trie, in nodes from `least` on. -/
inductive Laid (nodes : List Node) (least : Nat) :
    Nat × Nat → List Temp → Prop where
  | intro {start : Nat} {temps : List Temp} (ranges : Nat → Nat × Nat)
      (beyond : temps ≠ [] → least ≤ start)
      (placed : ∀ i temp, temps[i]? = some temp →
        nodes[start + i]? = some ⟨temp.token, ranges i, temp.isTerminal⟩)
      (below : ∀ i temp, temps[i]? = some temp → Laid nodes least (ranges i) temp.children) :
      Laid nodes least (start, start + temps.length) temps

theorem Laid.mono {nodes others : List Node} {least lower : Nat}
    {range : Nat × Nat} {temps : List Temp}
    (laid : Laid nodes least range temps) (le : lower ≤ least)
    (kept : ∀ k node, least ≤ k → nodes[k]? = some node → others[k]? = some node) :
    Laid others lower range temps := by
  induction laid with
  | @intro start temps ranges beyond placed below ih =>
    refine .intro ranges (fun nonempty => Nat.le_trans le (beyond nonempty)) ?_ ih
    intro i temp located
    have nonempty : temps ≠ [] := by grind
    exact kept _ _ (Nat.le_add_right_of_le (beyond nonempty)) (placed i temp located)

/-- What placing the nodes below a level leaves and what it makes. -/
structure Placed (temps : List Temp) (pos : Nat) (out result : List Node) :
    Prop where
  kept : ∀ k node, k < pos ∨ pos + temps.length ≤ k → out[k]? = some node → result[k]? = some node
  made : ∃ ranges : Nat → Nat × Nat, ∀ i temp, temps[i]? = some temp →
    result[pos + i]? = some ⟨temp.token, ranges i, temp.isTerminal⟩ ∧
      Laid result out.length (ranges i) temp.children
  length_eq : result.length + temps.length = out.length + levelSize temps

structure Flattened (temps : List Temp) (out : List Node)
    (result : (Nat × Nat) × List Node) : Prop where
  kept : ∀ (k : Nat) node, out[k]? = some node → result.2[k]? = some node
  laid : Laid result.2 out.length result.1 temps
  length_eq : result.2.length = out.length + levelSize temps

theorem Flattened.of_placed {temps : List Temp} {out : List Node}
    (placed : ∀ out : List Node, ∀ pos, pos + temps.length ≤ out.length →
      (∀ i temp, temps[i]? = some temp → out[pos + i]? = some temp.placed) →
      Placed temps pos out (flattenEach temps pos out)) :
    Flattened temps out (flatten temps out) := by
  unfold flatten
  by_cases empty : temps = []
  · subst empty
    simp only [List.isEmpty_nil, if_true]
    refine ⟨fun k node located => located, ?_, by simp [levelSize]⟩
    exact @Laid.intro out out.length 0 [] (fun _ => (0, 0)) (by simp) (by simp) (by simp)
  · have nonempty : temps.isEmpty = false := by simpa using empty
    simp only [nonempty, Bool.false_eq_true, if_false]
    have each := placed (out ++ temps.map Temp.placed) out.length (by simp)
      (by
        intro i temp located
        rw [List.getElem?_append_right (by omega)]
        simp [located])
    obtain ⟨ranges, made⟩ := each.made
    refine ⟨?_, ?_, ?_⟩
    · intro k node located
      have inside := (List.getElem?_eq_some_iff.mp located).1
      apply each.kept k node (Or.inl inside)
      rw [List.getElem?_append_left inside]
      exact located
    · have stop : (out ++ temps.map Temp.placed).length = out.length + temps.length := by simp
      rw [stop]
      refine Laid.intro ranges (fun _ => Nat.le_refl _)
        (fun i temp located => (made i temp located).1) ?_
      intro i temp located
      exact (made i temp located).2.mono (by simp) (fun k node _ located => located)
    · have length := each.length_eq
      simp only [List.length_append, List.length_map] at length
      dsimp only
      omega

theorem placed_flattenEach (temps : List Temp) :
    ∀ (out : List Node) (pos : Nat), pos + temps.length ≤ out.length →
      (∀ i temp, temps[i]? = some temp → out[pos + i]? = some temp.placed) →
      Placed temps pos out (flattenEach temps pos out) := by
  induction temps using level_induction with
  | nil =>
    intro out pos inside waiting
    rw [flattenEach]
    exact ⟨fun k node _ located => located, ⟨fun _ => (0, 0), by simp⟩, by simp [levelSize]⟩
  | cons temp rest placedChildren ih =>
    intro out pos inside waiting
    have children : Flattened temp.children out (flatten temp.children out) :=
      Flattened.of_placed placedChildren
    rw [flattenEach, flattenNode_eq]
    generalize flatten temp.children out = result at children
    obtain ⟨range, out1⟩ := result
    obtain ⟨kept, laid, length1⟩ := children
    simp only at kept laid length1 ⊢
    generalize modified : out1.modify pos (fun node => { node with children := range }) = out2
    have length2 : out2.length = out1.length := by rw [← modified, List.length_modify]
    have here : out2[pos]? = some ⟨temp.token, range, temp.isTerminal⟩ := by
      have first := kept pos temp.placed (by simpa using waiting 0 temp (by simp))
      rw [← modified, List.getElem?_modify, first]
      simp [Temp.placed]
    have elsewhere : ∀ k, k ≠ pos → out2[k]? = out1[k]? := by grind
    simp only [List.length_cons] at inside
    have restPlaced := ih out2 (pos + 1) (by omega)
      (by
        intro i other located
        rw [elsewhere _ (by omega)]
        apply kept
        have next := waiting (i + 1) other (by simpa using located)
        rwa [show pos + 1 + i = pos + (i + 1) from by omega])
    obtain ⟨ranges, made⟩ := restPlaced.made
    refine ⟨?_, ⟨fun i => if i = 0 then range else ranges (i - 1), ?_⟩, ?_⟩
    · intro k node outside located
      simp only [List.length_cons] at outside
      apply restPlaced.kept k node (by omega)
      rw [elsewhere k (by omega)]
      exact kept k node located
    · intro i other located
      cases i with
      | zero =>
        simp only [List.getElem?_cons_zero, Option.some.injEq] at located
        subst located
        refine ⟨restPlaced.kept pos _ (Or.inl (by omega)) here, ?_⟩
        refine laid.mono (Nat.le_refl _) ?_
        intro k node far located
        apply restPlaced.kept k node (by omega)
        rw [elsewhere k (by omega)]
        exact located
      | succ i =>
        simp only [List.getElem?_cons_succ] at located
        obtain ⟨atPlace, laidBelow⟩ := made i other located
        refine ⟨?_, laidBelow.mono (by omega) (fun k node _ located => located)⟩
        rw [show pos + (i + 1) = pos + 1 + i from by omega]
        exact atPlace
    · have restLength := restPlaced.length_eq
      simp only [List.length_cons, levelSize, temp.size_eq]
      omega

theorem flattened_flatten (temps : List Temp) (out : List Node) :
    Flattened temps out (flatten temps out) :=
  Flattened.of_placed (placed_flattenEach temps)

end Ophan.Glob
