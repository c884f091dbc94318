import Mathlib.Data.List.Basic

/-!
# Splitting a list at a separator

`splitAtEvery sep` is the list of the parts between the separators.  There is
always at least one part, none of them contains the separator, and putting the
separator back between them gives the list.
-/

namespace Ophan

open List

universe u

variable {α : Type u}

/-- Each part written behind a separator. -/
def joinAfter (sep : α) (parts : List (List α)) : List α := parts.flatMap (sep :: ·)

@[simp]
theorem joinAfter_nil (sep : α) : joinAfter sep [] = [] := rfl

@[simp]
theorem joinAfter_cons (sep : α) (part : List α) (parts : List (List α)) :
    joinAfter sep (part :: parts) = sep :: part ++ joinAfter sep parts := rfl

theorem joinAfter_append (sep : α) (parts others : List (List α)) :
    joinAfter sep (parts ++ others) = joinAfter sep parts ++ joinAfter sep others := by
  simp [joinAfter]

theorem cut_unique {sep : α} {first second rest others : List α}
    (withoutFirst : sep ∉ first) (withoutSecond : sep ∉ second)
    (same : first ++ sep :: rest = second ++ sep :: others) :
    first = second ∧ rest = others := by
  rcases append_eq_append_iff.mp same with ⟨more, rfl, cut⟩ | ⟨more, rfl, cut⟩
  · cases more with
    | nil => simpa using cut
    | cons a more => simp [(List.cons.inj cut).1] at withoutSecond
  · cases more with
    | nil => simpa using cut.symm
    | cons a more => simp [(List.cons.inj cut).1] at withoutFirst

variable [DecidableEq α]

def splitAtEvery (sep : α) : List α → List (List α)
  | [] => [[]]
  | a :: rest =>
    if a = sep then
      [] :: splitAtEvery sep rest
    else
      match splitAtEvery sep rest with
      | [] => [[a]]
      | part :: parts => (a :: part) :: parts

theorem splitAtEvery_ne_nil (sep : α) (items : List α) : splitAtEvery sep items ≠ [] := by
  cases items with
  | nil => simp [splitAtEvery]
  | cons a rest =>
    simp only [splitAtEvery]
    split
    · simp
    · split <;> simp

@[simp]
theorem splitAtEvery_sep_cons (sep : α) (rest : List α) :
    splitAtEvery sep (sep :: rest) = [] :: splitAtEvery sep rest := by
  simp [splitAtEvery]

theorem splitAtEvery_append_sep {sep : α} {part : List α} (without : sep ∉ part) (rest : List α) :
    splitAtEvery sep (part ++ sep :: rest) = part :: splitAtEvery sep rest := by
  induction part with
  | nil => simp
  | cons a part ih =>
    simp only [mem_cons, not_or] at without
    have below := ih without.2
    simp only [cons_append, splitAtEvery, if_neg (Ne.symm without.1), below]

theorem splitAtEvery_of_not_mem {sep : α} {part : List α}
    (without : sep ∉ part) : splitAtEvery sep part = [part] := by
  induction part with
  | nil => rfl
  | cons a part ih =>
    simp only [mem_cons, not_or] at without
    simp only [splitAtEvery, if_neg (Ne.symm without.1), ih without.2]

theorem exists_cut (sep : α) (items : List α) :
    sep ∉ items ∨ ∃ part rest, sep ∉ part ∧ items = part ++ sep :: rest := by
  by_cases member : sep ∈ items
  · obtain ⟨part, rest, cut, without⟩ := eq_append_cons_of_mem member
    exact .inr ⟨part, rest, without, cut⟩
  · exact .inl member

theorem split_induction (sep : α) {motive : List α → Prop} (last : ∀ part, sep ∉ part → motive part)
    (cut : ∀ part rest, sep ∉ part → motive rest → motive (part ++ sep :: rest)) :
    ∀ items, motive items := by
  intro items
  induction size : items.length using Nat.strongRecOn generalizing items with
  | ind n ih =>
    rcases exists_cut sep items with without | ⟨part, rest, without, rfl⟩
    · exact last items without
    · refine cut part rest without (ih rest.length ?_ rest rfl)
      simp only [length_append, length_cons] at size
      omega

theorem splitAtEvery_append (sep : α) (before rest : List α) :
    splitAtEvery sep (before ++ sep :: rest) =
      splitAtEvery sep before ++ splitAtEvery sep rest := by
  induction before using split_induction sep with
  | last part without =>
    rw [splitAtEvery_append_sep without, splitAtEvery_of_not_mem without, singleton_append]
  | cut part others without ih =>
    rw [append_assoc, cons_append, splitAtEvery_append_sep without,
      ih, splitAtEvery_append_sep without, cons_append]

theorem not_mem_of_mem_splitAtEvery {sep : α} (items : List α) :
    ∀ part ∈ splitAtEvery sep items, sep ∉ part := by
  induction items using split_induction sep with
  | last part without =>
    rw [splitAtEvery_of_not_mem without]
    simpa using without
  | cut part rest without ih =>
    rw [splitAtEvery_append_sep without]
    simpa using ⟨without, ih⟩

/-- Splitting what was joined gives the parts back, behind an empty one. -/
theorem splitAtEvery_joinAfter {sep : α} :
    ∀ {parts : List (List α)}, (∀ part ∈ parts, sep ∉ part) →
      ∀ {first : List α}, sep ∉ first →
        splitAtEvery sep (first ++ joinAfter sep parts) = first :: parts := by
  intro parts
  induction parts with
  | nil =>
    intro _ first without
    simpa using splitAtEvery_of_not_mem without
  | cons part parts ih =>
    intro each first without
    have here : sep ∉ part := each part (by simp)
    have below := ih (forall_mem_cons.mp each).2 here
    rw [joinAfter_cons, cons_append, splitAtEvery_append_sep without, below]

end Ophan
