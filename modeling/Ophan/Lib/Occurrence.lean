import Mathlib.Data.List.DropRight
import Mathlib.Data.List.Infix
import Mathlib.Data.List.MinMax

/-!
# The first occurrence of one of several patterns

`findFirst` goes through a text and stops where a pattern ends first; of the
patterns that end there it takes the longest.  For a text that comes in pieces
the last bytes before a piece are enough to go on with.
-/

namespace Ophan

open List

universe u

variable {α : Type u} [DecidableEq α]

/-- The longest pattern that the text ends with, the first of equal ones. -/
def longestEnding (patterns : List (List α)) (text : List α) : Option Nat :=
  ((patterns.zipIdx.filter fun entry => entry.1.isSuffixOf text).argmax (·.1.length)).map (·.2)

def findFrom (patterns : List (List α)) : List α → List α → Option Nat
  | seen, [] => longestEnding patterns seen
  | seen, b :: rest => (longestEnding patterns seen).or (findFrom patterns (seen ++ [b]) rest)

def findFirst (patterns : List (List α)) (text : List α) : Option Nat := findFrom patterns [] text

variable {patterns : List (List α)}

theorem longestEnding_eq_none {text : List α} :
    longestEnding patterns text = none ↔ ∀ pattern ∈ patterns, ¬ pattern <:+ text := by
  unfold longestEnding
  rw [Option.map_eq_none_iff, argmax_eq_none, filter_eq_nil_iff]
  constructor
  · intro none pattern member ends
    obtain ⟨idx, inside, isPattern⟩ := getElem_of_mem member
    apply none (pattern, idx)
    · grind
    · simpa using ends
  · grind

theorem longestEnding_congr {first second : List α}
    (same : ∀ pattern ∈ patterns, pattern <:+ first ↔ pattern <:+ second) :
    longestEnding patterns first = longestEnding patterns second := by
  unfold longestEnding
  congr 2
  apply filter_congr
  intro entry member
  have inPatterns : entry.1 ∈ patterns := by grind
  rw [Bool.eq_iff_iff, isSuffixOf_iff_suffix, isSuffixOf_iff_suffix]
  exact same entry.1 inPatterns

theorem findFrom_of_ending {seen : List α} {idx : Nat}
    (ends : longestEnding patterns seen = some idx) (rest : List α) :
    findFrom patterns seen rest = some idx := by
  cases rest with
  | nil => exact ends
  | cons b rest =>
    rw [findFrom, ends]
    rfl

theorem findFrom_append (seen first second : List α) :
    findFrom patterns seen (first ++ second) =
      (findFrom patterns seen first).or (findFrom patterns (seen ++ first) second) := by
  induction first generalizing seen with
  | nil =>
    rw [nil_append, append_nil, findFrom]
    cases ends : longestEnding patterns seen with
    | none => rfl
    | some idx =>
      rw [findFrom_of_ending ends]
      rfl
  | cons b rest ih => rw [cons_append, findFrom, findFrom, ih, Option.or_assoc, ← append_cons]

theorem findFrom_eq_none (seen rest : List α) :
    findFrom patterns seen rest = none ↔
      ∀ before, before <+: rest → ∀ pattern ∈ patterns, ¬ pattern <:+ seen ++ before := by
  induction rest generalizing seen with
  | nil =>
    rw [findFrom, longestEnding_eq_none]
    constructor
    · simp
    · simp
  | cons b rest ih =>
    rw [findFrom, Option.or_eq_none_iff, longestEnding_eq_none, ih]
    constructor
    · rintro ⟨here, later⟩ before isBefore
      cases before with
      | nil => rwa [append_nil]
      | cons c more => simp_all
    · intro none
      constructor
      · have now := none [] nil_prefix
        rwa [append_nil] at now
      · simp_all

theorem findFirst_eq_none {text : List α} :
    findFirst patterns text = none ↔ ∀ pattern ∈ patterns, ¬ pattern <:+: text := by
  unfold findFirst
  rw [findFrom_eq_none]
  constructor
  · intro none pattern member occurs
    obtain ⟨before, isBefore, ends⟩ : ∃ before, before <+: text ∧ pattern <:+ before := by
      obtain ⟨left, right, cut⟩ := occurs
      exact ⟨left ++ pattern, ⟨right, cut⟩, suffix_append left pattern⟩
    exact none before isBefore pattern member ends
  · grind

theorem findFirst_isSome {text : List α} :
    (findFirst patterns text).isSome = true ↔ ∃ pattern ∈ patterns, pattern <:+: text := by
  rw [Option.isSome_iff_ne_none, ne_eq, findFirst_eq_none]
  simp only [not_forall, not_not, exists_prop]

theorem findFirst_append (first second : List α) :
    findFirst patterns (first ++ second) =
      (findFirst patterns first).or (findFrom patterns first second) := by
  unfold findFirst
  rw [findFrom_append, nil_append]

/-- What lies further back than the longest pattern does not matter. -/
theorem findFrom_drop {width : Nat}
    (short : ∀ pattern ∈ patterns, pattern.length ≤ width + 1) (back : List α)
    {seen : List α} (wide : width ≤ seen.length)
    (none : longestEnding patterns (back ++ seen) = none) (chunk : List α) :
    findFrom patterns (back ++ seen) chunk = findFrom patterns seen chunk := by
  have noneSeen : longestEnding patterns seen = Option.none := by
    rw [longestEnding_eq_none] at none ⊢
    intro pattern member ends
    exact none pattern member (ends.trans (suffix_append back seen))
  induction chunk generalizing seen with
  | nil => rw [findFrom, findFrom, none, noneSeen]
  | cons b rest ih =>
    have same : longestEnding patterns (back ++ (seen ++ [b])) =
        longestEnding patterns (seen ++ [b]) := by
      apply longestEnding_congr
      intro pattern member
      constructor
      · intro ends
        apply suffix_of_suffix_length_le ends (suffix_append back _)
        have bound := short pattern member
        simp only [length_append, length_singleton]
        omega
      · grind
    rw [findFrom, findFrom, none, noneSeen, Option.none_or, Option.none_or, append_assoc]
    cases ends : longestEnding patterns (seen ++ [b]) with
    | some idx => rw [findFrom_of_ending ends, findFrom_of_ending (same.trans ends)]
    | none => grind

/-- Where nothing was found before, the search goes on from the last bytes. -/
theorem findFirst_rtake {width : Nat}
    (short : ∀ pattern ∈ patterns, pattern.length ≤ width + 1) {before : List α}
    (none : findFirst patterns before = none) (chunk : List α) :
    findFirst patterns (before.rtake width ++ chunk) = findFirst patterns (before ++ chunk) := by
  have cut : before.take (before.length - width) ++ before.rtake width = before :=
    take_append_drop _ _
  have noneTail : findFirst patterns (before.rtake width) = Option.none := by
    rw [findFirst_eq_none] at none ⊢
    intro pattern member occurs
    apply none pattern member
    rw [← cut]
    exact occurs.trans (suffix_append _ _).isInfix
  rw [findFirst_append, findFirst_append, none, noneTail, Option.none_or, Option.none_or]
  by_cases wide : width ≤ before.length
  · have ends : longestEnding patterns before = Option.none := by
      rw [findFirst_eq_none] at none
      rw [longestEnding_eq_none]
      exact fun pattern member ends => none pattern member ends.isInfix
    rw [← cut] at ends
    have dropped := findFrom_drop short (before.take (before.length - width))
      (by
        rw [List.rtake, length_drop]
        omega) ends chunk
    rw [cut] at dropped
    exact dropped.symm
  · have whole : before.rtake width = before := by
      rw [List.rtake, Nat.sub_eq_zero_of_le (by omega), drop_zero]
    rw [whole]

end Ophan
