import Ophan.Router.Escape

/-!
# The pattern syntax of the configuration

A pattern of the configuration may write a parameter as `:name` and a wildcard
as `*`.  `normalizePattern` rewrites both to braces.
-/

namespace Ophan.Router

open List

/-- `b':'` -/
abbrev colon : UInt8 := 58

def hasMatchitWildcard : Bytes → Bool
  | [] => false
  | b :: rest => (b = openBrace && rest.head?.any (· ≠ openBrace)) || hasMatchitWildcard rest

def isAsciiWhitespace (b : UInt8) : Bool := b = 32 || b = 9 || b = 10 || b = 12 || b = 13

def endsRun (b : UInt8) : Bool := b = openBrace || b = closeBrace || b = colon || b = star

/-- The loop of `normalize_pattern`; `none` stands for a loop that never
ends. -/
def patternLoop : Nat → Bytes → Bool → Option Bytes
  | 0, _, _ => none
  | _ + 1, [], _ => some []
  | rounds + 1, b :: rest, inBrace =>
    if b = openBrace then
      (patternLoop rounds rest true).map (b :: ·)
    else if b = closeBrace then
      (patternLoop rounds rest false).map (b :: ·)
    else if b = colon ∧ inBrace = false then
      let name := rest.takeWhile (· ≠ slash)
      if name ≠ [] then
        (patternLoop rounds (rest.drop name.length) inBrace).map
          ((openBrace :: name ++ [closeBrace]) ++ ·)
      else
        (patternLoop rounds rest inBrace).map (b :: ·)
    else if b = star ∧ inBrace = false then
      let wildcard :=
        if rest.all isAsciiWhitespace then
          -- `{*_}`
          [openBrace, star, 95, closeBrace]
        else
          -- `{_}`
          [openBrace, 95, closeBrace]
      (patternLoop rounds rest inBrace).map (wildcard ++ ·)
    else
      let run := (b :: rest).takeWhile (!endsRun ·)
      (patternLoop rounds ((b :: rest).drop run.length) inBrace).map (run ++ ·)

def normalizePattern (pattern : Bytes) : Option Bytes :=
  if hasMatchitWildcard pattern then
    some pattern
  else
    patternLoop (pattern.length + 1) pattern false

theorem hasMatchitWildcard_drop {pattern : Bytes}
    (without : hasMatchitWildcard pattern = false) (n : Nat) :
    hasMatchitWildcard (pattern.drop n) = false := by
  fun_induction drop n pattern with
  | case1 | case2 => exact without
  | case3 b rest n ih =>
    simp only [hasMatchitWildcard, Bool.or_eq_false_iff] at without
    exact ih without.2

/-- Behind an opening brace only opening braces are left, so that every round
of the loop consumes a byte. -/
theorem patternLoop_isSome (rounds : Nat) (pattern : Bytes) (inBrace : Bool)
    (bound : pattern.length < rounds) (without : hasMatchitWildcard pattern = false)
    (inside : inBrace = true → ∀ b ∈ pattern.head?, b = openBrace) :
    (patternLoop rounds pattern inBrace).isSome := by
  fun_induction patternLoop rounds pattern inBrace with
  | case1 => omega
  | case2 => rfl
  | case3 rounds rest inBrace ih =>
    rw [Option.isSome_map]
    refine ih (by simpa using bound) (hasMatchitWildcard_drop without 1) ?_
    intro _ next member
    simp only [hasMatchitWildcard, decide_true, Bool.true_and, Bool.or_eq_false_iff] at without
    rw [Option.mem_def] at member
    simpa [member] using without.1
  | case4 rounds rest inBrace _ ih =>
    rw [Option.isSome_map]
    exact ih (by simpa using bound) (hasMatchitWildcard_drop without 1) (by simp)
  | case5 rounds b rest inBrace _ _ isColon name _ ih =>
    rw [Option.isSome_map]
    refine ih ?_ (hasMatchitWildcard_drop without (name.length + 1)) (by simp [isColon.2])
    rw [length_cons] at bound
    rw [length_drop]
    omega
  | case6 rounds b rest inBrace _ _ isMark _ _ ih | case7 rounds b rest inBrace _ _ _ isMark _ ih =>
    rw [Option.isSome_map]
    exact ih (by simpa using bound) (hasMatchitWildcard_drop without 1) (by simp [isMark.2])
  | case8 rounds b rest inBrace isOpen isClose isColon isStar run ih =>
    have outside : inBrace = false := by
      by_contra inBraceToo
      exact isOpen (inside (by simpa using inBraceToo) b (by simp))
    have runs : endsRun b = false := by
      simp only [outside, and_true] at isColon isStar
      simp [endsRun, isOpen, isClose, isColon, isStar]
    have taken : run = b :: rest.takeWhile (!endsRun ·) := by simp [run, runs]
    rw [Option.isSome_map]
    refine ih ?_ (hasMatchitWildcard_drop without _) (by simp [outside])
    rw [length_cons] at bound
    rw [taken, length_drop, length_cons, length_cons]
    omega

/-- `normalize_pattern` always returns. -/
theorem normalizePattern_isSome (pattern : Bytes) : (normalizePattern pattern).isSome := by
  unfold normalizePattern
  split
  · rfl
  · rename_i without
    exact patternLoop_isSome _ pattern false (by omega) (by simpa using without) (by simp)

end Ophan.Router
