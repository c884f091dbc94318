import Mathlib
import Ophan.Lib.Outcome

/-!
# Machine words

Unsigned 64-bit arithmetic on natural numbers: operations that wrap around,
that stop at the largest word, that fail and that must not overflow.  Instants are numbers of
nanoseconds.
-/

namespace Ophan

def wordCount : Nat := 2 ^ 64

/-- `u64::MAX` -/
def wordMax : Nat := wordCount - 1

def wrappingMul (first second : Nat) : Nat := first * second % wordCount

def wrappingAdd (first second : Nat) : Nat := (first + second) % wordCount

def wrappingSub (first second : Nat) : Nat := (first + (wordCount - second)) % wordCount

def checkedAdd (first second : Nat) : Option Nat :=
  if first + second ≤ wordMax then some (first + second) else none

def checkedMul (first second : Nat) : Option Nat :=
  if first * second ≤ wordMax then some (first * second) else none

def addWord {ε : Type*} (first second : Nat) : Outcome ε Nat :=
  if first + second ≤ wordMax then .ok (first + second) else .panic

def subWord {ε : Type*} (first second : Nat) : Outcome ε Nat :=
  if second ≤ first then .ok (first - second) else .panic

def saturatingAdd (first second : Nat) : Nat := min (first + second) wordMax

def saturatingMul (first second : Nat) : Nat := min (first * second) wordMax

def divCeil (number divisor : Nat) : Nat := (number + divisor - 1) / divisor

/-- The last `Instant`, in nanoseconds of a clock with signed 64-bit seconds. -/
def lastInstant : Nat := 2 ^ 63 * 1000000000 - 1

/-- The sum of an `Instant` and a `Duration`, if it is an `Instant`. -/
def addDuration (now ttl : Nat) : Option Nat :=
  if now + ttl ≤ lastInstant then some (now + ttl) else none

variable {first second : Nat}

theorem addWord_of_le {ε : Type*} (fits : first + second ≤ wordMax) :
    (addWord first second : Outcome ε Nat) = .ok (first + second) :=
  if_pos fits

theorem subWord_of_le {ε : Type*} (isLe : second ≤ first) :
    (subWord first second : Outcome ε Nat) = .ok (first - second) :=
  if_pos isLe

theorem wrappingMul_of_lt (fits : first * second < wordCount) :
    wrappingMul first second = first * second :=
  Nat.mod_eq_of_lt fits

theorem wrappingAdd_of_lt (fits : first + second < wordCount) :
    wrappingAdd first second = first + second :=
  Nat.mod_eq_of_lt fits

theorem wrappingSub_of_le (isLe : second ≤ first) (fits : first < wordCount) :
    wrappingSub first second = first - second := by
  unfold wrappingSub
  rw [show first + (wordCount - second) = first - second + wordCount by omega, Nat.add_mod_right]
  exact Nat.mod_eq_of_lt (Nat.lt_of_le_of_lt (Nat.sub_le _ _) fits)

theorem wrappingMul_lt (first second : Nat) : wrappingMul first second < wordCount :=
  Nat.mod_lt _ (by decide)

theorem saturatingAdd_le (first second : Nat) : saturatingAdd first second ≤ first + second :=
  Nat.min_le_left _ _

theorem saturatingMul_le (first second : Nat) : saturatingMul first second ≤ first * second :=
  Nat.min_le_left _ _

theorem saturatingAdd_of_le (fits : first + second ≤ wordMax) :
    saturatingAdd first second = first + second :=
  Nat.min_eq_left fits

theorem saturatingMul_of_le (fits : first * second ≤ wordMax) :
    saturatingMul first second = first * second :=
  Nat.min_eq_left fits

theorem saturatingAdd_eq_of_lt (below : saturatingAdd first second < wordMax) :
    saturatingAdd first second = first + second := by
  unfold saturatingAdd at below ⊢
  omega

theorem saturatingMul_mono {factor : Nat} (isLe : first ≤ second) :
    saturatingMul first factor ≤ saturatingMul second factor := by
  unfold saturatingMul
  have product := Nat.mul_le_mul_right factor isLe
  omega

end Ophan
