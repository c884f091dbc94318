import Ophan.Lib.Str
import Ophan.Lib.Word

/-!
# Rate limiter configuration

The part of a policy that the algorithms read.  The period is kept in whole
seconds, which is what `window` reads of it and what a rate is written in.
-/

namespace Ophan.Limiter

open Lib (Str)
open Lib.Str (parseU64 trim)

inductive RateError where
  | number (num s : Str)
  | period (name s : Str)
  | format (s : Str)
  deriving DecidableEq, Repr

def RateError.text : RateError → String
  | .number num s =>
    "invalid rate number '" ++ String.ofList num ++ "' in '" ++ String.ofList s ++ "'"
  | .period name s =>
    "invalid rate period '" ++ String.ofList name ++ "' in '" ++ String.ofList s ++ "'"
  | .format s =>
    "invalid rate format '" ++ String.ofList s ++ "': expected N/s, N/m, N/h, or N/d"

/-- The seconds of a period. -/
def periodSecs (period : Str) : Option UInt64 :=
  match period with
  | ['s'] => some 1
  | ['m'] => some 60
  | ['h'] => some 3600
  | ['d'] => some 86400
  | _ => none

/-- `parse_rate`: the requests and the seconds of a rate `N/s`, `N/m`, `N/h` or `N/d`. -/
def parseRate (s : Str) : Except RateError (UInt64 × UInt64) :=
  let s := trim s
  match s.dropWhile (· ≠ '/') with
  | [] => .error (.format s)
  | _ :: period =>
    let num := s.takeWhile (· ≠ '/')
    match parseU64 num, periodSecs (trim period) with
    | none, _ => .error (.number num s)
    | some _, none => .error (.period period s)
    | some requests, some secs => .ok (requests.toUInt64, secs)

inductive RateLimitAlgorithm where
  | slidingWindow
  | tokenBucket
  deriving DecidableEq, Repr

structure LimiterConfig where
  requests : UInt64
  perSecs : UInt64
  burst : UInt64
  algorithm : RateLimitAlgorithm
  deriving DecidableEq, Repr

namespace LimiterConfig

def limit (cfg : LimiterConfig) : Nat := cfg.requests.toNat

def window (cfg : LimiterConfig) : Nat := cfg.perSecs.toNat

theorem limit_lt (cfg : LimiterConfig) : cfg.limit < wordCount := cfg.requests.toNat_lt

/-- The rate is the default one or was read from the text of a configuration. -/
def Configured (cfg : LimiterConfig) : Prop :=
  (cfg.requests, cfg.perSecs) = (60, 60) ∨ ∃ text, parseRate text = .ok (cfg.requests, cfg.perSecs)

/-- A window lasts between a second and a day. -/
theorem Configured.window {cfg : LimiterConfig} (configured : cfg.Configured) :
    1 ≤ cfg.window ∧ cfg.window ≤ 86400 := by
  unfold LimiterConfig.window
  rcases configured with same | ⟨text, read⟩
  · rw [(Prod.mk.inj same).2]
    decide
  · revert read
    fun_cases parseRate text <;> intro read
    case case4 isPeriod _ =>
      rw [← (Prod.mk.inj (Except.ok.inj read)).2]
      unfold periodSecs at isPeriod
      split at isPeriod <;> cases isPeriod <;> decide
    all_goals cases read

end LimiterConfig

structure RateLimitResult where
  allowed : Bool
  remaining : Nat
  retryAfter : Nat
  resetAfter : Nat
  deriving DecidableEq, Repr

end Ophan.Limiter
