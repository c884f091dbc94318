import Mathlib.Algebra.Order.Ring.Nat
import Mathlib.Tactic.Linarith
import Mathlib.Tactic.Ring
import Ophan.Limiter.Config

/-!
# The sliding window

The limiter keeps the number of requests of the current fixed window and of the
one before it.  A request counts against the limit together with the requests
of its window and with a share of those of the window before, which is the part
of that window that a window ending now still covers.
-/

namespace Ophan.Limiter

structure SlidingWindow where
  maxRequests : Nat
  windowSecs : Nat
  currentWindow : Nat
  currentCount : Nat
  previousWindow : Nat
  previousCount : Nat
  deriving DecidableEq, Repr

/-- `n as f64` -/
def asF64 (number : Nat) : Float := (UInt64.ofNat number).toFloat

def retryAfterMs (maxRequests currentCount previousCount windowSizeMs elapsed : Nat) : Nat :=
  let weight := asF64 (windowSizeMs - elapsed) / asF64 windowSizeMs
  if 0 < previousCount then
    let neededWeight := (asF64 maxRequests - asF64 currentCount) / asF64 previousCount
    if neededWeight < weight then
      let targetElapsed := asF64 windowSizeMs * (1.0 - neededWeight)
      (max (targetElapsed - asF64 elapsed) 0.0).toUInt64.toNat
    else windowSizeMs - elapsed
  else windowSizeMs - elapsed

namespace SlidingWindow

def new (cfg : LimiterConfig) : SlidingWindow where
  maxRequests := cfg.limit
  windowSecs := cfg.window
  currentWindow := 0
  currentCount := 0
  previousWindow := 0
  previousCount := 0

/-- The product wraps around, as in a release build. -/
def windowSizeMs (self : SlidingWindow) : Nat := wrappingMul self.windowSecs 1000

/-- The window of a time; a window of no length panics. -/
def windowOf (self : SlidingWindow) (nowMs : Nat) : Outcome Empty Nat :=
  if self.windowSizeMs = 0 then .panic else .ok (nowMs / self.windowSizeMs)

def isIdle (self : SlidingWindow) (nowMs : Nat) : Outcome Empty Bool :=
  (self.windowOf nowMs).map fun window => decide (saturatingAdd self.currentWindow 1 < window)

def roll (self : SlidingWindow) (window : Nat) : SlidingWindow :=
  if self.currentWindow ≠ window then
    { self with
      currentWindow := window
      currentCount := 0
      previousCount := self.currentCount
      previousWindow := self.currentWindow }
  else self

/-- The count of the window before, if it is the one that is kept. -/
def previousIn (self : SlidingWindow) (window : Nat) : Nat :=
  if self.previousWindow + 1 = window then self.previousCount else 0

/-- The weighted sum with one more request, in 128 bits. -/
def effective (previousCount currentCount windowSizeMs elapsed : Nat) : Nat :=
  (previousCount * (windowSizeMs - elapsed) + (currentCount + 1) * windowSizeMs) % 2 ^ 128

def admitted (limit effective windowSizeMs elapsed : Nat) : RateLimitResult where
  allowed := true
  remaining := (limit - effective) / windowSizeMs
  retryAfter := 0
  resetAfter := divCeil (windowSizeMs - elapsed) 1000

def rejected (maxRequests currentCount previousCount windowSizeMs elapsed : Nat) :
    RateLimitResult where
  allowed := false
  remaining := 0
  retryAfter :=
    divCeil (retryAfterMs maxRequests currentCount previousCount windowSizeMs elapsed) 1000
  resetAfter := divCeil (windowSizeMs - elapsed) 1000

/-- The end of a check, behind the roll-over. -/
def settle (self : SlidingWindow) (window elapsed : Nat) : RateLimitResult × SlidingWindow :=
  let size := self.windowSizeMs
  let previousCount := self.previousIn window
  let limit := self.maxRequests * size
  let effective := effective previousCount self.currentCount size elapsed
  if effective > limit then
    (rejected self.maxRequests self.currentCount previousCount size elapsed, self)
  else
    (admitted limit effective size elapsed, { self with currentCount := self.currentCount + 1 })

/-- `check`, with no other check at the same time. -/
def check (self : SlidingWindow) (nowMs : Nat) : Outcome Empty (RateLimitResult × SlidingWindow) :=
  (self.windowOf nowMs).map fun window =>
    (self.roll window).settle window (nowMs % self.windowSizeMs)

def checks (self : SlidingWindow) : List Nat → Outcome Empty (List RateLimitResult)
  | [] => .ok []
  | nowMs :: rest =>
    (self.check nowMs).bind fun checked =>
      (checked.2.checks rest).map fun results => checked.1 :: results

end SlidingWindow

end Ophan.Limiter
