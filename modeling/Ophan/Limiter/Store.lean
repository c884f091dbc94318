import Ophan.Lib.KeyMap
import Ophan.Limiter.TokenBucket

/-!
# The store of the rate limiter

One limiter state for each client of each policy.  A client that is new while the
store is full shares the overflow entry of its policy; entries that have come to
rest are removed now and then.
-/

namespace Ophan.Limiter

/-- The scope identifies the policy, so that all checks of a key have one
configuration. -/
structure LimiterKey where
  keyHash : UInt64
  scope : UInt64
  deriving DecidableEq, Repr

inductive LimiterState where
  | sliding (window : SlidingWindow)
  | bucket (bucket : TokenBucket)
  deriving DecidableEq, Repr

namespace LimiterState

def new (cfg : LimiterConfig) : Outcome Empty LimiterState :=
  match cfg.algorithm with
  | .slidingWindow => .ok (.sliding (SlidingWindow.new cfg))
  | .tokenBucket => (TokenBucket.new cfg).map .bucket

def check (self : LimiterState) (nowMs : Nat) : Outcome Empty (RateLimitResult × LimiterState) :=
  match self with
  | .sliding window => (window.check nowMs).map fun checked => (checked.1, .sliding checked.2)
  | .bucket tokens => .ok ((tokens.check nowMs).1, .bucket (tokens.check nowMs).2)

def isIdle (self : LimiterState) (nowMs : Nat) : Outcome Empty Bool :=
  match self with
  | .sliding window => window.isIdle nowMs
  | .bucket tokens => .ok (tokens.isIdle nowMs)

end LimiterState

def maxTrackedClients : Nat := 1 <<< 20

def overflowKey : UInt64 := 18446744073709551615

structure MemoryRateLimiter where
  states : KeyMap LimiterKey LimiterState
  tracked : Nat
  maxTracked : Nat

namespace MemoryRateLimiter

def new : MemoryRateLimiter where
  states := ∅
  tracked := 0
  maxTracked := maxTrackedClients

def checkAt (self : MemoryRateLimiter) (key : LimiterKey) (state : LimiterState) (nowMs : Nat) :
    Outcome Empty (RateLimitResult × MemoryRateLimiter) :=
  (state.check nowMs).map fun checked =>
    (checked.1, { self with states := self.states.insert key checked.2 })

/-- The key under which a client without a state is counted. -/
def slotFor (self : MemoryRateLimiter) (key : LimiterKey) : LimiterKey :=
  if self.tracked ≥ self.maxTracked then { key with keyHash := overflowKey } else key

def consume (self : MemoryRateLimiter) (key : LimiterKey) (cfg : LimiterConfig) (nowMs : Nat) :
    Outcome Empty (RateLimitResult × MemoryRateLimiter) :=
  match self.states.lookup key with
  | some state => self.checkAt key state nowMs
  | none =>
    match self.states.lookup (self.slotFor key) with
    | some state => self.checkAt (self.slotFor key) state nowMs
    | none =>
      (LimiterState.new cfg).bind fun state =>
        { self with tracked := self.tracked + 1 }.checkAt (self.slotFor key) state nowMs

/-- Remove the entries at rest; the number of entries that are left is returned. -/
def evictIdle (self : MemoryRateLimiter) (nowMs : Nat) : Outcome Empty (Nat × MemoryRateLimiter) :=
  if self.states.entries.any fun entry => entry.2.isIdle nowMs = .panic then .panic
  else
    let states := self.states.retain fun _ state => state.isIdle nowMs ≠ .ok true
    .ok (states.len, { self with states := states, tracked := states.len })

inductive Event where
  | consume (key : LimiterKey) (nowMs : UInt64)
  | evictIdle (nowMs : UInt64)
  deriving DecidableEq, Repr

def Event.nowMs : Event → UInt64
  | .consume _ nowMs => nowMs
  | .evictIdle nowMs => nowMs

section Run

variable (policies : UInt64 → LimiterConfig)

/-- The results of the checks of a run.  A panic aborts the process, so that it is
the last result. -/
def run (self : MemoryRateLimiter) : List Event → List (Outcome Empty RateLimitResult)
  | [] => []
  | .consume key nowMs :: rest =>
    match self.consume key (policies key.scope) nowMs.toNat with
    | .ok (result, next) => .ok result :: next.run rest
    | .panic => [.panic]
  | .evictIdle nowMs :: rest =>
    match self.evictIdle nowMs.toNat with
    | .ok (_, next) => next.run rest
    | .panic => [.panic]

def BelowCapacity (self : MemoryRateLimiter) : List Event → Prop
  | [] => True
  | .consume key nowMs :: rest =>
    (key ∈ self.states ∨ self.tracked < self.maxTracked) ∧
      ∀ result next,
        self.consume key (policies key.scope) nowMs.toNat = .ok (result, next) →
          next.BelowCapacity rest
  | .evictIdle nowMs :: rest =>
    ∀ left next, self.evictIdle nowMs.toNat = .ok (left, next) → next.BelowCapacity rest

end Run

/-- Some events with more calls of `evict_idle` among them. -/
inductive Inserts : List Event → List Event → Prop where
  | nil : Inserts [] []
  | keep (event : Event) {events more : List Event} (inserts : Inserts events more) :
      Inserts (event :: events) (event :: more)
  | evict (nowMs : UInt64) {events more : List Event} (inserts : Inserts events more) :
      Inserts events (.evictIdle nowMs :: more)

end MemoryRateLimiter

end Ophan.Limiter
