import Ophan.Lib.Interleaving
import Ophan.Lib.KeyMap
import Ophan.Lib.Word

/-!
# The cache with single flights

`get_or_fetch_with_ttl` as the sequence of its operations on the cache, on the
table of flights and on the shared fetch.  A fetch lives as long as a caller has a
handle of it; the table keeps only a weak one.  The poll that finds a fetch finished
gives its handle back, and the result is recorded after that.
-/

namespace Ophan.Ufo

universe u v w

/-- What a fetch returns when it does not fail: a value, and the time to keep it. -/
abbrev Fetched (α : Type v) := α × Option Nat

structure Stored (α : Type v) where
  value : α
  expireOn : Option Nat
  deriving DecidableEq, Repr

def Stored.isExpired {α : Type v} (self : Stored α) (now : Nat) : Bool :=
  self.expireOn.any fun expireOn => decide (expireOn ≤ now)

structure Fetch (κ : Type u) (α : Type v) (ε : Type w) where
  key : κ
  result : Option (Except ε (Fetched α))
  handles : Nat
  deriving DecidableEq

/-- An entry of the table of flights; the fetch is named by its place in the list of
all fetches. -/
structure Flight where
  id : Nat
  fetch : Nat
  deriving DecidableEq, Repr

structure Failure (ε : Type w) where
  expiresAt : Nat
  error : ε
  deriving DecidableEq, Repr

structure Shard (κ : Type u) (ε : Type w) where
  inflight : KeyMap κ Flight
  failures : KeyMap κ (Failure ε)
  locked : Bool

def shardSweepThreshold : Nat := 64

structure MemoryCache (κ : Type u) (α : Type v) (ε : Type w) where
  inner : KeyMap κ (Stored α)
  shards : Nat → Shard κ ε
  negativeTtl : Nat
  nextFlightId : Nat

structure Shared (κ : Type u) (α : Type v) (ε : Type w) where
  cache : MemoryCache κ α ε
  fetches : List (Fetch κ α ε)
  clock : Nat

/-- The next operation of a call, with the values that it has read. -/
inductive Point (κ : Type u) (α : Type v) (ε : Type w) where
  | fastGet (key : κ)
  | lock (key : κ)
  -- under the lock of the shard
  | checkFailure (key : κ)
  | join (key : κ) (now : Nat)
  | slowGet (key : κ) (now : Nat)
  | startSweep (key : κ) (now : Nat)
  | sweep (key : κ) (now : Nat) (keys : List κ)
  | sweepFailures (key : κ) (now : Nat)
  | insert (key : κ)
  -- `shared.await`
  | awaiting (key : κ) (fetch id : Nat)
  | ready (key : κ) (fetch id : Nat)
  -- `complete_flight`, under the lock from `record` on
  | completing (key : κ) (id : Nat) (result : Except ε (Fetched α))
  | record (key : κ) (id : Nat) (result : Except ε (Fetched α))
  | free (key : κ) (result : Except ε (Fetched α))
  | returned (result : Except ε α)
  | cancelled
  | panicked
  -- the clock, the memory cache and its other users
  | tick (now : Nat)
  | evict (key : κ)
  | put (key : κ) (value : α) (ttl : Option Nat)
  | done
  deriving DecidableEq

/-- What is left open: how a poll ends, and the order of a pass over the table. -/
inductive Choice (κ : Type u) (α : Type v) (ε : Type w) where
  | go
  | finish (result : Except ε (Fetched α))
  | cancel
  | order (keys : List κ)

inductive Input (κ : Type u) (α : Type v) where
  | getOrFetch (key : κ)
  | tick (now : Nat)
  | evict (key : κ)
  | put (key : κ) (value : α) (ttl : Option Nat)
  deriving DecidableEq, Repr

section Steps

variable {κ : Type u} {α : Type v} {ε : Type w}

namespace Shard

def empty : Shard κ ε where
  inflight := ∅
  failures := ∅
  locked := false

def lock (self : Shard κ ε) : Shard κ ε := { self with locked := true }

def unlock (self : Shard κ ε) : Shard κ ε := { self with locked := false }

end Shard

namespace Fetch

def grab (self : Fetch κ α ε) : Fetch κ α ε := { self with handles := self.handles + 1 }

def drop (self : Fetch κ α ε) : Fetch κ α ε := { self with handles := self.handles - 1 }

def finish (self : Fetch κ α ε) (result : Except ε (Fetched α)) : Fetch κ α ε :=
  { self with result := some result }

end Fetch

variable [DecidableEq κ]

namespace MemoryCache

def new (negativeTtl : Nat) : MemoryCache κ α ε where
  inner := ∅
  shards := fun _ => Shard.empty
  negativeTtl := negativeTtl
  nextFlightId := 0

/-- `next_flight_id.fetch_add(1)` -/
def fetchAddId (self : MemoryCache κ α ε) : MemoryCache κ α ε :=
  { self with nextFlightId := wrappingAdd self.nextFlightId 1 }

def getValue (self : MemoryCache κ α ε) (key : κ) (now : Nat) : Option α :=
  (self.inner.lookup key).bind fun stored =>
    if stored.isExpired now then none else some stored.value

def put (self : MemoryCache κ α ε) (key : κ) (value : α) (ttl : Option Nat) (now : Nat) :
    MemoryCache κ α ε :=
  if ttl = some 0 then self
  else { self with inner := self.inner.insert key ⟨value, ttl.bind (addDuration now)⟩ }

end MemoryCache

variable (sharding : Sharding κ)

namespace Shared

def shard (self : Shared κ α ε) (key : κ) : Shard κ ε :=
  self.cache.shards (sharding.shardOf key).val

def withShard (self : Shared κ α ε) (key : κ) (shard : Shard κ ε) : Shared κ α ε :=
  { self with
    cache := { self.cache with
      shards := Function.update self.cache.shards (sharding.shardOf key).val shard } }

def withFetches (self : Shared κ α ε) (fetches : List (Fetch κ α ε)) : Shared κ α ε :=
  { self with fetches := fetches }

/-- The number of handles of a fetch; `upgrade` succeeds when there is one. -/
def handlesOf (self : Shared κ α ε) (fetch : Nat) : Nat :=
  (self.fetches[fetch]?.map Fetch.handles).getD 0

def resultOf (self : Shared κ α ε) (fetch : Nat) : Option (Except ε (Fetched α)) :=
  self.fetches[fetch]?.bind Fetch.result

/-- Make a fetch with one handle and a flight that names it. -/
def register (self : Shared κ α ε) (key : κ) : Shared κ α ε :=
  let shard := self.shard sharding key
  let flight : Flight := ⟨self.cache.nextFlightId, self.fetches.length⟩
  ({ self with
      cache := self.cache.fetchAddId
      fetches := self.fetches ++ [⟨key, none, 1⟩] } : Shared κ α ε).withShard sharding key
    { shard with inflight := shard.inflight.insert key flight }

def release (self : Shared κ α ε) (key : κ) : Shared κ α ε :=
  self.withShard sharding key (self.shard sharding key).unlock

/-- What `complete_flight` writes; the time of a failure may overflow. -/
def writeResult (self : Shared κ α ε) (key : κ) : Except ε (Fetched α) → Option (Shared κ α ε)
  | .ok (value, ttl) => some { self with cache := self.cache.put key value ttl self.clock }
  | .error error =>
    if self.cache.negativeTtl ≠ 0 then
      (addDuration self.clock self.cache.negativeTtl).map fun expiresAt =>
        self.withShard sharding key { self.shard sharding key with
          failures := (self.shard sharding key).failures.insert key ⟨expiresAt, error⟩ }
    else some self

end Shared

def advance (shared : Shared κ α ε) (choice : Choice κ α ε) :
    Point κ α ε → Option (Shared κ α ε × Point κ α ε)
  | .fastGet key =>
    match shared.cache.getValue key shared.clock with
    | some value => some (shared, .returned (.ok value))
    | none => some (shared, .lock key)
  | .lock key =>
    if (shared.shard sharding key).locked then none
    else some (shared.withShard sharding key (shared.shard sharding key).lock, .checkFailure key)
  | .checkFailure key =>
    match (shared.shard sharding key).failures.lookup key with
    | some failure =>
      if failure.expiresAt > shared.clock then
        some (shared.release sharding key, .returned (.error failure.error))
      else
        some (shared.withShard sharding key { shared.shard sharding key with
            failures := (shared.shard sharding key).failures.erase key },
          .join key shared.clock)
    | none => some (shared, .join key shared.clock)
  | .join key now =>
    match (shared.shard sharding key).inflight.lookup key with
    | some flight =>
      if shared.handlesOf flight.fetch > 0 then
        some ((shared.withFetches (shared.fetches.modify flight.fetch Fetch.grab)).release
          sharding key, .awaiting key flight.fetch flight.id)
      else some (shared, .slowGet key now)
    | none => some (shared, .slowGet key now)
  | .slowGet key now =>
    match shared.cache.getValue key shared.clock with
    | some value => some (shared.release sharding key, .returned (.ok value))
    | none => some (shared, .startSweep key now)
  | .startSweep key now =>
    if (shared.shard sharding key).inflight.len ≥ shardSweepThreshold then
      match choice with
      | .order keys =>
        if keys.Perm (shared.shard sharding key).inflight.keys then
          some (shared, .sweep key now keys)
        else none
      | _ => none
    else some (shared, .sweepFailures key now)
  | .sweep key now (other :: rest) =>
    match (shared.shard sharding key).inflight.lookup other with
    | some flight =>
      if shared.handlesOf flight.fetch > 0 then some (shared, .sweep key now rest)
      else
        some (shared.withShard sharding key { shared.shard sharding key with
            inflight := (shared.shard sharding key).inflight.erase other },
          .sweep key now rest)
    | none => some (shared, .sweep key now rest)
  | .sweep key now [] => some (shared, .sweepFailures key now)
  | .sweepFailures key now =>
    if (shared.shard sharding key).failures.len ≥ shardSweepThreshold then
      some (shared.withShard sharding key { shared.shard sharding key with
          failures := (shared.shard sharding key).failures.retain fun _ failure =>
            failure.expiresAt > now },
        .insert key)
    else some (shared, .insert key)
  -- The new fetch is known to nobody before this, so that it is made here.
  | .insert key =>
    some ((shared.register sharding key).release sharding key,
      .awaiting key shared.fetches.length shared.cache.nextFlightId)
  | .awaiting key fetch id =>
    match choice with
    | .cancel => some (shared.withFetches (shared.fetches.modify fetch Fetch.drop), .cancelled)
    | .finish result =>
      if (shared.resultOf fetch).isSome then some (shared, .ready key fetch id)
      else
        some (shared.withFetches (shared.fetches.modify fetch (Fetch.finish · result)),
          .ready key fetch id)
    | _ =>
      if (shared.resultOf fetch).isSome then some (shared, .ready key fetch id)
      else none
  | .ready key fetch id =>
    (shared.resultOf fetch).map fun result =>
      (shared.withFetches (shared.fetches.modify fetch Fetch.drop), .completing key id result)
  | .completing key id result =>
    if (shared.shard sharding key).locked then none
    else
      some (shared.withShard sharding key (shared.shard sharding key).lock, .record key id result)
  | .record key id result =>
    match (shared.shard sharding key).inflight.lookup key with
    | some flight =>
      if flight.id ≠ id then
        some (shared.release sharding key, .returned (result.map Prod.fst))
      else
        match shared.writeResult sharding key result with
        | some written => some (written, .free key result)
        | none => some (shared, .panicked)
    | none => some (shared.release sharding key, .returned (result.map Prod.fst))
  | .free key result =>
    let shard := shared.shard sharding key
    some ((shared.withShard sharding key
        { shard with inflight := shard.inflight.erase key }).release sharding key,
      .returned (result.map Prod.fst))
  | .tick now => if shared.clock ≤ now then some ({ shared with clock := now }, .done) else none
  | .evict key =>
    some ({ shared with
        cache := { shared.cache with inner := shared.cache.inner.erase key } }, .done)
  | .put key value ttl =>
    some ({ shared with cache := shared.cache.put key value ttl shared.clock }, .done)
  | .returned _ | .cancelled | .panicked | .done => none

def Input.begin : Input κ α → Point κ α ε
  | .getOrFetch key => .fastGet key
  | .tick now => .tick now
  | .evict key => .evict key
  | .put key value ttl => .put key value ttl

def program : Program (Shared κ α ε) (Point κ α ε) (Input κ α) (Choice κ α ε) where
  start shared input := some (shared, [input.begin])
  move shared point choice := advance sharding shared choice point

def idle (negativeTtl clock : Nat) : Pool (Shared κ α ε) (Point κ α ε) :=
  ⟨⟨.new negativeTtl, [], clock⟩, []⟩

end Steps

end Ophan.Ufo
