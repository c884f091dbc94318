import Ophan.Lib.Interleaving
import Ophan.Lib.KeyMap
import Ophan.Lib.Word

/-!
# The cache with expiry times

The calls of the cache as sequences of their atomic operations.  An operation on
one key locks the shard of the key; a pass over the map locks one shard after the
other, and other calls move in between.  The counter of entries is an atomic of
its own, so that it is changed after the map is.
-/

namespace Ophan.Ttl

universe u v

structure CacheEntry (ν : Type v) where
  value : ν
  expiresAt : Nat
  deriving DecidableEq, Repr

def CacheEntry.isExpired {ν : Type v} (self : CacheEntry ν) (now : Nat) : Bool :=
  decide (now ≥ self.expiresAt)

structure Cache (κ : Type u) (ν : Type v) where
  cache : KeyMap κ (CacheEntry ν)
  defaultTtl : Nat
  maxCapacity : Option Nat
  lenCount : Nat
  nearExpiryThreshold : Nat
  deriving DecidableEq

namespace Cache

variable {κ : Type u} {ν : Type v}

def new (defaultTtl : Nat) : Cache κ ν where
  cache := ∅
  defaultTtl := defaultTtl
  maxCapacity := none
  lenCount := 0
  nearExpiryThreshold := 2000000000

def withCapacity (defaultTtl capacity : Nat) : Cache κ ν where
  cache := ∅
  defaultTtl := defaultTtl
  maxCapacity := some capacity
  lenCount := 0
  nearExpiryThreshold := 2000000000

/-- `min_by_key` on the expiry times: the first of the smallest. -/
def closest : List (κ × Nat) → Option (κ × Nat)
  | [] => none
  | first :: rest =>
    match closest rest with
    | some best => if best.2 < first.2 then some best else some first
    | none => some first

/-- The keys that `evict_smart_conditional` takes from its sample. -/
def keysToRemove (self : Cache κ ν) (now : Nat) (sample : List (κ × Nat)) : List κ :=
  let near := sample.filter fun sampled =>
    sampled.2 - now = 0 ∨ sampled.2 - now ≤ self.nearExpiryThreshold
  if near.isEmpty then (closest sample).toList.map (·.1) else near.map (·.1)

/-- `store` on the counter -/
def storeLen (self : Cache κ ν) (total : Nat) : Cache κ ν := { self with lenCount := total }

/-- `fetch_add` on the counter -/
def addLen (self : Cache κ ν) (count : Nat) : Cache κ ν :=
  self.storeLen (wrappingAdd self.lenCount count)

/-- `fetch_sub` on the counter -/
def subLen (self : Cache κ ν) (count : Nat) : Cache κ ν :=
  self.storeLen (wrappingSub self.lenCount count)

theorem cache_storeLen (self : Cache κ ν) (total : Nat) :
    (self.storeLen total).cache = self.cache := rfl

theorem cache_addLen (self : Cache κ ν) (count : Nat) : (self.addLen count).cache = self.cache :=
  self.cache_storeLen _

theorem cache_subLen (self : Cache κ ν) (count : Nat) : (self.subLen count).cache = self.cache :=
  self.cache_storeLen _

end Cache

inductive Answer (ν : Type v) where
  | done
  | value (found : Option ν)
  | inserted (isNew : Bool)
  deriving DecidableEq, Repr

inductive Write (κ : Type u) (ν : Type v) where
  | put (key : κ) (value : ν) (ttl : Option Nat)
  | setNx (key : κ) (value : ν) (now expiresAt : Nat)
  deriving DecidableEq, Repr

/-- The next atomic operation of a call, with the values that it has read. -/
inductive Point (κ : Type u) (ν : Type v) where
  -- `ensure_capacity` and `evict_smart_conditional`
  | loadLen (write : Write κ ν)
  | sampleClock (write : Write κ ν) (amount : Nat)
  | sampleShard (write : Write κ ν) (now amount shard : Nat) (sample : List (κ × Nat))
  | evict (write : Write κ ν) (keys : List κ) (removed : Nat)
  -- `put`
  | putClock (key : κ) (value : ν) (ttl : Option Nat)
  | insert (key : κ) (value : ν) (expiresAt : Nat)
  -- `get`
  | lookup (key : κ)
  | removeExpired (key : κ)
  -- `set_nx`
  | setNxClock (key : κ) (value : ν) (ttl : Option Nat)
  | entry (key : κ) (value : ν) (now expiresAt : Nat)
  -- `remove`
  | remove (key : κ)
  -- `purge_expired` and `clear`
  | purgeClock
  | purgeShard (now shard : Nat)
  | lenShard (shard total : Nat)
  | clearShard (shard : Nat)
  | storeLen (total : Nat)
  -- the counter, behind the map
  | addLen (answer : Answer ν)
  | subLen (answer : Answer ν)
  | returned (answer : Answer ν)
  | panicked
  deriving DecidableEq, Repr

structure Shared (κ : Type u) (ν : Type v) where
  cache : Cache κ ν
  clock : Nat
  deriving DecidableEq

/-- What can be asked of the cache; the clock is moved on by its own. -/
inductive Input (κ : Type u) (ν : Type v) where
  | tick (now : Nat)
  | put (key : κ) (value : ν) (ttl : Option Nat)
  | get (key : κ)
  | setNx (key : κ) (value : ν) (ttl : Option Nat)
  | remove (key : κ)
  | purgeExpired
  | clear
  deriving DecidableEq, Repr

section Steps

variable {κ : Type u} {ν : Type v}

def Write.resume : Write κ ν → Point κ ν
  | .put key value ttl => .putClock key value ttl
  | .setNx key value now expiresAt => .entry key value now expiresAt

variable [DecidableEq κ] (sharding : Sharding κ)

def Cache.keysIn (self : Cache κ ν) (shard : Nat) : List κ :=
  self.cache.keys.filter fun key => (sharding.shardOf key).val = shard

/-- The part of a shard that an iteration in the given order adds to the sample. -/
def Cache.sampleFrom (self : Cache κ ν) (order : List κ) (room : Nat) : List (κ × Nat) :=
  (order.take room).filterMap fun key =>
    (self.cache.lookup key).map fun entry => (key, entry.expiresAt)

/-- The operation at the point of a call.  A shard is iterated in any order of its
keys. -/
def advance (shared : Shared κ ν) (order : List κ) : Point κ ν → Option (Shared κ ν × Point κ ν)
  | .loadLen write =>
    match shared.cache.maxCapacity with
    | none => some (shared, write.resume)
    | some limit =>
      if shared.cache.lenCount ≥ limit then
        some (shared, .sampleClock write (max (limit / 10) 16))
      else some (shared, write.resume)
  | .sampleClock write amount => some (shared, .sampleShard write shared.clock amount 0 [])
  | .sampleShard write now amount shard sample =>
    if shard < sharding.amount ∧ sample.length < amount then
      if order.Perm (shared.cache.keysIn sharding shard) then
        some (shared, .sampleShard write now amount (shard + 1)
          (sample ++ shared.cache.sampleFrom order (amount - sample.length)))
      else none
    else some (shared, .evict write (shared.cache.keysToRemove now sample) 0)
  | .evict write (key :: rest) removed =>
    some ({ shared with
        cache := { shared.cache with cache := shared.cache.cache.erase key } },
      .evict write rest (if key ∈ shared.cache.cache then removed + 1 else removed))
  | .evict write [] removed =>
    if removed > 0 then
      some ({ shared with cache := shared.cache.subLen removed }, write.resume)
    else some (shared, write.resume)
  | .putClock key value ttl =>
    match addDuration shared.clock (ttl.getD shared.cache.defaultTtl) with
    | some expiresAt => some (shared, .insert key value expiresAt)
    | none => some (shared, .panicked)
  | .insert key value expiresAt =>
    some ({ shared with
        cache := { shared.cache with
          cache := shared.cache.cache.insert key ⟨value, expiresAt⟩ } },
      if key ∈ shared.cache.cache then .returned .done else .addLen .done)
  | .lookup key =>
    match shared.cache.cache.lookup key with
    | some entry =>
      if entry.isExpired shared.clock then some (shared, .removeExpired key)
      else some (shared, .returned (.value (some entry.value)))
    | none => some (shared, .returned (.value none))
  | .removeExpired key =>
    some ({ shared with
        cache := { shared.cache with cache := shared.cache.cache.erase key } },
      if key ∈ shared.cache.cache then .subLen (.value none) else .returned (.value none))
  | .setNxClock key value ttl =>
    match addDuration shared.clock (ttl.getD shared.cache.defaultTtl) with
    | some expiresAt => some (shared, .loadLen (.setNx key value shared.clock expiresAt))
    | none => some (shared, .panicked)
  | .entry key value now expiresAt =>
    match shared.cache.cache.lookup key with
    | some entry =>
      if entry.isExpired now then
        some ({ shared with
            cache := { shared.cache with
              cache := shared.cache.cache.insert key ⟨value, expiresAt⟩ } },
          .returned (.inserted true))
      else some (shared, .returned (.inserted false))
    | none =>
      some ({ shared with
          cache := { shared.cache with
            cache := shared.cache.cache.insert key ⟨value, expiresAt⟩ } },
        .addLen (.inserted true))
  | .remove key =>
    some ({ shared with
        cache := { shared.cache with cache := shared.cache.cache.erase key } },
      match shared.cache.cache.lookup key with
      | some entry => .subLen (.value (some entry.value))
      | none => .returned (.value none))
  | .purgeClock => some (shared, .purgeShard shared.clock 0)
  | .purgeShard now shard =>
    if shard < sharding.amount then
      some ({ shared with
          cache := { shared.cache with
            cache := shared.cache.cache.retain fun key entry =>
              (sharding.shardOf key).val ≠ shard ∨ ¬ entry.isExpired now } },
        .purgeShard now (shard + 1))
    else some (shared, .lenShard 0 0)
  | .lenShard shard total =>
    if shard < sharding.amount then
      some (shared, .lenShard (shard + 1) (total + (shared.cache.keysIn sharding shard).length))
    else some (shared, .storeLen total)
  | .clearShard shard =>
    if shard < sharding.amount then
      some ({ shared with
          cache := { shared.cache with
            cache := shared.cache.cache.retain fun key _ => (sharding.shardOf key).val ≠ shard } },
        .clearShard (shard + 1))
    else some (shared, .storeLen 0)
  | .storeLen total => some ({ shared with cache := shared.cache.storeLen total }, .returned .done)
  | .addLen answer => some ({ shared with cache := shared.cache.addLen 1 }, .returned answer)
  | .subLen answer => some ({ shared with cache := shared.cache.subLen 1 }, .returned answer)
  | .returned _ => none
  | .panicked => none

def Input.begin : Input κ ν → Option (Point κ ν)
  | .tick _ => none
  | .put key value ttl => some (.loadLen (.put key value ttl))
  | .get key => some (.lookup key)
  | .setNx key value ttl => some (.setNxClock key value ttl)
  | .remove key => some (.remove key)
  | .purgeExpired => some .purgeClock
  | .clear => some (.clearShard 0)

/-- The clock never goes back. -/
def program : Program (Shared κ ν) (Point κ ν) (Input κ ν) (List κ) where
  start shared input :=
    match input with
    | .tick now => if shared.clock ≤ now then some ({ shared with clock := now }, []) else none
    | input => some (shared, input.begin.toList)
  move shared point order := advance sharding shared order point

def idle (cache : Cache κ ν) (clock : Nat) : Pool (Shared κ ν) (Point κ ν) := ⟨⟨cache, clock⟩, []⟩

variable {sharding}

inductive Change (sharding : Sharding κ) (shared : Shared κ ν) :
    Point κ ν → KeyMap κ (CacheEntry ν) → Prop where
  | keep (point : Point κ ν) : Change sharding shared point shared.cache.cache
  | insert (key : κ) (value : ν) (expiresAt : Nat) :
      Change sharding shared (.insert key value expiresAt)
        (shared.cache.cache.insert key ⟨value, expiresAt⟩)
  | entry (key : κ) (value : ν) (now expiresAt : Nat)
      (isFree : ∀ entry, shared.cache.cache.lookup key = some entry → entry.isExpired now = true) :
      Change sharding shared (.entry key value now expiresAt)
        (shared.cache.cache.insert key ⟨value, expiresAt⟩)
  | removeExpired (key : κ) :
      Change sharding shared (.removeExpired key) (shared.cache.cache.erase key)
  | remove (key : κ) : Change sharding shared (.remove key) (shared.cache.cache.erase key)
  | evict (write : Write κ ν) (key : κ) (rest : List κ) (removed : Nat) :
      Change sharding shared (.evict write (key :: rest) removed) (shared.cache.cache.erase key)
  | purgeShard (now shard : Nat) :
      Change sharding shared (.purgeShard now shard)
        (shared.cache.cache.retain fun key entry =>
          (sharding.shardOf key).val ≠ shard ∨ ¬ entry.isExpired now)
  | clearShard (shard : Nat) :
      Change sharding shared (.clearShard shard)
        (shared.cache.cache.retain fun key _ => (sharding.shardOf key).val ≠ shard)

theorem Change.counted {shared : Shared κ ν} {next : Cache κ ν} {point : Point κ ν}
    (same : next.cache = shared.cache.cache) : Change sharding shared point next.cache := by
  rw [same]
  exact .keep point

theorem advance_change {shared shared' : Shared κ ν} {order : List κ} {point point' : Point κ ν}
    (moves : advance sharding shared order point = some (shared', point')) :
    shared'.clock = shared.clock ∧ Change sharding shared point shared'.cache.cache := by
  revert moves
  fun_cases advance sharding shared order point <;> intro moves <;> cases moves <;> refine ⟨rfl, ?_⟩
  case case8 => exact .evict ..
  case case9 removed _ => exact .counted (shared.cache.cache_subLen removed)
  case case13 => exact .insert ..
  case case17 => exact .removeExpired _
  case case20 entry found expired =>
    refine .entry _ _ _ _ fun other isEntry => ?_
    rw [found] at isEntry
    cases isEntry
    exact expired
  case case22 found =>
    refine .entry _ _ _ _ fun other isEntry => ?_
    simp [found] at isEntry
  case case23 => exact .remove _
  case case25 => exact .purgeShard ..
  case case29 => exact .clearShard _
  case case31 total => exact .counted (shared.cache.cache_storeLen total)
  case case32 => exact .counted (shared.cache.cache_addLen 1)
  case case33 => exact .counted (shared.cache.cache_subLen 1)
  -- the other steps leave the entries as they are
  all_goals exact .keep _

end Steps

end Ophan.Ttl
