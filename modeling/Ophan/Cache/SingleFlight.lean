import Mathlib.Order.Basic
import Ophan.Cache.Ufo

/-!
# At most one fetch of a key

A fetch that runs is held by a caller and named in the table, so that a second
caller of its key joins it.  A finished fetch is no longer held once every caller
has its result, and until the first of them has recorded it neither the table nor
the cache can tell another caller of it.
-/

namespace Ophan.Ufo

open List

universe u v w

variable {κ : Type u} {α : Type v} {ε : Type w}

section Views

def Fetch.IsRunning (fetch : Fetch κ α ε) : Prop := fetch.result = none ∧ 0 < fetch.handles

/-- How a fetch may change: its result stays, and it does not come back to life. -/
structure Fetch.GrowsTo (fetch fetch' : Fetch κ α ε) : Prop where
  sameKey : fetch'.key = fetch.key
  sameResult : ∀ result, fetch.result = some result → fetch'.result = some result
  dead : fetch.handles = 0 → fetch'.handles = 0

theorem Fetch.GrowsTo.refl (fetch : Fetch κ α ε) : fetch.GrowsTo fetch :=
  ⟨rfl, fun _ same => same, fun same => same⟩

namespace Point

def holds (fetch : Nat) : Point κ α ε → Bool
  | .awaiting _ held _ => decide (held = fetch)
  | .ready _ held _ => decide (held = fetch)
  | _ => false

def lockedFor : Point κ α ε → Option κ
  | .checkFailure key => some key
  | .join key _ => some key
  | .slowGet key _ => some key
  | .startSweep key _ => some key
  | .sweep key _ _ => some key
  | .sweepFailures key _ => some key
  | .insert key => some key
  | .record key _ _ => some key
  | .free key _ => some key
  | _ => none

def inSection (sharding : Sharding κ) (shard : Nat) (point : Point κ α ε) : Bool :=
  point.lockedFor.any fun key => decide ((sharding.shardOf key).val = shard)

end Point

theorem getElem?_concat_cases {τ : Type u} {items : List τ} {last item : τ} {place : Nat}
    (found : (items ++ [last])[place]? = some item) :
    items[place]? = some item ∨ (place = items.length ∧ last = item) := by
  rcases Nat.lt_or_ge place items.length with isOld | isNew
  · grind
  · grind

section Fetches

variable {shared : Shared κ α ε} {place : Nat} {fetch : Fetch κ α ε}

theorem handlesOf_eq (isFetch : shared.fetches[place]? = some fetch) :
    shared.handlesOf place = fetch.handles := by
  rw [Shared.handlesOf, isFetch]
  rfl

theorem exists_of_handlesOf_pos (positive : 0 < shared.handlesOf place) :
    ∃ fetch, shared.fetches[place]? = some fetch ∧ 0 < fetch.handles := by
  cases isFetch : shared.fetches[place]? with
  | none =>
    rw [Shared.handlesOf, isFetch] at positive
    exact absurd positive (Nat.lt_irrefl 0)
  | some fetch => exact ⟨fetch, rfl, handlesOf_eq isFetch ▸ positive⟩

theorem resultOf_eq (isFetch : shared.fetches[place]? = some fetch) :
    shared.resultOf place = fetch.result := by
  rw [Shared.resultOf, isFetch]
  rfl

end Fetches

def Shared.isLocked (shared : Shared κ α ε) (shard : Nat) : Bool :=
  (shared.cache.shards shard).locked

variable {sharding : Sharding κ} {shared : Shared κ α ε}

theorem isLocked_withShard (key : κ) (shard : Shard κ ε) (index : Nat) :
    (shared.withShard sharding key shard).isLocked index =
      if index = (sharding.shardOf key).val then shard.locked else shared.isLocked index := by
  simp only [Shared.isLocked, Shared.withShard, Function.update_apply]
  split <;> rfl

variable {key : κ} {shard : Shard κ ε}

theorem isLocked_withShard_same
    (same : shard.locked = (shared.shard sharding key).locked) (index : Nat) :
    (shared.withShard sharding key shard).isLocked index = shared.isLocked index := by
  rw [isLocked_withShard]
  split
  next isIndex =>
    rw [same, isIndex]
    rfl
  next => rfl

theorem isLocked_release {index : Nat} (other : index ≠ (sharding.shardOf key).val) :
    (shared.release sharding key).isLocked index = shared.isLocked index := by
  rw [Shared.release, isLocked_withShard, if_neg other]

section Locks

/-- A call is in a section that it was not in only with the lock that it took for it. -/
def Locks (sharding : Sharding κ) (shared shared' : Shared κ α ε) (point point' : Point κ α ε) :
    Prop :=
  ∀ shard, (point'.inSection sharding shard).toNat + (shared.isLocked shard).toNat ≤
    (point.inSection sharding shard).toNat + (shared'.isLocked shard).toNat

variable {shared' : Shared κ α ε} {point point' : Point κ α ε}

theorem locks_same (sameFor : point'.lockedFor = point.lockedFor)
    (sameLocked : ∀ shard, shared'.isLocked shard = shared.isLocked shard) :
    Locks sharding shared shared' point point' := by
  intro shard
  rw [Point.inSection, Point.inSection, sameFor, sameLocked]

theorem locks_release {key : κ} (isFor : point.lockedFor = some key)
    (isNone : point'.lockedFor = none)
    (others : ∀ shard, shard ≠ (sharding.shardOf key).val →
      shared'.isLocked shard = shared.isLocked shard) :
    Locks sharding shared shared' point point' := by
  intro shard
  have outside : point'.inSection sharding shard = false := by simp [Point.inSection, isNone]
  by_cases isShard : shard = (sharding.shardOf key).val
  · have inside : point.inSection sharding shard = true := by simp [Point.inSection, isFor, isShard]
    rw [outside, inside]
    have atMost := Bool.toNat_le (shared.isLocked shard)
    simp only [Bool.toNat_false, Bool.toNat_true]
    omega
  · simp_all

end Locks

variable [DecidableEq κ]

def Shared.flightOf (sharding : Sharding κ) (shared : Shared κ α ε) (key : κ) : Option Flight :=
  (shared.shard sharding key).inflight.lookup key

theorem flightOf_withShard (key other : κ) (shard : Shard κ ε) :
    (shared.withShard sharding key shard).flightOf sharding other =
      if sharding.shardOf other = sharding.shardOf key then shard.inflight.lookup other
      else shared.flightOf sharding other := by
  simp only [Shared.flightOf, Shared.shard, Shared.withShard, Function.update_apply, Fin.val_inj]
  split <;> rfl

theorem flightOf_withShard_same
    (same : shard.inflight = (shared.shard sharding key).inflight) (other : κ) :
    (shared.withShard sharding key shard).flightOf sharding other =
      shared.flightOf sharding other := by
  rw [flightOf_withShard]
  split
  next sameShard => rw [same, Shared.flightOf, Shared.shard, Shared.shard, sameShard]
  next => rfl

theorem flightOf_release (key other : κ) :
    (shared.release sharding key).flightOf sharding other = shared.flightOf sharding other :=
  flightOf_withShard_same (show (Shard.unlock _).inflight = _ from rfl) other

/-- Everything but the cached values and failures is the same. -/
structure SameFlights (sharding : Sharding κ) (shared shared' : Shared κ α ε) : Prop where
  fetches : shared'.fetches = shared.fetches
  id : shared'.cache.nextFlightId = shared.cache.nextFlightId
  flights : ∀ key, shared'.flightOf sharding key = shared.flightOf sharding key
  locked : ∀ shard, shared'.isLocked shard = shared.isLocked shard

theorem SameFlights.refl : SameFlights sharding shared shared :=
  ⟨rfl, rfl, fun _ => rfl, fun _ => rfl⟩

theorem put_same (shared : Shared κ α ε) (key : κ) (value : α) (ttl : Option Nat) (now : Nat) :
    SameFlights sharding shared { shared with cache := shared.cache.put key value ttl now } := by
  rw [MemoryCache.put]
  split <;> exact ⟨rfl, rfl, fun _ => rfl, fun _ => rfl⟩

theorem withShard_same (sameTable : shard.inflight = (shared.shard sharding key).inflight)
    (sameLocked : shard.locked = (shared.shard sharding key).locked) :
    SameFlights sharding shared (shared.withShard sharding key shard) :=
  ⟨rfl, rfl, flightOf_withShard_same sameTable, isLocked_withShard_same sameLocked⟩

theorem writeResult_same {result : Except ε (Fetched α)} {written : Shared κ α ε}
    (isWritten : shared.writeResult sharding key result = some written) :
    SameFlights sharding shared written := by
  cases result with
  | ok fetched =>
    cases isWritten
    exact put_same shared key fetched.1 fetched.2 shared.clock
  | error error =>
    rw [Shared.writeResult] at isWritten
    split at isWritten
    · obtain ⟨expiresAt, _, rfl⟩ := Option.map_eq_some_iff.mp isWritten
      exact withShard_same (by rfl) (by rfl)
    · cases isWritten
      exact .refl

theorem flightOf_of_sameShard {other : κ} (same : sharding.shardOf other = sharding.shardOf key) :
    shared.flightOf sharding other = (shared.shard sharding key).inflight.lookup other := by
  rw [Shared.flightOf, Shared.shard, Shared.shard, same]

theorem flightOf_erase (shared : Shared κ α ε) (key gone other : κ) :
    (shared.withShard sharding key { shared.shard sharding key with
        inflight := (shared.shard sharding key).inflight.erase gone }).flightOf sharding other =
      if other = gone ∧ sharding.shardOf gone = sharding.shardOf key then none
      else shared.flightOf sharding other := by
  rw [flightOf_withShard]
  by_cases same : sharding.shardOf other = sharding.shardOf key
  · rw [if_pos same, flightOf_of_sameShard same]
    by_cases isGone : other = gone
    · subst isGone
      rw [if_pos ⟨rfl, same⟩, AList.lookup_erase]
    · rw [if_neg fun both => isGone both.1, AList.lookup_erase_ne isGone]
  · grind

theorem flightOf_register (sharding : Sharding κ) (shared : Shared κ α ε) (key other : κ) :
    ((shared.register sharding key).release sharding key).flightOf sharding other =
      if other = key then some ⟨shared.cache.nextFlightId, shared.fetches.length⟩
      else shared.flightOf sharding other := by
  rw [flightOf_release, Shared.register]
  refine (flightOf_withShard ..).trans ?_
  by_cases isKey : other = key
  · subst isKey
    rw [if_pos rfl, if_pos rfl, AList.lookup_insert]
  · rw [if_neg isKey, AList.lookup_insert_ne isKey]
    split
    next same => exact (flightOf_of_sameShard same).symm
    next => rfl

end Views

section Soundness

variable [DecidableEq κ]

/-- The flight is that of a fetch of the key. -/
def Shared.Names (shared : Shared κ α ε) (key : κ) (flight : Flight) : Prop :=
  flight.id = flight.fetch % wordCount ∧
    ∃ fetch, shared.fetches[flight.fetch]? = some fetch ∧ fetch.key = key

/-- What a call knows at its point. -/
def Fits (sharding : Sharding κ) (shared : Shared κ α ε) : Point κ α ε → Prop
  | .awaiting key place id => shared.Names key ⟨id, place⟩
  | .ready key place id => shared.Names key ⟨id, place⟩
  | .completing key id result =>
    ∃ place fetch, id = place % wordCount ∧ shared.fetches[place]? = some fetch ∧
      fetch.key = key ∧ fetch.result = some result
  | .record key id result =>
    ∃ place fetch, id = place % wordCount ∧ shared.fetches[place]? = some fetch ∧
      fetch.key = key ∧ fetch.result = some result
  | .free key result =>
    ∃ flight fetch, shared.flightOf sharding key = some flight ∧
      shared.fetches[flight.fetch]? = some fetch ∧ fetch.result = some result
  | .slowGet key _ => Missed key
  | .startSweep key _ => Missed key
  | .sweep key _ _ => Missed key
  | .sweepFailures key _ => Missed key
  | .insert key => Missed key
  | _ => True
where
  /-- Nobody holds the flight of the key. -/
  Missed (key : κ) : Prop :=
    ∀ flight, shared.flightOf sharding key = some flight → shared.handlesOf flight.fetch = 0

/-- The table lists the fetches that run, and names a fetch of the key for each flight. -/
structure Tabled (sharding : Sharding κ) (shared : Shared κ α ε) : Prop where
  listed : ∀ (place : Nat) (fetch : Fetch κ α ε), shared.fetches[place]? = some fetch →
    fetch.IsRunning → shared.flightOf sharding fetch.key = some ⟨place % wordCount, place⟩
  named : ∀ key flight, shared.flightOf sharding key = some flight → shared.Names key flight
  numbered : shared.fetches.length ≤ wordCount ∧
    shared.cache.nextFlightId = shared.fetches.length % wordCount

structure Sound (sharding : Sharding κ) (pool : Pool (Shared κ α ε) (Point κ α ε)) : Prop extends
    Tabled sharding pool.shared where
  exclusive : ∀ shard, pool.calls.countP (Point.inSection sharding shard) ≤
    (pool.shared.isLocked shard).toNat
  counted : ∀ place, pool.shared.handlesOf place = pool.calls.countP (Point.holds place)
  fits : ∀ point ∈ pool.calls, Fits sharding pool.shared point

structure Frame (sharding : Sharding κ) (shared shared' : Shared κ α ε)
    (point point' : Point κ α ε) : Prop where
  grows : ∀ (place : Nat) (fetch : Fetch κ α ε), shared.fetches[place]? = some fetch →
    ∃ fetch', shared'.fetches[place]? = some fetch' ∧ fetch.GrowsTo fetch'
  slots : ∀ key, point.inSection sharding (sharding.shardOf key).val = false →
    shared'.flightOf sharding key = shared.flightOf sharding key
  locks : Locks sharding shared shared' point point'
  handles : ∀ place, shared'.handlesOf place + (point.holds place).toNat =
    shared.handlesOf place + (point'.holds place).toNat

variable {sharding : Sharding κ} {shared shared' : Shared κ α ε} {point point' : Point κ α ε}
  {before after : List (Point κ α ε)}

theorem Frame.fits (frame : Frame sharding shared shared' point point')
    (sound : Sound sharding ⟨shared, before ++ point :: after⟩) {other : Point κ α ε}
    (beside : other ∈ before ++ after) (fits : Fits sharding shared other) :
    Fits sharding shared' other := by
  have sameSlot : ∀ key, other.lockedFor = some key →
      shared'.flightOf sharding key = shared.flightOf sharding key := by
    intro key isLocked
    have inside : other.inSection sharding (sharding.shardOf key).val = true := by
      simp [Point.inSection, isLocked]
    refine frame.slots key (Bool.eq_false_iff.mpr fun moving => ?_)
    have outside := not_beside
      ((sound.exclusive (sharding.shardOf key).val).trans (Bool.toNat_le _)) moving beside
    simp [inside] at outside
  have missed : ∀ key, other.lockedFor = some key → Fits.Missed sharding shared key →
      Fits.Missed sharding shared' key := by
    intro key isLocked missed flight isFlight
    rw [sameSlot key isLocked] at isFlight
    obtain ⟨_, fetch, isFetch, _⟩ := sound.named key flight isFlight
    obtain ⟨fetch', isFetch', growth⟩ := frame.grows _ fetch isFetch
    have nobody := missed flight isFlight
    rw [handlesOf_eq isFetch] at nobody
    rw [handlesOf_eq isFetch', growth.dead nobody]
  cases other with
  | awaiting key place id | ready key place id =>
    obtain ⟨isId, fetch, isFetch, isKey⟩ := fits
    obtain ⟨fetch', isFetch', growth⟩ := frame.grows _ fetch isFetch
    exact ⟨isId, fetch', isFetch', growth.sameKey.trans isKey⟩
  | completing key id result | record key id result =>
    obtain ⟨place, fetch, isId, isFetch, isKey, isResult⟩ := fits
    obtain ⟨fetch', isFetch', growth⟩ := frame.grows _ fetch isFetch
    exact ⟨place, fetch', isId, isFetch', growth.sameKey.trans isKey, growth.sameResult _ isResult⟩
  | free key result =>
    obtain ⟨flight, fetch, isFlight, isFetch, isResult⟩ := fits
    obtain ⟨fetch', isFetch', growth⟩ := frame.grows _ fetch isFetch
    exact ⟨flight, fetch', (sameSlot key rfl).trans isFlight, isFetch',
      growth.sameResult _ isResult⟩
  | slowGet key _ | startSweep key _ | sweep key _ _ | sweepFailures key _ | insert key =>
    exact missed key rfl fits
  | _ => trivial

/-- A move keeps the invariant when it keeps its frame and the table, and the call knows
what belongs to its new point. -/
theorem Sound.move (sound : Sound sharding ⟨shared, before ++ point :: after⟩)
    (frame : Frame sharding shared shared' point point') (tabled : Tabled sharding shared')
    (fits : Fits sharding shared' point') :
    Sound sharding ⟨shared', before ++ point' :: after⟩ := by
  constructor
  · exact tabled
  · intro shard
    have atMost := sound.exclusive shard
    have step := frame.locks shard
    simp only [countP_beside] at atMost ⊢
    omega
  · intro place
    have count := sound.counted place
    have step := frame.handles place
    simp only [countP_beside] at count ⊢
    omega
  · intro other member
    rcases mem_move.mp member with rfl | beside
    · exact fits
    · exact frame.fits sound beside (sound.fits other (mem_move.mpr (Or.inr beside)))

section Table

variable (sound : Sound sharding ⟨shared, before ++ point :: after⟩)
  (sameFetches : shared'.fetches = shared.fetches)
  (sameId : shared'.cache.nextFlightId = shared.cache.nextFlightId)
  (locks : Locks sharding shared shared' point point')
  (sameHandles : ∀ place, point'.holds place = point.holds place)
  (fits : Fits sharding shared' point')

include sound sameFetches sameId locks sameHandles fits

/-- The table may lose the flight of a fetch that does not run, under its lock. -/
theorem Sound.shrink
    (isFlight : ∀ key, shared'.flightOf sharding key = shared.flightOf sharding key ∨
      shared'.flightOf sharding key = none ∧
        point.inSection sharding (sharding.shardOf key).val = true ∧
        ∀ flight fetch, shared.flightOf sharding key = some flight →
          shared.fetches[flight.fetch]? = some fetch → ¬ fetch.IsRunning) :
    Sound sharding ⟨shared', before ++ point' :: after⟩ := by
  refine sound.move ⟨?_, ?_, locks, ?_⟩ ⟨?_, ?_, ?_⟩ fits
  · intro place fetch isFetch
    exact ⟨fetch, by rw [sameFetches, isFetch], .refl fetch⟩
  · grind
  · intro place
    rw [sameHandles, Shared.handlesOf, Shared.handlesOf, sameFetches]
  · intro place fetch isFetch running
    rw [sameFetches] at isFetch
    have isListed := sound.listed place fetch isFetch running
    rcases isFlight fetch.key with same | gone
    · rw [same, isListed]
    · exact absurd running (gone.2.2 _ fetch isListed isFetch)
  · intro key flight found
    rcases isFlight key with same | gone
    · rw [Shared.Names, sameFetches]
      exact sound.named key flight (same ▸ found)
    · simp [gone.1] at found
  · rw [sameFetches, sameId]
    exact sound.numbered

theorem Sound.quiet
    (sameFlights : ∀ key, shared'.flightOf sharding key = shared.flightOf sharding key) :
    Sound sharding ⟨shared', before ++ point' :: after⟩ :=
  sound.shrink sameFetches sameId locks sameHandles fits fun key => .inl (sameFlights key)

theorem Sound.erase (key gone : κ)
    (isFlight : ∀ other, shared'.flightOf sharding other =
      if other = gone ∧ sharding.shardOf gone = sharding.shardOf key then none
      else shared.flightOf sharding other)
    (isFor : point.lockedFor = some key)
    (stopped : ∀ flight fetch, sharding.shardOf gone = sharding.shardOf key →
      shared.flightOf sharding gone = some flight →
      shared.fetches[flight.fetch]? = some fetch → ¬ fetch.IsRunning) :
    Sound sharding ⟨shared', before ++ point' :: after⟩ := by
  refine sound.shrink sameFetches sameId locks sameHandles fits fun other => ?_
  rw [isFlight]
  split
  next both =>
    refine .inr ⟨rfl, by simp [Point.inSection, isFor, both], fun flight fetch isOther => ?_⟩
    exact stopped flight fetch both.2 (both.1 ▸ isOther)
  next => exact .inl rfl

end Table

variable {place : Nat}

theorem Sound.touch (sound : Sound sharding ⟨shared, before ++ point :: after⟩)
    {change : Fetch κ α ε → Fetch κ α ε}
    (isFetches : shared'.fetches = shared.fetches.modify place change)
    (sameId : shared'.cache.nextFlightId = shared.cache.nextFlightId)
    (sameFlights : ∀ key, shared'.flightOf sharding key = shared.flightOf sharding key)
    (growth : ∀ fetch, shared.fetches[place]? = some fetch → fetch.GrowsTo (change fetch))
    (stops : ∀ fetch, shared.fetches[place]? = some fetch → (change fetch).IsRunning →
      fetch.IsRunning)
    (locks : Locks sharding shared shared' point point')
    (handles : ∀ place, shared'.handlesOf place + (point.holds place).toNat =
      shared.handlesOf place + (point'.holds place).toNat)
    (fits : Fits sharding shared' point') :
    Sound sharding ⟨shared', before ++ point' :: after⟩ := by
  have isFetch : ∀ other, shared'.fetches[other]? =
      (shared.fetches[other]?).map fun fetch => if place = other then change fetch else fetch := by
    intro other
    rw [isFetches, List.getElem?_modify]
    rfl
  have grown : ∀ (other : Nat) (fetch : Fetch κ α ε), shared.fetches[other]? = some fetch →
      ∃ fetch', shared'.fetches[other]? = some fetch' ∧ fetch.GrowsTo fetch' := by
    intro other fetch found
    refine ⟨if place = other then change fetch else fetch, by rw [isFetch, found]; rfl, ?_⟩
    split
    next same => exact growth fetch (same ▸ found)
    next => exact .refl fetch
  refine sound.move ⟨grown, fun key _ => sameFlights key, locks, handles⟩ ⟨?_, ?_, ?_⟩ fits
  · intro other fetch' found' running
    rw [isFetch] at found'
    obtain ⟨fetch, found, rfl⟩ := Option.map_eq_some_iff.mp found'
    have was : fetch.IsRunning := by grind
    have sameKey : (if place = other then change fetch else fetch).key = fetch.key := by
      split
      next same => exact (growth fetch (same ▸ found)).sameKey
      next => rfl
    rw [sameFlights, sameKey]
    exact sound.listed other fetch found was
  · intro key flight isFlight
    obtain ⟨isId, fetch, found, isKey⟩ := sound.named key flight (sameFlights key ▸ isFlight)
    obtain ⟨fetch', found', growth⟩ := grown _ fetch found
    exact ⟨isId, fetch', found', growth.sameKey.trans isKey⟩
  · rw [isFetches, length_modify, sameId]
    exact sound.numbered

variable {key : κ}

theorem Sound.insert (sound : Sound sharding ⟨shared, before ++ .insert key :: after⟩)
    (hasRoom : shared.fetches.length < wordCount) :
    Sound sharding ⟨(shared.register sharding key).release sharding key,
      before ++ .awaiting key shared.fetches.length shared.cache.nextFlightId :: after⟩ := by
  have isFetches : ((shared.register sharding key).release sharding key).fetches =
      shared.fetches ++ [⟨key, none, 1⟩] := rfl
  have isId : shared.cache.nextFlightId = shared.fetches.length % wordCount := sound.numbered.2
  have isFlight := flightOf_register sharding shared key
  have missed : Fits.Missed sharding shared key :=
    sound.fits (.insert key) mem_moving
  have grown : ∀ (place : Nat) (fetch : Fetch κ α ε), shared.fetches[place]? = some fetch →
      (shared.fetches ++ [(⟨key, none, 1⟩ : Fetch κ α ε)])[place]? = some fetch := by
    intro place fetch found
    rw [List.getElem?_append_left (List.getElem?_eq_some_iff.mp found).1, found]
  refine sound.move ⟨?_, ?_, ?_, ?_⟩ ⟨?_, ?_, ?_⟩ ?_
  · intro place fetch found
    exact ⟨fetch, grown place fetch found, .refl fetch⟩
  · intro other outside
    rw [isFlight]
    refine if_neg fun isKey => ?_
    simp [Point.inSection, Point.lockedFor, isKey] at outside
  · refine locks_release rfl rfl fun shard other => ?_
    rw [isLocked_release other, Shared.register]
    exact isLocked_withShard_same (by rfl) shard
  · intro place
    have isHandles : ((shared.register sharding key).release sharding key).handlesOf place =
        shared.handlesOf place + (decide (shared.fetches.length = place)).toNat := by
      rw [Shared.handlesOf, Shared.handlesOf, isFetches]
      rcases lt_trichotomy place shared.fetches.length with isOld | isNew | isNone
      · rw [List.getElem?_append_left isOld]
        simp [Nat.ne_of_gt isOld]
      · simp [isNew]
      · have notPlace : shared.fetches.length ≠ place := Nat.ne_of_lt isNone
        grind
    rw [isHandles]
    rfl
  · intro place fetch found running
    rw [isFetches] at found
    rw [isFlight]
    rcases getElem?_concat_cases found with isOld | ⟨rfl, rfl⟩
    · have isListed := sound.listed place fetch isOld running
      rw [if_neg, isListed]
      intro isKey
      have nobody := missed _ (isKey ▸ isListed)
      rw [handlesOf_eq isOld] at nobody
      exact Nat.ne_of_gt running.2 nobody
    · rw [if_pos rfl, isId]
  · intro other flight found
    rw [isFlight] at found
    split at found
    next isKey =>
      cases found
      exact ⟨isId, _, by rw [isFetches, List.getElem?_concat_length], isKey.symm⟩
    next =>
      obtain ⟨isFlightId, fetch, isFetch, isKey⟩ := sound.named other flight found
      exact ⟨isFlightId, fetch, grown _ fetch isFetch, isKey⟩
  · rw [isFetches, length_append]
    refine ⟨hasRoom, ?_⟩
    change wrappingAdd shared.cache.nextFlightId 1 = _
    rw [isId, wrappingAdd, Nat.mod_add_mod]
    rfl
  · exact ⟨isId, _, by rw [isFetches, List.getElem?_concat_length], rfl⟩

omit [DecidableEq κ] in
theorem handlesOf_modify {change : Fetch κ α ε → Fetch κ α ε}
    (isFetches : shared'.fetches = shared.fetches.modify place change) {fetch : Fetch κ α ε}
    (isFetch : shared.fetches[place]? = some fetch) (other : Nat) :
    shared'.handlesOf other =
      if place = other then (change fetch).handles else shared.handlesOf other := by
  rw [Shared.handlesOf, isFetches, List.getElem?_modify]
  split
  next same =>
    rw [← same, isFetch]
    rfl
  next =>
    rw [Shared.handlesOf]
    simp

theorem Sound.giveBack (sound : Sound sharding ⟨shared, before ++ point :: after⟩)
    (holds : ∀ other, point.holds other = decide (place = other))
    (letGo : ∀ other, point'.holds other = false) (sameFor : point'.lockedFor = point.lockedFor)
    (fits : Fits sharding (shared.withFetches (shared.fetches.modify place Fetch.drop)) point') :
    Sound sharding ⟨shared.withFetches (shared.fetches.modify place Fetch.drop),
      before ++ point' :: after⟩ := by
  have positive : 0 < shared.handlesOf place := by
    have count := sound.counted place
    simp only [countP_beside, holds, decide_true, Bool.toNat_true] at count
    omega
  obtain ⟨fetch, isFetch, hasHandle⟩ := exists_of_handlesOf_pos positive
  refine sound.touch rfl rfl (fun _ => rfl) ?_ ?_ (locks_same sameFor fun _ => rfl) ?_ fits
  · intro fetch _
    exact ⟨rfl, fun _ same => same, fun dead => by rw [Fetch.drop, dead]⟩
  · intro fetch _ running
    exact ⟨running.1, Nat.lt_of_lt_of_le running.2 (Nat.sub_le _ _)⟩
  · intro other
    rw [handlesOf_modify rfl isFetch, holds, letGo]
    by_cases same : place = other
    · subst same
      rw [if_pos rfl, handlesOf_eq isFetch, Fetch.drop]
      simp only [decide_true, Bool.toNat_true, Bool.toNat_false]
      omega
    · simp [same]

theorem Sound.join {now : Nat} {flight : Flight}
    (sound : Sound sharding ⟨shared, before ++ .join key now :: after⟩)
    (isFlight : shared.flightOf sharding key = some flight)
    (held : 0 < shared.handlesOf flight.fetch) :
    Sound sharding
      ⟨(shared.withFetches (shared.fetches.modify flight.fetch Fetch.grab)).release sharding key,
        before ++ .awaiting key flight.fetch flight.id :: after⟩ := by
  obtain ⟨fetch, isFetch, hasHandle⟩ := exists_of_handlesOf_pos held
  obtain ⟨isId, named, isNamed, isKey⟩ := sound.named key flight isFlight
  have sameFetch : named = fetch := Option.some.inj (isNamed.symm.trans isFetch)
  refine sound.touch rfl rfl (flightOf_release key) ?_ ?_
    (locks_release rfl rfl fun shard other => isLocked_release other) ?_ ?_
  · intro other isOther
    rw [isFetch] at isOther
    cases isOther
    exact ⟨rfl, fun _ same => same, fun dead => absurd dead (Nat.ne_of_gt hasHandle)⟩
  · intro other isOther running
    rw [isFetch] at isOther
    cases isOther
    exact ⟨running.1, hasHandle⟩
  · intro other
    rw [handlesOf_modify rfl isFetch]
    by_cases same : flight.fetch = other
    · subst same
      rw [if_pos rfl, handlesOf_eq isFetch]
      simp [Point.holds, Fetch.grab]
    · simp [Point.holds, same]
  · refine ⟨isId, fetch.grab, ?_, sameFetch ▸ isKey⟩
    change (shared.fetches.modify flight.fetch Fetch.grab)[flight.fetch]? = _
    simp_all

theorem Sound.finish {id : Nat} {result : Except ε (Fetched α)}
    (sound : Sound sharding ⟨shared, before ++ .awaiting key place id :: after⟩)
    (unfinished : shared.resultOf place = none) :
    Sound sharding
      ⟨shared.withFetches (shared.fetches.modify place (Fetch.finish · result)),
        before ++ .ready key place id :: after⟩ := by
  obtain ⟨isId, fetch, isFetch, isKey⟩ :=
    sound.fits (.awaiting key place id) mem_moving
  rw [resultOf_eq isFetch] at unfinished
  refine sound.touch rfl rfl (fun _ => rfl) ?_ ?_ (locks_same rfl fun _ => rfl) ?_ ?_
  · intro other isOther
    rw [isFetch] at isOther
    cases isOther
    refine ⟨rfl, fun earlier isEarlier => ?_, fun dead => dead⟩
    simp [unfinished] at isEarlier
  · intro other _ running
    exact absurd running.1 (Option.some_ne_none result)
  · intro other
    rw [handlesOf_modify rfl isFetch]
    by_cases same : place = other
    · subst same
      rw [if_pos rfl, handlesOf_eq isFetch]
      rfl
    · rw [if_neg same]
      rfl
  · refine ⟨isId, fetch.finish result, ?_, isKey⟩
    change (shared.fetches.modify place (Fetch.finish · result))[place]? = _
    simp_all

section

variable (sound : Sound sharding ⟨shared, before ++ point :: after⟩)

include sound

theorem Sound.acquire
    (isFree : (shared.shard sharding key).locked = false) (isFor : point'.lockedFor = some key)
    (sameHandles : ∀ place, point'.holds place = point.holds place)
    (fits : Fits sharding (shared.withShard sharding key (shared.shard sharding key).lock) point') :
    Sound sharding ⟨shared.withShard sharding key (shared.shard sharding key).lock,
      before ++ point' :: after⟩ := by
  refine sound.quiet rfl rfl ?_ sameHandles fits (flightOf_withShard_same (by rfl))
  intro shard
  rw [isLocked_withShard]
  by_cases isShard : shard = (sharding.shardOf key).val
  · have free : shared.isLocked (sharding.shardOf key).val = false := isFree
    have atMost := Bool.toNat_le (point'.inSection sharding (sharding.shardOf key).val)
    rw [if_pos isShard, isShard, free]
    simp only [Shard.lock, Bool.toNat_false, Bool.toNat_true]
    omega
  · have outside : point'.inSection sharding shard = false := by
      simp [Point.inSection, isFor, Ne.symm isShard]
    rw [if_neg isShard, outside]
    simp

theorem Sound.keep
    (same : SameFlights sharding shared shared') (sameFor : point'.lockedFor = point.lockedFor)
    (sameHandles : ∀ place, point'.holds place = point.holds place)
    (fits : Fits sharding shared' point') :
    Sound sharding ⟨shared', before ++ point' :: after⟩ :=
  sound.quiet same.fetches same.id (locks_same sameFor same.locked) sameHandles fits same.flights

end

theorem Fits.Missed.congr (missed : Fits.Missed sharding shared key)
    (sameFetches : shared'.fetches = shared.fetches)
    (sameFlight : shared'.flightOf sharding key = shared.flightOf sharding key) :
    Fits.Missed sharding shared' key := by
  intro flight isFlight
  rw [Shared.handlesOf, sameFetches]
  exact missed flight (sameFlight ▸ isFlight)

/-- The id of a result is that of the flight in the table only if it is its result. -/
theorem Sound.recorded {id : Nat} {result : Except ε (Fetched α)} {flight : Flight}
    (sound : Sound sharding ⟨shared, before ++ .record key id result :: after⟩)
    (isFlight : shared.flightOf sharding key = some flight) (sameId : flight.id = id) :
    Fits sharding shared (.free key result) := by
  obtain ⟨place, fetch, isId, isFetch, _, isResult⟩ :=
    sound.fits (.record key id result) mem_moving
  obtain ⟨isFlightId, named, isNamed, _⟩ := sound.named key flight isFlight
  have below : place < wordCount :=
    Nat.lt_of_lt_of_le (List.getElem?_eq_some_iff.mp isFetch).1 sound.numbered.1
  have namedBelow : flight.fetch < wordCount :=
    Nat.lt_of_lt_of_le (List.getElem?_eq_some_iff.mp isNamed).1 sound.numbered.1
  have samePlace : flight.fetch = place := by
    rw [isFlightId, isId, Nat.mod_eq_of_lt below, Nat.mod_eq_of_lt namedBelow] at sameId
    exact sameId
  exact ⟨flight, fetch, isFlight, samePlace ▸ isFetch, isResult⟩

def HasRoom (shared : Shared κ α ε) : Point κ α ε → Prop
  | .insert _ => shared.fetches.length < wordCount
  | _ => True

theorem Sound.start {calls : List (Point κ α ε)} (sound : Sound sharding ⟨shared, calls⟩)
    (input : Input κ α) : Sound sharding ⟨shared, calls ++ [input.begin]⟩ := by
  have outside : ∀ shard, (input.begin : Point κ α ε).inSection sharding shard = false := by
    intro shard
    cases input <;> rfl
  have letGo : ∀ place, (input.begin : Point κ α ε).holds place = false := by
    intro place
    cases input <;> rfl
  constructor
  · exact sound.toTabled
  · intro shard
    have atMost := sound.exclusive shard
    simp_all
  · intro place
    have count := sound.counted place
    simp_all
  · refine forall_mem_append.mpr ⟨sound.fits, forall_mem_singleton.mpr ?_⟩
    cases input <;> trivial

theorem sound_idle (negativeTtl clock : Nat) :
    Sound sharding (idle negativeTtl clock : Pool (Shared κ α ε) (Point κ α ε)) where
  exclusive _ := Nat.zero_le _
  counted _ := rfl
  listed _ _ found := by cases found
  named _ _ found := by cases found
  numbered := ⟨Nat.zero_le _, rfl⟩
  fits := forall_mem_nil _

/-- Two fetches of a key that run are one. -/
theorem Sound.unique {pool : Pool (Shared κ α ε) (Point κ α ε)} (sound : Sound sharding pool)
    {first second : Nat} {fetch fetch' : Fetch κ α ε}
    (isFirst : pool.shared.fetches[first]? = some fetch)
    (isSecond : pool.shared.fetches[second]? = some fetch') (sameKey : fetch.key = fetch'.key)
    (runs : fetch.IsRunning) (runs' : fetch'.IsRunning) : first = second := by
  have here := sound.listed first fetch isFirst runs
  have there := sound.listed second fetch' isSecond runs'
  rw [sameKey, there] at here
  exact (congrArg Flight.fetch (Option.some.inj here)).symm

end Soundness

end Ophan.Ufo
