import Ophan.Cache.SingleFlight

/-!
# A finished fetch is not repeated

Between the end of a fetch and the moment its result is in the cache the flight
stays in the table, and a caller that finds it there joins it.  That needs a caller
that still has a handle: without one the flight looks abandoned.
-/

namespace Ophan.Ufo

universe u v w

variable {κ : Type u} {α : Type v} {ε : Type w} [DecidableEq κ]

section Effects

/-- The key for which a call has found neither a flight nor a value. -/
def Point.registers : Point κ α ε → Option κ
  | .startSweep key _ => some key
  | .sweep key _ _ => some key
  | .sweepFailures key _ => some key
  | .insert key => some key
  | _ => none

/-- The key for which a call counts on the value being cached, if a fetch of the key has
finished. -/
def Point.relies : Point κ α ε → Option κ
  | .slowGet key _ => some key
  | .free key _ => some key
  | _ => none

def KeepsResults (shared shared' : Shared κ α ε) : Prop :=
  ∀ place result, shared.resultOf place = some result → shared'.resultOf place = some result

/-- The table and the cached values are the same, and no result is lost. -/
structure Quiet (sharding : Sharding κ) (shared shared' : Shared κ α ε) : Prop where
  results : KeepsResults shared shared'
  flights : ∀ key, shared'.flightOf sharding key = shared.flightOf sharding key
  inner : shared'.cache.inner = shared.cache.inner
  clock : shared'.clock = shared.clock

/-- What a move does to the table, the results and the cache, and where it leads. -/
inductive Effect (sharding : Sharding κ) (shared : Shared κ α ε) :
    Point κ α ε → Shared κ α ε → Point κ α ε → Prop where
  | quiet {point point' : Point κ α ε} {shared' : Shared κ α ε}
      (quiet : Quiet sharding shared shared')
      (registers : ∀ key, point'.registers = some key → point.registers = some key ∨
        ∃ now, point = .slowGet key now ∧ shared.cache.getValue key shared.clock = none)
      (relies : ∀ key, point'.relies = some key →
        ∃ now, point = .join key now ∧ Fits.Missed sharding shared key) :
      Effect sharding shared point shared' point'
  | sweep {key gone : κ} {now : Nat} {rest : List κ} {flight : Flight}
      (isFlight : (shared.shard sharding key).inflight.lookup gone = some flight)
      (abandoned : shared.handlesOf flight.fetch = 0) :
      Effect sharding shared (.sweep key now (gone :: rest))
        (shared.withShard sharding key { shared.shard sharding key with
          inflight := (shared.shard sharding key).inflight.erase gone })
        (.sweep key now rest)
  | insert {key : κ} :
      Effect sharding shared (.insert key) ((shared.register sharding key).release sharding key)
        (.awaiting key shared.fetches.length shared.cache.nextFlightId)
  | write {key : κ} {id : Nat} {result : Except ε (Fetched α)} {flight : Flight}
      {written : Shared κ α ε} (isFlight : shared.flightOf sharding key = some flight)
      (sameId : flight.id = id)
      (isWritten : shared.writeResult sharding key result = some written) :
      Effect sharding shared (.record key id result) written (.free key result)
  | free {key : κ} {result : Except ε (Fetched α)} {returned : Except ε α} :
      Effect sharding shared (.free key result)
        ((shared.withShard sharding key { shared.shard sharding key with
          inflight := (shared.shard sharding key).inflight.erase key }).release sharding key)
        (.returned returned)
  | tick {now : Nat} (forward : shared.clock ≤ now) :
      Effect sharding shared (.tick now) { shared with clock := now } .done
  | evict {key : κ} :
      Effect sharding shared (.evict key)
        { shared with cache := { shared.cache with inner := shared.cache.inner.erase key } } .done
  | put {key : κ} {value : α} {ttl : Option Nat} :
      Effect sharding shared (.put key value ttl)
        { shared with cache := shared.cache.put key value ttl shared.clock } .done

variable {sharding : Sharding κ} {shared shared' : Shared κ α ε} {point point' : Point κ α ε}

omit [DecidableEq κ] in
theorem KeepsResults.refl : KeepsResults shared shared := fun _ _ same => same

omit [DecidableEq κ] in
theorem KeepsResults.modify {place : Nat} {change : Fetch κ α ε → Fetch κ α ε}
    (isFetches : shared'.fetches = shared.fetches.modify place change)
    (keeps : ∀ fetch result, shared.fetches[place]? = some fetch → fetch.result = some result →
      (change fetch).result = some result) : KeepsResults shared shared' := by
  intro other result isResult
  obtain ⟨fetch, isFetch, isResult⟩ := Option.bind_eq_some_iff.mp isResult
  rw [Shared.resultOf, isFetches, List.getElem?_modify, isFetch]
  change (if place = other then change fetch else fetch).result = some result
  split
  next same => exact keeps fetch result (same ▸ isFetch) isResult
  next => exact isResult

theorem KeepsResults.register (key : κ) :
    KeepsResults shared ((shared.register sharding key).release sharding key) := by
  intro place result isResult
  obtain ⟨fetch, isFetch, isResult⟩ := Option.bind_eq_some_iff.mp isResult
  change (shared.fetches ++ [(⟨key, none, 1⟩ : Fetch κ α ε)])[place]?.bind Fetch.result = _
  rw [List.getElem?_append_left (List.getElem?_eq_some_iff.mp isFetch).1, isFetch]
  exact isResult

theorem Quiet.refl : Quiet sharding shared shared := ⟨.refl, fun _ => rfl, rfl, rfl⟩

theorem Quiet.withShard {key : κ} {shard : Shard κ ε}
    (same : shard.inflight = (shared.shard sharding key).inflight) :
    Quiet sharding shared (shared.withShard sharding key shard) :=
  ⟨.refl, flightOf_withShard_same same, rfl, rfl⟩

theorem Quiet.release (key : κ) : Quiet sharding shared (shared.release sharding key) :=
  .withShard (by rfl)

theorem Quiet.drop (place : Nat) :
    Quiet sharding shared (shared.withFetches (shared.fetches.modify place Fetch.drop)) :=
  ⟨.modify rfl fun _ _ _ isResult => isResult, fun _ => rfl, rfl, rfl⟩

theorem Effect.still (quiet : Quiet sharding shared shared')
    (registers : point'.registers = none ∨ point'.registers = point.registers)
    (relies : point'.relies = none) : Effect sharding shared point shared' point' := by
  refine .quiet quiet (fun key isKey => ?_) (fun key isKey => ?_)
  · simp_all
  · simp [relies] at isKey

variable {before after : List (Point κ α ε)}
  (sound : Sound sharding ⟨shared, before ++ point :: after⟩)

include sound

theorem Sound.goOn (sameFor : point'.lockedFor = point.lockedFor)
    (sameHandles : ∀ place, point'.holds place = point.holds place)
    (registers : point'.registers = none ∨ point'.registers = point.registers)
    (relies : point'.relies = none) (fits : Fits sharding shared point') :
    Sound sharding ⟨shared, before ++ point' :: after⟩ ∧
      Effect sharding shared point shared point' :=
  ⟨sound.keep .refl sameFor sameHandles fits, .still .refl registers relies⟩

theorem Sound.leave {key : κ} (isFor : point.lockedFor = some key)
    (letGo : ∀ place, point.holds place = false) (result : Except ε α) :
    Sound sharding ⟨shared.release sharding key, before ++ .returned result :: after⟩ ∧
      Effect sharding shared point (shared.release sharding key) (.returned result) :=
  ⟨sound.quiet rfl rfl (locks_release isFor rfl fun _ other => isLocked_release other)
      (fun place => (letGo place).symm) trivial (flightOf_release key),
    .still (.release key) (.inl rfl) rfl⟩

omit sound

variable {key : κ} {now place id : Nat} {result : Except ε (Fetched α)}

theorem Sound.miss (sound : Sound sharding ⟨shared, before ++ .join key now :: after⟩)
    (missed : Fits.Missed sharding shared key) :
    Sound sharding ⟨shared, before ++ .slowGet key now :: after⟩ ∧
      Effect sharding shared (.join key now) shared (.slowGet key now) := by
  refine ⟨sound.keep .refl rfl (fun _ => rfl) missed,
    .quiet .refl (fun _ isKey => by cases isKey) fun other isOther => ?_⟩
  cases isOther
  exact ⟨now, rfl, missed⟩

/-- The sweep takes out an abandoned flight, and what it takes out does not run. -/
theorem Sound.sweep {gone : κ} {rest : List κ} {flight : Flight}
    (sound : Sound sharding ⟨shared, before ++ .sweep key now (gone :: rest) :: after⟩)
    (isFlight : (shared.shard sharding key).inflight.lookup gone = some flight)
    (abandoned : shared.handlesOf flight.fetch = 0) :
    Sound sharding ⟨shared.withShard sharding key { shared.shard sharding key with
      inflight := (shared.shard sharding key).inflight.erase gone },
        before ++ .sweep key now rest :: after⟩ := by
  refine sound.erase rfl rfl (locks_same rfl (isLocked_withShard_same (by rfl)))
    (fun _ => rfl) ?_ key gone (flightOf_erase shared key gone) rfl ?_
  · intro found isFound
    rw [flightOf_erase] at isFound
    split at isFound
    · cases isFound
    · exact sound.fits _ mem_moving found isFound
  · intro found fetch sameShard isFound isFetch running
    rw [flightOf_of_sameShard sameShard, isFlight] at isFound
    cases isFound
    rw [handlesOf_eq isFetch] at abandoned
    exact Nat.ne_of_gt running.2 abandoned

/-- A caller that has its result gives its handle back. -/
theorem Sound.complete (sound : Sound sharding ⟨shared, before ++ .ready key place id :: after⟩)
    (isResult : shared.resultOf place = some result) :
    Sound sharding ⟨shared.withFetches (shared.fetches.modify place Fetch.drop),
      before ++ .completing key id result :: after⟩ := by
  obtain ⟨isId, fetch, isFetch, isKey⟩ := sound.fits _ mem_moving
  refine sound.giveBack (fun _ => rfl) (fun _ => rfl) rfl ⟨place, fetch.drop, isId, ?_, isKey, ?_⟩
  · change (shared.fetches.modify place Fetch.drop)[place]? = _
    rw [List.getElem?_modify_eq, isFetch]
    rfl
  · exact resultOf_eq isFetch ▸ isResult

/-- The flight of a finished fetch leaves the table. -/
theorem Sound.free {returned : Except ε α}
    (sound : Sound sharding ⟨shared, before ++ .free key result :: after⟩) :
    Sound sharding ⟨(shared.withShard sharding key { shared.shard sharding key with
      inflight := (shared.shard sharding key).inflight.erase key }).release sharding key,
        before ++ .returned returned :: after⟩ := by
  obtain ⟨flight, fetch, isFlight, isFetch, isResult⟩ :=
    sound.fits _ mem_moving
  refine sound.erase rfl rfl ?_ (fun _ => rfl) trivial key key ?_ rfl ?_
  · refine locks_release rfl rfl fun shard other => ?_
    rw [isLocked_release other]
    exact isLocked_withShard_same (by rfl) shard
  · intro other
    rw [flightOf_release]
    exact flightOf_erase shared key key other
  · intro found fetch' _ isFound isFetch' running
    rw [isFlight] at isFound
    cases isFound
    rw [isFetch] at isFetch'
    cases isFetch'
    simp [running.1] at isResult

include sound

/-- A move keeps the invariant, and has one of the effects. -/
theorem Sound.advance {choice : Choice κ α ε}
    (moves : advance sharding shared choice point = some (shared', point'))
    (hasRoom : HasRoom shared point) :
    Sound sharding ⟨shared', before ++ point' :: after⟩ ∧
      Effect sharding shared point shared' point' := by
  have fits : Fits sharding shared point := sound.fits point mem_moving
  revert moves
  fun_cases Ufo.advance sharding shared choice point <;> intro moves <;> try cases moves
  -- before the shard is locked, and under its lock
  case case1 | case2 | case7 => exact sound.goOn rfl (fun _ => rfl) (.inl rfl) rfl trivial
  case case4 isFree | case31 isFree =>
    exact ⟨sound.acquire (by simpa using isFree) rfl (fun _ => rfl) fits,
      .still (.withShard (by rfl)) (.inl rfl) rfl⟩
  case case5 | case11 | case32 | case35 => exact sound.leave rfl (fun _ => rfl) _
  case case6 =>
    exact ⟨sound.keep (withShard_same (by rfl) (by rfl)) rfl (fun _ => rfl) trivial,
      .still (.withShard (by rfl)) (.inl rfl) rfl⟩
  case case8 isFlight held =>
    exact ⟨sound.join isFlight held, .still ⟨.modify rfl fun _ _ _ isResult => isResult,
      flightOf_release _, rfl, rfl⟩ (.inl rfl) rfl⟩
  case case9 isFlight notHeld =>
    refine sound.miss fun other isOther => ?_
    rw [Shared.flightOf, isFlight] at isOther
    cases isOther
    exact Nat.eq_zero_of_not_pos notHeld
  case case10 noFlight =>
    refine sound.miss fun other isOther => ?_
    simp [Shared.flightOf, noFlight] at isOther
  case case12 now missing =>
    refine ⟨sound.keep .refl rfl (fun _ => rfl) fits, .quiet .refl
      (fun other isOther => ?_) (fun _ isKey => by cases isKey)⟩
    cases isOther
    exact Or.inr ⟨now, rfl, missing⟩
  -- the sweeps
  case case13 | case16 | case17 | case19 | case20 | case22 =>
    exact sound.goOn rfl (fun _ => rfl) (.inr rfl) rfl fits
  case case18 isFlight notHeld =>
    have abandoned := Nat.eq_zero_of_not_pos notHeld
    exact ⟨sound.sweep isFlight abandoned, .sweep isFlight abandoned⟩
  case case21 key _ _ =>
    exact ⟨sound.keep (withShard_same (by rfl) (by rfl)) rfl (fun _ => rfl)
        (Fits.Missed.congr fits rfl (flightOf_withShard_same (by rfl) key)),
      .still (.withShard (by rfl)) (.inr rfl) rfl⟩
  case case23 => exact ⟨sound.insert hasRoom, .insert⟩
  -- the fetch
  case case24 =>
    exact ⟨sound.giveBack (fun _ => rfl) (fun _ => rfl) rfl trivial,
      .still (.drop _) (.inl rfl) rfl⟩
  case case25 | case27 => exact sound.goOn rfl (fun _ => rfl) (.inl rfl) rfl fits
  case case26 isFinished =>
    have unfinished := Option.not_isSome_iff_eq_none.mp isFinished
    refine ⟨sound.finish unfinished, .still ⟨.modify rfl fun fetch earlier isFetch isEarlier => ?_,
      fun _ => rfl, rfl, rfl⟩ (.inl rfl) rfl⟩
    simp [resultOf_eq isFetch, isEarlier] at unfinished
  case case29 =>
    obtain ⟨result, isResult, isNext⟩ := Option.map_eq_some_iff.mp moves
    cases isNext
    exact ⟨sound.complete isResult, .still (.drop _) (.inl rfl) rfl⟩
  case case33 key _ _ _ isFlight isOwn isWritten =>
    have same := writeResult_same isWritten
    refine ⟨sound.keep same rfl (fun _ => rfl) ?_, .write isFlight (not_not.mp isOwn) isWritten⟩
    obtain ⟨flight, fetch, isFlight, isFetch, isResult⟩ :=
      sound.recorded isFlight (not_not.mp isOwn)
    exact ⟨flight, fetch, (same.flights key).trans isFlight, same.fetches ▸ isFetch, isResult⟩
  case case34 =>
    refine ⟨sound.quiet rfl rfl (fun shard => ?_) (fun _ => rfl) trivial fun _ => rfl,
      .still .refl (.inl rfl) rfl⟩
    change 0 + _ ≤ _
    omega
  case case36 => exact ⟨sound.free, .free⟩
  -- what the cache does outside a call
  case case37 forward =>
    exact ⟨sound.keep ⟨rfl, rfl, fun _ => rfl, fun _ => rfl⟩ rfl (fun _ => rfl) trivial,
      .tick forward⟩
  case case39 =>
    exact ⟨sound.keep ⟨rfl, rfl, fun _ => rfl, fun _ => rfl⟩ rfl (fun _ => rfl) trivial, .evict⟩
  case case40 =>
    exact ⟨sound.keep (put_same shared _ _ _ shared.clock) rfl (fun _ => rfl) trivial, .put⟩

omit sound in
theorem Sound.step {guard : Pool (Shared κ α ε) (Point κ α ε) → Point κ α ε → Choice κ α ε → Prop}
    (hasRoom : ∀ pool point choice, guard pool point choice → HasRoom pool.shared point)
    {pool pool' : Pool (Shared κ α ε) (Point κ α ε)} (sound : Sound sharding pool)
    (step : (program sharding).Step guard pool pool') : Sound sharding pool' := by
  cases step with
  | start starts =>
    cases starts
    exact sound.start _
  | move guarded moves => exact (sound.advance moves (hasRoom _ _ _ guarded)).1

end Effects

section Settled

def Cacheable (result : Except ε (Fetched α)) : Prop :=
  ∃ value ttl, result = .ok (value, ttl) ∧ ttl ≠ some 0

def Shared.IsCached (shared : Shared κ α ε) (key : κ) : Prop :=
  ∃ stored, shared.cache.inner.lookup key = some stored ∧ stored.isExpired shared.clock = false

/-- The flight of the key has finished, and its result is to be recorded. -/
def Shared.IsPending (sharding : Sharding κ) (shared : Shared κ α ε) (key : κ) : Prop :=
  ∃ flight result, shared.flightOf sharding key = some flight ∧
    shared.resultOf flight.fetch = some result ∧ Cacheable result

/-- The value of the key does not expire and is not evicted or removed. -/
def Lasts (key : κ) (shared : Shared κ α ε) : Point κ α ε → Prop
  | .tick now => ∀ stored ∈ shared.cache.inner.lookup key,
      stored.isExpired shared.clock = false → stored.isExpired now = false
  | .evict other => other ≠ key
  | _ => True

/-- If the flight of the key has finished, a caller still has a handle of it. -/
def IsHeld (sharding : Sharding κ) (key : κ) (shared : Shared κ α ε) : Prop :=
  ∀ flight ∈ shared.flightOf sharding key,
    (shared.resultOf flight.fetch).isSome = true → 0 < shared.handlesOf flight.fetch

/-- A call that looks for the flight of the key, or sweeps it, finds it held if it has
finished. -/
def Orderly (sharding : Sharding κ) (key : κ) (shared : Shared κ α ε) : Point κ α ε → Prop
  | .join other _ => other = key → IsHeld sharding key shared
  | .sweep _ _ (other :: _) => other = key → IsHeld sharding key shared
  | _ => True

/-- After a fetch of the key has finished: its result is cached or to be recorded, and no
call starts another fetch. -/
structure Settled (sharding : Sharding κ) (key : κ) (pool : Pool (Shared κ α ε) (Point κ α ε)) :
    Prop where
  sound : Sound sharding pool
  kept : pool.shared.IsPending sharding key ∨ pool.shared.IsCached key
  nobody : ∀ point ∈ pool.calls, point.registers ≠ some key
  relied : ∀ point ∈ pool.calls, point.relies = some key → pool.shared.IsCached key

variable {sharding : Sharding κ} {shared shared' : Shared κ α ε} {point point' : Point κ α ε}
  {before after : List (Point κ α ε)} {key : κ}

theorem isCached_put {other : κ} {value : α} {ttl : Option Nat}
    (cached : shared.IsCached key ∨ other = key ∧ ttl ≠ some 0) :
    ({ shared with cache := shared.cache.put other value ttl shared.clock } :
      Shared κ α ε).IsCached key := by
  by_cases isZero : ttl = some 0
  · have same : shared.cache.put other value ttl shared.clock = shared.cache := if_pos isZero
    simp_all
  · have isPut : shared.cache.put other value ttl shared.clock =
        { shared.cache with
          inner := shared.cache.inner.insert other
            ⟨value, ttl.bind (addDuration shared.clock)⟩ } := if_neg isZero
    rw [isPut]
    by_cases isKey : other = key
    · subst isKey
      refine ⟨_, AList.lookup_insert _, ?_⟩
      rw [Stored.isExpired, Option.any_eq_false]
      intro expireOn isExpireOn
      obtain ⟨duration, isTtl, isSum⟩ := Option.bind_eq_some_iff.mp isExpireOn
      obtain ⟨_, isSum⟩ := Option.ite_none_right_eq_some.mp isSum
      have positive : duration ≠ 0 := fun isNull => isZero (isNull ▸ isTtl)
      simp only [Option.some.injEq] at isSum
      rw [decide_eq_false_iff_not]
      change ¬ expireOn ≤ shared.clock
      omega
    · obtain ⟨stored, isStored, live⟩ := cached.resolve_right fun both => isKey both.1
      exact ⟨stored, (AList.lookup_insert_ne (Ne.symm isKey)).trans isStored, live⟩

theorem isCached_congr (cached : shared.IsCached key)
    (inner : shared'.cache.inner = shared.cache.inner) (clock : shared'.clock = shared.clock) :
    shared'.IsCached key := by
  obtain ⟨stored, isStored, live⟩ := cached
  exact ⟨stored, inner ▸ isStored, clock ▸ live⟩

/-- What is written keeps the key cached, and a cacheable result of the key is cached. -/
theorem isCached_writeResult {other : κ} {result : Except ε (Fetched α)} {written : Shared κ α ε}
    (isWritten : shared.writeResult sharding other result = some written)
    (cached : shared.IsCached key ∨ other = key ∧ Cacheable result) : written.IsCached key := by
  cases result with
  | ok fetched =>
    cases isWritten
    refine isCached_put (cached.imp_right fun both => ⟨both.1, ?_⟩)
    obtain ⟨value, ttl, isResult, notZero⟩ := both.2
    cases isResult
    exact notZero
  | error error =>
    have before : shared.IsCached key := cached.resolve_right fun both => by
      obtain ⟨_, _, isResult, _⟩ := both.2
      cases isResult
    rw [Shared.writeResult] at isWritten
    split at isWritten
    · obtain ⟨expiresAt, _, rfl⟩ := Option.map_eq_some_iff.mp isWritten
      exact isCached_congr before rfl rfl
    · simp_all

theorem not_isCached_of_getValue (missing : shared.cache.getValue key shared.clock = none) :
    ¬ shared.IsCached key := by
  rintro ⟨stored, isStored, live⟩
  rw [MemoryCache.getValue, isStored] at missing
  simp [live] at missing

theorem not_isPending_of_missed (missed : Fits.Missed sharding shared key)
    (held : IsHeld sharding key shared) : ¬ shared.IsPending sharding key := by
  rintro ⟨flight, result, isFlight, isResult, _⟩
  have positive := held flight isFlight (isResult ▸ rfl)
  exact Nat.ne_of_gt positive (missed flight isFlight)

theorem isPending_congr (pending : shared.IsPending sharding key)
    (results : KeepsResults shared shared')
    (sameFlight : shared'.flightOf sharding key = shared.flightOf sharding key) :
    shared'.IsPending sharding key := by
  obtain ⟨flight, result, isFlight, isResult, cacheable⟩ := pending
  exact ⟨flight, result, sameFlight.trans isFlight, results _ _ isResult, cacheable⟩

section

variable (effect : Effect sharding shared point shared' point')

include effect

/-- A cached value stays under the conditions of its lasting. -/
theorem isCached_effect
    (cached : shared.IsCached key) (lasts : Lasts key shared point) : shared'.IsCached key := by
  cases effect with
  | quiet quiet registers relies => exact isCached_congr cached quiet.inner quiet.clock
  | sweep | insert | free => exact isCached_congr cached rfl rfl
  | write isFlight sameId isWritten => exact isCached_writeResult isWritten (Or.inl cached)
  | tick forward =>
    obtain ⟨stored, isStored, live⟩ := cached
    exact ⟨stored, isStored, lasts stored isStored live⟩
  | evict =>
    obtain ⟨stored, isStored, live⟩ := cached
    exact ⟨stored, (AList.lookup_erase_ne (Ne.symm lasts)).trans isStored, live⟩
  | put => exact isCached_put (Or.inl cached)

/-- A result that is to be recorded stays so until it is cached. -/
theorem isPending_effect
    (pending : shared.IsPending sharding key) (orderly : Orderly sharding key shared point)
    (nobody : point.registers ≠ some key) (relied : point.relies = some key → shared.IsCached key) :
    shared'.IsPending sharding key ∨ shared.IsCached key := by
  cases effect with
  | quiet quiet registers relies =>
    exact Or.inl (isPending_congr pending quiet.results (quiet.flights key))
  | @sweep other gone now rest flight isFlight abandoned =>
    refine Or.inl (isPending_congr pending .refl ?_)
    rw [flightOf_erase]
    refine if_neg fun both => ?_
    have held : IsHeld sharding key shared := orderly both.1.symm
    refine not_isPending_of_missed (fun found isFound => ?_) held pending
    rw [both.1, flightOf_of_sameShard both.2, isFlight] at isFound
    cases isFound
    exact abandoned
  | @insert other =>
    refine Or.inl (isPending_congr pending (.register other) ?_)
    rw [flightOf_register]
    exact if_neg fun isKey => nobody (congrArg some isKey.symm)
  | write isFlight sameId isWritten =>
    have same := writeResult_same isWritten
    refine Or.inl (isPending_congr pending (fun place result isResult => ?_) (same.flights key))
    rw [Shared.resultOf, same.fetches]
    exact isResult
  | @free other result returned =>
    by_cases isKey : other = key
    · exact Or.inr (relied (congrArg some isKey))
    · refine Or.inl (isPending_congr pending .refl ?_)
      rw [flightOf_release, flightOf_erase]
      exact if_neg fun both => isKey both.1.symm
  | tick | evict => exact Or.inl (isPending_congr pending .refl rfl)
  | @put other value ttl =>
    exact Or.inl (isPending_congr pending .refl
      ((put_same shared other value ttl shared.clock).flights key))

/-- A call that comes to rely on the cached value, or to register, does so rightly. -/
theorem relies_effect (settled : Settled sharding key ⟨shared, before ++ point :: after⟩)
    (orderly : Orderly sharding key shared point) (relies : point'.relies = some key)
    (cached : shared.IsCached key → shared'.IsCached key) : shared'.IsCached key := by
  cases effect with
  | quiet quiet registers relied =>
    obtain ⟨now, rfl, missed⟩ := relied key relies
    have held : IsHeld sharding key shared := orderly rfl
    exact cached (settled.kept.resolve_left (not_isPending_of_missed missed held))
  | @write other id result flight written isFlight sameId isWritten =>
    cases relies
    refine isCached_writeResult isWritten (settled.kept.symm.imp_right fun pending => ⟨rfl, ?_⟩)
    obtain ⟨found, recorded, isFound, isRecorded, cacheable⟩ := pending
    obtain ⟨flight', fetch, isFlight', isFetch, isResult⟩ := settled.sound.recorded isFlight sameId
    rw [isFound] at isFlight'
    cases isFlight'
    rw [resultOf_eq isFetch, isResult] at isRecorded
    cases isRecorded
    exact cacheable
  | sweep | insert | free | tick | evict | put => cases relies

theorem registers_effect (nobody : point.registers ≠ some key)
    (relied : point.relies = some key → shared.IsCached key) : point'.registers ≠ some key := by
  intro registers
  cases effect with
  | quiet quiet registered relies =>
    rcases registered key registers with earlier | ⟨now, rfl, missing⟩
    · exact nobody earlier
    · exact not_isCached_of_getValue missing (relied rfl)
  | sweep isFlight abandoned => exact nobody registers
  | insert | write | free | tick | evict | put => cases registers

end

theorem Settled.advance {choice : Choice κ α ε}
    (settled : Settled sharding key ⟨shared, before ++ point :: after⟩)
    (moves : advance sharding shared choice point = some (shared', point'))
    (hasRoom : HasRoom shared point) (lasts : Lasts key shared point)
    (orderly : Orderly sharding key shared point) :
    Settled sharding key ⟨shared', before ++ point' :: after⟩ := by
  obtain ⟨sound, effect⟩ := settled.sound.advance moves hasRoom
  have moving : point ∈ before ++ point :: after := mem_moving
  have nobody := settled.nobody point moving
  have relied := settled.relied point moving
  have cached : shared.IsCached key → shared'.IsCached key := fun cached =>
    isCached_effect effect cached lasts
  constructor
  · exact sound
  · rcases settled.kept with pending | isCached
    · exact (isPending_effect effect pending orderly nobody relied).imp_right cached
    · exact Or.inr (cached isCached)
  · intro other member
    rcases mem_beside member with rfl | there
    · exact registers_effect effect nobody relied
    · exact settled.nobody other there
  · intro other member relies
    rcases mem_beside member with rfl | there
    · exact relies_effect effect settled orderly relies cached
    · exact cached (settled.relied other there relies)

/-- A poll finishes a fetch of the key with a result that the cache keeps. -/
inductive Finishes (sharding : Sharding κ) (key : κ) :
    Pool (Shared κ α ε) (Point κ α ε) → Pool (Shared κ α ε) (Point κ α ε) → Prop where
  | intro (shared shared' : Shared κ α ε) (before after : List (Point κ α ε)) (place id : Nat)
      (result : Except ε (Fetched α)) (point' : Point κ α ε)
      (unfinished : shared.resultOf place = none) (cacheable : Cacheable result)
      (moves : advance sharding shared (.finish result) (.awaiting key place id) =
        some (shared', point')) :
      Finishes sharding key ⟨shared, before ++ .awaiting key place id :: after⟩
        ⟨shared', before ++ point' :: after⟩

inductive Starts (sharding : Sharding κ) (key : κ) :
    Pool (Shared κ α ε) (Point κ α ε) → Pool (Shared κ α ε) (Point κ α ε) → Prop where
  | intro (shared shared' : Shared κ α ε) (before after : List (Point κ α ε))
      (point' : Point κ α ε) (choice : Choice κ α ε)
      (moves : advance sharding shared choice (.insert key) = some (shared', point')) :
      Starts sharding key ⟨shared, before ++ .insert key :: after⟩
        ⟨shared', before ++ point' :: after⟩

/-- When a fetch finishes, its flight is in the table and nobody is about to replace it. -/
theorem Finishes.settled {pool pool' : Pool (Shared κ α ε) (Point κ α ε)}
    (finishes : Finishes sharding key pool pool') (sound : Sound sharding pool) :
    Settled sharding key pool' := by
  obtain ⟨shared, shared', before, after, place, id, result, point', unfinished, cacheable,
    moves⟩ := finishes
  have positive : 0 < shared.handlesOf place := by
    have count := sound.counted place
    simp only [countP_beside, Point.holds, decide_true, Bool.toNat_true] at count
    omega
  obtain ⟨_, fetch, isFetch, isKey⟩ :=
    sound.fits (.awaiting key place id) mem_moving
  have running : fetch.IsRunning :=
    ⟨resultOf_eq isFetch ▸ unfinished, handlesOf_eq isFetch ▸ positive⟩
  have isFlight : shared.flightOf sharding key = some ⟨place % wordCount, place⟩ :=
    isKey ▸ sound.listed place fetch isFetch running
  have notMissed : ¬ Fits.Missed sharding shared key := fun missed =>
    Nat.ne_of_gt positive (missed _ isFlight)
  have notFreed : ∀ result, ¬ Fits sharding shared (.free key result) := by
    rintro earlier ⟨flight, other, found, isOther, isEarlier⟩
    rw [isFlight] at found
    cases found
    rw [resultOf_eq isOther, isEarlier] at unfinished
    cases unfinished
  have sound' := (sound.advance moves trivial).1
  rw [advance, if_neg (by simp [unfinished])] at moves
  cases moves
  constructor
  · exact sound'
  · refine Or.inl ⟨_, result, isFlight, ?_, cacheable⟩
    change (shared.fetches.modify place (Fetch.finish · result))[place]?.bind Fetch.result = _
    rw [List.getElem?_modify_eq, isFetch]
    rfl
  · intro other member registers
    rcases mem_beside member with rfl | there
    · cases registers
    · have fits := sound.fits other there
      cases other <;> cases registers <;> exact notMissed fits
  · intro other member relies
    rcases mem_beside member with rfl | there
    · cases relies
    · have fits := sound.fits other there
      cases other <;> cases relies
      · exact absurd fits notMissed
      · exact absurd fits (notFreed _)

theorem Settled.start {calls : List (Point κ α ε)} (settled : Settled sharding key ⟨shared, calls⟩)
    (input : Input κ α) : Settled sharding key ⟨shared, calls ++ [input.begin]⟩ := by
  constructor
  · exact settled.sound.start input
  · exact settled.kept
  · refine List.forall_mem_append.mpr ⟨settled.nobody, List.forall_mem_singleton.mpr ?_⟩
    cases input <;> exact Option.some_ne_none key ∘ Eq.symm
  · intro point member relies
    rcases List.mem_append.mp member with earlier | isNew
    · exact settled.relied point earlier relies
    · rw [List.mem_singleton.mp isNew] at relies
      cases input <;> cases relies

theorem Settled.step {pool pool' : Pool (Shared κ α ε) (Point κ α ε)}
    (settled : Settled sharding key pool)
    (step : (program sharding).Step (fun pool point _ => HasRoom pool.shared point ∧
      Lasts key pool.shared point ∧ Orderly sharding key pool.shared point) pool pool') :
    Settled sharding key pool' := by
  cases step with
  | start starts =>
    cases starts
    exact settled.start _
  | move guarded moves => exact settled.advance moves guarded.1 guarded.2.1 guarded.2.2

end Settled

section Decide

variable {sharding : Sharding κ} {shared : Shared κ α ε} {key : κ}

instance (point : Point κ α ε) : Decidable (HasRoom shared point) := by
  unfold HasRoom
  split <;> infer_instance

instance (point : Point κ α ε) : Decidable (Lasts key shared point) := by
  unfold Lasts
  split <;> infer_instance

instance : Decidable (IsHeld sharding key shared) :=
  inferInstanceAs (Decidable (∀ flight ∈ shared.flightOf sharding key, _))

instance (point : Point κ α ε) : Decidable (Orderly sharding key shared point) := by
  unfold Orderly
  split <;> infer_instance

end Decide

section Main

variable {sharding : Sharding κ} {negativeTtl clock : Nat}

/-- At most one fetch of a key runs.  After a fetch of a key has finished with a result that
the cache keeps, no other fetch of the key starts while the value lasts, provided that
every caller that looks for the flight finds it held until it is recorded. -/
theorem single_flight {pool : Pool (Shared κ α ε) (Point κ α ε)}
    (reached : (program sharding).Run (fun pool point _ => HasRoom pool.shared point)
      (idle negativeTtl clock) pool) :
    (∀ (first second : Nat) (fetch fetch' : Fetch κ α ε),
      pool.shared.fetches[first]? = some fetch → pool.shared.fetches[second]? = some fetch' →
      fetch.key = fetch'.key → fetch.IsRunning → fetch'.IsRunning → first = second) ∧
    ∀ (key : κ) (finished later last : Pool (Shared κ α ε) (Point κ α ε)),
      Finishes sharding key pool finished →
      (program sharding).Run (fun pool point _ => HasRoom pool.shared point ∧
        Lasts key pool.shared point ∧ Orderly sharding key pool.shared point) finished later →
      ¬ Starts sharding key later last := by
  have sound : Sound sharding pool := reached.invariant
    (fun _ _ sound step => sound.step (fun _ _ _ hasRoom => hasRoom) step)
    (sound_idle negativeTtl clock)
  refine ⟨?_, ?_⟩
  · intro first second fetch fetch' isFirst isSecond sameKey runs runs'
    exact sound.unique isFirst isSecond sameKey runs runs'
  · intro key finished later last finishes undisturbed starts
    have settled : Settled sharding key later := undisturbed.invariant
      (fun _ _ settled step => settled.step step) (finishes.settled sound)
    obtain ⟨shared, shared', before, after, point', choice, moves⟩ := starts
    exact settled.nobody (.insert key) mem_moving rfl

end Main

section Race

def boarded : Pool (Shared Unit Unit Empty) (Point Unit Unit Empty) :=
  ((program (.single Unit)).play (fun pool point _ => HasRoom pool.shared point) (idle 0 0)
    (.start (.getOrFetch ()) :: List.replicate 8 (.move 0 .go))).get (by decide)

def arrived : Pool (Shared Unit Unit Empty) (Point Unit Unit Empty) :=
  ⟨boarded.shared.withFetches (boarded.shared.fetches.modify 0 (Fetch.finish · (.ok ((), none)))),
    [.ready () 0 0]⟩

theorem boarded_reached :
    (program (.single Unit)).Run (fun pool point _ => HasRoom pool.shared point)
      (idle 0 0) boarded :=
  Program.run_of_play _ (Option.some_get _).symm

theorem boarded_arrives : Finishes (.single Unit) () boarded arrived := by
  have isBoarded : boarded = ⟨boarded.shared, [] ++ .awaiting () 0 0 :: []⟩ := by
    have calls : boarded.calls = [.awaiting () 0 0] := by decide
    rw [List.nil_append, ← calls]
  have unfinished : boarded.shared.resultOf 0 = none := by decide
  rw [isBoarded]
  refine .intro boarded.shared arrived.shared [] [] 0 0 (.ok ((), none)) (.ready () 0 0)
    unfinished ⟨(), none, rfl, by decide⟩ ?_
  rw [advance, if_neg (by simp [unfinished])]
  rfl

def landed : Pool (Shared Unit Unit Empty) (Point Unit Unit Empty) :=
  ((program (.single Unit)).play (fun pool point _ => HasRoom pool.shared point ∧
      Lasts () pool.shared point ∧ Orderly (.single Unit) () pool.shared point) arrived
    (List.replicate 4 (.move 0 .go) ++ [.start (.getOrFetch ()), .move 1 .go])).get (by decide)

theorem single_flight_landed :
    boarded.calls = [.awaiting () 0 0] ∧ ¬ Starts (.single Unit) () landed landed := by
  refine ⟨by decide, ?_⟩
  exact (single_flight boarded_reached).2 () arrived landed landed boarded_arrives
    (Program.run_of_play _ (Option.some_get _).symm)

/-- The only caller has its result and has given its handle back; a second call takes the
flight for an abandoned one. -/
def overtaken : Pool (Shared Unit Unit Empty) (Point Unit Unit Empty) :=
  ((program (.single Unit)).play (fun pool point _ => HasRoom pool.shared point ∧
      Lasts () pool.shared point) arrived
    ([.move 0 .go, .start (.getOrFetch ())] ++ List.replicate 7 (.move 1 .go))).get (by decide)

/-- A fetch starts between the end of another fetch of its key and the recording of that
fetch's result. -/
theorem unrecorded_fetch_repeats :
    ∃ pool finished later last : Pool (Shared Unit Unit Empty) (Point Unit Unit Empty),
      (program (.single Unit)).Run (fun pool point _ => HasRoom pool.shared point) (idle 0 0) pool ∧
      Finishes (.single Unit) () pool finished ∧
      (program (.single Unit)).Run (fun pool point _ => HasRoom pool.shared point ∧
        Lasts () pool.shared point) finished later ∧
      Starts (.single Unit) () later last := by
  have isOvertaken : overtaken =
      ⟨overtaken.shared, [.completing () 0 (.ok ((), none))] ++ .insert () :: []⟩ := by
    have calls : overtaken.calls = [.completing () 0 (.ok ((), none)), .insert ()] := by decide
    rw [List.singleton_append, ← calls]
  have starts : Starts (.single Unit) () _ _ :=
    .intro overtaken.shared _ [.completing () 0 (.ok ((), none))] [] _ .go rfl
  rw [← isOvertaken] at starts
  exact ⟨boarded, arrived, overtaken, _, boarded_reached, boarded_arrives,
    Program.run_of_play _ (Option.some_get _).symm, starts⟩

end Race

end Ophan.Ufo
