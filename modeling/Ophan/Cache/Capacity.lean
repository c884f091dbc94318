import Ophan.Cache.Counter

/-!
# The capacity of the cache

When its calls run one after the other, a cache never holds more entries than its
capacity: a call that finds the counter at the limit evicts at least one of the
entries that it samples before it inserts its own.
-/

namespace Ophan.Ttl

open List

universe u v

variable {κ : Type u} {ν : Type v}

/-- What a call that runs alone knows of the map. -/
@[grind]
def Point.Knows (limit : Nat) (sharding : Sharding κ) (map : KeyMap κ (CacheEntry ν)) :
    Point κ ν → Prop
  | .sampleClock _ amount => 0 < amount ∧ map.len = limit
  | .sampleShard _ _ amount shard sample => 0 < amount ∧ map.len = limit ∧
      (∀ sampled ∈ sample, sampled.1 ∈ map) ∧
      (sample = [] → ∀ key ∈ map, shard ≤ (sharding.shardOf key).val)
  | .evict _ keys removed => map.len + removed = limit ∧ (removed = 0 → ∃ key ∈ keys, key ∈ map)
  | .putClock _ _ _ | .insert _ _ _ | .entry _ _ _ _ => map.len < limit
  | _ => True

structure Kept (limit : Nat) (sharding : Sharding κ) (state : Shared κ ν × Point κ ν) :
    Prop where
  capacity : state.1.cache.maxCapacity = some limit
  balance : state.2.overwrites = false →
    state.1.cache.lenCount + state.2.toAdd = state.1.cache.cache.len + state.2.toSub
  tracks : state.2.Tracks sharding state.1.cache.cache
  bounded : state.1.cache.cache.len + state.2.toSub ≤ limit
  knows : state.2.Knows limit sharding state.1.cache.cache

theorem Write.knows_resume (write : Write κ ν) (limit : Nat) (sharding : Sharding κ)
    (map : KeyMap κ (CacheEntry ν)) (room : map.len < limit) :
    write.resume.Knows limit sharding map := by
  cases write <;> exact room

theorem len_retain (map : KeyMap κ (CacheEntry ν)) (keep : κ → CacheEntry ν → Bool) :
    (map.retain keep).len ≤ map.len := length_filter_le _ _

theorem exists_keysToRemove (cache : Cache κ ν) (now : Nat) {sample : List (κ × Nat)}
    (sampled : sample ≠ []) : ∃ best ∈ sample, best.1 ∈ cache.keysToRemove now sample := by
  obtain ⟨best, isBest⟩ := Option.ne_none_iff_exists'.mp (mt Cache.closest_eq_none.mp sampled)
  obtain ⟨before, after, rfl, -⟩ := Cache.closest_eq_some.mp isBest
  unfold Cache.keysToRemove
  simp only
  split
  · exact ⟨best, by simp, by simp [isBest]⟩
  · rename_i nonempty
    obtain ⟨first, isFirst⟩ := exists_mem_of_ne_nil _ (mt isEmpty_iff.mpr nonempty)
    exact ⟨first, (mem_filter.mp isFirst).1, mem_map_of_mem isFirst⟩

theorem Kept.covers {limit : Nat} {sharding : Sharding κ} {shared : Shared κ ν} {point : Point κ ν}
    (kept : Kept limit sharding (shared, point))
    (single : point.overwrites = false) : point.subtracts ≤ shared.cache.lenCount := by
  have exactly := kept.balance single
  cases point with
  | evict write keys removed =>
    cases keys with
    | nil => exact Nat.le.intro ((Nat.add_comm _ _).trans exactly.symm)
    | cons => exact Nat.zero_le _
  | subLen => exact Nat.le.intro ((Nat.add_comm _ _).trans exactly.symm)
  | _ => exact Nat.zero_le _

variable [DecidableEq κ]

/-- One call after the other; the clock goes on at any time. -/
inductive Sequential (sharding : Sharding κ) :
    Shared κ ν × Point κ ν → Shared κ ν × Point κ ν → Prop where
  | tick {shared : Shared κ ν} {now : Nat} (point : Point κ ν) (forward : shared.clock ≤ now) :
      Sequential sharding (shared, point) ({ shared with clock := now }, point)
  | call {shared : Shared κ ν} {point first : Point κ ν} (input : Input κ ν)
      (ended : point.isOver = true) (begins : input.begin = some first) :
      Sequential sharding (shared, point) (shared, first)
  | move {shared shared' : Shared κ ν} {point point' : Point κ ν} (order : List κ)
      (moves : advance sharding shared order point = some (shared', point')) :
      Sequential sharding (shared, point) (shared', point')

section Steps

variable {sharding : Sharding κ} {limit latest : Nat} {shared shared' : Shared κ ν}
  {point point' : Point κ ν} {order : List κ} {key : κ} {entry : CacheEntry ν}
  {state state' : Shared κ ν × Point κ ν}

theorem settings_advance (moves : advance sharding shared order point = some (shared', point')) :
    shared'.cache.maxCapacity = shared.cache.maxCapacity ∧
      shared'.cache.defaultTtl = shared.cache.defaultTtl := by
  revert moves
  fun_cases advance sharding shared order point <;> intro moves <;>
    simp only [Option.some.injEq, Prod.mk.injEq, reduceCtorEq] at moves <;>
    simp [← moves.1, Cache.subLen, Cache.addLen, Cache.storeLen]

theorem sampleFrom_spec {cache : Cache κ ν} {shard : Nat} (room : Nat)
    (all : order.Perm (cache.keysIn sharding shard)) :
    (∀ sampled ∈ cache.sampleFrom order room, sampled.1 ∈ cache.cache) ∧
      (0 < room → cache.sampleFrom order room = [] →
        ∀ key ∈ cache.cache, (sharding.shardOf key).val ≠ shard) := by
  constructor
  · intro sampled member
    obtain ⟨key, -, found⟩ := mem_filterMap.mp member
    obtain ⟨entry, isEntry, rfl⟩ := Option.map_eq_some_iff.mp found
    exact AList.lookup_isSome.mp (by rw [isEntry]; rfl)
  · intro positive isNil key member inShard
    have isKey : key ∈ order := all.mem_iff.mpr (mem_filter.mpr ⟨member, by simpa using inShard⟩)
    obtain ⟨first, rest, rfl⟩ := exists_cons_of_ne_nil (ne_nil_of_mem isKey)
    obtain ⟨fewer, rfl⟩ := Nat.exists_eq_succ_of_ne_zero positive.ne'
    have isFirst : first ∈ cache.cache :=
      (mem_filter.mp (all.mem_iff.mp mem_cons_self)).1
    have found := filterMap_eq_nil_iff.mp isNil first (by simp)
    rw [Option.map_eq_none_iff, AList.lookup_eq_none] at found
    exact found isFirst

theorem knows_advance (positive : 0 < limit)
    (moves : advance sharding shared order point = some (shared', point'))
    (kept : Kept limit sharding (shared, point)) :
    shared'.cache.cache.len + point'.toSub ≤ limit ∧
      point'.Knows limit sharding shared'.cache.cache := by
  obtain ⟨capacity, balance, -, bounded, knows⟩ := kept
  simp only at capacity balance bounded knows
  cases point with
  | loadLen write =>
    have resumed := write.owesNothing_resume
    have exactly : shared.cache.lenCount = shared.cache.cache.len := balance rfl
    have room := write.knows_resume limit sharding shared.cache.cache
    grind [advance]
  | sampleClock write amount => grind [advance]
  | sampleShard write now amount shard sample =>
    obtain ⟨some, full, known, passed⟩ := knows
    simp only [advance] at moves
    split at moves
    · rename_i goes
      obtain ⟨all, isNext⟩ := Option.ite_none_right_eq_some.mp moves
      cases isNext
      obtain ⟨present, absent⟩ := sampleFrom_spec (amount - sample.length) all
      refine ⟨full.le, some, full, ?_, ?_⟩
      · grind
      · intro isNil key member
        obtain ⟨rfl, isRest⟩ := append_eq_nil_iff.mp isNil
        have isLe := passed rfl key member
        have differs := absent some isRest key member
        omega
    · rename_i ended
      cases moves
      refine ⟨full.le, full, fun _ => ?_⟩
      have sampled : sample ≠ [] := by
        rintro rfl
        obtain ⟨key, member⟩ := exists_mem_of_ne_nil shared.cache.cache.keys (by
          rw [← length_pos_iff, ← KeyMap.len_eq]
          omega)
        have isLe := passed rfl key member
        have isLt := (sharding.shardOf key).isLt
        simp only [length_nil] at ended
        omega
      obtain ⟨best, member, isKey⟩ := exists_keysToRemove shared.cache now sampled
      exact ⟨_, isKey, known best member⟩
  | evict write keys removed =>
    have room := write.knows_resume limit sharding shared.cache.cache
    have erased := len_erase shared.cache.cache
    have map := shared.cache.cache_subLen removed
    have resumed := write.owesNothing_resume
    cases keys <;> grind [advance, AList.mem_erase]
  | insert key value expiresAt | entry key value now expiresAt =>
    have inserted := len_insert shared.cache.cache key ⟨value, expiresAt⟩
    have present := AList.lookup_isSome (a := key) (s := shared.cache.cache)
    grind [advance]
  | removeExpired key | remove key =>
    have erased := len_erase shared.cache.cache key
    have present := AList.lookup_isSome (a := key) (s := shared.cache.cache)
    grind [advance]
  | putClock key value ttl | setNxClock key value ttl | lookup key => grind [advance]
  | addLen answer | subLen answer | storeLen total =>
    have added := shared.cache.cache_addLen 1
    have subtracted := shared.cache.cache_subLen 1
    have stored := shared.cache.cache_storeLen
    grind [advance]
  | purgeClock | purgeShard now shard | lenShard shard total | clearShard shard =>
    have fewer := len_retain shared.cache.cache
    grind [advance]
  | returned answer | panicked => cases moves

theorem Kept.step (positive : 0 < limit) (fits : limit < wordCount)
    (kept : Kept limit sharding state) (step : Sequential sharding state state') :
    Kept limit sharding state' := by
  cases step with
  | tick point forward => exact { kept with }
  | call input ended begins =>
    obtain ⟨noAddition, noSubtraction, single⟩ := Point.owesNothing_of_over ended
    have exactly := kept.balance single
    have isLe := kept.bounded
    obtain ⟨adds, subtracts, tracks⟩ := Point.tracks_begin begins sharding _
    refine ⟨kept.capacity, fun _ => ?_, tracks, ?_, ?_⟩
    · simp only [adds, subtracts, noAddition, noSubtraction] at exactly ⊢
      exact exactly
    · simp only [subtracts, noSubtraction] at isLe ⊢
      exact isLe
    · cases input <;> cases begins <;> trivial
  | move order moves =>
    rename_i shared shared' point point'
    obtain ⟨bounded, knows⟩ := knows_advance positive moves kept
    have capacity := (settings_advance moves).1.trans kept.capacity
    by_cases pass : point.overwrites = true
    · rcases tracks_advance moves pass kept.tracks with ⟨passes, tracks⟩ | ⟨rfl, exactly⟩
      · exact ⟨capacity, fun single => by simp [passes] at single, tracks, bounded, knows⟩
      · exact ⟨capacity, fun _ => exactly, trivial, bounded, knows⟩
    · have single : point.overwrites = false := Bool.eq_false_iff.mpr pass
      have balance := kept.balance single
      have isLe := kept.bounded
      simp only at balance isLe
      obtain ⟨still, same⟩ := balance_advance moves single (kept.covers single) (by omega)
      exact ⟨capacity, fun _ => by simp only; omega, Point.tracks_of_single still _, bounded, knows⟩

/-- A call has read no time that is still to come, and removes what it found expired. -/
def Timely (state : Shared κ ν × Point κ ν) : Prop :=
  state.2.readAt ≤ state.1.clock ∧ ∀ key, state.2 = .removeExpired key → IsStale state.1 key

theorem Timely.step (timely : Timely state) (step : Sequential sharding state state') :
    Timely state' := by
  cases step with
  | tick point forward =>
    refine ⟨timely.1.trans forward, fun key isPoint entry isEntry => ?_⟩
    have expired := timely.2 key isPoint entry isEntry
    rw [CacheEntry.isExpired_iff] at expired ⊢
    exact expired.trans forward
  | call input ended begins =>
    refine ⟨(readAt_begin begins).le.trans (Nat.zero_le _), fun key isPoint => ?_⟩
    cases isPoint
    cases input <;> cases begins
  | move order moves =>
    rename_i shared shared' point point'
    refine ⟨(readAt_advance moves timely.1).trans (advance_change moves).1.ge, ?_⟩
    rintro key rfl
    have resumes (write : Write κ ν) : write.resume ≠ .removeExpired key := by
      cases write <;> nofun
    cases point with
    | evict write keys removed => cases keys <;> grind [advance]
    | _ => grind [advance, IsStale]

/-- A step that neither takes a live entry of the key away nor puts another. -/
def Sparing (sharding : Sharding κ) (key : κ) (state state' : Shared κ ν × Point κ ν) : Prop :=
  Sequential sharding state state' ∧ Spares sharding key state.1 state.2 ∧
    ∀ value later, state.2 ≠ .insert key value later

/-- The entry is where it was put, or its time is over. -/
def Holding (key : κ) (entry : CacheEntry ν) (state : Shared κ ν × Point κ ν) : Prop :=
  Timely state ∧
    (entry.expiresAt ≤ state.1.clock ∨ state.1.cache.cache.lookup key = some entry)

theorem Holding.step (holding : Holding key entry state)
    (sparing : Sparing sharding key state state') : Holding key entry state' := by
  obtain ⟨timely, held⟩ := holding
  obtain ⟨step, spares, noPut⟩ := sparing
  refine ⟨timely.step step, ?_⟩
  cases step with
  | tick point forward => exact held.imp_left fun past => past.trans forward
  | call => exact held
  | move order moves =>
    rename_i shared shared' point point'
    obtain ⟨sameClock, change⟩ := advance_change moves
    simp only [sameClock]
    by_cases live : entry.isExpired shared.clock = true
    · exact Or.inl (CacheEntry.isExpired_iff.mp live)
    have found := held.resolve_left (mt CacheEntry.isExpired_iff.mpr live)
    refine Or.inr ((change.lookup_live found live timely.1 spares (timely.2 key)).resolve_right ?_)
    simp_all

theorem Holding.run (holding : Holding key entry state)
    (spared : Relation.ReflTransGen (Sparing sharding key) state state') :
    Holding key entry state' := by
  induction spared with
  | refl => exact holding
  | tail _ sparing ih => exact ih.step sparing

theorem Timely.alone (timely : Timely state) (alone : Alone sharding latest state state') :
    Timely state' := by
  obtain ⟨order, moves, forward, -⟩ := alone
  rename_i shared shared' point point' now
  have moved : Timely (shared', point') := timely.step (.move order moves)
  have passes : Sequential sharding (shared', point') ({ shared' with clock := now }, point') :=
    .tick point' ((advance_change moves).1.le.trans forward)
  exact moved.step passes

/-- A `put` that began at the given time, up to the entry that it leaves. -/
def Putting (key : κ) (value : ν) (ttl : Option Nat) (defaultTtl since latest : Nat)
    (state : Shared κ ν × Point κ ν) : Prop :=
  Timely state ∧ since ≤ state.1.clock ∧ state.1.clock ≤ latest ∧
    state.1.cache.defaultTtl = defaultTtl ∧
    match state.2 with
    | .loadLen write | .sampleClock write _ | .sampleShard write _ _ _ _ | .evict write _ _ =>
      write = .put key value ttl
    | .putClock other stored asked => other = key ∧ stored = value ∧ asked = ttl
    | .insert other stored expiresAt => other = key ∧ stored = value ∧
        ∃ read, since ≤ read ∧ read ≤ state.1.clock ∧ expiresAt = read + ttl.getD defaultTtl
    | .addLen .done | .returned .done => ∃ read, since ≤ read ∧ read ≤ state.1.clock ∧
        state.1.cache.cache.lookup key = some ⟨value, read + ttl.getD defaultTtl⟩
    | _ => False

theorem Putting.step {value : ν} {ttl : Option Nat} {defaultTtl since : Nat}
    (fits : latest + ttl.getD defaultTtl ≤ lastInstant)
    (putting : Putting key value ttl defaultTtl since latest state)
    (alone : Alone sharding latest state state') :
    Putting key value ttl defaultTtl since latest state' := by
  obtain ⟨timely, began, inTime, sameTtl, putting⟩ := putting
  have timely' := timely.alone alone
  obtain ⟨order, moves, forward, inTime'⟩ := alone
  rename_i shared shared' point point' now
  refine ⟨timely', began.trans forward, inTime', (settings_advance moves).2.trans sameTtl, ?_⟩
  cases point with
  | evict write keys removed => cases keys <;> grind [advance, Write.resume]
  | loadLen write | sampleClock write amount | sampleShard write read amount shard sample =>
    grind [advance, Write.resume]
  | putClock other stored asked =>
    obtain ⟨rfl, rfl, rfl⟩ := putting
    have isExpiry : addDuration shared.clock (asked.getD shared.cache.defaultTtl) =
        some (shared.clock + asked.getD defaultTtl) := by
      rw [sameTtl]
      exact if_pos ((Nat.add_le_add_right inTime _).trans fits)
    rw [advance, isExpiry] at moves
    cases moves
    exact ⟨rfl, rfl, shared.clock, began, forward, rfl⟩
  | insert other stored expiresAt =>
    obtain ⟨rfl, rfl, read, since, isRead, rfl⟩ := putting
    cases moves
    by_cases present : other ∈ shared.cache.cache <;> simp only [present, if_true, if_false] <;>
      exact ⟨read, since, isRead.trans forward, AList.lookup_insert _⟩
  | addLen answer =>
    cases moves
    cases answer with
    | done =>
      obtain ⟨read, since, isRead, found⟩ := putting
      exact ⟨read, since, isRead.trans forward, found⟩
    | _ => cases putting
  | returned => cases moves
  | _ => cases putting

end Steps

open Relation (ReflTransGen)

/-- A cache with room for one entry that lasts for 5. -/
def narrow (map : KeyMap Bool (CacheEntry Nat)) : Cache Bool Nat :=
  { (Cache.withCapacity 5 1 : Cache Bool Nat) with
    cache := map
    lenCount := map.len }

end Ophan.Ttl
