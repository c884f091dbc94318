import Ophan.Cache.SetNx

/-!
# The counter of the cache

Every call changes the map first and the counter afterwards, and `purge_expired` and
`clear` overwrite the counter with a number that they took before.  The counter is exact
when those two run alone and nothing is subtracted while an insertion is still to be added.
-/

namespace Ophan.Ttl

open List

universe u v

variable {κ : Type u} {ν : Type v}

namespace Point

/-- What a call has still to add to the counter. -/
@[grind]
def toAdd : Point κ ν → Nat
  | .addLen _ => 1
  | _ => 0

/-- What a call has still to subtract from the counter. -/
@[grind]
def toSub : Point κ ν → Nat
  | .subLen _ => 1
  | .evict _ _ removed => removed
  | _ => 0

/-- What the next operation of a call subtracts. -/
@[grind]
def subtracts : Point κ ν → Nat
  | .subLen _ => 1
  | .evict _ [] removed => removed
  | _ => 0

/-- The call is a `purge_expired` or a `clear`. -/
@[grind]
def overwrites : Point κ ν → Bool
  | .purgeClock | .purgeShard _ _ | .lenShard _ _ | .clearShard _ | .storeLen _ => true
  | _ => false

@[grind]
def OwesNothing (point : Point κ ν) : Prop :=
  point.toAdd = 0 ∧ point.toSub = 0 ∧ point.overwrites = false

/-- What a pass over the shards knows of the map while nobody else changes it. -/
def Tracks (sharding : Sharding κ) (map : KeyMap κ (CacheEntry ν)) : Point κ ν → Prop
  | .lenShard shard total => total = map.keys.countP fun key => (sharding.shardOf key).val < shard
  | .clearShard shard => ∀ key ∈ map, shard ≤ (sharding.shardOf key).val
  | .storeLen total => total = map.len
  | _ => True

end Point

/-- The additions that the calls still owe to the counter. -/
def additions (calls : List (Point κ ν)) : Nat := (calls.map Point.toAdd).sum

def subtractions (calls : List (Point κ ν)) : Nat := (calls.map Point.toSub).sum

/-- `purge_expired` and `clear` have no other call beside them, nothing is subtracted while
an addition is owed, and the machine can count the entries. -/
def Counts (pool : Pool (Shared κ ν) (Point κ ν)) (point : Point κ ν) : Prop :=
  pool.shared.cache.cache.len + subtractions pool.calls < wordCount ∧
    (if point.overwrites then pool.calls.countP (! ·.isOver) ≤ 1
      else pool.calls.countP Point.overwrites = 0) ∧
    (0 < point.subtracts → additions pool.calls = 0)

instance (pool : Pool (Shared κ ν) (Point κ ν)) (point : Point κ ν) :
    Decidable (Counts pool point) := by
  unfold Counts
  infer_instance

def Balanced (pool : Pool (Shared κ ν) (Point κ ν)) : Prop :=
  pool.shared.cache.lenCount + additions pool.calls =
    pool.shared.cache.cache.len + subtractions pool.calls

section Debts

theorem sum_beside (owes : Point κ ν → Nat) (before after : List (Point κ ν)) (call : Point κ ν) :
    ((before ++ call :: after).map owes).sum = ((before ++ after).map owes).sum + owes call := by
  simp only [map_append, map_cons, sum_append, sum_cons]
  omega

theorem sum_map_eq_zero {owes : Point κ ν → Nat} {calls : List (Point κ ν)}
    (nothing : ∀ point ∈ calls, owes point = 0) : (calls.map owes).sum = 0 := by
  rw [map_congr_left nothing]
  simp

theorem Cache.lenCount_subLen (self : Cache κ ν) (count : Nat) (covered : count ≤ self.lenCount)
    (bounded : self.lenCount < wordCount) :
    (self.subLen count).lenCount = self.lenCount - count :=
  wrappingSub_of_le covered bounded

theorem Cache.lenCount_addLen (self : Cache κ ν) (count : Nat)
    (fits : self.lenCount + count < wordCount) :
    (self.addLen count).lenCount = self.lenCount + count :=
  wrappingAdd_of_lt fits

theorem Write.owesNothing_resume (write : Write κ ν) : write.resume.OwesNothing := by
  cases write <;> exact ⟨rfl, rfl, rfl⟩

theorem Point.owesNothing_of_over {point : Point κ ν} (ended : point.isOver = true) :
    point.OwesNothing := by
  cases point <;> grind

theorem Point.tracks_of_single {sharding : Sharding κ} {point : Point κ ν}
    (single : point.overwrites = false) (map : KeyMap κ (CacheEntry ν)) :
    point.Tracks sharding map := by
  cases point <;> grind [Point.Tracks]

theorem Point.tracks_begin {input : Input κ ν} {point : Point κ ν}
    (begins : input.begin = some point) (sharding : Sharding κ) (map : KeyMap κ (CacheEntry ν)) :
    point.toAdd = 0 ∧ point.toSub = 0 ∧ point.Tracks sharding map := by
  cases input <;> cases begins
  case clear => exact ⟨rfl, rfl, fun _ _ => Nat.zero_le _⟩
  all_goals exact ⟨rfl, rfl, trivial⟩

variable {pool : Pool (Shared κ ν) (Point κ ν)} {point : Point κ ν}

theorem Balanced.covers (balanced : Balanced pool) (member : point ∈ pool.calls)
    (noAddition : 0 < point.subtracts → additions pool.calls = 0) :
    point.subtracts ≤ pool.shared.cache.lenCount := by
  have owed : point.subtracts ≤ point.toSub := by
    cases point with
    | evict write keys removed => cases keys <;> simp [Point.subtracts, Point.toSub]
    | _ => exact Nat.le_refl _
  obtain ⟨before, after, split⟩ := append_of_mem member
  have part := sum_beside Point.toSub before after point
  unfold Balanced additions subtractions at balanced
  unfold additions at noAddition
  rw [← split] at part
  omega

theorem balanced_beside {shared : Shared κ ν} {before after : List (Point κ ν)} :
    Balanced ⟨shared, before ++ point :: after⟩ ↔
      shared.cache.lenCount + (additions (before ++ after) + point.toAdd) =
        shared.cache.cache.len + (subtractions (before ++ after) + point.toSub) := by
  unfold Balanced additions subtractions
  rw [sum_beside, sum_beside]

theorem balanced_iff_of_over (ended : ∀ point ∈ pool.calls, point.isOver = true) :
    Balanced pool ↔ pool.shared.cache.lenCount = pool.shared.cache.cache.len := by
  have owesNothing (point) (member : point ∈ pool.calls) :=
    Point.owesNothing_of_over (ended point member)
  have noAddition := sum_map_eq_zero fun point member => (owesNothing point member).1
  have noSubtraction := sum_map_eq_zero fun point member => (owesNothing point member).2.1
  unfold Balanced additions subtractions
  omega

end Debts

section Balance

variable [DecidableEq κ] {sharding : Sharding κ}

theorem len_erase (map : KeyMap κ (CacheEntry ν)) (key : κ) :
    map.len = KeyMap.len (map.erase key) + if key ∈ map then 1 else 0 := by
  rw [KeyMap.len_eq, KeyMap.len_eq, AList.keys_erase]
  split
  · next present =>
    have positive : 0 < map.keys.length := length_pos_of_mem present
    rw [length_erase_of_mem present]
    omega
  · next absent => rw [erase_of_not_mem absent, Nat.add_zero]

theorem len_insert (map : KeyMap κ (CacheEntry ν)) (key : κ) (entry : CacheEntry ν) :
    KeyMap.len (map.insert key entry) = map.len + if key ∈ map then 0 else 1 := by
  split
  · next present => exact KeyMap.len_insert_of_mem present entry
  · next absent => exact KeyMap.len_insert_of_notMem absent entry

variable {shared shared' : Shared κ ν} {point point' : Point κ ν}

/-- An operation leaves what the counter and the debts of its call say about the map. -/
theorem balance_advance {order : List κ}
    (moves : advance sharding shared order point = some (shared', point'))
    (single : point.overwrites = false) (covered : point.subtracts ≤ shared.cache.lenCount)
    (fits : shared.cache.lenCount + point.toAdd < wordCount) :
    point'.overwrites = false ∧
      shared'.cache.lenCount + point'.toAdd + (shared.cache.cache.len + point.toSub) =
        shared.cache.lenCount + point.toAdd + (shared'.cache.cache.len + point'.toSub) := by
  cases point with
  | loadLen write | sampleClock write amount | sampleShard write now amount shard sample =>
    have resumed := write.owesNothing_resume
    grind [advance]
  | evict write keys removed =>
    have resumed := write.owesNothing_resume
    have erased := len_erase shared.cache.cache
    have counter := shared.cache.lenCount_subLen removed
    have map := shared.cache.cache_subLen removed
    cases keys <;> grind [advance]
  | putClock key value ttl | setNxClock key value ttl | lookup key => grind [advance]
  | insert key value expiresAt | entry key value now expiresAt =>
    have inserted := len_insert shared.cache.cache key ⟨value, expiresAt⟩
    have present := AList.lookup_isSome (a := key) (s := shared.cache.cache)
    grind [advance]
  | removeExpired key | remove key =>
    have erased := len_erase shared.cache.cache key
    have present := AList.lookup_isSome (a := key) (s := shared.cache.cache)
    grind [advance]
  | addLen answer =>
    have counter := shared.cache.lenCount_addLen 1
    have map := shared.cache.cache_addLen 1
    grind [advance]
  | subLen answer =>
    have counter := shared.cache.lenCount_subLen 1
    have map := shared.cache.cache_subLen 1
    grind [advance]
  | purgeClock | purgeShard now shard | lenShard shard total | clearShard shard
  | storeLen total => cases single
  | returned answer | panicked => cases moves

omit [DecidableEq κ] in
theorem countP_shard_succ (keys : List κ) (shard : Nat) :
    keys.countP (fun key => (sharding.shardOf key).val < shard + 1) =
      keys.countP (fun key => (sharding.shardOf key).val < shard) +
        (keys.filter fun key => (sharding.shardOf key).val = shard).length := by
  induction keys with
  | nil => rfl
  | cons key rest ih => grind

/-- A pass over the shards that runs alone ends with the number of entries. -/
theorem tracks_advance {order : List κ}
    (moves : advance sharding shared order point = some (shared', point'))
    (pass : point.overwrites = true) (tracks : point.Tracks sharding shared.cache.cache) :
    point'.overwrites = true ∧ point'.Tracks sharding shared'.cache.cache ∨
      point' = .returned .done ∧ shared'.cache.lenCount = shared'.cache.cache.len := by
  have inside (key : κ) {shard : Nat} (past : ¬ shard < sharding.amount) :
      (sharding.shardOf key).val < shard :=
    Nat.lt_of_lt_of_le (sharding.shardOf key).isLt (Nat.le_of_not_lt past)
  revert moves
  fun_cases advance sharding shared order point <;> cases pass <;> intro moves <;> cases moves
  case case24 | case25 => exact Or.inl ⟨rfl, trivial⟩
  case case26 =>
    refine Or.inl ⟨rfl, ?_⟩
    simp [Point.Tracks]
  case case27 total _ =>
    change total = _ at tracks
    refine Or.inl ⟨rfl, ?_⟩
    change _ = _
    rw [tracks, countP_shard_succ]
    rfl
  case case28 total past =>
    change total = _ at tracks
    refine Or.inl ⟨rfl, ?_⟩
    change total = _
    rw [tracks, KeyMap.len_eq, countP_eq_length]
    exact fun key _ => decide_eq_true (inside key past)
  case case29 =>
    refine Or.inl ⟨rfl, fun key member => ?_⟩
    obtain ⟨entry, found⟩ := Option.isSome_iff_exists.mp (AList.lookup_isSome.mpr member)
    rw [KeyMap.lookup_retain, Option.filter_eq_some_iff] at found
    have isLe := tracks key (AList.lookup_isSome.mp (by rw [found.1]; rfl))
    have differs := of_decide_eq_true found.2
    omega
  case case30 past =>
    refine Or.inl ⟨rfl, ?_⟩
    change 0 = _
    rw [KeyMap.len_eq, eq_comm, length_eq_zero_iff, eq_nil_iff_forall_not_mem]
    exact fun key member => Nat.not_lt_of_le (tracks key member) (inside key past)
  case case31 => exact Or.inr ⟨rfl, tracks⟩

end Balance

section Exact

variable [DecidableEq κ] {sharding : Sharding κ} {pool pool' : Pool (Shared κ ν) (Point κ ν)}

/-- What the calls leave behind them when they keep to `Counts`. -/
def Accounted (sharding : Sharding κ) (pool : Pool (Shared κ ν) (Point κ ν)) : Prop :=
  (pool.calls.countP Point.overwrites = 0 → Balanced pool) ∧
    ∀ point ∈ pool.calls, point.Tracks sharding pool.shared.cache.cache

theorem Accounted.step (accounted : Accounted sharding pool)
    (step : (program sharding).Step (fun pool point _ => Counts pool point) pool pool') :
    Accounted sharding pool' := by
  cases step with
  | start starts =>
    rename_i shared shared' calls started input
    obtain ⟨sameCache, _, begun⟩ := start_eq starts
    have owed (point) (isNew : point ∈ started) :=
      Point.tracks_begin (begun point isNew) sharding shared.cache.cache
    have noAddition := sum_map_eq_zero fun point isNew => (owed point isNew).1
    have noSubtraction := sum_map_eq_zero fun point isNew => (owed point isNew).2.1
    refine ⟨fun nobody => ?_, fun point member => ?_⟩
    · rw [countP_append] at nobody
      have balanced := accounted.1 (Nat.eq_zero_of_add_eq_zero_right nobody)
      unfold Balanced additions subtractions at balanced ⊢
      simpa [sameCache, noAddition, noSubtraction] using balanced
    · rw [sameCache]
      rcases mem_append.mp member with earlier | isNew
      · exact accounted.2 point earlier
      · exact (owed point isNew).2.2
  | move guarded moves =>
    rename_i shared shared' before after call call' choice
    obtain ⟨fits, alone, noAddition⟩ := guarded
    have member : call ∈ before ++ call :: after := mem_moving
    by_cases pass : call.overwrites = true
    · rw [if_pos pass] at alone
      have underWay : (! call.isOver) = true := by
        cases call <;> first | rfl | cases pass
      have ended (other) (beside : other ∈ before ++ after) : other.isOver = true :=
        by simpa using not_beside alone underWay beside
      have others (other) (beside : other ∈ before ++ after) :
          other.Tracks sharding shared'.cache.cache :=
        Point.tracks_of_single (Point.owesNothing_of_over (ended other beside)).2.2 _
      rcases tracks_advance moves pass (accounted.2 call member) with
        ⟨passes, tracks⟩ | ⟨rfl, exactly⟩
      · refine ⟨fun nobody => ?_, fun point isCall => ?_⟩
        · exact absurd passes (countP_eq_zero.mp nobody call' mem_moving)
        · grind
      · have allOver (point) (isCall : point ∈ before ++ .returned .done :: after) :
            point.isOver = true := by
          rcases mem_move.mp isCall with rfl | beside
          · rfl
          · exact ended point beside
        refine ⟨fun _ => (balanced_iff_of_over allOver).mpr exactly, fun point isCall => ?_⟩
        exact Point.tracks_of_single (Point.owesNothing_of_over (allOver point isCall)).2.2 _
    · rw [if_neg pass] at alone
      have balanced := accounted.1 alone
      have single : call.overwrites = false := Bool.eq_false_iff.mpr pass
      have covered := balanced.covers member noAddition
      rw [balanced_beside] at balanced
      change shared.cache.cache.len + _ < _ at fits
      rw [subtractions, sum_beside, ← subtractions] at fits
      obtain ⟨stillSingle, kept⟩ := balance_advance moves single covered (by omega)
      refine ⟨fun _ => balanced_beside.mpr (by omega), fun point isCall =>
        Point.tracks_of_single ?_ _⟩
      rcases mem_beside isCall with rfl | there
      · exact stillSingle
      · exact Bool.eq_false_iff.mpr (countP_eq_zero.mp alone point there)

/-- The counter of a cache that starts empty never goes below zero, and it is the number of
entries whenever no call is under way, as long as `purge_expired` and `clear` run alone and
nothing is subtracted while another call has its insertion still to add. -/
theorem counter_exact {cache : Cache κ ν} {clock : Nat}
    (empty : cache.cache = ∅) (zero : cache.lenCount = 0)
    (run : (program sharding).Run (fun pool point _ => Counts pool point) (idle cache clock) pool) :
    (∀ point ∈ pool.calls, Counts pool point →
        point.subtracts ≤ pool.shared.cache.lenCount) ∧
      ((∀ point ∈ pool.calls, point.isOver = true) →
        pool.shared.cache.lenCount = pool.shared.cache.cache.len) := by
  have initially : Accounted sharding (idle cache clock) :=
    ⟨fun _ => by simp [Balanced, idle, additions, subtractions, empty, zero]; rfl, forall_mem_nil _⟩
  have accounted := run.invariant (fun _ _ holds step => holds.step step) initially
  refine ⟨fun point member counts => ?_, fun ended => ?_⟩
  · by_cases pass : point.overwrites = true
    · have nothing : point.subtracts = 0 := by
        cases point <;> first | rfl | cases pass
      exact nothing.le.trans (Nat.zero_le _)
    · have alone := counts.2.1
      rw [if_neg pass] at alone
      exact (accounted.1 alone).covers member counts.2.2
  · have nobody : pool.calls.countP Point.overwrites = 0 := countP_eq_zero.mpr fun point member =>
      Bool.eq_false_iff.mp (Point.owesNothing_of_over (ended point member)).2.2
    exact (balanced_iff_of_over ended).mp (accounted.1 nobody)

/-- A call of `put` before a call of `remove`. -/
theorem counter_exact_remove :
    ∃ pool : Pool (Shared Unit Unit) (Point Unit Unit),
      pool.calls = [.returned .done, .subLen (.value (some ()))] ∧
        1 ≤ pool.shared.cache.lenCount := by
  have run : (program (Sharding.single Unit)).Run (fun pool point _ => Counts pool point)
      (idle (Cache.new 5) 0)
      ⟨⟨tiny ∅ 1, 0⟩, [.returned .done, .subLen (.value (some ()))]⟩ :=
    Program.run_of_play
      [.start (.put () () none), .move 0 [], .move 0 [], .move 0 [], .move 0 [],
        .start (.remove ()), .move 1 []]
      (by decide)
  exact ⟨_, rfl, (counter_exact rfl rfl run).1 (.subLen (.value (some ()))) (by simp) (by decide)⟩

/-- A `remove` subtracts the entry of a `put` before the `put` has added it, and a
`purge_expired` stores the number that it took before a `put`. -/
theorem counter_drifts :
    (∃ pool, (program (Sharding.single Unit)).Run (fun _ _ _ => True) (idle (Cache.new 5) 0) pool ∧
      .subLen (.value (some ())) ∈ pool.calls ∧ pool.shared.cache.lenCount = 0) ∧
    ∃ pool : Pool (Shared Unit Unit) (Point Unit Unit),
      (program (Sharding.single Unit)).Run (fun _ _ _ => True) (idle (Cache.new 5) 0) pool ∧
        (∀ point ∈ pool.calls, point.isOver = true) ∧
        pool.shared.cache.lenCount ≠ pool.shared.cache.cache.len := by
  have early : (program (Sharding.single Unit)).Run (fun _ _ _ => True) (idle (Cache.new 5) 0)
      ⟨⟨tiny ∅ 0, 0⟩, [.addLen .done, .subLen (.value (some ()))]⟩ :=
    Program.run_of_play
      [.start (.put () () none), .move 0 [], .move 0 [], .move 0 [], .start (.remove ()),
        .move 1 []]
      (by decide)
  have late : (program (Sharding.single Unit)).Run (fun _ _ _ => True) (idle (Cache.new 5) 0)
      ⟨⟨tiny (AList.singleton () ⟨(), 5⟩) 0, 0⟩, [.returned .done, .returned .done]⟩ :=
    Program.run_of_play
      [.start .purgeExpired, .move 0 [], .move 0 [], .move 0 [], .move 0 [], .move 0 [],
        .start (.put () () none), .move 1 [], .move 1 [], .move 1 [], .move 1 [],
        .move 0 []]
      (by decide)
  exact ⟨⟨_, early, by simp, rfl⟩, _, late, by decide, by decide⟩

end Exact

end Ophan.Ttl
