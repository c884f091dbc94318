import Mathlib.Data.Prod.Lex
import Mathlib.Order.Basic
import Ophan.Cache.Ttl

/-!
# Exclusive insertion

Once `set_nx` has inserted a key, no other `set_nx` inserts it before the entry
expires, as long as the entry stays.  `get` removes an expired entry in a second
step, after the shard was unlocked, and that step may meet a younger entry.  A call
that no other call meets always returns, and answers by what the cache held when it
began unless it had to make room by that very entry.
-/

namespace Ophan.Ttl

universe u v

variable {κ : Type u} {ν : Type v}

section Readings

/-- The reading of the clock by which a call will judge an entry expired. -/
def Write.readAt : Write κ ν → Nat
  | .put _ _ _ => 0
  | .setNx _ _ now _ => now

def Point.readAt : Point κ ν → Nat
  | .loadLen write => write.readAt
  | .sampleClock write _ => write.readAt
  | .sampleShard write _ _ _ _ => write.readAt
  | .evict write _ _ => write.readAt
  | .entry _ _ now _ => now
  | .purgeShard now _ => now
  | _ => 0

theorem Write.readAt_resume (write : Write κ ν) : write.resume.readAt = write.readAt := by
  cases write <;> rfl

/-- No call has read a time that is still to come. -/
def Punctual (pool : Pool (Shared κ ν) (Point κ ν)) : Prop :=
  ∀ point ∈ pool.calls, point.readAt ≤ pool.shared.clock

variable {input : Input κ ν} {point point' : Point κ ν} {shared shared' : Shared κ ν}
  {order : List κ}

theorem readAt_begin (begins : input.begin = some point) : point.readAt = 0 := by
  cases input <;> cases begins <;> rfl

variable [DecidableEq κ] {sharding : Sharding κ}

theorem readAt_advance (moves : advance sharding shared order point = some (shared', point'))
    (punctual : point.readAt ≤ shared.clock) : point'.readAt ≤ shared.clock := by
  revert moves
  fun_cases advance sharding shared order point <;> intro moves <;> cases moves
  case case1 | case3 | case9 | case10 => exact (Write.readAt_resume _).le.trans punctual
  case case18 | case24 => exact le_refl shared.clock
  case case13 | case17 | case23 => split <;> exact Nat.zero_le _
  -- the other points keep their reading, or have none
  all_goals
    first
    | exact punctual
    | exact Nat.zero_le _

theorem start_eq {started : List (Point κ ν)}
    (starts : (program sharding).start shared input = some (shared', started)) :
    shared'.cache = shared.cache ∧ shared.clock ≤ shared'.clock ∧
      ∀ point ∈ started, input.begin = some point := by
  cases input with
  | tick now =>
    obtain ⟨forward, isNext⟩ := Option.ite_none_right_eq_some.mp starts
    grind
  | put | get | setNx | remove | purgeExpired | clear =>
    cases starts
    exact ⟨rfl, le_refl _, fun point member => Option.mem_toList.mp member⟩

theorem Punctual.step {guard : Pool (Shared κ ν) (Point κ ν) → Point κ ν → List κ → Prop}
    {pool pool' : Pool (Shared κ ν) (Point κ ν)} (punctual : Punctual pool)
    (step : (program sharding).Step guard pool pool') : Punctual pool' := by
  cases step with
  | start starts =>
    obtain ⟨_, forward, begun⟩ := start_eq starts
    intro point member
    rcases List.mem_append.mp member with earlier | isNew
    · exact (punctual point earlier).trans forward
    · exact (readAt_begin (begun point isNew)).le.trans (Nat.zero_le _)
  | move guarded moves =>
    rename_i shared shared' before after call call' choice
    have sameClock : shared'.clock = shared.clock := (advance_change moves).1
    change ∀ point ∈ before ++ call' :: after, point.readAt ≤ shared'.clock
    rw [sameClock]
    exact forall_move punctual (readAt_advance moves (punctual call mem_moving))

end Readings

section Exclusive

variable [DecidableEq κ]

inductive Wins (sharding : Sharding κ) (key : κ) (expiresAt : Nat) :
    Pool (Shared κ ν) (Point κ ν) → Pool (Shared κ ν) (Point κ ν) → Prop where
  | intro (shared shared' : Shared κ ν) (before after : List (Point κ ν)) (value : ν)
      (now : Nat) (point' : Point κ ν) (order : List κ)
      (moves : advance sharding shared order (.entry key value now expiresAt) =
        some (shared', point'))
      (isNew : point' = .addLen (.inserted true) ∨ point' = .returned (.inserted true)) :
      Wins sharding key expiresAt ⟨shared, before ++ .entry key value now expiresAt :: after⟩
        ⟨shared', before ++ point' :: after⟩

def IsStale (shared : Shared κ ν) (key : κ) : Prop :=
  ∀ entry ∈ shared.cache.cache.lookup key, entry.isExpired shared.clock = true

instance (shared : Shared κ ν) (key : κ) : Decidable (IsStale shared key) :=
  inferInstanceAs (Decidable (∀ entry ∈ shared.cache.cache.lookup key, _))

/-- The operation does not take a live entry of the key away for `remove`, `clear` or
the capacity. -/
def Spares (sharding : Sharding κ) (key : κ) (shared : Shared κ ν) : Point κ ν → Prop
  | .remove other => other = key → IsStale shared key
  | .evict _ (other :: _) _ => other = key → IsStale shared key
  | .clearShard shard => (sharding.shardOf key).val = shard → IsStale shared key
  | _ => True

/-- The late removal by `get` finds an expired entry or none, and `put` does not replace
a live entry by one that expires earlier. -/
def Orderly (key : κ) (shared : Shared κ ν) : Point κ ν → Prop
  | .removeExpired other => other = key → IsStale shared key
  | .insert other _ expiresAt => other = key →
      ∀ entry ∈ shared.cache.cache.lookup key,
        entry.isExpired shared.clock = false → entry.expiresAt ≤ expiresAt
  | _ => True

instance (sharding : Sharding κ) (key : κ) (shared : Shared κ ν) (point : Point κ ν) :
    Decidable (Spares sharding key shared point) := by
  unfold Spares
  split <;> infer_instance

instance (key : κ) (shared : Shared κ ν) (point : Point κ ν) :
    Decidable (Orderly key shared point) := by
  unfold Orderly
  split <;> infer_instance

def HeldUntil (key : κ) (expiresAt : Nat) (shared : Shared κ ν) : Prop :=
  expiresAt ≤ shared.clock ∨
    ∃ entry, shared.cache.cache.lookup key = some entry ∧ expiresAt ≤ entry.expiresAt

variable {sharding : Sharding κ} {key : κ} {expiresAt : Nat}

theorem CacheEntry.isExpired_iff {entry : CacheEntry ν} {now : Nat} :
    entry.isExpired now = true ↔ entry.expiresAt ≤ now :=
  decide_eq_true_iff

variable {point : Point κ ν} {shared shared' : Shared κ ν}

theorem HeldUntil.le_of_stale (held : HeldUntil key expiresAt shared)
    (stale : IsStale shared key) : expiresAt ≤ shared.clock := by
  rcases held with past | ⟨entry, found, isLe⟩
  · exact past
  · exact isLe.trans (CacheEntry.isExpired_iff.mp (stale entry found))

/-- A live entry stays where it is unless `put` replaces it. -/
theorem Change.lookup_live {map : KeyMap κ (CacheEntry ν)} {entry : CacheEntry ν}
    (change : Change sharding shared point map)
    (found : shared.cache.cache.lookup key = some entry)
    (live : ¬ entry.isExpired shared.clock = true) (punctual : point.readAt ≤ shared.clock)
    (spares : Spares sharding key shared point)
    (late : point = .removeExpired key → IsStale shared key) :
    map.lookup key = some entry ∨ ∃ value later, point = .insert key value later ∧
      map = shared.cache.cache.insert key ⟨value, later⟩ := by
  have notStale : ¬ IsStale shared key := fun stale => live (stale entry found)
  have unexpired (now : Nat) (isLe : now ≤ shared.clock) : ¬ entry.isExpired now = true :=
    fun expired => live (CacheEntry.isExpired_iff.mpr
      ((CacheEntry.isExpired_iff.mp expired).trans isLe))
  have erased (other : κ) (spared : other = key → IsStale shared key) :
      (shared.cache.cache.erase other).lookup key = some entry := by
    have differs : key ≠ other := fun same => notStale (spared same.symm)
    rw [AList.lookup_erase_ne differs, found]
  cases change with
  | keep => exact Or.inl found
  | insert other value later =>
    by_cases same : other = key
    · subst same
      exact Or.inr ⟨value, later, rfl, rfl⟩
    · exact Or.inl ((AList.lookup_insert_ne (Ne.symm same)).trans found)
  | entry other value now later isFree =>
    by_cases same : other = key
    · subst same
      exact absurd (isFree entry found) (unexpired now punctual)
    · exact Or.inl ((AList.lookup_insert_ne (Ne.symm same)).trans found)
  | removeExpired other => exact Or.inl (erased other fun same => late (by rw [same]))
  | remove other => exact Or.inl (erased other spares)
  | evict write other rest removed => exact Or.inl (erased other spares)
  | purgeShard now shard =>
    rw [KeyMap.lookup_retain, found]
    simp [Option.filter, unexpired now punctual]
  | clearShard shard =>
    have elsewhere : (sharding.shardOf key).val ≠ shard := fun same => notStale (spares same)
    simp_all

theorem HeldUntil.change (held : HeldUntil key expiresAt shared)
    (sameClock : shared'.clock = shared.clock)
    (change : Change sharding shared point shared'.cache.cache)
    (punctual : point.readAt ≤ shared.clock) (spares : Spares sharding key shared point)
    (orderly : Orderly key shared point) : HeldUntil key expiresAt shared' := by
  rcases held with past | ⟨entry, found, isLe⟩
  · exact Or.inl (past.trans sameClock.ge)
  by_cases live : entry.isExpired shared.clock = true
  · exact Or.inl ((isLe.trans (CacheEntry.isExpired_iff.mp live)).trans sameClock.ge)
  rcases change.lookup_live found live punctual spares (by rintro rfl; exact orderly rfl) with
    same | ⟨value, later, rfl, isMap⟩
  · exact Or.inr ⟨entry, same, isLe⟩
  · have isLater := orderly rfl entry found (by simpa using live)
    exact Or.inr ⟨⟨value, later⟩, by rw [isMap, AList.lookup_insert], isLe.trans isLater⟩

variable {pool pool' : Pool (Shared κ ν) (Point κ ν)}

theorem HeldUntil.step (held : HeldUntil key expiresAt pool.shared)
    (punctual : Punctual pool) (step : (program sharding).Step (fun pool point _ =>
      Spares sharding key pool.shared point ∧ Orderly key pool.shared point) pool pool') :
    HeldUntil key expiresAt pool'.shared := by
  cases step with
  | start starts =>
    obtain ⟨sameCache, forward, _⟩ := start_eq starts
    rcases held with past | ⟨entry, found, isLe⟩
    · exact Or.inl (past.trans forward)
    · refine Or.inr ⟨entry, ?_, isLe⟩
      rw [sameCache]
      exact found
  | move guarded moves =>
    obtain ⟨sameClock, change⟩ := advance_change moves
    exact held.change sameClock change (punctual _ (by simp)) guarded.1 guarded.2

theorem Wins.heldUntil
    (wins : Wins sharding key expiresAt pool pool') : HeldUntil key expiresAt pool'.shared := by
  obtain ⟨shared, shared', before, after, value, now, point', order, moves, isNew⟩ := wins
  have inserted : shared'.cache.cache.lookup key = some ⟨value, expiresAt⟩ := by
    rw [advance] at moves
    split at moves
    · split at moves
      · cases moves
        exact AList.lookup_insert _
      · grind
    · cases moves
      exact AList.lookup_insert _
  exact Or.inr ⟨_, inserted, le_refl _⟩

/-- `set_nx` inserts only over an entry that has expired. -/
theorem Wins.stale (wins : Wins sharding key expiresAt pool pool') (punctual : Punctual pool) :
    IsStale pool.shared key := by
  obtain ⟨shared, shared', before, after, value, now, point', order, moves, isNew⟩ := wins
  have isLe : now ≤ shared.clock := punctual (.entry key value now expiresAt) (by simp)
  intro entry found
  rw [advance, Option.mem_def.mp found] at moves
  by_cases expired : entry.isExpired now = true
  · exact CacheEntry.isExpired_iff.mpr ((CacheEntry.isExpired_iff.mp expired).trans isLe)
  · grind

theorem Wins.punctual {expiresAt : Nat}
    (wins : Wins sharding key expiresAt pool pool') (punctual : Punctual pool) :
    Punctual pool' := by
  obtain ⟨shared, shared', before, after, value, now, point', order, moves, isNew⟩ := wins
  have step : (program sharding).Step (fun _ _ _ => True)
      ⟨shared, before ++ .entry key value now expiresAt :: after⟩
      ⟨shared', before ++ point' :: after⟩ :=
    @Program.Step.move _ _ _ _ _ _ _ _ _ _ _ _ order trivial moves
  exact punctual.step step

/-- After `set_nx` has inserted a key, no `set_nx` inserts it again before that entry
expires, as long as no operation in between takes the live entry away: neither `remove`,
`clear` or the capacity, nor a `get` that had met an older entry, nor a `put` with an
earlier expiry. -/
theorem set_nx_exclusive {cache : Cache κ ν} {clock : Nat} {later : Nat}
    {pool first second last : Pool (Shared κ ν) (Point κ ν)}
    (reached : (program sharding).Run (fun _ _ _ => True) (idle cache clock) pool)
    (wins : Wins sharding key expiresAt pool first)
    (undisturbed : (program sharding).Run (fun pool point _ =>
      Spares sharding key pool.shared point ∧ Orderly key pool.shared point) first second)
    (winsAgain : Wins sharding key later second last) :
    expiresAt ≤ second.shared.clock := by
  have nobody : Punctual (idle cache clock) := List.forall_mem_nil _
  have punctual : Punctual pool := reached.invariant (fun _ _ holds step => holds.step step) nobody
  have keeps : ∀ pool pool' : Pool (Shared κ ν) (Point κ ν),
      Punctual pool ∧ HeldUntil key expiresAt pool.shared →
      (program sharding).Step (fun pool point _ =>
        Spares sharding key pool.shared point ∧ Orderly key pool.shared point) pool pool' →
      Punctual pool' ∧ HeldUntil key expiresAt pool'.shared :=
    fun _ _ holds step => ⟨holds.1.step step, holds.2.step holds.1 step⟩
  have kept := undisturbed.invariant keeps ⟨wins.punctual punctual, wins.heldUntil⟩
  exact kept.2.le_of_stale (winsAgain.stale kept.1)

end Exclusive

section Calls

/-- How many stages a call still has before it. -/
def Point.phase : Point κ ν → Nat
  | .returned _ | .panicked => 0
  | .addLen _ | .subLen _ | .storeLen _ => 1
  | .insert .. | .entry .. | .removeExpired _ | .remove _ | .lenShard .. | .clearShard _ => 2
  | .lookup _ | .putClock .. | .purgeShard .. => 3
  | .evict .. => 4
  | .sampleShard .. | .purgeClock => 5
  | .sampleClock .. => 6
  | .loadLen _ => 7
  | .setNxClock .. => 8

/-- The turns that are left to the loop of a stage. -/
def Point.left (sharding : Sharding κ) : Point κ ν → Nat
  | .sampleShard _ _ _ shard _ | .purgeShard _ shard | .lenShard shard _ | .clearShard shard =>
    sharding.amount - shard
  | .evict _ keys _ => keys.length
  | _ => 0

@[grind]
def Point.isOver : Point κ ν → Bool
  | .returned _ | .panicked => true
  | _ => false

theorem phase_resume (write : Write κ ν) : write.resume.phase < 4 := by
  cases write <;> simp [Write.resume, Point.phase]

variable [DecidableEq κ]

/-- One move of a call that no other call meets, and the time until its next one. -/
inductive Alone (sharding : Sharding κ) (latest : Nat) :
    Shared κ ν × Point κ ν → Shared κ ν × Point κ ν → Prop where
  | move {shared shared' : Shared κ ν} {point point' : Point κ ν} (order : List κ) {now : Nat}
      (moves : advance sharding shared order point = some (shared', point'))
      (forward : shared.clock ≤ now) (inTime : now ≤ latest) :
      Alone sharding latest (shared, point) ({ shared' with clock := now }, point')

variable {sharding : Sharding κ} {latest : Nat} {shared shared' : Shared κ ν} {order : List κ}
  {point point' : Point κ ν}

theorem Alone.stay (order : List κ)
    (moves : advance sharding shared order point = some (shared', point'))
    (inTime : shared.clock ≤ latest) :
    Alone sharding latest (shared, point) (shared', point') := by
  obtain ⟨cache', clock'⟩ := shared'
  obtain rfl : clock' = shared.clock := (advance_change moves).1
  exact .move order moves (le_refl _) inTime

/-- A move ends a turn of a loop, or the stage. -/
theorem advance_decreases (moves : advance sharding shared order point = some (shared', point')) :
    point'.phase < point.phase ∨
      point'.phase = point.phase ∧ point'.left sharding < point.left sharding := by
  revert moves
  fun_cases advance sharding shared order point <;> intro moves <;> cases moves
  case case1 | case3 | case9 | case10 =>
    exact Or.inl ((phase_resume _).trans_le (by simp [Point.phase]))
  case case5 goes _ => exact Or.inr ⟨rfl, Nat.sub_succ_lt_self _ _ goes.1⟩
  case case8 => exact Or.inr ⟨rfl, Nat.lt_succ_self _⟩
  case case13 | case17 | case23 =>
    refine Or.inl ?_
    split <;> simp [Point.phase]
  case case25 inside | case27 inside | case29 inside =>
    exact Or.inr ⟨rfl, Nat.sub_succ_lt_self _ _ inside⟩
  -- the other moves end their stage
  all_goals exact Or.inl (by simp [Point.phase])

/-- No call goes on for ever. -/
theorem alone_wellFounded (sharding : Sharding κ) (latest : Nat) :
    WellFounded fun next state : Shared κ ν × Point κ ν => Alone sharding latest state next := by
  have ranks := InvImage.wf
    (fun state : Shared κ ν × Point κ ν => (state.2.phase, state.2.left sharding))
    (Prod.lex ⟨_, Nat.lt_wfRel.wf⟩ ⟨_, Nat.lt_wfRel.wf⟩).wf
  refine Subrelation.wf (fun {next state} alone => ?_) ranks
  obtain ⟨order, moves, -, -⟩ := alone
  exact Prod.lex_def.mpr (advance_decreases moves)

/-- A call stops only where it has returned or panicked. -/
theorem exists_alone (sharding : Sharding κ) (goes : point.isOver = false)
    (inTime : shared.clock ≤ latest) :
    ∃ next, Alone sharding latest (shared, point) next := by
  suffices moves : ∃ order, (advance sharding shared order point).isSome by
    obtain ⟨order, some⟩ := moves
    obtain ⟨⟨shared', point'⟩, moves⟩ := Option.isSome_iff_exists.mp some
    exact ⟨_, .stay order moves inTime⟩
  cases point with
  | sampleShard write now amount shard sample =>
    refine ⟨shared.cache.keysIn sharding shard, ?_⟩
    grind [advance, List.Perm.refl]
  | evict write keys removed => refine ⟨[], ?_⟩; cases keys <;> grind [advance]
  | returned | panicked => cases goes
  | _ => refine ⟨[], ?_⟩; grind [advance]

theorem isOver_of_stops (stops : ∀ next, ¬ Alone sharding latest (shared, point) next)
    (inTime : shared.clock ≤ latest) : point.isOver = true := by
  by_contra goes
  obtain ⟨next, alone⟩ := exists_alone sharding (by simpa using goes) inTime
  exact stops next alone

end Calls

section Eviction

theorem Cache.closest_eq_none {sample : List (κ × Nat)} :
    Cache.closest sample = none ↔ sample = [] := by
  cases sample with
  | nil => simp [Cache.closest]
  | cons first rest => grind [Cache.closest]

/-- The first of those that expire first. -/
theorem Cache.closest_eq_some {sample : List (κ × Nat)} {best : κ × Nat} :
    Cache.closest sample = some best ↔ ∃ before after, sample = before ++ best :: after ∧
      (∀ other ∈ before, best.2 < other.2) ∧ ∀ other ∈ after, best.2 ≤ other.2 := by
  induction sample generalizing best with
  | nil => simp [Cache.closest]
  | cons first rest ih =>
    constructor
    · intro isBest
      rw [Cache.closest] at isBest
      split at isBest
      · rename_i inRest found
        obtain ⟨before, after, rfl, earlier, later⟩ := ih.mp found
        split at isBest <;> cases isBest
        · exact ⟨first :: before, after, rfl, by grind, later⟩
        · exact ⟨[], _, rfl, by simp, by grind⟩
      · rename_i nobody
        cases isBest
        exact ⟨[], rest, rfl, by simp, by simp [Cache.closest_eq_none.mp nobody]⟩
    · rintro ⟨before, after, split, earlier, later⟩
      rw [Cache.closest]
      cases before with
      | nil =>
        obtain ⟨rfl, rfl⟩ := List.cons_eq_cons.mp split
        cases found : Cache.closest rest with
        | none => rfl
        | some inRest =>
          obtain ⟨before, after, rfl, -, -⟩ := ih.mp found
          exact if_neg (Nat.not_lt.mpr (later inRest (by simp)))
      | cons other before =>
        obtain ⟨rfl, rfl⟩ := List.cons_eq_cons.mp split
        obtain ⟨isLater, earlier⟩ := List.forall_mem_cons.mp earlier
        rw [ih.mpr ⟨before, after, rfl, earlier, later⟩]
        exact if_pos isLater

/-- Of a sample an eviction takes all keys that are near their expiry, and otherwise
the first of those that expire first. -/
def Cache.Takes (self : Cache κ ν) (now : Nat) (sample : List (κ × Nat)) (key : κ) : Prop :=
  ∃ before expiry after, sample = before ++ (key, expiry) :: after ∧
    (expiry ≤ now + self.nearExpiryThreshold ∨
      (∀ other ∈ sample, now + self.nearExpiryThreshold < other.2) ∧
        (∀ other ∈ before, expiry < other.2) ∧ ∀ other ∈ after, expiry ≤ other.2)

theorem Cache.mem_keysToRemove {self : Cache κ ν} {now : Nat} {sample : List (κ × Nat)} {key : κ} :
    key ∈ self.keysToRemove now sample ↔ self.Takes now sample key := by
  have near (sampled : κ × Nat) :
      (sampled.2 - now = 0 ∨ sampled.2 - now ≤ self.nearExpiryThreshold) ↔
        sampled.2 ≤ now + self.nearExpiryThreshold := by
    omega
  simp only [Cache.keysToRemove, near]
  split
  · rename_i nobody
    have far : ∀ other ∈ sample, now + self.nearExpiryThreshold < other.2 := by
      simpa [List.filter_eq_nil_iff] using nobody
    simp only [List.mem_map, Option.mem_toList, Cache.closest_eq_some]
    constructor
    · rintro ⟨best, ⟨before, after, split, isFirst⟩, rfl⟩
      exact ⟨before, best.2, after, split, Or.inr ⟨far, isFirst⟩⟩
    · rintro ⟨before, expiry, after, split, isNear | ⟨-, isFirst⟩⟩
      · exact absurd isNear (Nat.not_le.mpr (far (key, expiry) (by simp [split])))
      · exact ⟨(key, expiry), ⟨before, after, split, isFirst⟩, rfl⟩
  · rename_i someone
    have someNear : ¬ ∀ other ∈ sample, now + self.nearExpiryThreshold < other.2 := by
      simpa [List.filter_eq_nil_iff] using someone
    simp only [List.mem_map, List.mem_filter, decide_eq_true_eq]
    constructor
    · rintro ⟨sampled, ⟨member, isNear⟩, rfl⟩
      obtain ⟨before, after, split⟩ := List.mem_iff_append.mp member
      exact ⟨before, sampled.2, after, split, Or.inl isNear⟩
    · rintro ⟨before, expiry, after, split, isNear | ⟨far, -⟩⟩
      · exact ⟨(key, expiry), ⟨by simp [split], isNear⟩, rfl⟩
      · exact absurd far someNear

variable [DecidableEq κ]

/-- What the iteration of an eviction can have sampled after some of the shards. -/
inductive Cache.Sampled (sharding : Sharding κ) (self : Cache κ ν) (amount : Nat) :
    Nat → List (κ × Nat) → Prop where
  | start : Sampled sharding self amount 0 []
  | shard {shard : Nat} {sample : List (κ × Nat)} {order : List κ}
      (earlier : Sampled sharding self amount shard sample)
      (goes : shard < sharding.amount ∧ sample.length < amount)
      (all : order.Perm (self.keysIn sharding shard)) :
      Sampled sharding self amount (shard + 1)
        (sample ++ self.sampleFrom order (amount - sample.length))

/-- The counter is at the limit, so that an insertion first samples this many entries. -/
def Cache.IsFull (self : Cache κ ν) (amount : Nat) : Prop :=
  ∃ limit, self.maxCapacity = some limit ∧ limit ≤ self.lenCount ∧ amount = max (limit / 10) 16

/-- Between the two times an insertion may make room by the entry of the key. -/
def Cache.MayEvict (sharding : Sharding κ) (self : Cache κ ν) (clock latest : Nat) (key : κ) :
    Prop :=
  ∃ amount shard sample now, self.IsFull amount ∧ self.Sampled sharding amount shard sample ∧
    ¬ (shard < sharding.amount ∧ sample.length < amount) ∧ clock ≤ now ∧ now ≤ latest ∧
    self.Takes now sample key

end Eviction

section Truth

variable [DecidableEq κ] {sharding : Sharding κ} {key : κ} {clock latest : Nat}
  {cache : Cache κ ν} {shared shared' : Shared κ ν}

/-- A `set_nx` call that began with the given cache still finds of its key what it found
then, or has answered by it. -/
def Judges (sharding : Sharding κ) (cache : Cache κ ν) (clock latest : Nat) (key : κ)
    (state : Shared κ ν × Point κ ν) : Prop :=
  clock ≤ state.1.clock ∧ state.1.clock ≤ latest ∧
    match state.2 with
    | .setNxClock other _ ttl => other = key ∧ state.1 = ⟨cache, clock⟩ ∧
        (addDuration clock (ttl.getD cache.defaultTtl)).isSome
    | .loadLen (.setNx other _ now _) => other = key ∧ now = clock ∧ state.1.cache = cache
    | .sampleClock (.setNx other _ now _) amount =>
      other = key ∧ now = clock ∧ state.1.cache = cache ∧ cache.IsFull amount
    | .sampleShard (.setNx other _ now _) read amount shard sample =>
      other = key ∧ now = clock ∧ state.1.cache = cache ∧ cache.IsFull amount ∧
        clock ≤ read ∧ read ≤ latest ∧ cache.Sampled sharding amount shard sample
    | .evict (.setNx other _ now _) keys _ =>
      other = key ∧ now = clock ∧ (key ∈ keys → IsStale ⟨cache, clock⟩ key) ∧
        (IsStale ⟨state.1.cache, clock⟩ key ↔ IsStale ⟨cache, clock⟩ key)
    | .entry other _ now _ => other = key ∧ now = clock ∧
        (IsStale ⟨state.1.cache, clock⟩ key ↔ IsStale ⟨cache, clock⟩ key)
    | .addLen (.inserted isNew) | .returned (.inserted isNew) =>
      isNew = true ↔ IsStale ⟨cache, clock⟩ key
    | _ => False

theorem isStale_erase {map : KeyMap κ (CacheEntry ν)} {other : κ} {now : Nat}
    (spared : other = key → IsStale ⟨{ cache with cache := map }, now⟩ key) :
    IsStale ⟨{ cache with cache := map.erase other }, now⟩ key ↔
      IsStale ⟨{ cache with cache := map }, now⟩ key := by
  by_cases same : other = key
  · subst same
    refine iff_of_true ?_ (spared rfl)
    simp [IsStale, AList.lookup_erase]
  · simp [IsStale, AList.lookup_erase_ne (Ne.symm same)]

theorem Judges.step {state next : Shared κ ν × Point κ ν}
    (spared : cache.MayEvict sharding clock latest key → IsStale ⟨cache, clock⟩ key)
    (judges : Judges sharding cache clock latest key state)
    (alone : Alone sharding latest state next) :
    Judges sharding cache clock latest key next := by
  obtain ⟨order, moves, forward, inTime⟩ := alone
  rename_i shared shared' point point' now
  obtain ⟨since, -, judges⟩ := judges
  refine ⟨since.trans forward, inTime, ?_⟩
  cases point with
  | setNxClock other value ttl => grind [advance]
  | loadLen write => cases write <;> grind [advance, Write.resume, Cache.IsFull]
  | sampleClock write amount => cases write <;> grind [advance, Cache.Sampled.start]
  | sampleShard write read amount shard sample =>
    cases write with
    | put => cases judges
    | setNx other value began expiresAt =>
      obtain ⟨rfl, rfl, rfl, full, afterStart, inTime, sampled⟩ := judges
      rw [advance] at moves
      split at moves
      · rename_i goes
        obtain ⟨all, isNext⟩ := Option.ite_none_right_eq_some.mp moves
        cases isNext
        exact ⟨rfl, rfl, rfl, full, afterStart, inTime, sampled.shard goes all⟩
      · rename_i ended
        cases moves
        refine ⟨rfl, rfl, fun taken => spared ?_, Iff.rfl⟩
        exact ⟨amount, shard, sample, read, full, sampled, ended, afterStart, inTime,
          Cache.mem_keysToRemove.mp taken⟩
  | evict write keys removed =>
    cases write with
    | put => cases judges
    | setNx other value began expiresAt =>
      obtain ⟨rfl, rfl, taken, same⟩ := judges
      cases keys with
      | nil => grind [advance, Write.resume, IsStale, shared.cache.cache_subLen removed]
      | cons first rest =>
        cases moves
        refine ⟨rfl, rfl, fun inRest => taken (List.mem_cons_of_mem _ inRest), ?_⟩
        rw [← same]
        exact isStale_erase fun isKey => same.mpr (taken (by simp [isKey]))
  | entry other value began expiresAt =>
    obtain ⟨rfl, rfl, same⟩ := judges
    grind [advance, IsStale]
  | addLen answer =>
    cases moves
    cases answer <;> exact judges
  | returned => cases moves
  | _ => cases judges

open Relation (ReflTransGen)

/-- An iteration can take the shards in the orders of a given sample. -/
theorem Cache.Sampled.run {amount shard : Nat} {sample : List (κ × Nat)}
    (sampled : cache.Sampled sharding amount shard sample) {now : Nat} (inTime : now ≤ latest)
    (write : Write κ ν) :
    ReflTransGen (Alone sharding latest) (⟨cache, now⟩, .sampleShard write now amount 0 [])
      (⟨cache, now⟩, .sampleShard write now amount shard sample) := by
  induction sampled with
  | start => exact .refl
  | shard earlier goes all ih => exact ih.tail (.stay _ ((if_pos goes).trans (if_pos all)) inTime)

theorem run_evict (sharding : Sharding κ) (shared : Shared κ ν) (write : Write κ ν)
    (keys : List κ) (removed : Nat)
    (gone : key ∈ keys ∨ shared.cache.cache.lookup key = none) (inTime : shared.clock ≤ latest) :
    ∃ shared', shared'.clock = shared.clock ∧ shared'.cache.cache.lookup key = none ∧
      ReflTransGen (Alone sharding latest) (shared, .evict write keys removed)
        (shared', write.resume) := by
  induction keys generalizing shared removed with
  | nil =>
    have isGone := gone.resolve_left (List.not_mem_nil)
    by_cases some : removed > 0
    · exact ⟨{ shared with cache := shared.cache.subLen removed }, rfl,
        by rwa [shared.cache.cache_subLen], .single (.stay [] (if_pos some) inTime)⟩
    · exact ⟨shared, rfl, isGone, .single (.stay [] (if_neg some) inTime)⟩
  | cons first rest ih =>
    let erased : Shared κ ν :=
      { shared with cache := { shared.cache with cache := shared.cache.cache.erase first } }
    have isGone : key ∈ rest ∨ erased.cache.cache.lookup key = none := by
      by_cases isFirst : key = first
      · exact Or.inr (by rw [isFirst, AList.lookup_erase])
      · rw [AList.lookup_erase_ne isFirst]
        exact gone.imp_left fun member => (List.mem_cons.mp member).resolve_left isFirst
    obtain ⟨shared', sameClock, isGone, run⟩ :=
      ih erased (if first ∈ shared.cache.cache then removed + 1 else removed) isGone inTime
    exact ⟨shared', sameClock, isGone, run.head (.stay [] rfl inTime)⟩

/-- A full cache can forget the key that `set_nx` asks about. -/
theorem run_forgets (value : ν) {ttl : Option Nat}
    (fits : (addDuration clock (ttl.getD cache.defaultTtl)).isSome)
    (mayEvict : cache.MayEvict sharding clock latest key) :
    ∃ last, ReflTransGen (Alone sharding latest) (⟨cache, clock⟩, .setNxClock key value ttl)
      (last, .returned (.inserted true)) := by
  obtain ⟨expiresAt, isExpiry⟩ := Option.isSome_iff_exists.mp fits
  obtain ⟨amount, shard, sample, now, ⟨limit, capped, full, rfl⟩, sampled, ended, since, inTime,
    taken⟩ := mayEvict
  have begins : advance sharding ⟨cache, clock⟩ [] (.setNxClock key value ttl) =
      some (⟨cache, clock⟩, .loadLen (.setNx key value clock expiresAt)) := by
    rw [advance, isExpiry]
  have loads (write : Write κ ν) : advance sharding ⟨cache, now⟩ [] (.loadLen write) =
      some (⟨cache, now⟩, .sampleClock write (max (limit / 10) 16)) := by
    rw [advance, capped]
    exact if_pos full
  obtain ⟨evicted, sameClock, isGone, evicts⟩ := run_evict sharding ⟨cache, now⟩
    (.setNx key value clock expiresAt) _ 0 (Or.inl (Cache.mem_keysToRemove.mpr taken)) inTime
  have inTime' : evicted.clock ≤ latest := sameClock.le.trans inTime
  have inserts : advance sharding evicted [] (.entry key value clock expiresAt) = some
      ({ evicted with cache := { evicted.cache with
        cache := evicted.cache.cache.insert key ⟨value, expiresAt⟩ } },
        .addLen (.inserted true)) := by
    rw [advance, isGone]
  -- the clock goes on once, before the eviction reads it
  have samples := ReflTransGen.head (.move [] begins since inTime)
    (.head (.stay [] (loads _) inTime) (.head (.stay [] rfl inTime) (sampled.run inTime _)))
  have answers := (evicts.tail (.stay [] inserts inTime')).tail (.stay [] rfl inTime')
  exact ⟨_, (samples.tail (.stay [] (if_neg ended) inTime)).trans answers⟩

/-- A `set_nx` call that no other call meets always returns, and its answer is right on every
such run exactly if the cache before the call cannot make room by an unexpired entry of the
key. -/
theorem set_nx_truthful_iff {value : ν} {ttl : Option Nat} (inTime : clock ≤ latest)
    (fits : (addDuration clock (ttl.getD cache.defaultTtl)).isSome) :
    Eventually (Alone sharding latest) (fun state => ∃ isNew,
        state.2 = .returned (.inserted isNew) ∧ (isNew = true ↔ IsStale ⟨cache, clock⟩ key))
      (⟨cache, clock⟩, .setNxClock key value ttl) ↔
      (cache.MayEvict sharding clock latest key → IsStale ⟨cache, clock⟩ key) := by
  constructor
  · intro truthful mayEvict
    obtain ⟨last, run⟩ := run_forgets value fits mayEvict
    have stops (shared : Shared κ ν) (answer : Answer ν) (next : Shared κ ν × Point κ ν) :
        ¬ Alone sharding latest (shared, .returned answer) next := by
      rintro ⟨_, moves, _⟩
      cases moves
    obtain ⟨isNew, isAnswer, judged⟩ := truthful.goal_of_stop
      (by rintro ⟨shared, point⟩ next ⟨isNew, rfl, -⟩; exact stops _ _ next) run (stops _ _)
    cases isAnswer
    exact judged.mp rfl
  · intro spared
    refine Eventually.of_wellFounded (alone_wellFounded sharding latest)
      (fun _ _ => Judges.step spared) ?_ ⟨le_refl _, inTime, rfl, rfl, fits⟩
    rintro ⟨shared, point⟩ ⟨-, inTime, judges⟩ stops
    have ended := isOver_of_stops stops inTime
    cases point with
    | returned answer =>
      cases answer with
      | inserted isNew => exact ⟨isNew, rfl, judges⟩
      | _ => cases judges
    | panicked => cases judges
    | _ => cases ended

end Truth

section Race

def tiny (map : KeyMap Unit (CacheEntry Unit)) (lenCount : Nat) : Cache Unit Unit :=
  { (Cache.new 5 : Cache Unit Unit) with
    cache := map
    lenCount := lenCount }

/-- A full cache with an entry that expires earlier than the one of `true`. -/
def fullPair : Cache Bool Unit :=
  { (Cache.withCapacity 10000000000 2 : Cache Bool Unit) with
    cache := (AList.singleton false ⟨(), 10000000000⟩).insert true ⟨(), 20000000000⟩
    lenCount := 2 }

theorem set_nx_truthful_iff_full :
    Eventually (Alone (.single Bool) 5) (fun state => ∃ isNew,
        state.2 = .returned (.inserted isNew) ∧ (isNew = true ↔ IsStale ⟨fullPair, 0⟩ true))
      (⟨fullPair, 0⟩, .setNxClock true () none) := by
  refine (set_nx_truthful_iff (by decide) (by decide)).mpr ?_
  rintro ⟨amount, shard, sample, now, ⟨limit, isLimit, -, rfl⟩, sampled, ended, -, inTime, taken⟩
  cases isLimit
  cases sampled with
  | start => exact absurd ⟨by decide, by decide⟩ ended
  | shard earlier goes all =>
    cases earlier with
    | shard _ goesOn => exact absurd goes.1 (by simp [Sharding.single])
    | start =>
      obtain ⟨before, expiry, after, split, reason⟩ := taken
      have isAll : (before ++ (true, expiry) :: after).Perm
          [(true, 20000000000), (false, 10000000000)] := by
        rw [← split, List.nil_append, Cache.sampleFrom,
          List.take_of_length_le (all.length_eq.le.trans (by decide))]
        exact all.filterMap _
      have members := isAll.mem_iff (a := (true, expiry))
      have earlier := isAll.mem_iff (a := (false, 10000000000))
      have threshold : fullPair.nearExpiryThreshold = 2000000000 := rfl
      grind

/-- The cache is full with the entry of the key itself, so that `set_nx` evicts it and then
inserts the key as new. -/
theorem full_cache_forgets_key :
    ∃ pool last : Pool (Shared Unit Unit) (Point Unit Unit),
      (program (Sharding.single Unit)).Run (fun _ _ _ => True)
        (idle (Cache.withCapacity 10000000000 1) 0) pool ∧
      pool.calls = [.returned .done, .setNxClock () () none] ∧ ¬ IsStale pool.shared () ∧
      (program (Sharding.single Unit)).Run (fun _ _ _ => True) pool last ∧
      last.calls = [.returned .done, .returned (.inserted true)] := by
  have reached : (program (Sharding.single Unit)).Run (fun _ _ _ => True)
      (idle (Cache.withCapacity 10000000000 1) 0)
      ⟨⟨⟨AList.singleton () ⟨(), 10000000000⟩, 10000000000, some 1, 1, 2000000000⟩, 0⟩,
        [.returned .done, .setNxClock () () none]⟩ :=
    Program.run_of_play
      [.start (.put () () none), .move 0 [], .move 0 [], .move 0 [], .move 0 [],
        .start (.setNx () () none)]
      (by decide)
  have forgets : (program (Sharding.single Unit)).Run (fun _ _ _ => True)
      ⟨⟨⟨AList.singleton () ⟨(), 10000000000⟩, 10000000000, some 1, 1, 2000000000⟩, 0⟩,
        [.returned .done, .setNxClock () () none]⟩
      ⟨⟨⟨AList.singleton () ⟨(), 10000000000⟩, 10000000000, some 1, 1, 2000000000⟩, 0⟩,
        [.returned .done, .returned (.inserted true)]⟩ :=
    Program.run_of_play
      [.move 1 [], .move 1 [], .move 1 [], .move 1 [()], .move 1 [], .move 1 [], .move 1 [],
        .move 1 [], .move 1 []]
      (by decide)
  exact ⟨_, _, reached, rfl, by decide, forgets, rfl⟩

theorem set_nx_exclusive_again :
    ∃ second last : Pool (Shared Unit Unit) (Point Unit Unit),
      Wins (.single Unit) () 10 second last ∧ 5 ≤ second.shared.clock := by
  have reached : (program (Sharding.single Unit)).Run (fun _ _ _ => True) (idle (Cache.new 5) 0)
      ⟨⟨tiny ∅ 0, 0⟩, [] ++ .entry () () 0 5 :: []⟩ :=
    Program.run_of_play [.start (.setNx () () none), .move 0 [], .move 0 []] (by decide)
  have wins : Wins (.single Unit) () 5 _ _ :=
    .intro ⟨tiny ∅ 0, 0⟩ ⟨tiny (AList.singleton () ⟨(), 5⟩) 0, 0⟩ [] [] () 0
      (.addLen (.inserted true)) [] (by decide) (Or.inl rfl)
  have undisturbed : (program (Sharding.single Unit)).Run (fun pool point _ =>
        Spares (.single Unit) () pool.shared point ∧ Orderly () pool.shared point)
      ⟨⟨tiny (AList.singleton () ⟨(), 5⟩) 0, 0⟩, [] ++ .addLen (.inserted true) :: []⟩
      ⟨⟨tiny (AList.singleton () ⟨(), 5⟩) 0, 5⟩,
        [.addLen (.inserted true)] ++ .entry () () 5 10 :: []⟩ :=
    Program.run_of_play [.start (.tick 5), .start (.setNx () () none), .move 1 [], .move 1 []]
      (by decide)
  have winsAgain : Wins (.single Unit) () 10 _ _ :=
    .intro ⟨tiny (AList.singleton () ⟨(), 5⟩) 0, 5⟩ ⟨tiny (AList.singleton () ⟨(), 10⟩) 0, 5⟩
      [.addLen (.inserted true)] [] () 5 (.returned (.inserted true)) [] (by decide)
      (Or.inr rfl)
  exact ⟨_, _, winsAgain, set_nx_exclusive reached wins undisturbed winsAgain⟩

/-- A `get` meets the expired entry of a `put`, `set_nx` replaces it, the `get` removes
what it finds, and the next `set_nx` inserts the key at the same time as the first. -/
theorem late_removal_admits_two :
    ∃ pool first second last : Pool (Shared Unit Unit) (Point Unit Unit),
      (program (Sharding.single Unit)).Run (fun _ _ _ => True) (idle (Cache.new 5) 0) pool ∧
      Wins (.single Unit) () 10 pool first ∧
      (program (Sharding.single Unit)).Run
        (fun pool point _ => Spares (.single Unit) () pool.shared point) first second ∧
      Wins (.single Unit) () 10 second last ∧ second.shared.clock < 10 := by
  have reached : (program (Sharding.single Unit)).Run (fun _ _ _ => True) (idle (Cache.new 5) 0)
      ⟨⟨tiny (AList.singleton () ⟨(), 5⟩) 1, 5⟩,
        [.returned .done, .removeExpired ()] ++ .entry () () 5 10 :: []⟩ :=
    Program.run_of_play
      [.start (.put () () none), .move 0 [], .move 0 [], .move 0 [], .move 0 [],
        .start (.tick 5), .start (.get ()), .move 1 [], .start (.setNx () () none),
        .move 2 [], .move 2 []]
      (by decide)
  have wins : Wins (.single Unit) () 10 _ _ :=
    .intro ⟨tiny (AList.singleton () ⟨(), 5⟩) 1, 5⟩ ⟨tiny (AList.singleton () ⟨(), 10⟩) 1, 5⟩
      [.returned .done, .removeExpired ()] [] () 5 (.returned (.inserted true)) []
      (by decide) (Or.inr rfl)
  have spared : (program (Sharding.single Unit)).Run
      (fun pool point _ => Spares (.single Unit) () pool.shared point)
      ⟨⟨tiny (AList.singleton () ⟨(), 10⟩) 1, 5⟩,
        [.returned .done, .removeExpired ()] ++ .returned (.inserted true) :: []⟩
      ⟨⟨tiny ∅ 0, 5⟩,
        [.returned .done, .returned (.value none), .returned (.inserted true)] ++
          .entry () () 5 10 :: []⟩ :=
    Program.run_of_play [.move 1 [], .move 1 [], .start (.setNx () () none), .move 3 [], .move 3 []]
      (by decide)
  have winsAgain : Wins (.single Unit) () 10 _ _ :=
    .intro ⟨tiny ∅ 0, 5⟩ ⟨tiny (AList.singleton () ⟨(), 10⟩) 0, 5⟩
      [.returned .done, .returned (.value none), .returned (.inserted true)] [] () 5
      (.addLen (.inserted true)) [] (by decide) (Or.inl rfl)
  exact ⟨_, _, _, _, reached, wins, spared, winsAgain, by decide⟩

end Race

end Ophan.Ttl
