import Mathlib.Algebra.Order.Ring.Nat
import Mathlib.Tactic.Ring
import Ophan.Limiter.History

/-!
# The token bucket

The bucket is kept as one theoretical arrival time, the time at which it would be
full again.  An admitted request moves it by one emission interval, and it may
not run ahead of the clock by more than the tolerance.
-/

namespace Ophan.Limiter

structure TokenBucket where
  emissionNs : Nat
  toleranceNs : Nat
  windowSecs : Nat
  tatNs : Nat
  deriving DecidableEq, Repr

def nanosPerMs : Nat := 1000000

def nanosPerSec : Nat := 1000000000

namespace TokenBucket

/-- A window of no length is refused by an assertion. -/
def new (cfg : LimiterConfig) : Outcome Empty TokenBucket :=
  if cfg.window = 0 then .panic
  else
    let windowNs := saturatingMul cfg.window nanosPerSec
    let emissionNs := if cfg.limit = 0 then 0 else max (windowNs / cfg.limit) 1
    let capacity := saturatingAdd cfg.limit cfg.burst.toNat
    .ok
      { emissionNs := emissionNs
        toleranceNs := saturatingMul emissionNs capacity
        windowSecs := cfg.window
        tatNs := 0 }

def isIdle (self : TokenBucket) (nowMs : Nat) : Bool := self.tatNs ≤ saturatingMul nowMs nanosPerMs

section Check

variable (self : TokenBucket) (now : Nat)

def limitAt : Nat := saturatingAdd now self.toleranceNs

def newTat : Nat := saturatingAdd (max self.tatNs now) self.emissionNs

/-- One round of the loop of `check` with no other check at the same time, where
the exchange succeeds. -/
def settle : RateLimitResult × TokenBucket :=
  if self.newTat now > self.limitAt now then
    ({ allowed := false
       remaining := 0
       retryAfter := divCeil (self.newTat now - self.limitAt now) nanosPerSec
       resetAfter := divCeil (max self.tatNs now - now) nanosPerSec }, self)
  else
    ({ allowed := true
       remaining := (self.limitAt now - self.newTat now) / self.emissionNs
       retryAfter := 0
       resetAfter := divCeil (self.newTat now - now) nanosPerSec },
      { self with tatNs := self.newTat now })

end Check

def check (self : TokenBucket) (nowMs : Nat) : RateLimitResult × TokenBucket :=
  if self.emissionNs = 0 then
    ({ allowed := false
       remaining := 0
       retryAfter := self.windowSecs
       resetAfter := self.windowSecs }, self)
  else self.settle (saturatingMul nowMs nanosPerMs)

def checks (self : TokenBucket) : List Nat → List RateLimitResult
  | [] => []
  | nowMs :: rest => (self.check nowMs).1 :: (self.check nowMs).2.checks rest

/-- What a check can do: reject and leave the bucket alone, or move its arrival
time by an emission interval, not past the tolerance. -/
theorem check_cases (self : TokenBucket) (nowMs : Nat) :
    ((self.check nowMs).1.allowed = false ∧ (self.check nowMs).2 = self) ∨
    ((self.check nowMs).1.allowed = true ∧
      self.emissionNs ≠ 0 ∧
      self.newTat (saturatingMul nowMs nanosPerMs) ≤ self.limitAt (saturatingMul nowMs nanosPerMs) ∧
      (self.check nowMs).2 =
        { self with tatNs := self.newTat (saturatingMul nowMs nanosPerMs) }) := by
  unfold check
  generalize saturatingMul nowMs nanosPerMs = now
  by_cases empty : self.emissionNs = 0
  · simp_all
  · rw [if_neg empty, settle]
    by_cases exceeds : self.newTat now > self.limitAt now
    · simp_all
    · grind

section Bound

/-- The number of times, in milliseconds, in a closed interval of nanoseconds. -/
def countWithin (start length : Nat) (history : List Nat) : Nat :=
  history.countP fun time => start ≤ time * nanosPerMs ∧ time * nanosPerMs ≤ start + length

theorem countWithin_append (start length : Nat) (first second : List Nat) :
    countWithin start length (first ++ second) =
      countWithin start length first + countWithin start length second :=
  List.countP_append

/-- The clock stays so far from the largest word that no sum of a check stops
there. -/
def InRange (self : TokenBucket) (nowMs : Nat) : Prop :=
  nowMs * nanosPerMs + self.toleranceNs < wordMax

variable {self : TokenBucket} {start length capacity admitted : Nat}

/-- The arrival time has moved by an emission interval for every request that was
admitted in an interval. -/
structure Spent (bucket : TokenBucket) (start length capacity admitted : Nat) : Prop where
  moved : admitted = 0 ∨ start + admitted * bucket.emissionNs ≤ bucket.tatNs
  few : admitted * bucket.emissionNs ≤ length + bucket.emissionNs * capacity

/-- In the range of the clock an arrival time within the tolerance is exact. -/
theorem InRange.exact {nowMs : Nat} (inRange : self.InRange nowMs)
    (within : self.newTat (saturatingMul nowMs nanosPerMs) ≤
      self.limitAt (saturatingMul nowMs nanosPerMs)) :
    saturatingMul nowMs nanosPerMs = nowMs * nanosPerMs ∧
      self.newTat (nowMs * nanosPerMs) = max self.tatNs (nowMs * nanosPerMs) + self.emissionNs ∧
      self.newTat (nowMs * nanosPerMs) ≤ nowMs * nanosPerMs + self.toleranceNs := by
  have isNow : saturatingMul nowMs nanosPerMs = nowMs * nanosPerMs :=
    saturatingMul_of_le (Nat.le_of_lt (Nat.lt_of_le_of_lt (Nat.le_add_right _ _) inRange))
  rw [isNow] at within
  have isLimit : self.limitAt (nowMs * nanosPerMs) = nowMs * nanosPerMs + self.toleranceNs :=
    saturatingAdd_of_le (Nat.le_of_lt inRange)
  rw [isLimit] at within
  exact ⟨isNow, saturatingAdd_eq_of_lt (Nat.lt_of_le_of_lt within inRange), within⟩

section

variable (spent : Spent self start length capacity admitted)

include spent

theorem Spent.admit (tolerance : self.toleranceNs ≤ self.emissionNs * capacity) {now newTat : Nat}
    (isTat : newTat = max self.tatNs now + self.emissionNs)
    (within : newTat ≤ now + self.toleranceNs) (covers : start ≤ now ∧ now ≤ start + length) :
    Spent { self with tatNs := newTat } start length capacity (admitted + 1) := by
  have spentBy : (admitted + 1) * self.emissionNs =
      admitted * self.emissionNs + self.emissionNs := by ring
  have reached : start + (admitted + 1) * self.emissionNs ≤ newTat := by
    rcases spent.moved with rfl | moved
    · omega
    · omega
  constructor
  · exact Or.inr reached
  · grind

theorem Spent.keep {newTat : Nat} (later : self.tatNs ≤ newTat) :
    Spent { self with tatNs := newTat } start length capacity admitted where
  moved := spent.moved.imp_right fun moved => moved.trans later
  few := spent.few

/-- One check keeps the account of the interval. -/
theorem Spent.check (tolerance : self.toleranceNs ≤ self.emissionNs * capacity) {nowMs : Nat}
    (inRange : self.InRange nowMs) :
    Spent (self.check nowMs).2 start length capacity
      (countWithin start length (if (self.check nowMs).1.allowed then [nowMs] else []) +
        admitted) := by
  rcases self.check_cases nowMs with ⟨isRejected, isSame⟩ | ⟨isAllowed, _, within, isNext⟩
  · rw [isRejected, isSame]
    simpa [countWithin] using spent
  · obtain ⟨isNow, isTat, inTolerance⟩ := inRange.exact within
    rw [isAllowed, isNext, isNow, if_pos rfl]
    by_cases covers : start ≤ nowMs * nanosPerMs ∧ nowMs * nanosPerMs ≤ start + length
    · have one : countWithin start length [nowMs] = 1 := by simp [countWithin, covers]
      rw [one, Nat.add_comm]
      exact spent.admit tolerance isTat inTolerance covers
    · have none : countWithin start length [nowMs] = 0 := by simp [countWithin, covers]
      rw [none, Nat.zero_add]
      apply spent.keep
      rw [isTat]
      exact (Nat.le_max_left _ _).trans (Nat.le_add_right _ _)

end

theorem check_fields (self : TokenBucket) (nowMs : Nat) :
    (self.check nowMs).2.emissionNs = self.emissionNs ∧
      (self.check nowMs).2.toleranceNs = self.toleranceNs := by
  rcases self.check_cases nowMs with ⟨_, isSame⟩ | ⟨_, _, _, isNext⟩
  · simp_all
  · simp_all

theorem Spent.checks (spent : Spent self start length capacity admitted)
    (tolerance : self.toleranceNs ≤ self.emissionNs * capacity) {times : List Nat}
    (inRange : ∀ nowMs ∈ times, self.InRange nowMs) :
    (countWithin start length (admittedTimes times (self.checks times)) + admitted) *
      self.emissionNs ≤ length + self.emissionNs * capacity := by
  induction times generalizing self admitted with
  | nil => simpa [admittedTimes, countWithin] using spent.few
  | cons nowMs times ih =>
    obtain ⟨sameEmission, sameTolerance⟩ := self.check_fields nowMs
    have after := spent.check tolerance (inRange nowMs List.mem_cons_self)
    have rest := ih after (by rw [sameEmission, sameTolerance]; exact tolerance)
      (fun time member => by
        unfold InRange
        rw [sameTolerance]
        exact inRange time (List.mem_cons_of_mem _ member))
    rw [sameEmission] at rest
    rw [TokenBucket.checks, admittedTimes_cons, countWithin_append,
      Nat.add_comm (countWithin _ _ _), Nat.add_assoc]
    exact rest

theorem checks_of_emission_zero (empty : self.emissionNs = 0) (times : List Nat) :
    admittedTimes times (self.checks times) = [] := by
  induction times with
  | nil => rfl
  | cons nowMs times ih =>
    have rejects : self.check nowMs = (⟨false, 0, self.windowSecs, self.windowSecs⟩, self) :=
      if_pos empty
    rw [TokenBucket.checks, admittedTimes_cons, rejects, ih]
    rfl

/-- A bucket that the constructor accepts has room for the limit and the burst. -/
theorem new_spent {cfg : LimiterConfig} (isNew : new cfg = .ok self) (start length : Nat) :
    Spent self start length (cfg.limit + cfg.burst.toNat) 0 ∧
      self.toleranceNs ≤ self.emissionNs * (cfg.limit + cfg.burst.toNat) := by
  unfold new at isNew
  by_cases noWindow : cfg.window = 0
  · simp [if_pos noWindow] at isNew
  · rw [if_neg noWindow] at isNew
    cases isNew
    constructor
    · constructor
      · exact Or.inl rfl
      · omega
    · exact (saturatingMul_le _ _).trans (Nat.mul_le_mul_left _ (saturatingAdd_le _ _))

end Bound

end TokenBucket

/-- As long as the clock keeps away from the largest word by the tolerance, a closed
interval admits no more requests than the limit, the burst and the emission
intervals that fit into it. -/
theorem checks_within_capacity (cfg : LimiterConfig) {bucket : TokenBucket}
    (isNew : TokenBucket.new cfg = .ok bucket) {times : List Nat}
    (inRange : ∀ nowMs ∈ times, bucket.InRange nowMs) (start length : Nat) :
    TokenBucket.countWithin start length (admittedTimes times (bucket.checks times)) ≤
      cfg.limit + cfg.burst.toNat + length / bucket.emissionNs := by
  obtain ⟨spent, tolerance⟩ := TokenBucket.new_spent isNew start length
  by_cases empty : bucket.emissionNs = 0
  · rw [TokenBucket.checks_of_emission_zero empty]
    exact Nat.zero_le _
  · have positive : 0 < bucket.emissionNs := Nat.pos_of_ne_zero empty
    have few := spent.checks tolerance inRange
    rw [Nat.add_zero] at few
    calc TokenBucket.countWithin start length (admittedTimes times (bucket.checks times))
        ≤ (length + bucket.emissionNs * (cfg.limit + cfg.burst.toNat)) / bucket.emissionNs :=
          (Nat.le_div_iff_mul_le positive).mpr few
      _ = length / bucket.emissionNs + (cfg.limit + cfg.burst.toNat) :=
          Nat.add_mul_div_left _ _ positive
      _ = cfg.limit + cfg.burst.toNat + length / bucket.emissionNs := Nat.add_comm _ _

/-- Two requests a second and one more: of four at the same time three are admitted. -/
theorem checks_within_capacity_two :
    TokenBucket.countWithin 0 0
      (admittedTimes [0, 0, 0, 0] (TokenBucket.checks ⟨500000000, 1500000000, 1, 0⟩ [0, 0, 0, 0])) ≤
      2 + 1 + 0 / 500000000 :=
  checks_within_capacity ⟨2, 1, 1, .tokenBucket⟩ (by decide +kernel)
    (by unfold TokenBucket.InRange; decide) 0 0

/-- With a tolerance that stops at the largest word no arrival time is past it. -/
theorem TokenBucket.checks_of_saturated {bucket : TokenBucket} (emits : bucket.emissionNs ≠ 0)
    (saturated : bucket.toleranceNs = wordMax) (times : List Nat) :
    admittedTimes times (bucket.checks times) = times := by
  induction times generalizing bucket with
  | nil => rfl
  | cons nowMs times ih =>
    have within : ∀ now, ¬ bucket.newTat now > bucket.limitAt now := by
      intro now
      unfold newTat limitAt saturatingAdd
      omega
    have isAllowed : (bucket.check nowMs).1.allowed = true := by
      rw [TokenBucket.check, if_neg emits, settle, if_neg (within _)]
    obtain ⟨sameEmission, sameTolerance⟩ := bucket.check_fields nowMs
    rw [TokenBucket.checks, admittedTimes_cons, isAllowed,
      ih (sameEmission.trans_ne emits) (sameTolerance.trans saturated)]
    rfl

/-- One request a day with a burst of 213504: the tolerance of the bucket stops at the
largest word, so that one check more than its capacity, or any number, is admitted at
one time. -/
theorem saturated_bucket_admits :
    parseRate "1/d".toList = .ok (1, 86400) ∧
    ∃ bucket, TokenBucket.new ⟨1, 86400, 213504, .tokenBucket⟩ = .ok bucket ∧
      1 + 213504 + 0 / bucket.emissionNs <
        TokenBucket.countWithin 0 0 (admittedTimes (List.replicate 213506 0)
          (bucket.checks (List.replicate 213506 0))) := by
  refine ⟨by decide, ⟨86400000000000, wordMax, 86400, 0⟩, by decide +kernel, ?_⟩
  rw [TokenBucket.checks_of_saturated (by decide) rfl, TokenBucket.countWithin,
    List.countP_replicate]
  decide

/-! ## The time to wait -/

namespace TokenBucket

def afterChecks (self : TokenBucket) (times : List Nat) : TokenBucket :=
  times.foldl (fun bucket nowMs => (bucket.check nowMs).2) self

theorem afterChecks_fields (self : TokenBucket) (times : List Nat) :
    (self.afterChecks times).emissionNs = self.emissionNs ∧
      (self.afterChecks times).toleranceNs = self.toleranceNs := by
  induction times generalizing self with
  | nil => exact ⟨rfl, rfl⟩
  | cons nowMs times ih =>
    rw [← (self.check_fields nowMs).1, ← (self.check_fields nowMs).2]
    exact ih (self.check nowMs).2

/-- With a limit, one request fits into an empty bucket. -/
theorem new_emission {cfg : LimiterConfig} {bucket : TokenBucket}
    (limited : 1 ≤ cfg.limit) (isNew : new cfg = .ok bucket) :
    0 < bucket.emissionNs ∧ bucket.emissionNs ≤ bucket.toleranceNs := by
  unfold new at isNew
  by_cases noWindow : cfg.window = 0
  · simp [if_pos noWindow] at isNew
  · rw [if_neg noWindow, Outcome.ok.injEq, if_neg (by omega : cfg.limit ≠ 0)] at isNew
    subst isNew
    have short : saturatingMul cfg.window nanosPerSec / cfg.limit ≤ wordMax :=
      (Nat.div_le_self _ _).trans (Nat.min_le_right _ _)
    have room : 1 ≤ saturatingAdd cfg.limit cfg.burst.toNat := by
      rw [saturatingAdd, wordMax, wordCount]
      omega
    refine ⟨Nat.le_max_right _ _, Nat.le_min.mpr ⟨Nat.le_mul_of_pos_right _ room, ?_⟩⟩
    exact Nat.max_le.mpr ⟨short, by rw [wordMax, wordCount]; decide⟩

/-- A rejected bucket is full, so its arrival time stays while the clock moves up
to the tolerance below it. -/
theorem newTat_le_limitAt_iff {self : TokenBucket} (room : self.emissionNs ≤ self.toleranceNs)
    {now : Nat} (exceeds : self.limitAt now < self.newTat now) (wait : Nat) :
    self.newTat (saturatingAdd now wait) ≤ self.limitAt (saturatingAdd now wait) ↔
      self.newTat now - self.limitAt now ≤ wait := by
  unfold limitAt newTat saturatingAdd at *
  have below : now + self.toleranceNs < wordMax := by omega
  have full : now < self.tatNs := by omega
  rw [Nat.max_eq_left full.le, Nat.min_eq_left below.le] at *
  rcases Nat.le_total (now + wait) wordMax with inside | outside
  · omega
  · omega

theorem check_later {self : TokenBucket} (positive : 0 < self.emissionNs)
    (room : self.emissionNs ≤ self.toleranceNs) {nowMs : Nat}
    (isRejected : (self.check nowMs).1.allowed = false) (secs : Nat) :
    (self.check (nowMs + 1000 * secs)).1.allowed = true ↔
      (self.check nowMs).1.retryAfter ≤ secs := by
  simp only [check, if_neg positive.ne', settle] at isRejected ⊢
  split at isRejected
  · rename_i exceeds
    simp only [if_pos exceeds, apply_ite Prod.fst, apply_ite RateLimitResult.allowed,
      ite_eq_right_iff, reduceCtorEq, imp_false, Nat.not_lt, gt_iff_lt]
    have isLater : saturatingMul (nowMs + 1000 * secs) nanosPerMs =
        saturatingAdd (saturatingMul nowMs nanosPerMs) (secs * nanosPerSec) := by
      unfold saturatingAdd saturatingMul nanosPerMs nanosPerSec
      omega
    rw [isLater, newTat_le_limitAt_iff room exceeds, divCeil, nanosPerSec]
    omega
  · cases isRejected

end TokenBucket

/-- A check that is rejected says after how many seconds the next one is admitted. -/
theorem retry_after_exact (cfg : LimiterConfig) (limited : 1 ≤ cfg.limit) {fresh : TokenBucket}
    (isNew : TokenBucket.new cfg = .ok fresh) (times : List Nat) (nowMs : Nat) :
    let checked := (fresh.afterChecks times).check nowMs
    checked.1.allowed = false →
      (checked.2.check (nowMs + 1000 * checked.1.retryAfter)).1.allowed = true ∧
        ∀ secs < checked.1.retryAfter,
          (checked.2.check (nowMs + 1000 * secs)).1.allowed = false := by
  intro checked isRejected
  obtain ⟨positive, room⟩ := TokenBucket.new_emission limited isNew
  obtain ⟨sameEmission, sameTolerance⟩ := fresh.afterChecks_fields times
  rw [← sameEmission] at positive room
  rw [← sameTolerance] at room
  have isSame : checked.2 = fresh.afterChecks times := by
    rcases (fresh.afterChecks times).check_cases nowMs with ⟨_, isSame⟩ | ⟨isAllowed, _⟩
    · exact isSame
    · exact absurd (isAllowed.symm.trans isRejected) (by decide)
  rw [isSame]
  constructor
  · exact (TokenBucket.check_later positive room isRejected _).mpr le_rfl
  · intro secs early
    rw [← Bool.not_eq_true, TokenBucket.check_later positive room isRejected]
    exact Nat.not_le.mpr early

theorem retry_after_exact_two :
    let checked := (TokenBucket.afterChecks ⟨500000000, 1500000000, 1, 0⟩ [0, 0, 0]).check 0
    checked.1.allowed = false ∧
      (checked.2.check (0 + 1000 * checked.1.retryAfter)).1.allowed = true ∧
        ∀ secs < checked.1.retryAfter, (checked.2.check (0 + 1000 * secs)).1.allowed = false :=
  ⟨by decide +kernel,
    retry_after_exact ⟨2, 1, 1, .tokenBucket⟩ (by decide) (by decide +kernel) [0, 0, 0] 0
      (by decide +kernel)⟩

end Ophan.Limiter
