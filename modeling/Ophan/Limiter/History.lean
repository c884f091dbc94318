import Ophan.Limiter.SlidingWindow

/-!
# The history behind the sliding window

The state of the limiter against the list of all times at which it admitted a
request: its counters are the numbers of those times in the current fixed window
and in the one before, however long the gaps between the checks were.
-/

namespace Ophan.Limiter

open List

section History

variable (size : Nat)

def countIn (window : Nat) (history : List Nat) : Nat :=
  history.countP fun time => time / size = window

def countBefore (window : Nat) (history : List Nat) : Nat :=
  history.countP fun time => time / size + 1 = window

/-- The number of times in a closed interval of the length of a window. -/
def countFrom (start : Nat) (history : List Nat) : Nat :=
  history.countP fun time => start ≤ time ∧ time ≤ start + size

/-- The rule of the sliding window by the times admitted so far. -/
def Admits (maxRequests : Nat) (history : List Nat) (now : Nat) : Prop :=
  countBefore size (now / size) history * (size - now % size) +
    (countIn size (now / size) history + 1) * size ≤ maxRequests * size

theorem countBefore_succ (window : Nat) (history : List Nat) :
    countBefore size (window + 1) history = countIn size window history := by
  simp only [countBefore, countIn, Nat.add_right_cancel_iff]

theorem countIn_concat (window : Nat) (history : List Nat) (now : Nat) :
    countIn size window (history ++ [now]) =
      countIn size window history + if now / size = window then 1 else 0 := by
  simp [countIn, countP_append, countP_singleton]

theorem countBefore_concat (window : Nat) (history : List Nat) (now : Nat) :
    countBefore size window (history ++ [now]) =
      countBefore size window history + if now / size + 1 = window then 1 else 0 := by
  simp [countBefore, countP_append, countP_singleton]

theorem countFrom_concat (start : Nat) (history : List Nat) (now : Nat) :
    countFrom size start (history ++ [now]) =
      countFrom size start history +
        if start ≤ now ∧ now ≤ start + size then 1 else 0 := by
  simp [countFrom, countP_append, countP_singleton]

variable {size}

private theorem countP_or_le (first second : Nat → Bool) (history : List Nat) :
    history.countP (fun time => first time || second time) ≤
      history.countP first + history.countP second := by
  induction history with
  | nil => simp
  | cons time rest ih => grind

/-- An interval that ends now reaches into the window before, and no further. -/
theorem countFrom_le {start now : Nat} {history : List Nat} (positive : 0 < size)
    (past : ∀ time ∈ history, time ≤ now) (covered : now ≤ start + size) :
    countFrom size start history ≤
      countBefore size (now / size) history + countIn size (now / size) history := by
  have either : countFrom size start history ≤
      history.countP fun time =>
        decide (time / size + 1 = now / size) || decide (time / size = now / size) := by
    apply countP_mono_left
    intro time member inside
    simp only [decide_eq_true_eq] at inside
    have notLater : time / size ≤ now / size := Nat.div_le_div_right (past time member)
    have notEarlier : now / size ≤ time / size + 1 := by
      rw [← Nat.add_div_right time positive]
      apply Nat.div_le_div_right
      omega
    simp only [Bool.or_eq_true, decide_eq_true_eq]
    omega
  have split := countP_or_le (fun time => decide (time / size + 1 = now / size))
    (fun time => decide (time / size = now / size)) history
  exact either.trans split

end History

def admittedTimes (times : List Nat) (results : List RateLimitResult) : List Nat :=
  ((times.zip results).filter fun checked => checked.2.allowed).map Prod.fst

theorem admittedTimes_cons (now : Nat) (times : List Nat) (result : RateLimitResult)
    (results : List RateLimitResult) :
    admittedTimes (now :: times) (result :: results) =
      (if result.allowed then [now] else []) ++ admittedTimes times results := by
  cases allowed : result.allowed <;> simp [admittedTimes, allowed]

/-- Each check is admitted exactly when the rule says so, by the times admitted
before it. -/
def FollowsHistory (size maxRequests : Nat) : List Nat → List Nat → List RateLimitResult → Prop
  | _, [], [] => True
  | history, now :: times, result :: results =>
    (result.allowed = true ↔ Admits size maxRequests history now) ∧
      FollowsHistory size maxRequests
        (history ++ if result.allowed then [now] else []) times results
  | _, _, _ => False

namespace SlidingWindow

structure Tracks (limiter : SlidingWindow) (history : List Nat) (last : Nat) : Prop where
  passed : ∀ time ∈ history, time ≤ last ∧ time / limiter.windowSizeMs ≤ limiter.currentWindow
  begun : limiter.currentWindow ≤ last / limiter.windowSizeMs
  current : limiter.currentCount = countIn limiter.windowSizeMs limiter.currentWindow history
  previous : limiter.previousIn limiter.currentWindow =
    countBefore limiter.windowSizeMs limiter.currentWindow history
  atMost : limiter.currentCount ≤ limiter.maxRequests
  before : limiter.previousIn limiter.currentWindow ≤ limiter.maxRequests
  within : ∀ now, last ≤ now → now / limiter.windowSizeMs = limiter.currentWindow →
    limiter.previousIn limiter.currentWindow * (limiter.windowSizeMs - now % limiter.windowSizeMs) +
      limiter.currentCount * limiter.windowSizeMs ≤ limiter.maxRequests * limiter.windowSizeMs
  bounded : ∀ start, countFrom limiter.windowSizeMs start history < 2 * limiter.maxRequests

variable {self : SlidingWindow} {history : List Nat} {last now : Nat}

@[simp]
theorem roll_windowSizeMs (window : Nat) : (self.roll window).windowSizeMs = self.windowSizeMs := by
  unfold roll
  split <;> rfl

@[simp]
theorem roll_maxRequests (window : Nat) : (self.roll window).maxRequests = self.maxRequests := by
  unfold roll
  split <;> rfl

@[simp]
theorem roll_currentWindow (window : Nat) : (self.roll window).currentWindow = window := by
  unfold roll
  split
  · rfl
  · simp_all

@[simp]
theorem roll_windowSecs (window : Nat) : (self.roll window).windowSecs = self.windowSecs := by
  unfold roll
  split <;> rfl

theorem roll_of_eq {window : Nat} (same : self.currentWindow = window) :
    self.roll window = self := by
  unfold roll
  rw [if_neg (not_not_intro same)]

theorem roll_of_ne {window : Nat} (moved : self.currentWindow ≠ window) :
    (self.roll window).currentCount = 0 ∧
      (self.roll window).previousIn window =
        if self.currentWindow + 1 = window then self.currentCount else 0 := by
  unfold roll
  rw [if_pos moved]
  exact ⟨rfl, rfl⟩

/-- The first check of a window finds it empty, and finds the count of the window
before it, if that was the last one. -/
theorem Tracks.roll (tracks : Tracks self history last) (later : last ≤ now) :
    Tracks (self.roll (now / self.windowSizeMs)) history now := by
  have reached : last / self.windowSizeMs ≤ now / self.windowSizeMs := Nat.div_le_div_right later
  by_cases same : self.currentWindow = now / self.windowSizeMs
  · rw [roll_of_eq same]
    exact
      { tracks with
        passed := fun time member =>
          ⟨(tracks.passed time member).1.trans later, (tracks.passed time member).2⟩
        begun := tracks.begun.trans reached
        within := fun next isLater => tracks.within next (later.trans isLater) }
  · have ahead : self.currentWindow < now / self.windowSizeMs :=
      Nat.lt_of_le_of_ne (tracks.begun.trans reached) same
    obtain ⟨isCount, isPrevious⟩ := roll_of_ne same
    have none : countIn self.windowSizeMs (now / self.windowSizeMs) history = 0 := by
      rw [countIn, countP_eq_zero]
      intro time member
      have behind := (tracks.passed time member).2
      simp only [decide_eq_true_eq]
      omega
    have before : (self.roll (now / self.windowSizeMs)).previousIn (now / self.windowSizeMs) =
        countBefore self.windowSizeMs (now / self.windowSizeMs) history := by
      rw [isPrevious]
      by_cases next : self.currentWindow + 1 = now / self.windowSizeMs
      · rw [if_pos next, tracks.current, ← next, countBefore_succ]
      · rw [if_neg next, eq_comm, countBefore, countP_eq_zero]
        intro time member
        have behind := (tracks.passed time member).2
        simp only [decide_eq_true_eq]
        omega
    have small : (self.roll (now / self.windowSizeMs)).previousIn (now / self.windowSizeMs) ≤
        self.maxRequests := by
      rw [isPrevious]
      split
      · exact tracks.atMost
      · exact Nat.zero_le _
    constructor <;> simp only [roll_windowSizeMs, roll_currentWindow, roll_maxRequests, isCount]
    · intro time member
      have behind := tracks.passed time member
      exact ⟨behind.1.trans later, behind.2.trans (Nat.le_of_lt ahead)⟩
    · exact Nat.le_refl _
    · exact none.symm
    · exact before
    · exact Nat.zero_le _
    · exact small
    · intro next _ _
      simp only [Nat.zero_mul, Nat.add_zero]
      exact Nat.mul_le_mul small (Nat.sub_le _ _)
    · exact tracks.bounded

theorem product_lt (word : self.maxRequests < wordCount) :
    (self.maxRequests + 1) * self.windowSizeMs < 2 ^ 128 :=
  calc
    (self.maxRequests + 1) * self.windowSizeMs ≤ wordCount * self.windowSizeMs :=
      Nat.mul_le_mul_right _ word
    _ < wordCount * wordCount := Nat.mul_lt_mul_of_pos_left (wrappingMul_lt _ _) (by decide)

theorem Tracks.admits_iff (tracks : Tracks self history now)
    (isNow : self.currentWindow = now / self.windowSizeMs) :
    Admits self.windowSizeMs self.maxRequests history now ↔
      self.previousIn self.currentWindow * (self.windowSizeMs - now % self.windowSizeMs) +
        (self.currentCount + 1) * self.windowSizeMs ≤ self.maxRequests * self.windowSizeMs := by
  rw [tracks.previous, tracks.current, isNow, Admits]

/-- The weighted sum fits in 128 bits. -/
theorem Tracks.effective_eq (tracks : Tracks self history now)
    (isNow : self.currentWindow = now / self.windowSizeMs) (word : self.maxRequests < wordCount) :
    effective (self.previousIn self.currentWindow) self.currentCount
        self.windowSizeMs (now % self.windowSizeMs) =
      self.previousIn self.currentWindow * (self.windowSizeMs - now % self.windowSizeMs) +
        (self.currentCount + 1) * self.windowSizeMs := by
  have within := tracks.within now (Nat.le_refl _) isNow.symm
  apply Nat.mod_eq_of_lt
  rw [Nat.succ_mul, ← Nat.add_assoc]
  calc
    _ ≤ self.maxRequests * self.windowSizeMs + self.windowSizeMs := Nat.add_le_add_right within _
    _ = (self.maxRequests + 1) * self.windowSizeMs := by ring
    _ < 2 ^ 128 := product_lt word

theorem lt_two_mul {maxRequests size previous current elapsed : Nat}
    (least : 1 ≤ maxRequests) (inside : elapsed < size) (before : previous ≤ maxRequests)
    (rule : previous * (size - elapsed) + (current + 1) * size ≤ maxRequests * size) :
    previous + current + 1 < 2 * maxRequests := by
  have share : previous * (size - elapsed) + previous * elapsed = previous * size := by
    rw [← Nat.mul_add, Nat.sub_add_cancel (Nat.le_of_lt inside)]
  have rest : previous * elapsed < maxRequests * size :=
    calc
      previous * elapsed ≤ maxRequests * elapsed := Nat.mul_le_mul_right _ before
      _ < maxRequests * size := Nat.mul_lt_mul_of_pos_left inside least
  have scaled : (previous + current + 1) * size < 2 * maxRequests * size :=
    calc
      (previous + current + 1) * size = previous * size + (current + 1) * size := by ring
      _ = previous * (size - elapsed) + (current + 1) * size + previous * elapsed := by
        rw [← share]
        ring
      _ < maxRequests * size + maxRequests * size := Nat.add_lt_add_of_le_of_lt rule rest
      _ = 2 * maxRequests * size := by ring
  exact Nat.lt_of_mul_lt_mul_right scaled

theorem Tracks.admit (tracks : Tracks self history now)
    (isNow : self.currentWindow = now / self.windowSizeMs) (least : 1 ≤ self.maxRequests)
    (positive : 0 < self.windowSizeMs)
    (admits : Admits self.windowSizeMs self.maxRequests history now) :
    Tracks { self with currentCount := self.currentCount + 1 } (history ++ [now]) now := by
  have rule := (tracks.admits_iff isNow).mp admits
  have inside : now % self.windowSizeMs < self.windowSizeMs := Nat.mod_lt _ positive
  constructor
  · exact forall_mem_append.mpr ⟨tracks.passed,
      forall_mem_singleton.mpr ⟨Nat.le_refl _, Nat.le_of_eq isNow.symm⟩⟩
  · exact tracks.begun
  · change self.currentCount + 1 = countIn self.windowSizeMs self.currentWindow (history ++ [now])
    rw [countIn_concat, if_pos isNow.symm, tracks.current]
  · change self.previousIn self.currentWindow =
      countBefore self.windowSizeMs self.currentWindow (history ++ [now])
    rw [countBefore_concat, if_neg (by omega), tracks.previous, Nat.add_zero]
  · change self.currentCount + 1 ≤ self.maxRequests
    apply Nat.le_of_mul_le_mul_right _ positive
    exact (Nat.le_add_left _ _).trans rule
  · exact tracks.before
  · intro next later isNext
    have elapsed : now % self.windowSizeMs ≤ next % self.windowSizeMs := by
      have nowParts := Nat.div_add_mod now self.windowSizeMs
      have nextParts := Nat.div_add_mod next self.windowSizeMs
      change next / self.windowSizeMs = self.currentWindow at isNext
      rw [isNext, isNow] at nextParts
      omega
    apply Nat.le_trans _ rule
    apply Nat.add_le_add_right
    apply Nat.mul_le_mul_left
    exact Nat.sub_le_sub_left elapsed _
  · intro start
    change countFrom self.windowSizeMs start (history ++ [now]) < 2 * self.maxRequests
    rw [countFrom_concat]
    by_cases covers : start ≤ now ∧ now ≤ start + self.windowSizeMs
    · rw [if_pos covers]
      have few := countFrom_le positive (fun time member => (tracks.passed time member).1) covers.2
      have bound := lt_two_mul least inside tracks.before rule
      rw [tracks.previous, tracks.current, isNow] at bound
      omega
    · rw [if_neg covers, Nat.add_zero]
      exact tracks.bounded start

/-- A check behind the roll-over follows the rule of the history. -/
theorem Tracks.settle (tracks : Tracks self history now)
    (isNow : self.currentWindow = now / self.windowSizeMs)
    (word : self.maxRequests < wordCount) (least : 1 ≤ self.maxRequests)
    (positive : 0 < self.windowSizeMs) :
    ∃ result after,
      self.settle (now / self.windowSizeMs) (now % self.windowSizeMs) = (result, after) ∧
      (result.allowed = true ↔ Admits self.windowSizeMs self.maxRequests history now) ∧
      Tracks after (history ++ if result.allowed then [now] else []) now ∧
      after.windowSizeMs = self.windowSizeMs ∧ after.maxRequests = self.maxRequests := by
  have isEffective := tracks.effective_eq isNow word
  have rule := tracks.admits_iff isNow
  unfold SlidingWindow.settle
  rw [← isNow]
  simp only [isEffective]
  by_cases admits : Admits self.windowSizeMs self.maxRequests history now
  · rw [if_neg (Nat.not_lt.mpr (rule.mp admits))]
    exact ⟨_, _, rfl, iff_of_true rfl admits, tracks.admit isNow least positive admits, rfl, rfl⟩
  · rw [if_pos (Nat.lt_of_not_le fun within => admits (rule.mpr within))]
    refine ⟨_, _, rfl, iff_of_false (by simp [rejected]) admits, ?_, rfl, rfl⟩
    simpa [rejected] using tracks

/-- Checks at non-decreasing times follow the rule of the history. -/
theorem Tracks.checks (tracks : Tracks self history last)
    (word : self.maxRequests < wordCount) (least : 1 ≤ self.maxRequests)
    (positive : 0 < self.windowSizeMs) {times : List Nat}
    (ordered : (last :: times).Pairwise (· ≤ ·)) :
    ∃ results, self.checks times = .ok results ∧
      FollowsHistory self.windowSizeMs self.maxRequests history times results ∧
      ∀ start, countFrom self.windowSizeMs start (history ++ admittedTimes times results) <
        2 * self.maxRequests := by
  induction times generalizing self history last with
  | nil =>
    refine ⟨[], rfl, trivial, ?_⟩
    simpa [admittedTimes] using tracks.bounded
  | cons now times ih =>
    have later : last ≤ now := rel_of_pairwise_cons ordered mem_cons_self
    obtain ⟨result, after, isSettled, follows, tracksAfter, sameSize, sameMax⟩ :=
      (tracks.roll later).settle (by simp) (by simpa using word) (by simpa using least)
        (by simpa using positive)
    rw [roll_windowSizeMs] at isSettled follows sameSize
    rw [roll_maxRequests] at follows sameMax
    obtain ⟨results, isResults, followsAfter, bounded⟩ :=
      ih tracksAfter (by rw [sameMax]; exact word)
        (by rw [sameMax]; exact least) (by rw [sameSize]; exact positive) ordered.of_cons
    rw [sameSize, sameMax] at followsAfter bounded
    have isWindow : self.windowOf now = .ok (now / self.windowSizeMs) := by
      unfold windowOf
      rw [if_neg (Nat.pos_iff_ne_zero.mp positive)]
    refine ⟨result :: results, ?_, ⟨follows, followsAfter⟩, ?_⟩
    · simp only [SlidingWindow.checks, check, isWindow, Outcome.map_ok, Outcome.bind_ok,
        isSettled, isResults]
    · intro start
      rw [admittedTimes_cons, ← append_assoc]
      exact bounded start

theorem new_tracks {cfg : LimiterConfig} (least : 1 ≤ cfg.limit) : Tracks (new cfg) [] 0 := by
  constructor
  · simp
  · exact Nat.zero_le _
  · rfl
  · rfl
  · exact Nat.zero_le _
  · exact Nat.zero_le _
  · intro now _ _
    simp [new, previousIn]
  · intro start
    change 0 < 2 * cfg.limit
    omega

theorem settle_fields (window elapsed : Nat) :
    (self.settle window elapsed).2.maxRequests = self.maxRequests ∧
      (self.settle window elapsed).2.windowSecs = self.windowSecs := by
  unfold SlidingWindow.settle
  simp only
  split
  · exact ⟨rfl, rfl⟩
  · exact ⟨rfl, rfl⟩

theorem check_fields {result : RateLimitResult} {after : SlidingWindow}
    (isChecked : self.check now = .ok (result, after)) :
    after.maxRequests = self.maxRequests ∧ after.windowSecs = self.windowSecs ∧
      self.windowSizeMs ≠ 0 := by
  obtain ⟨window, isWindow, isPair⟩ := Outcome.map_eq_ok_iff.mp isChecked
  have isAfter : ((self.roll window).settle window (now % self.windowSizeMs)).2 = after :=
    congrArg Prod.snd isPair
  obtain ⟨sameMax, sameSecs⟩ := @settle_fields (self.roll window) window (now % self.windowSizeMs)
  rw [isAfter] at sameMax sameSecs
  refine ⟨sameMax.trans (roll_maxRequests _), sameSecs.trans (roll_windowSecs _), ?_⟩
  intro empty
  unfold windowOf at isWindow
  simp [if_pos empty] at isWindow

/-! ### The requests that remain -/

def afterChecks (self : SlidingWindow) : List Nat → Outcome Empty SlidingWindow
  | [] => .ok self
  | nowMs :: rest => (self.check nowMs).bind fun checked => checked.2.afterChecks rest

theorem afterChecks_maxRequests {times : List Nat} {reached : SlidingWindow}
    (isReached : self.afterChecks times = .ok reached) :
    reached.maxRequests = self.maxRequests := by
  induction times generalizing self with
  | nil => rw [Outcome.ok.inj isReached]
  | cons now times ih =>
    obtain ⟨checked, isChecked, isRest⟩ := Outcome.bind_eq_ok_iff.mp isReached
    exact (ih isRest).trans (check_fields isChecked).1

def limitSum (self : SlidingWindow) : Nat := self.maxRequests * self.windowSizeMs

/-- The weighted sum of the next request. -/
def nextSum (self : SlidingWindow) (now : Nat) : Nat :=
  effective (self.previousIn self.currentWindow) self.currentCount self.windowSizeMs
    (now % self.windowSizeMs)

/-- The number of requests that fit under the limit. -/
def room (self : SlidingWindow) (now : Nat) : Nat :=
  (self.limitSum + self.windowSizeMs - self.nextSum now) / self.windowSizeMs

theorem room_of_le (positive : self.windowSizeMs ≠ 0) (within : self.nextSum now ≤ self.limitSum) :
    self.room now = (self.limitSum - self.nextSum now) / self.windowSizeMs + 1 := by
  rw [room, Nat.sub_add_comm within, Nat.add_div_right _ (Nat.pos_of_ne_zero positive)]

/-- A sum within the limit is so far from `2 ^ 128` that one more request does not
wrap around. -/
theorem room_admit (word : self.maxRequests < wordCount)
    (within : self.nextSum now ≤ self.limitSum) :
    room { self with currentCount := self.currentCount + 1 } now =
      (self.limitSum - self.nextSum now) / self.windowSizeMs := by
  have fits : self.nextSum now + self.windowSizeMs < 2 ^ 128 := by
    have product := product_lt word
    rw [Nat.succ_mul] at product
    exact Nat.lt_of_le_of_lt (Nat.add_le_add_right within _) product
  have isNext : nextSum { self with currentCount := self.currentCount + 1 } now =
      self.nextSum now + self.windowSizeMs := by
    unfold nextSum effective at fits ⊢
    change (_ + (self.currentCount + 1 + 1) * self.windowSizeMs) % _ = _
    rw [Nat.succ_mul (self.currentCount + 1), ← Nat.add_assoc, ← Nat.mod_add_mod]
    exact Nat.mod_eq_of_lt fits
  rw [room, isNext]
  exact congrArg (· / self.windowSizeMs) (Nat.add_sub_add_right _ _ _)

theorem check_of_current (positive : self.windowSizeMs ≠ 0)
    (isNow : self.currentWindow = now / self.windowSizeMs) :
    self.check now = .ok
      (if self.nextSum now > self.limitSum then
        (rejected self.maxRequests self.currentCount (self.previousIn self.currentWindow)
          self.windowSizeMs (now % self.windowSizeMs), self)
      else
        (admitted self.limitSum (self.nextSum now) self.windowSizeMs (now % self.windowSizeMs),
          { self with currentCount := self.currentCount + 1 })) := by
  unfold check windowOf
  rw [if_neg positive, Outcome.map_ok, roll_of_eq isNow, settle, ← isNow]
  rfl

theorem check_roll (self : SlidingWindow) (now : Nat) :
    (self.roll (now / self.windowSizeMs)).check now = self.check now := by
  unfold check windowOf
  rw [roll_windowSizeMs]
  split
  · rfl
  · rw [Outcome.map_ok, Outcome.map_ok, roll_of_eq (roll_currentWindow _)]

theorem checks_replicate (positive : self.windowSizeMs ≠ 0)
    (isNow : self.currentWindow = now / self.windowSizeMs) (word : self.maxRequests < wordCount)
    (count : Nat) :
    ∃ results, self.checks (replicate count now) = .ok results ∧
      results.map (·.allowed) =
        replicate (min count (self.room now)) true ++
          replicate (count - self.room now) false := by
  induction count generalizing self with
  | zero => exact ⟨[], rfl, by simp⟩
  | succ count ih =>
    rw [replicate_succ, SlidingWindow.checks, check_of_current positive isNow, Outcome.bind_ok]
    by_cases within : self.nextSum now ≤ self.limitSum
    · obtain ⟨results, isResults, answers⟩ :=
        @ih { self with currentCount := self.currentCount + 1 } positive isNow word
      rw [if_neg (Nat.not_lt.mpr within), isResults]
      refine ⟨_, rfl, ?_⟩
      rw [map_cons, answers, room_admit word within, room_of_le positive within,
        Nat.succ_min_succ, replicate_succ, Nat.succ_sub_succ, cons_append]
      rfl
    · have exceeds := Nat.lt_of_not_le within
      obtain ⟨results, isResults, answers⟩ := ih positive isNow word
      rw [if_pos exceeds, isResults]
      have noRoom : self.room now = 0 := Nat.div_eq_of_lt (by omega)
      rw [noRoom] at answers ⊢
      exact ⟨_, rfl, by simpa [rejected, replicate_succ] using answers⟩

end SlidingWindow

/-- After a check that is admitted and says how many requests remain, so many more
are admitted at the same time, and then none. -/
theorem remaining_exact (cfg : LimiterConfig) (times : List Nat) {limiter : SlidingWindow}
    (isReached : (SlidingWindow.new cfg).afterChecks times = .ok limiter) {now : Nat}
    {result : RateLimitResult} {next : SlidingWindow}
    (isChecked : limiter.check now = .ok (result, next)) (isAllowed : result.allowed = true)
    (count : Nat) :
    ∃ results, next.checks (replicate count now) = .ok results ∧
      results.map (·.allowed) =
        replicate (min count result.remaining) true ++
          replicate (count - result.remaining) false := by
  have positive := (SlidingWindow.check_fields isChecked).2.2
  have word : limiter.maxRequests < wordCount := by
    rw [SlidingWindow.afterChecks_maxRequests isReached]
    exact cfg.limit_lt
  have isNow := @SlidingWindow.roll_currentWindow limiter (now / limiter.windowSizeMs)
  rw [← SlidingWindow.roll_windowSizeMs (now / limiter.windowSizeMs)] at positive
  rw [← SlidingWindow.roll_maxRequests (now / limiter.windowSizeMs)] at word
  rw [← limiter.check_roll now] at isChecked
  nth_rewrite 2 [← SlidingWindow.roll_windowSizeMs (now / limiter.windowSizeMs)] at isNow
  generalize limiter.roll (now / limiter.windowSizeMs) = rolled at isChecked isNow positive word
  rw [SlidingWindow.check_of_current positive isNow, Outcome.ok.injEq] at isChecked
  split at isChecked
  · cases isChecked
    cases isAllowed
  · rename_i within
    cases isChecked
    change ∃ results, _ ∧ _ = replicate (min count ((_ - _) / _)) true ++
      replicate (count - (_ - _) / _) false
    rw [← SlidingWindow.room_admit word (Nat.not_lt.mp within)]
    exact SlidingWindow.checks_replicate (by exact positive) (by exact isNow) (by exact word) count

theorem remaining_exact_three :
    ∃ results, SlidingWindow.checks ⟨3, 1, 0, 1, 0, 0⟩ (replicate 4 5) = .ok results ∧
      results.map (·.allowed) = replicate (min 4 2) true ++ replicate (4 - 2) false :=
  remaining_exact ⟨3, 1, 0, .slidingWindow⟩ [] rfl
    (show SlidingWindow.check ⟨3, 1, 0, 0, 0, 0⟩ 5 = .ok (⟨true, 2, 0, 1⟩, ⟨3, 1, 0, 1, 0, 0⟩) by
      decide +kernel) rfl 4

/-- For every rate of a configuration, checks at non-decreasing times are admitted exactly
when the history of admitted times lets them through, and no interval of the length
of a window admits twice the limit. -/
theorem checks_follow_history (cfg : LimiterConfig) (configured : cfg.Configured)
    (least : 1 ≤ cfg.limit) {times : List Nat} (ordered : times.Pairwise (· ≤ ·)) :
    ∃ results, (SlidingWindow.new cfg).checks times = .ok results ∧
      FollowsHistory (cfg.window * 1000) cfg.limit [] times results ∧
      ∀ start, countFrom (cfg.window * 1000) start (admittedTimes times results) <
        2 * cfg.limit := by
  obtain ⟨second, day⟩ := configured.window
  have fits : cfg.window * 1000 < wordCount := by
    rw [wordCount]
    omega
  have isSize : (SlidingWindow.new cfg).windowSizeMs = cfg.window * 1000 := wrappingMul_of_lt fits
  have fromZero : (0 :: times).Pairwise (· ≤ ·) :=
    pairwise_cons.mpr ⟨fun time _ => Nat.zero_le time, ordered⟩
  have positive : 0 < (SlidingWindow.new cfg).windowSizeMs := by
    rw [isSize]
    omega
  have run := (SlidingWindow.new_tracks least).checks cfg.limit_lt least positive fromZero
  rw [isSize] at run
  exact run

/-- One request a second, checked three times. -/
theorem checks_follow_history_second :
    parseRate "1/s".toList = .ok (1, 1) ∧
    ∃ results, (SlidingWindow.new ⟨1, 1, 0, .slidingWindow⟩).checks [0, 500, 2000] = .ok results ∧
      FollowsHistory 1000 1 [] [0, 500, 2000] results ∧
      ∀ start, countFrom 1000 start (admittedTimes [0, 500, 2000] results) < 2 := by
  have read : parseRate "1/s".toList = .ok (1, 1) := by
    decide
  exact ⟨read, checks_follow_history ⟨1, 1, 0, .slidingWindow⟩ (.inr ⟨_, read⟩)
    (by decide) (by decide)⟩

end Ophan.Limiter
