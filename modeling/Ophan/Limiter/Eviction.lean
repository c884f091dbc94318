import Ophan.Limiter.Store

/-!
# Eviction

A state at rest answers every later check like a fresh one.  Two states are
compared by what a check reads of them at a time and after it, and the store with
more evictions is followed next to the one with fewer.
-/

namespace Ophan.Limiter

open List

namespace SlidingWindow

/-- Two limiters that answer alike from a window on; the second was not used after
the first. -/
structure Alike (window : Nat) (first second : SlidingWindow) : Prop where
  sameMax : second.maxRequests = first.maxRequests
  sameSecs : second.windowSecs = first.windowSecs
  behind : second.currentWindow ≤ first.currentWindow
  current : first.currentWindow ≤ window
  count : (second.roll window).currentCount = (first.roll window).currentCount
  previous : (second.roll window).previousIn window = (first.roll window).previousIn window

variable {self first second third : SlidingWindow} {nowMs window next : Nat}

theorem Alike.sameSize (alike : Alike window first second) :
    second.windowSizeMs = first.windowSizeMs := by
  unfold windowSizeMs
  rw [alike.sameSecs]

theorem Alike.trans (alike : Alike window first second) (next : Alike window second third) :
    Alike window first third where
  sameMax := next.sameMax.trans alike.sameMax
  sameSecs := next.sameSecs.trans alike.sameSecs
  behind := next.behind.trans alike.behind
  current := alike.current
  count := next.count.trans alike.count
  previous := next.previous.trans alike.previous

/-- Limiters that stand in the present window answer alike by their own counts. -/
theorem alike_of_now (isNow : first.currentWindow = window) (isNow' : second.currentWindow = window)
    (sameMax : second.maxRequests = first.maxRequests)
    (sameSecs : second.windowSecs = first.windowSecs)
    (count : second.currentCount = first.currentCount)
    (previous : second.previousIn window = first.previousIn window) :
    Alike window first second := by
  refine ⟨sameMax, sameSecs, (isNow'.trans isNow.symm).le, isNow.le, ?_, ?_⟩
  · rw [roll_of_eq isNow, roll_of_eq isNow', count]
  · rw [roll_of_eq isNow, roll_of_eq isNow', previous]

theorem previousIn_roll_of_lt (current : self.currentWindow ≤ window) (isLater : window < next) :
    (self.roll next).previousIn next =
      if window + 1 = next then (self.roll window).currentCount else 0 := by
  rw [(roll_of_ne (Nat.ne_of_lt (Nat.lt_of_le_of_lt current isLater))).2]
  by_cases same : self.currentWindow = window
  · rw [roll_of_eq same, same]
  · have moved : self.currentWindow + 1 ≠ next := by omega
    rw [if_neg moved, (roll_of_ne same).1, ite_self]

section

variable (alike : Alike window first second)

include alike

theorem Alike.later (isLater : window ≤ next) : Alike next first second := by
  have current := alike.current
  have behind := alike.behind.trans current
  rcases Nat.eq_or_lt_of_le isLater with rfl | before
  · exact alike
  · refine { alike with current := current.trans isLater, count := ?_, previous := ?_ }
    · rw [(roll_of_ne (Nat.ne_of_lt (Nat.lt_of_le_of_lt behind before))).1,
        (roll_of_ne (Nat.ne_of_lt (Nat.lt_of_le_of_lt current before))).1]
    · rw [previousIn_roll_of_lt behind before, previousIn_roll_of_lt current before, alike.count]

/-- Behind the roll-over, limiters that answer alike give the same result. -/
theorem Alike.settle (isNow : first.currentWindow = window) (isNow' : second.currentWindow = window)
    (elapsed : Nat) :
    (second.settle window elapsed).1 = (first.settle window elapsed).1 ∧
      Alike window (first.settle window elapsed).2 (second.settle window elapsed).2 := by
  have count := alike.count
  have previous := alike.previous
  rw [roll_of_eq isNow, roll_of_eq isNow'] at count previous
  have admits : Alike window { first with currentCount := first.currentCount + 1 }
      { second with currentCount := second.currentCount + 1 } :=
    alike_of_now isNow isNow' alike.sameMax alike.sameSecs (congrArg (· + 1) count) previous
  unfold SlidingWindow.settle
  simp only [alike.sameSize, alike.sameMax, previous, count] at admits ⊢
  split
  · exact ⟨rfl, alike⟩
  · exact ⟨rfl, admits⟩

theorem Alike.roll : Alike window (first.roll window) (second.roll window) := by
  refine alike_of_now (roll_currentWindow _) (roll_currentWindow _) ?_ ?_ alike.count alike.previous
  · simpa using alike.sameMax
  · simpa using alike.sameSecs

end

/-- Limiters that answer alike give the same result now, and answer alike after it. -/
theorem Alike.check (alike : Alike (nowMs / first.windowSizeMs) first second)
    {result : RateLimitResult} {after : SlidingWindow}
    (isChecked : first.check nowMs = .ok (result, after)) :
    ∃ after', second.check nowMs = .ok (result, after') ∧
      Alike (nowMs / first.windowSizeMs) after after' := by
  unfold SlidingWindow.check windowOf at isChecked ⊢
  rw [alike.sameSize]
  by_cases empty : first.windowSizeMs = 0
  · simp [if_pos empty] at isChecked
  · rw [if_neg empty, Outcome.map_ok] at isChecked ⊢
    obtain ⟨sameResult, alikeAfter⟩ := alike.roll.settle (roll_currentWindow _)
      (roll_currentWindow _) (nowMs % first.windowSizeMs)
    rw [Outcome.ok.inj isChecked] at sameResult alikeAfter
    refine ⟨_, ?_, alikeAfter⟩
    exact congrArg Outcome.ok (Prod.ext sameResult rfl)

theorem check_size {result : RateLimitResult} {after : SlidingWindow}
    (isChecked : self.check nowMs = .ok (result, after)) :
    after.windowSizeMs = self.windowSizeMs :=
  congrArg (wrappingMul · 1000) (check_fields isChecked).2.1

theorem exists_check (positive : self.windowSizeMs ≠ 0) (nowMs : Nat) :
    ∃ result after, self.check nowMs = .ok (result, after) := by
  unfold SlidingWindow.check windowOf
  rw [if_neg positive]
  exact ⟨_, _, rfl⟩

/-- A window at rest answers like a fresh one. -/
theorem alike_new_of_isIdle {cfg : LimiterConfig} (isMax : self.maxRequests = cfg.limit)
    (isSecs : self.windowSecs = cfg.window) (inRange : nowMs < wordCount)
    (isIdle : self.isIdle nowMs = .ok true) :
    Alike (nowMs / self.windowSizeMs) self (new cfg) := by
  obtain ⟨window, isWindow, isPast⟩ := Outcome.map_eq_ok_iff.mp isIdle
  unfold windowOf at isWindow
  split at isWindow
  · cases isWindow
  · cases isWindow
    have small : nowMs / self.windowSizeMs ≤ nowMs := Nat.div_le_self _ _
    have past : self.currentWindow + 1 < nowMs / self.windowSizeMs := by
      have bound := of_decide_eq_true isPast
      rw [saturatingAdd_eq_of_lt (by unfold wordMax; omega)] at bound
      exact bound
    have moved := @roll_of_ne self (nowMs / self.windowSizeMs) (by omega)
    have fresh := @roll_of_ne (new cfg) (nowMs / self.windowSizeMs) (by change 0 ≠ _; omega)
    constructor
    · exact isMax.symm
    · exact isSecs.symm
    · exact Nat.zero_le _
    · omega
    · rw [moved.1, fresh.1]
    · have gap : ¬ self.currentWindow + 1 = nowMs / self.windowSizeMs := by omega
      rw [moved.2, fresh.2, if_neg gap]
      exact ite_self 0

theorem Alike.isIdle (alike : Alike window first second)
    (isIdle : first.isIdle nowMs = .ok true) : second.isIdle nowMs = .ok true := by
  obtain ⟨window, isWindow, isPast⟩ := Outcome.map_eq_ok_iff.mp isIdle
  have sameWindow : second.windowOf nowMs = .ok window := by
    unfold windowOf at isWindow ⊢
    rw [alike.sameSize]
    exact isWindow
  have behind : saturatingAdd second.currentWindow 1 ≤ saturatingAdd first.currentWindow 1 := by
    have isBehind := alike.behind
    unfold saturatingAdd
    omega
  unfold SlidingWindow.isIdle
  rw [sameWindow, Outcome.map_ok, decide_eq_true (behind.trans_lt (of_decide_eq_true isPast))]

end SlidingWindow

namespace TokenBucket

/-- Two buckets that answer alike from a time on; the second was not used after the
first. -/
structure Alike (nowMs : Nat) (first second : TokenBucket) : Prop where
  sameEmission : second.emissionNs = first.emissionNs
  sameTolerance : second.toleranceNs = first.toleranceNs
  sameSecs : second.windowSecs = first.windowSecs
  behind : second.tatNs ≤ first.tatNs
  level : max second.tatNs (saturatingMul nowMs nanosPerMs) =
    max first.tatNs (saturatingMul nowMs nanosPerMs)

variable {self first second third : TokenBucket} {nowMs laterMs : Nat}

theorem Alike.trans (alike : Alike nowMs first second) (next : Alike nowMs second third) :
    Alike nowMs first third where
  sameEmission := next.sameEmission.trans alike.sameEmission
  sameTolerance := next.sameTolerance.trans alike.sameTolerance
  sameSecs := next.sameSecs.trans alike.sameSecs
  behind := next.behind.trans alike.behind
  level := next.level.trans alike.level

theorem Alike.later (alike : Alike nowMs first second) (isLater : nowMs ≤ laterMs) :
    Alike laterMs first second := by
  have clock : saturatingMul nowMs nanosPerMs ≤ saturatingMul laterMs nanosPerMs :=
    saturatingMul_mono isLater
  have level := alike.level
  refine { alike with level := ?_ }
  generalize saturatingMul nowMs nanosPerMs = now at clock level
  generalize saturatingMul laterMs nanosPerMs = after at clock
  omega

/-- Buckets that answer alike give the same result now, and answer alike after it. -/
theorem Alike.check (alike : Alike nowMs first second) :
    (second.check nowMs).1 = (first.check nowMs).1 ∧
      Alike nowMs (first.check nowMs).2 (second.check nowMs).2 := by
  have level := alike.level
  unfold TokenBucket.check
  rw [alike.sameEmission]
  split
  · rw [alike.sameSecs]
    exact ⟨rfl, alike⟩
  · have sameLimit : ∀ now, second.limitAt now = first.limitAt now := fun now => by
      unfold limitAt
      rw [alike.sameTolerance]
    have sameTat : second.newTat (saturatingMul nowMs nanosPerMs) =
        first.newTat (saturatingMul nowMs nanosPerMs) := by
      unfold newTat
      rw [level, alike.sameEmission]
    unfold settle
    rw [sameLimit, sameTat, level, alike.sameEmission]
    split
    · exact ⟨rfl, alike⟩
    · exact ⟨rfl, rfl, alike.sameTolerance, alike.sameSecs, Nat.le_refl _, rfl⟩

/-- A full bucket answers like a fresh one. -/
theorem alike_of_isIdle {fresh : TokenBucket} (sameEmission : fresh.emissionNs = self.emissionNs)
    (sameTolerance : fresh.toleranceNs = self.toleranceNs)
    (sameSecs : fresh.windowSecs = self.windowSecs) (isFresh : fresh.tatNs = 0)
    (isIdle : self.isIdle nowMs = true) : Alike nowMs self fresh := by
  have past : self.tatNs ≤ saturatingMul nowMs nanosPerMs := of_decide_eq_true isIdle
  refine ⟨sameEmission, sameTolerance, sameSecs, isFresh ▸ Nat.zero_le _, ?_⟩
  rw [isFresh, Nat.zero_max, Nat.max_eq_right past]

theorem Alike.isIdle (alike : Alike nowMs first second) (isIdle : first.isIdle nowMs = true) :
    second.isIdle nowMs = true :=
  decide_eq_true (alike.behind.trans (of_decide_eq_true isIdle))

end TokenBucket

theorem TokenBucket.check_windowSecs (self : TokenBucket) (nowMs : Nat) :
    (self.check nowMs).2.windowSecs = self.windowSecs := by
  rcases self.check_cases nowMs with ⟨_, isSame⟩ | ⟨_, _, _, isNext⟩
  · rw [isSame]
  · rw [isNext]

theorem TokenBucket.new_tatNs {cfg : LimiterConfig} {fresh : TokenBucket}
    (isNew : TokenBucket.new cfg = .ok fresh) : fresh.tatNs = 0 := by
  unfold TokenBucket.new at isNew
  split at isNew
  · cases isNew
  · cases isNew
    rfl

namespace LimiterState

inductive Alike (nowMs : Nat) : LimiterState → LimiterState → Prop where
  | sliding {first second : SlidingWindow}
      (alike : first.Alike (nowMs / first.windowSizeMs) second) :
      Alike nowMs (.sliding first) (.sliding second)
  | bucket {first second : TokenBucket} (alike : first.Alike nowMs second) :
      Alike nowMs (.bucket first) (.bucket second)

/-- A state that was made from a configuration and has been checked. -/
inductive Made (cfg : LimiterConfig) : LimiterState → Prop where
  | sliding {window : SlidingWindow} (isAlgorithm : cfg.algorithm = .slidingWindow)
      (isMax : window.maxRequests = cfg.limit) (isSecs : window.windowSecs = cfg.window)
      (positive : window.windowSizeMs ≠ 0) : Made cfg (.sliding window)
  | bucket {tokens fresh : TokenBucket} (isAlgorithm : cfg.algorithm = .tokenBucket)
      (isNew : TokenBucket.new cfg = .ok fresh)
      (sameEmission : fresh.emissionNs = tokens.emissionNs)
      (sameTolerance : fresh.toleranceNs = tokens.toleranceNs)
      (sameSecs : fresh.windowSecs = tokens.windowSecs) : Made cfg (.bucket tokens)

variable {cfg : LimiterConfig} {self first second third fresh : LimiterState} {nowMs laterMs : Nat}

section

variable (alike : Alike nowMs first second)

include alike

theorem Alike.trans (next : Alike nowMs second third) : Alike nowMs first third := by
  cases alike with
  | sliding alike =>
    cases next with
    | sliding next => exact .sliding (alike.trans (alike.sameSize ▸ next))
  | bucket alike =>
    cases next with
    | bucket next => exact .bucket (alike.trans next)

theorem Alike.later (isLater : nowMs ≤ laterMs) : Alike laterMs first second := by
  cases alike with
  | sliding alike => exact .sliding (alike.later (Nat.div_le_div_right isLater))
  | bucket alike => exact .bucket (alike.later isLater)

theorem Alike.check {result : RateLimitResult}
    {after : LimiterState} (isChecked : first.check nowMs = .ok (result, after)) :
    ∃ after', second.check nowMs = .ok (result, after') ∧ Alike nowMs after after' := by
  cases alike with
  | sliding alike =>
    obtain ⟨checked, isWindow, isPair⟩ := Outcome.map_eq_ok_iff.mp isChecked
    obtain ⟨after', isSecond, alikeAfter⟩ := alike.check isWindow
    rw [← SlidingWindow.check_size isWindow] at alikeAfter
    cases isPair
    exact ⟨_, Outcome.map_eq_ok_iff.mpr ⟨_, isSecond, rfl⟩, .sliding alikeAfter⟩
  | bucket alike =>
    obtain ⟨sameResult, alikeAfter⟩ := alike.check
    cases isChecked
    exact ⟨_, congrArg Outcome.ok (Prod.ext sameResult rfl), .bucket alikeAfter⟩

theorem Alike.isIdle (isIdle : first.isIdle nowMs = .ok true) : second.isIdle nowMs = .ok true := by
  cases alike with
  | sliding alike => exact alike.isIdle isIdle
  | bucket alike => exact congrArg Outcome.ok (alike.isIdle (Outcome.ok.inj isIdle))

end

theorem alike_self_of_new (isNew : new cfg = .ok fresh) : Alike nowMs fresh fresh := by
  unfold new at isNew
  split at isNew
  · cases isNew
    exact .sliding ⟨rfl, rfl, Nat.le_refl _, Nat.zero_le _, rfl, rfl⟩
  · obtain ⟨tokens, _, isFresh⟩ := Outcome.map_eq_ok_iff.mp isNew
    cases isFresh
    exact .bucket ⟨rfl, rfl, rfl, Nat.le_refl _, rfl⟩

theorem Made.of_alike (made : Made cfg first) (alike : Alike nowMs first second) :
    Made cfg second := by
  cases alike with
  | sliding alike =>
    cases made with
    | sliding isAlgorithm isMax isSecs positive =>
      exact .sliding isAlgorithm (alike.sameMax.trans isMax) (alike.sameSecs.trans isSecs)
        (by rw [alike.sameSize]; exact positive)
  | bucket alike =>
    cases made with
    | bucket isAlgorithm isNew sameEmission sameTolerance sameSecs =>
      exact .bucket isAlgorithm isNew (sameEmission.trans alike.sameEmission.symm)
        (sameTolerance.trans alike.sameTolerance.symm) (sameSecs.trans alike.sameSecs.symm)

theorem Made.exists_new (made : Made cfg self) : ∃ fresh, new cfg = .ok fresh := by
  unfold new
  cases made with
  | sliding isAlgorithm _ _ _ => simp_all
  | bucket isAlgorithm isNew _ _ _ => simp_all

theorem Made.isIdle_ne_panic (made : Made cfg self) : self.isIdle nowMs ≠ .panic := by
  cases made with
  | sliding _ _ _ positive =>
    simp [LimiterState.isIdle, SlidingWindow.isIdle, SlidingWindow.windowOf, positive]
  | bucket _ _ _ _ _ => simp [LimiterState.isIdle]

/-- A state at rest answers like a fresh one. -/
theorem Made.alike_of_isIdle (made : Made cfg self) (inRange : nowMs < wordCount)
    (isIdle : self.isIdle nowMs = .ok true) (isNew : new cfg = .ok fresh) :
    Alike nowMs self fresh := by
  unfold new at isNew
  cases made with
  | sliding isAlgorithm isMax isSecs positive =>
    rw [isAlgorithm] at isNew
    cases isNew
    exact .sliding (SlidingWindow.alike_new_of_isIdle isMax isSecs inRange isIdle)
  | bucket isAlgorithm isMade sameEmission sameTolerance sameSecs =>
    rw [isAlgorithm, isMade] at isNew
    cases isNew
    exact .bucket (TokenBucket.alike_of_isIdle sameEmission sameTolerance sameSecs
      (TokenBucket.new_tatNs isMade) (Outcome.ok.inj isIdle))

theorem Made.exists_check (made : Made cfg self) (nowMs : Nat) :
    ∃ result after, self.check nowMs = .ok (result, after) ∧ Made cfg after := by
  cases made with
  | sliding isAlgorithm isMax isSecs positive =>
    rename_i window
    obtain ⟨result, after, isChecked⟩ := SlidingWindow.exists_check positive nowMs
    obtain ⟨sameMax, sameSecs, _⟩ := SlidingWindow.check_fields isChecked
    refine ⟨result, .sliding after, Outcome.map_eq_ok_iff.mpr ⟨_, isChecked, rfl⟩, ?_⟩
    rw [← SlidingWindow.check_size isChecked] at positive
    exact .sliding isAlgorithm (sameMax.trans isMax) (sameSecs.trans isSecs) positive
  | bucket isAlgorithm isNew sameEmission sameTolerance sameSecs =>
    rename_i tokens _
    have sameFields := tokens.check_fields nowMs
    have sameWindow := tokens.check_windowSecs nowMs
    exact ⟨_, _, rfl, .bucket isAlgorithm isNew (sameEmission.trans sameFields.1.symm)
      (sameTolerance.trans sameFields.2.symm) (sameSecs.trans sameWindow.symm)⟩

theorem made_of_new (isNew : new cfg = .ok fresh) {result : RateLimitResult}
    {after : LimiterState} (isChecked : fresh.check nowMs = .ok (result, after)) :
    Made cfg after := by
  unfold new at isNew
  split at isNew
  · rename_i isAlgorithm
    cases isNew
    obtain ⟨checked, isWindow, isPair⟩ := Outcome.map_eq_ok_iff.mp isChecked
    obtain ⟨sameMax, sameSecs, positive⟩ := SlidingWindow.check_fields isWindow
    rw [← SlidingWindow.check_size isWindow] at positive
    cases isPair
    exact .sliding isAlgorithm sameMax sameSecs positive
  · rename_i isAlgorithm
    obtain ⟨tokens, isTokens, isFresh⟩ := Outcome.map_eq_ok_iff.mp isNew
    cases isFresh
    cases isChecked
    have sameFields := tokens.check_fields nowMs
    exact .bucket isAlgorithm isTokens sameFields.1.symm sameFields.2.symm
      (tokens.check_windowSecs nowMs).symm

end LimiterState

namespace MemoryRateLimiter

open LimiterState

/-- The entry of a key with more evictions, next to its entry with fewer: a missing
entry stands for a fresh state. -/
def Follows (cfg : LimiterConfig) (nowMs : Nat) : Option LimiterState → Option LimiterState → Prop
  | none, other => other = none
  | some state, other =>
    Made cfg state ∧
      ∃ fresh, LimiterState.new cfg = .ok fresh ∧ Alike nowMs state (other.getD fresh)

section Entries

variable {cfg : LimiterConfig} {nowMs laterMs : Nat} {entry other : Option LimiterState}

theorem Follows.later (follows : Follows cfg nowMs entry other) (isLater : nowMs ≤ laterMs) :
    Follows cfg laterMs entry other := by
  cases entry with
  | none => exact follows
  | some state =>
    obtain ⟨made, fresh, isNew, alike⟩ := follows
    exact ⟨made, fresh, isNew, alike.later isLater⟩

def kept (nowMs : Nat) (state : LimiterState) : Bool := state.isIdle nowMs ≠ .ok true

theorem Follows.evict_right (follows : Follows cfg nowMs entry other)
    (inRange : nowMs < wordCount) : Follows cfg nowMs entry (other.filter (kept nowMs)) := by
  cases entry with
  | none =>
    rw [show other = none from follows]
    rfl
  | some state =>
    obtain ⟨made, fresh, isNew, alike⟩ := follows
    refine ⟨made, fresh, isNew, ?_⟩
    cases other with
    | none => exact alike
    | some state' =>
      by_cases isIdle : state'.isIdle nowMs = .ok true
      · rw [Option.filter_some_neg (by simp [kept, isIdle])]
        exact alike.trans ((made.of_alike alike).alike_of_isIdle inRange isIdle isNew)
      · rw [Option.filter_some_pos (by simp [kept, isIdle])]
        exact alike

theorem Follows.evict_left (follows : Follows cfg nowMs entry (other.filter (kept nowMs))) :
    Follows cfg nowMs (entry.filter (kept nowMs)) (other.filter (kept nowMs)) := by
  cases entry with
  | none => exact follows
  | some state =>
    by_cases isIdle : state.isIdle nowMs = .ok true
    · rw [Option.filter_some_neg (by simp [kept, isIdle])]
      obtain ⟨_, fresh, _, alike⟩ := follows
      cases isOther : other.filter (kept nowMs) with
      | none => rfl
      | some state' =>
        rw [isOther] at alike
        have remains := (Option.filter_eq_some_iff.mp isOther).2
        have rests : state'.isIdle nowMs = .ok true := alike.isIdle isIdle
        simp [kept, rests] at remains
    · rw [Option.filter_some_pos (by simp [kept, isIdle])]
      exact follows

end Entries

variable {policies : UInt64 → LimiterConfig} {nowMs laterMs : Nat}
  {self first second : MemoryRateLimiter} {key : LimiterKey}

/-- A store with more evictions next to the store with fewer. -/
structure Shadows (policies : UInt64 → LimiterConfig) (nowMs : Nat)
    (first second : MemoryRateLimiter) : Prop where
  follows : ∀ key : LimiterKey,
    Follows (policies key.scope) nowMs (first.states.lookup key) (second.states.lookup key)
  sameMax : second.maxTracked = first.maxTracked
  counted : first.tracked = first.states.len
  counted' : second.tracked = second.states.len
  bounded : first.tracked ≤ first.maxTracked

theorem Shadows.later (shadows : Shadows policies nowMs first second)
    (isLater : nowMs ≤ laterMs) : Shadows policies laterMs first second :=
  { shadows with follows := fun key => (shadows.follows key).later isLater }

theorem Shadows.subset (shadows : Shadows policies nowMs first second) :
    ∀ key ∈ second.states, key ∈ first.states := by
  intro key present
  have follows := shadows.follows key
  cases isFirst : first.states.lookup key with
  | none =>
    rw [isFirst] at follows
    exact absurd present (AList.lookup_eq_none.mp follows)
  | some state => exact AList.lookup_isSome.mp (by rw [isFirst]; rfl)

/-- Where no state panics, an eviction returns and keeps the entries that are not at
rest. -/
theorem evictIdle_ok
    (returns : ∀ key state, self.states.lookup key = some state → state.isIdle nowMs ≠ .panic) :
    ∃ next, self.evictIdle nowMs = .ok (next.states.len, next) ∧
      (∀ key, next.states.lookup key = (self.states.lookup key).filter (kept nowMs)) ∧
      next.tracked = next.states.len ∧ next.maxTracked = self.maxTracked ∧
      next.states.len ≤ self.states.len := by
  have quiet : ¬ (self.states.entries.any fun entry => entry.2.isIdle nowMs = .panic) = true := by
    intro panics
    obtain ⟨entry, member, isPanic⟩ := any_eq_true.mp panics
    have isEntry : self.states.lookup entry.1 = some entry.2 := AList.mem_lookup_iff.mpr member
    exact returns entry.1 entry.2 isEntry (of_decide_eq_true isPanic)
  unfold evictIdle
  rw [if_neg quiet]
  refine ⟨{ self with
    states := self.states.retain fun _ => kept nowMs
    tracked := (self.states.retain fun _ => kept nowMs).len }, rfl, ?_, rfl, rfl, ?_⟩
  · simp
  · exact length_filter_le _ _

section

variable (shadows : Shadows policies nowMs first second)

include shadows

theorem Shadows.returns :
    ∀ key state, first.states.lookup key = some state → state.isIdle nowMs ≠ .panic := by
  intro key state isState
  have follows := shadows.follows key
  rw [isState] at follows
  exact follows.1.isIdle_ne_panic

theorem Shadows.returns' :
    ∀ key state, second.states.lookup key = some state → state.isIdle nowMs ≠ .panic := by
  intro key state isState
  have follows := shadows.follows key
  rw [isState] at follows
  cases isFirst : first.states.lookup key with
  | none =>
    rw [isFirst] at follows
    cases follows
  | some base =>
    rw [isFirst] at follows
    obtain ⟨made, fresh, _, alike⟩ := follows
    exact (made.of_alike alike).isIdle_ne_panic

theorem Shadows.evict_right (inRange : nowMs < wordCount) :
    ∃ left next, second.evictIdle nowMs = .ok (left, next) ∧
      Shadows policies nowMs first next ∧
      ∀ key, next.states.lookup key = (second.states.lookup key).filter (kept nowMs) := by
  obtain ⟨next, isNext, lookups, counted, sameMax, _⟩ := evictIdle_ok shadows.returns'
  refine ⟨_, next, isNext, ?_, lookups⟩
  refine { shadows with
    follows := fun key => ?_, sameMax := sameMax.trans shadows.sameMax, counted' := counted }
  rw [lookups]
  exact (shadows.follows key).evict_right inRange

theorem Shadows.evict (inRange : nowMs < wordCount) :
    ∃ left next left' next', first.evictIdle nowMs = .ok (left, next) ∧
      second.evictIdle nowMs = .ok (left', next') ∧ Shadows policies nowMs next next' := by
  obtain ⟨left', next', isNext', shadows', lookups'⟩ := shadows.evict_right inRange
  obtain ⟨next, isNext, lookups, counted, sameMax, fewer⟩ := evictIdle_ok shadows.returns
  refine ⟨_, next, left', next', isNext, isNext', ?_⟩
  refine ⟨fun key => ?_, shadows'.sameMax.trans sameMax.symm, counted, shadows'.counted', ?_⟩
  · have follows := shadows'.follows key
    rw [lookups'] at follows ⊢
    rw [lookups]
    exact follows.evict_left
  · rw [counted, sameMax]
    exact fewer.trans (shadows.counted ▸ shadows.bounded)

end

theorem consume_of_some {cfg : LimiterConfig} {state : LimiterState}
    (isState : self.states.lookup key = some state) :
    self.consume key cfg nowMs = self.checkAt key state nowMs := by
  unfold consume
  rw [isState]

theorem lookup_mem {state : LimiterState} (isState : self.states.lookup key = some state) :
    key ∈ self.states :=
  AList.lookup_isSome.mp (by rw [isState]; rfl)

/-- The store with the state of a key that has been checked. -/
def put (self : MemoryRateLimiter) (key : LimiterKey) (state : LimiterState) : MemoryRateLimiter :=
  { self with
    states := self.states.insert key state
    tracked := KeyMap.len (self.states.insert key state) }

/-- With room for the key, a check reads its state or a fresh one and puts it back. -/
theorem consume_eq {cfg : LimiterConfig} (counted : self.tracked = self.states.len)
    (roomy : key ∈ self.states ∨ self.tracked < self.maxTracked) :
    self.consume key cfg nowMs =
      ((self.states.lookup key).elim (LimiterState.new cfg) .ok).bind fun state =>
        (state.check nowMs).map fun checked => (checked.1, self.put key checked.2) := by
  cases isState : self.states.lookup key with
  | some state =>
    have same (after : LimiterState) := KeyMap.len_insert_of_mem (lookup_mem isState) after
    rw [consume_of_some isState, checkAt]
    simp only [put, same, ← counted]
    rfl
  | none =>
    have absent := AList.lookup_eq_none.mp isState
    have isSlot : self.slotFor key = key :=
      if_neg (Nat.not_le.mpr (roomy.resolve_left absent))
    rw [consume, isState, isSlot, isState]
    simp only [put, KeyMap.len_insert_of_notMem absent, counted]
    rfl

/-- Both stores panic, or both answer with the same result. -/
def AnswersAlike (policies : UInt64 → LimiterConfig) (nowMs : Nat)
    (first second : MemoryRateLimiter) (key : LimiterKey) : Prop :=
  (first.consume key (policies key.scope) nowMs = .panic ∧
    second.consume key (policies key.scope) nowMs = .panic) ∨
  ∃ result next next', first.consume key (policies key.scope) nowMs = .ok (result, next) ∧
    second.consume key (policies key.scope) nowMs = .ok (result, next') ∧
    Shadows policies nowMs next next'

section

variable (shadows : Shadows policies nowMs first second)

include shadows

section

variable (roomy : key ∈ first.states ∨ first.tracked < first.maxTracked)

include roomy

theorem Shadows.put {after after' : LimiterState} (made : Made (policies key.scope) after)
    (alike : Alike nowMs after after') :
    Shadows policies nowMs (first.put key after) (second.put key after') := by
  refine ⟨fun other => ?_, shadows.sameMax, rfl, rfl, ?_⟩
  · by_cases same : other = key
    · subst same
      obtain ⟨fresh, isNew⟩ := made.exists_new
      simp only [MemoryRateLimiter.put, AList.lookup_insert]
      exact ⟨made, fresh, isNew, alike⟩
    · simp only [MemoryRateLimiter.put, AList.lookup_insert_ne same]
      exact shadows.follows other
  · have counted := shadows.counted
    have bounded := shadows.bounded
    change KeyMap.len (first.states.insert key after) ≤ first.maxTracked
    by_cases present : key ∈ first.states
    · rw [KeyMap.len_insert_of_mem present]
      omega
    · have hasRoom := roomy.resolve_left present
      rw [KeyMap.len_insert_of_notMem present]
      omega

theorem Shadows.hasRoom : key ∈ second.states ∨ second.tracked < second.maxTracked := by
  by_cases present : key ∈ second.states
  · exact Or.inl present
  · have counted := shadows.counted
    have bounded := shadows.bounded
    rw [shadows.counted', shadows.sameMax]
    rcases roomy with inFirst | hasRoom
    · have fewer := KeyMap.len_lt_of_subset shadows.subset present inFirst
      omega
    · have fewer := KeyMap.len_le_of_subset shadows.subset
      omega

/-- A check of a key in both stores, where the one with fewer evictions has room. -/
theorem Shadows.consume : AnswersAlike policies nowMs first second key := by
  rw [AnswersAlike, consume_eq shadows.counted roomy,
    consume_eq shadows.counted' (shadows.hasRoom roomy)]
  have follows := shadows.follows key
  cases isState : first.states.lookup key with
  | some state =>
    rw [isState] at follows
    obtain ⟨made, fresh, isNew, alike⟩ := follows
    obtain ⟨result, after, isChecked, madeAfter⟩ := made.exists_check nowMs
    obtain ⟨after', isChecked', alikeAfter⟩ := alike.check isChecked
    refine Or.inr ⟨result, _, _, ?_, ?_, shadows.put roomy madeAfter alikeAfter⟩
    · simp [isChecked]
    · cases isOther : second.states.lookup key with
      | some | none => simp_all
  | none =>
    rw [isState] at follows
    rw [show second.states.lookup key = none from follows]
    simp only [Option.elim_none]
    cases isNew : LimiterState.new (policies key.scope) with
    | err error => cases error
    | panic => exact Or.inl ⟨rfl, rfl⟩
    | ok fresh =>
      rw [Outcome.bind_ok, Outcome.bind_ok]
      cases isChecked : fresh.check nowMs with
      | err error => cases error
      | panic => exact Or.inl ⟨rfl, rfl⟩
      | ok checked =>
        obtain ⟨result, after⟩ := checked
        obtain ⟨after', isChecked', alike⟩ := (alike_self_of_new isNew).check isChecked
        rw [isChecked] at isChecked'
        cases isChecked'
        exact Or.inr ⟨_, _, _, rfl, rfl, shadows.put roomy (made_of_new isNew isChecked) alike⟩

end

/-- A store with more evictions gives the same results along a run. -/
theorem Shadows.run {events more : List Event}
    (inserts : Inserts events more) (ordered : (more.map Event.nowMs).Pairwise (· ≤ ·))
    (later : ∀ event ∈ more, nowMs ≤ event.nowMs.toNat)
    (below : first.BelowCapacity policies events) :
    second.run policies more = first.run policies events := by
  induction inserts generalizing nowMs first second with
  | nil => rfl
  | @evict atMs _ more inserts ih =>
    obtain ⟨first_le, ordered'⟩ := pairwise_cons.mp ordered
    have later' : ∀ event ∈ more, atMs.toNat ≤ event.nowMs.toNat :=
      fun event member => first_le _ (mem_map_of_mem member)
    have moved := shadows.later (later _ mem_cons_self)
    obtain ⟨left, next, isNext, shadows', _⟩ := moved.evict_right atMs.toNat_lt
    change second.evictIdle atMs.toNat = _ at isNext
    rw [MemoryRateLimiter.run, isNext]
    exact ih shadows' ordered' later' below
  | @keep event _ more inserts ih =>
    obtain ⟨first_le, ordered'⟩ := pairwise_cons.mp ordered
    have later' : ∀ other ∈ more, event.nowMs.toNat ≤ other.nowMs.toNat :=
      fun other member => first_le _ (mem_map_of_mem member)
    have moved := shadows.later (later _ mem_cons_self)
    cases event with
    | evictIdle atMs =>
      obtain ⟨left, next, left', next', isNext, isNext', shadows'⟩ := moved.evict atMs.toNat_lt
      change first.evictIdle atMs.toNat = _ at isNext
      change second.evictIdle atMs.toNat = _ at isNext'
      rw [MemoryRateLimiter.run, MemoryRateLimiter.run, isNext, isNext']
      exact ih shadows' ordered' later' (below left next isNext)
    | consume key atMs =>
      obtain ⟨roomy, belowAfter⟩ := below
      change Shadows policies atMs.toNat first second at moved
      rcases moved.consume roomy with
        ⟨panics, panics'⟩ | ⟨result, next, next', isNext, isNext', shadows'⟩
      · rw [MemoryRateLimiter.run, MemoryRateLimiter.run, panics, panics']
      · rw [MemoryRateLimiter.run, MemoryRateLimiter.run, isNext, isNext']
        exact congrArg (Outcome.ok result :: ·)
          (ih shadows' ordered' later' (belowAfter result next isNext))

end

theorem new_shadows (policies : UInt64 → LimiterConfig) :
    Shadows policies 0 MemoryRateLimiter.new MemoryRateLimiter.new where
  follows _ := rfl
  sameMax := rfl
  counted := rfl
  counted' := rfl
  bounded := Nat.zero_le _

end MemoryRateLimiter

/-- More calls of `evict_idle` among the events of a run below the capacity of the
store change no result. -/
theorem evictions_invisible (policies : UInt64 → LimiterConfig)
    {events more : List MemoryRateLimiter.Event} (inserts : MemoryRateLimiter.Inserts events more)
    (ordered : (more.map MemoryRateLimiter.Event.nowMs).Pairwise (· ≤ ·))
    (below : MemoryRateLimiter.new.BelowCapacity policies events) :
    MemoryRateLimiter.new.run policies more = MemoryRateLimiter.new.run policies events :=
  (MemoryRateLimiter.new_shadows policies).run inserts ordered (fun _ _ => Nat.zero_le _) below

/-- One request a second, an eviction after three seconds and one more request. -/
theorem evictions_invisible_once :
    MemoryRateLimiter.new.run (fun _ => ⟨1, 1, 0, .slidingWindow⟩)
        [.consume ⟨7, 1⟩ 0, .evictIdle 3000, .consume ⟨7, 1⟩ 3000] =
      MemoryRateLimiter.new.run (fun _ => ⟨1, 1, 0, .slidingWindow⟩)
        [.consume ⟨7, 1⟩ 0, .consume ⟨7, 1⟩ 3000] := by
  have hasRoom : (MemoryRateLimiter.new.consume ⟨7, 1⟩ ⟨1, 1, 0, .slidingWindow⟩ 0).map
      (fun consumed => decide (consumed.2.tracked < consumed.2.maxTracked)) = .ok true := by
    decide
  refine evictions_invisible _ (.keep _ (.evict _ (.keep _ .nil))) (by decide)
    ⟨Or.inr (by decide), fun result next isNext => ⟨Or.inr ?_, fun _ _ _ => trivial⟩⟩
  change MemoryRateLimiter.new.consume ⟨7, 1⟩ ⟨1, 1, 0, .slidingWindow⟩ 0 = _ at isNext
  rw [isNext] at hasRoom
  exact of_decide_eq_true (Outcome.ok.inj hasRoom)

end Ophan.Limiter
