import Ophan.Lib.Interleaving
import Ophan.Limiter.History

/-!
# Concurrent checks of the sliding window

`SlidingWindow::check` as the sequence of its atomic operations.  Between any two
of them other calls may move, so that the exchange that begins a window and the
swap that empties its count are two steps.
-/

namespace Ophan.Limiter

open List

/-- The next atomic operation of a call, with the values that it has loaded. -/
inductive CheckPoint where
  | loadCurrentWindow
  | exchangeWindow (current : Nat)
  | swapCount (current : Nat)
  | storePreviousCount (current old : Nat)
  | storePreviousWindow (current : Nat)
  | loadPreviousWindow
  | loadPreviousCount
  | loadCurrentCount (previousCount : Nat)
  | exchangeCount (previousCount currentCount : Nat)
  | returned (result : RateLimitResult)
  | panicked
  deriving DecidableEq, Repr

/-- A call of `check` with the clock reading of its start. -/
structure CheckCall where
  nowMs : Nat
  point : CheckPoint
  deriving DecidableEq, Repr

namespace CheckCall

open SlidingWindow

/-- The operation at the point of a call.  The exchange of the count may fail
without reason. -/
def advance (limiter : SlidingWindow) (nowMs : Nat) (spurious : Bool) :
    CheckPoint → Option (SlidingWindow × CheckPoint)
  | .loadCurrentWindow =>
    if limiter.windowSizeMs = 0 then some (limiter, .panicked)
    else if limiter.currentWindow ≠ nowMs / limiter.windowSizeMs then
      some (limiter, .exchangeWindow limiter.currentWindow)
    else some (limiter, .loadPreviousWindow)
  | .exchangeWindow current =>
    if limiter.currentWindow = current then
      some ({ limiter with currentWindow := nowMs / limiter.windowSizeMs }, .swapCount current)
    else some (limiter, .loadPreviousWindow)
  | .swapCount current =>
    some ({ limiter with currentCount := 0 }, .storePreviousCount current limiter.currentCount)
  | .storePreviousCount current old =>
    some ({ limiter with previousCount := old }, .storePreviousWindow current)
  | .storePreviousWindow current =>
    some ({ limiter with previousWindow := current }, .loadPreviousWindow)
  | .loadPreviousWindow =>
    if limiter.previousWindow + 1 = nowMs / limiter.windowSizeMs then
      some (limiter, .loadPreviousCount)
    else some (limiter, .loadCurrentCount 0)
  | .loadPreviousCount => some (limiter, .loadCurrentCount limiter.previousCount)
  | .loadCurrentCount previousCount =>
    some (limiter, .exchangeCount previousCount limiter.currentCount)
  | .exchangeCount previousCount currentCount =>
    let size := limiter.windowSizeMs
    let elapsed := nowMs % size
    let effective := effective previousCount currentCount size elapsed
    if effective > limiter.maxRequests * size then
      some (limiter,
        .returned (rejected limiter.maxRequests currentCount previousCount size elapsed))
    else if limiter.currentCount = currentCount ∧ spurious = false then
      some ({ limiter with currentCount := currentCount + 1 },
        .returned (admitted (limiter.maxRequests * size) effective size elapsed))
    else some (limiter, .exchangeCount previousCount limiter.currentCount)
  | .returned _ => none
  | .panicked => none

structure Shared where
  limiter : SlidingWindow
  clockMs : Nat
  deriving DecidableEq, Repr

/-- A call reads the clock when it starts, which never goes back. -/
def program : Program Shared CheckCall Nat Bool where
  start shared nowMs :=
    if shared.clockMs ≤ nowMs then
      some ({ shared with clockMs := nowMs }, [⟨nowMs, .loadCurrentWindow⟩])
    else none
  move shared call spurious :=
    (advance shared.limiter call.nowMs spurious call.point).map fun moved =>
      ({ shared with limiter := moved.1 }, { call with point := moved.2 })

def idle (cfg : LimiterConfig) : Pool Shared CheckCall := ⟨⟨SlidingWindow.new cfg, 0⟩, []⟩

def alone (limiter : SlidingWindow) (nowMs : Nat) : Nat → CheckPoint → SlidingWindow × CheckPoint
  | 0, point => (limiter, point)
  | steps + 1, point =>
    match advance limiter nowMs false point with
    | some (next, nextPoint) => alone next nowMs steps nextPoint
    | none => (limiter, point)

theorem alone_succ {limiter next : SlidingWindow} {nowMs : Nat} {point nextPoint : CheckPoint}
    (moves : advance limiter nowMs false point = some (next, nextPoint)) (steps : Nat) :
    alone limiter nowMs (steps + 1) point = alone next nowMs steps nextPoint := by
  rw [alone, moves]

theorem alone_returned (limiter : SlidingWindow) (nowMs steps : Nat) (result : RateLimitResult) :
    alone limiter nowMs steps (.returned result) = (limiter, .returned result) := by
  cases steps with
  | zero | succ => rfl

/-- What a call decides once the window has been rolled. -/
def decision (limiter : SlidingWindow) (nowMs : Nat) : SlidingWindow × CheckPoint :=
  let settled := limiter.settle (nowMs / limiter.windowSizeMs) (nowMs % limiter.windowSizeMs)
  (settled.2, .returned settled.1)

theorem alone_exchangeCount (limiter : SlidingWindow) (nowMs steps : Nat) :
    alone limiter nowMs (steps + 1)
        (.exchangeCount (limiter.previousIn (nowMs / limiter.windowSizeMs)) limiter.currentCount) =
      decision limiter nowMs := by
  unfold decision settle alone advance
  by_cases exceeds : effective (limiter.previousIn (nowMs / limiter.windowSizeMs))
      limiter.currentCount limiter.windowSizeMs (nowMs % limiter.windowSizeMs) >
        limiter.maxRequests * limiter.windowSizeMs
  · simp only [if_pos exceeds, alone_returned]
  · simp only [if_neg exceeds, and_self, if_true, alone_returned]

theorem alone_loadPreviousWindow (limiter : SlidingWindow) (nowMs steps : Nat) :
    alone limiter nowMs (steps + 4) .loadPreviousWindow = decision limiter nowMs := by
  by_cases follows : limiter.previousWindow + 1 = nowMs / limiter.windowSizeMs
  · have isPrevious : limiter.previousIn (nowMs / limiter.windowSizeMs) = limiter.previousCount :=
      if_pos follows
    have moves : advance limiter nowMs false .loadPreviousWindow =
        some (limiter, .loadPreviousCount) := if_pos follows
    rw [alone_succ moves, alone_succ rfl, alone_succ rfl, ← isPrevious, alone_exchangeCount]
  · have isPrevious : limiter.previousIn (nowMs / limiter.windowSizeMs) = 0 := if_neg follows
    have moves : advance limiter nowMs false .loadPreviousWindow =
        some (limiter, .loadCurrentCount 0) := if_neg follows
    rw [alone_succ moves, alone_succ rfl, ← isPrevious, alone_exchangeCount]

/-- A call that no other call interrupts is the sequential `check`. -/
theorem alone_eq_check (limiter : SlidingWindow) (nowMs : Nat) :
    alone limiter nowMs 9 .loadCurrentWindow =
      match limiter.check nowMs with
      | .ok (result, after) => (after, .returned result)
      | .panic => (limiter, .panicked) := by
  unfold check windowOf
  by_cases empty : limiter.windowSizeMs = 0
  · have moves : advance limiter nowMs false .loadCurrentWindow = some (limiter, .panicked) :=
      if_pos empty
    rw [alone_succ moves, if_pos empty]
    rfl
  · rw [if_neg empty, Outcome.map_ok]
    by_cases moved : limiter.currentWindow ≠ nowMs / limiter.windowSizeMs
    · have isRolled : limiter.roll (nowMs / limiter.windowSizeMs) = _ := if_pos moved
      have moves : advance limiter nowMs false .loadCurrentWindow =
          some (limiter, .exchangeWindow limiter.currentWindow) :=
        (if_neg empty).trans (if_pos moved)
      have exchanges : advance limiter nowMs false (.exchangeWindow limiter.currentWindow) =
          some (_, .swapCount limiter.currentWindow) := if_pos rfl
      rw [alone_succ moves, alone_succ exchanges, alone_succ rfl, alone_succ rfl, alone_succ rfl,
        alone_loadPreviousWindow, isRolled, decision]
      rfl
    · have isRolled : limiter.roll (nowMs / limiter.windowSizeMs) = limiter := if_neg moved
      have moves : advance limiter nowMs false .loadCurrentWindow =
          some (limiter, .loadPreviousWindow) := (if_neg empty).trans (if_neg moved)
      rw [alone_succ moves, alone_loadPreviousWindow, isRolled, decision]

def admittedIn (size window : Nat) (call : CheckCall) : Bool :=
  match call.point with
  | .returned result => result.allowed && decide (call.nowMs / size = window)
  | _ => false

/-- Whether a call has begun a window and not yet emptied its count. -/
def isPending (call : CheckCall) : Bool :=
  match call.point with
  | .swapCount _ => true
  | _ => false

def admissions (size window : Nat) (calls : List CheckCall) : Nat :=
  calls.countP (admittedIn size window)

/-- A window begins only later windows, and a request is admitted only in the window
of its own time, while no window is between its beginning and the swap of its
count. -/
def Orderly (pool : Pool Shared CheckCall) (call : CheckCall) (spurious : Bool) : Prop :=
  let limiter := pool.shared.limiter
  let size := limiter.windowSizeMs
  match call.point with
  | .exchangeWindow current => limiter.currentWindow = current → current < call.nowMs / size
  | .exchangeCount previousCount currentCount =>
    effective previousCount currentCount size (call.nowMs % size) ≤ limiter.maxRequests * size →
      limiter.currentCount = currentCount → spurious = false →
        limiter.currentWindow = call.nowMs / size ∧ ∀ other ∈ pool.calls, other.isPending = false
  | _ => True

instance (pool : Pool Shared CheckCall) (call : CheckCall) (spurious : Bool) :
    Decidable (Orderly pool call spurious) := by
  obtain ⟨nowMs, point⟩ := call
  unfold Orderly
  cases point <;> infer_instance

section Invariant

variable {cfg : LimiterConfig}

/-- The counts that a call holds are at most the limit. -/
def LoadedLe (limit : Nat) (call : CheckCall) : Prop :=
  match call.point with
  | .storePreviousCount _ old => old ≤ limit
  | .loadCurrentCount previousCount => previousCount ≤ limit
  | .exchangeCount previousCount currentCount => previousCount ≤ limit ∧ currentCount ≤ limit
  | _ => True

/-- The counts cover the admissions of the current window, and no window has too many. -/
structure Safe (cfg : LimiterConfig) (limiter : SlidingWindow) (calls : List CheckCall) :
    Prop where
  isMax : limiter.maxRequests = cfg.limit
  isSecs : limiter.windowSecs = cfg.window
  untouched : ∀ window, limiter.currentWindow < window →
    admissions limiter.windowSizeMs window calls = 0
  emptied : (∃ call ∈ calls, call.isPending = true) →
    admissions limiter.windowSizeMs limiter.currentWindow calls = 0
  covered : admissions limiter.windowSizeMs limiter.currentWindow calls ≤ limiter.currentCount
  within : ∀ window, admissions limiter.windowSizeMs window calls ≤ cfg.limit
  countLe : limiter.currentCount ≤ cfg.limit
  previousLe : limiter.previousCount ≤ cfg.limit
  loaded : ∀ call ∈ calls, call.LoadedLe cfg.limit

variable {limiter limiter' : SlidingWindow} {before after : List CheckCall}
  {call call' : CheckCall}

theorem admissions_split (size window : Nat) (before after : List CheckCall) (call : CheckCall) :
    admissions size window (before ++ call :: after) =
      admissions size window (before ++ after) + (admittedIn size window call).toNat :=
  countP_beside _ before after call

theorem admissions_of_not (size window : Nat) (before after : List CheckCall)
    (notAdmitted : admittedIn size window call = false) :
    admissions size window (before ++ call :: after) =
      admissions size window (before ++ after) := by
  rw [admissions_split, notAdmitted]
  rfl

/-- A change that leaves the admissions as they are, and either keeps the window and its
count or ends in a window without any. -/
theorem Safe.of_same {calls calls' : List CheckCall}
    {currentWindow currentCount previousWindow previousCount : Nat} (safe : Safe cfg limiter calls)
    (same : ∀ window, admissions limiter.windowSizeMs window calls' =
      admissions limiter.windowSizeMs window calls)
    (loaded : ∀ call ∈ calls', call.LoadedLe cfg.limit)
    (forward : limiter.currentWindow ≤ currentWindow)
    (countLe : currentCount ≤ cfg.limit) (previousLe : previousCount ≤ cfg.limit)
    (settled : admissions limiter.windowSizeMs currentWindow calls = 0 ∨
      currentWindow = limiter.currentWindow ∧ currentCount = limiter.currentCount ∧
        ∀ call ∈ calls', call.isPending = true → call ∈ calls) :
    Safe cfg { limiter with currentWindow, currentCount, previousWindow, previousCount }
      calls' := by
  constructor
  · exact safe.isMax
  · exact safe.isSecs
  · intro window isLater
    exact (same window).trans (safe.untouched window (forward.trans_lt isLater))
  · rintro ⟨other, member, pending⟩
    refine (same _).trans ?_
    rcases settled with none | ⟨rfl, rfl, kept⟩
    · exact none
    · exact safe.emptied ⟨other, kept other member pending, pending⟩
  · refine (same _).le.trans ?_
    rcases settled with none | ⟨rfl, rfl, _⟩
    · exact none.le.trans (Nat.zero_le _)
    · exact safe.covered
  · intro window
    exact (same window).le.trans (safe.within window)
  · exact countLe
  · exact previousLe
  · exact loaded

section

variable (safe : Safe cfg limiter (before ++ call :: after))

include safe

/-- A call moves on without an admission. -/
theorem Safe.moved {currentWindow currentCount previousWindow previousCount : Nat}
    (wasNot : ∀ size window, admittedIn size window call = false)
    (isNot : ∀ size window, admittedIn size window call' = false)
    (loaded : call'.LoadedLe cfg.limit) (forward : limiter.currentWindow ≤ currentWindow)
    (countLe : currentCount ≤ cfg.limit) (previousLe : previousCount ≤ cfg.limit)
    (settled : admissions limiter.windowSizeMs currentWindow (before ++ call :: after) = 0 ∨
      currentWindow = limiter.currentWindow ∧ currentCount = limiter.currentCount ∧
        call'.isPending = false) :
    Safe cfg { limiter with currentWindow, currentCount, previousWindow, previousCount }
      (before ++ call' :: after) := by
  refine safe.of_same (fun window => ?_) (forall_move safe.loaded loaded) forward countLe previousLe
    (settled.imp_right fun ⟨sameWindow, sameCount, notPending⟩ => ⟨sameWindow, sameCount, ?_⟩)
  · rw [admissions_of_not _ _ _ _ (isNot _ _), admissions_of_not _ _ _ _ (wasNot _ _)]
  · grind

theorem Safe.frame {previousWindow previousCount : Nat} (previousLe : previousCount ≤ cfg.limit)
    (wasNot : ∀ size window, admittedIn size window call = false)
    (isNot : ∀ size window, admittedIn size window call' = false)
    (notPending : call'.isPending = false) (loaded : call'.LoadedLe cfg.limit) :
    Safe cfg { limiter with previousWindow, previousCount } (before ++ call' :: after) :=
  safe.moved wasNot isNot loaded (Nat.le_refl _) safe.countLe previousLe
    (Or.inr ⟨rfl, rfl, notPending⟩)

end

theorem Safe.admit {nowMs : Nat} {result : RateLimitResult}
    (safe : Safe cfg limiter (before ++ call :: after))
    (wasNot : ∀ size window, admittedIn size window call = false)
    (isNow : limiter.currentWindow = nowMs / limiter.windowSizeMs)
    (quiet : ∀ other ∈ before ++ call :: after, other.isPending = false)
    (hasRoom : limiter.currentCount + 1 ≤ cfg.limit) :
    Safe cfg { limiter with currentCount := limiter.currentCount + 1 }
      (before ++ ⟨nowMs, .returned result⟩ :: after) := by
  have beside : ∀ window, admissions limiter.windowSizeMs window (before ++ after) =
      admissions limiter.windowSizeMs window (before ++ call :: after) :=
    fun window => (admissions_of_not _ _ _ _ (wasNot _ _)).symm
  have elsewhere : ∀ window, window ≠ limiter.currentWindow →
      admissions limiter.windowSizeMs window (before ++ ⟨nowMs, .returned result⟩ :: after) =
        admissions limiter.windowSizeMs window (before ++ call :: after) := by
    intro window other
    have notIn : admittedIn limiter.windowSizeMs window ⟨nowMs, .returned result⟩ = false := by
      simp [admittedIn, ← isNow, Ne.symm other]
    rw [admissions_of_not _ _ _ _ notIn, beside]
  have covered :
      admissions limiter.windowSizeMs limiter.currentWindow
        (before ++ ⟨nowMs, .returned result⟩ :: after) ≤ limiter.currentCount + 1 := by
    rw [admissions_split, beside]
    exact Nat.add_le_add safe.covered (Bool.toNat_le _)
  constructor
  · exact safe.isMax
  · exact safe.isSecs
  · intro window isLater
    exact (elsewhere window (Nat.ne_of_gt isLater)).trans (safe.untouched window isLater)
  · rintro ⟨other, member, pending⟩
    rcases mem_beside member with rfl | member
    · cases pending
    · rw [quiet other member] at pending
      cases pending
  · exact covered
  · intro window
    by_cases same : window = limiter.currentWindow
    · subst same
      exact covered.trans hasRoom
    · exact (elsewhere window same).le.trans (safe.within window)
  · exact hasRoom
  · exact safe.previousLe
  · exact forall_move safe.loaded trivial

theorem hasRoom_of_effective_le {limit size previousCount currentCount elapsed : Nat}
    (positive : size ≠ 0) (exact' : (2 * limit + 1) * size < 2 ^ 128)
    (previousLe : previousCount ≤ limit) (countLe : currentCount ≤ limit)
    (within : effective previousCount currentCount size elapsed ≤ limit * size) :
    currentCount + 1 ≤ limit := by
  have weighted : previousCount * (size - elapsed) ≤ limit * size :=
    Nat.mul_le_mul previousLe (Nat.sub_le _ _)
  have counted : (currentCount + 1) * size ≤ (limit + 1) * size :=
    Nat.mul_le_mul_right size (Nat.succ_le_succ countLe)
  have whole : (2 * limit + 1) * size = limit * size + (limit + 1) * size := by ring
  unfold effective at within
  rw [Nat.mod_eq_of_lt (by omega)] at within
  exact Nat.le_of_mul_le_mul_right ((Nat.le_add_left _ _).trans within)
    (Nat.pos_of_ne_zero positive)

theorem Safe.move {nowMs clockMs : Nat} {point next : CheckPoint} {spurious : Bool}
    (safe : Safe cfg limiter (before ++ ⟨nowMs, point⟩ :: after))
    (positive : limiter.windowSizeMs ≠ 0)
    (exact' : (2 * cfg.limit + 1) * limiter.windowSizeMs < 2 ^ 128)
    (orderly : Orderly ⟨⟨limiter, clockMs⟩, before ++ ⟨nowMs, point⟩ :: after⟩
      ⟨nowMs, point⟩ spurious)
    (moves : advance limiter nowMs spurious point = some (limiter', next)) :
    Safe cfg limiter' (before ++ ⟨nowMs, next⟩ :: after) := by
  have loaded := safe.loaded _ (mem_append_right _ mem_cons_self)
  revert moves
  fun_cases advance limiter nowMs spurious point <;> intro moves <;> cases moves
  case case1 empty => exact absurd empty positive
  case case4 =>
    have forward := orderly rfl
    exact safe.moved (fun _ _ => rfl) (fun _ _ => rfl) trivial forward.le safe.countLe
      safe.previousLe (Or.inl (safe.untouched _ forward))
  case case6 =>
    exact safe.moved (fun _ _ => rfl) (fun _ _ => rfl) safe.countLe (Nat.le_refl _) (Nat.zero_le _)
      safe.previousLe (Or.inl (safe.emptied ⟨_, mem_append_right _ mem_cons_self, rfl⟩))
  case case7 => exact safe.frame loaded (fun _ _ => rfl) (fun _ _ => rfl) rfl trivial
  case case14 within succeeds =>
    have le := Nat.not_lt.mp within
    obtain ⟨isNow, quiet⟩ := orderly le succeeds.1 succeeds.2
    rw [safe.isMax] at le
    have hasRoom := hasRoom_of_effective_le positive exact' loaded.1 loaded.2 le
    obtain ⟨rfl, _⟩ := succeeds
    exact safe.admit (fun _ _ => rfl) isNow quiet hasRoom
  -- the other steps only load
  all_goals refine safe.frame safe.previousLe (fun _ _ => rfl) (fun _ _ => rfl) rfl ?_
  case case10 => exact Nat.zero_le _
  case case11 => exact safe.previousLe
  case case12 => exact ⟨loaded, safe.countLe⟩
  case case15 => exact ⟨loaded.1, safe.countLe⟩
  all_goals trivial

theorem Safe.start {started : Shared} {calls added : List CheckCall} {nowMs : Nat}
    {shared : Shared} (safe : Safe cfg shared.limiter calls)
    (starts : program.start shared nowMs = some (started, added)) :
    Safe cfg started.limiter (calls ++ added) := by
  have isStart := starts
  unfold program at isStart
  simp only at isStart
  split at isStart
  · cases isStart
    have same : ∀ window,
        admissions shared.limiter.windowSizeMs window (calls ++ [⟨nowMs, .loadCurrentWindow⟩]) =
          admissions shared.limiter.windowSizeMs window calls := fun window => by
      rw [admissions_of_not _ _ _ _ rfl, append_nil]
    refine safe.of_same same
      (forall_mem_append.mpr ⟨safe.loaded, forall_mem_singleton.mpr trivial⟩) (Nat.le_refl _)
      safe.countLe safe.previousLe (Or.inr ⟨rfl, rfl, fun other member pending => ?_⟩)
    rcases mem_append.mp member with member | member
    · exact member
    · cases mem_singleton.mp member
      cases pending
  · cases isStart

/-- Every step of an orderly run keeps the pool safe. -/
theorem Safe.step {pool pool' : Pool Shared CheckCall}
    (safe : Safe cfg pool.shared.limiter pool.calls)
    (positive : wrappingMul cfg.window 1000 ≠ 0)
    (exact' : (2 * cfg.limit + 1) * wrappingMul cfg.window 1000 < 2 ^ 128)
    (step : program.Step Orderly pool pool') : Safe cfg pool'.shared.limiter pool'.calls := by
  cases step with
  | start starts => exact safe.start starts
  | @move shared _ _ _ call _ _ guarded moves =>
    obtain ⟨limiter, clockMs⟩ := shared
    obtain ⟨nowMs, point⟩ := call
    obtain ⟨⟨limiter', next⟩, advances, isMoved⟩ := Option.map_eq_some_iff.mp moves
    cases isMoved
    have isSize : limiter.windowSizeMs = wrappingMul cfg.window 1000 :=
      congrArg (wrappingMul · 1000) safe.isSecs
    exact safe.move (isSize ▸ positive) (isSize ▸ exact') guarded advances

theorem new_safe (cfg : LimiterConfig) : Safe cfg (SlidingWindow.new cfg) [] where
  isMax := rfl
  isSecs := rfl
  untouched _ _ := rfl
  emptied _ := rfl
  covered := Nat.le_refl _
  within _ := Nat.zero_le _
  countLe := Nat.zero_le _
  previousLe := Nat.zero_le _
  loaded _ member := nomatch member

/-- In a window of no length a call has not moved, or it has panicked. -/
structure Stuck (pool : Pool Shared CheckCall) : Prop where
  empty : pool.shared.limiter.windowSizeMs = 0
  points : ∀ call ∈ pool.calls, call.point = .loadCurrentWindow ∨ call.point = .panicked

theorem idle_stuck (empty : wrappingMul cfg.window 1000 = 0) : Stuck (idle cfg) := by
  constructor
  · change wrappingMul cfg.window 1000 = 0
    exact empty
  · intro call member
    cases member

theorem Stuck.step {pool pool' : Pool Shared CheckCall} (stuck : Stuck pool)
    (step : program.Step Orderly pool pool') : Stuck pool' := by
  obtain ⟨empty, points⟩ := stuck
  cases step with
  | start starts =>
    unfold program at starts
    simp only at starts
    split at starts
    · cases starts
      exact ⟨empty, forall_mem_append.mpr ⟨points, forall_mem_singleton.mpr (Or.inl rfl)⟩⟩
    · cases starts
  | @move shared _ _ _ call _ _ guarded moves =>
    obtain ⟨moved, advances, isMoved⟩ := Option.map_eq_some_iff.mp moves
    cases isMoved
    rcases points call (mem_append_right _ mem_cons_self) with isPoint | isPoint
    · rw [isPoint, advance, if_pos empty] at advances
      cases advances
      exact ⟨empty, forall_move points (Or.inr rfl)⟩
    · rw [isPoint] at advances
      cases advances

end Invariant

end CheckCall

/-- Where the length of the window and the weighted sums fit into their words, an
orderly run of any number of concurrent checks admits no more requests in a fixed
window than the limit. -/
theorem concurrent_checks_within_limit (cfg : LimiterConfig) (fits : cfg.window * 1000 < wordCount)
    (sums : (2 * cfg.limit + 1) * (cfg.window * 1000) < 2 ^ 128)
    {pool : Pool CheckCall.Shared CheckCall}
    (run : CheckCall.program.Run CheckCall.Orderly (CheckCall.idle cfg) pool) (window : Nat) :
    CheckCall.admissions (cfg.window * 1000) window pool.calls ≤ cfg.limit := by
  have isSize : wrappingMul cfg.window 1000 = cfg.window * 1000 := wrappingMul_of_lt fits
  by_cases empty : wrappingMul cfg.window 1000 = 0
  · have stuck : CheckCall.Stuck pool :=
      Program.Run.invariant (fun _ _ => CheckCall.Stuck.step) (CheckCall.idle_stuck empty) run
    have none : CheckCall.admissions (cfg.window * 1000) window pool.calls = 0 := by
      apply countP_eq_zero.mpr
      intro call member
      rcases stuck.points call member with isPoint | isPoint
      · simp [CheckCall.admittedIn, isPoint]
      · simp [CheckCall.admittedIn, isPoint]
    rw [none]
    exact Nat.zero_le _
  · have safe : CheckCall.Safe cfg pool.shared.limiter pool.calls :=
      Program.Run.invariant (fun _ _ safe step =>
        CheckCall.Safe.step safe empty (isSize.symm ▸ sums) step) (CheckCall.new_safe cfg) run
    have isSecs : pool.shared.limiter.windowSizeMs = cfg.window * 1000 :=
      (congrArg (wrappingMul · 1000) safe.isSecs).trans isSize
    have within := safe.within window
    rw [isSecs] at within
    exact within

/-- Two calls find window 0 current at the beginning of window 1.  The first one begins the
window, and the exchange of the second fails; both load the count 0, so that the second
has to try its exchange again.  A third call of the window comes behind them. -/
def rolledOver : List (Program.Command Nat Bool) :=
  [.start 1000, .start 1500, .move 0 false, .move 1 false, .move 0 false, .move 1 false] ++
    List.replicate 4 (.move 0 false) ++ List.replicate 3 (.move 1 false) ++
    List.replicate 3 (.move 0 false) ++ List.replicate 2 (.move 1 false) ++
    .start 1999 :: List.replicate 5 (.move 2 false)

/-- Two requests a second: of the three calls two are admitted, in no window more. -/
theorem concurrent_checks_within_limit_rolled :
    ∃ pool, CheckCall.program.play CheckCall.Orderly
        (CheckCall.idle ⟨2, 1, 0, .slidingWindow⟩) rolledOver = some pool ∧
      pool.shared.limiter.currentWindow = 1 ∧ CheckCall.admissions 1000 1 pool.calls = 2 ∧
      pool.calls.length = 3 ∧ ∀ window, CheckCall.admissions 1000 window pool.calls ≤ 2 := by
  have played : ((CheckCall.program.play CheckCall.Orderly
      (CheckCall.idle ⟨2, 1, 0, .slidingWindow⟩) rolledOver).map fun pool =>
        (pool.shared.limiter.currentWindow, CheckCall.admissions 1000 1 pool.calls,
          pool.calls.length)) = some (1, 2, 3) := by
    decide
  obtain ⟨pool, isPool, same⟩ := Option.map_eq_some_iff.mp played
  simp only [Prod.mk.injEq] at same
  refine ⟨pool, isPool, same.1, same.2.1, same.2.2, ?_⟩
  exact concurrent_checks_within_limit ⟨2, 1, 0, .slidingWindow⟩ (by decide) (by decide)
    (Program.run_of_play _ isPool)

/-- Two calls at the beginning of a window are overtaken by a call at its end, which
begins the window before they move and empties its count after they were admitted. -/
def overtaken : List (Program.Command Nat Bool) :=
  [.start 1000, .start 1000, .start 1999] ++ List.replicate 2 (.move 2 false) ++
    List.replicate 5 (.move 0 false) ++ List.replicate 5 (.move 1 false) ++
    List.replicate 7 (.move 2 false)

/-- Two requests a second, and three that are admitted in one window. -/
theorem late_swap_admits_more :
    ∃ pool, CheckCall.program.Run (fun _ _ _ => True)
        (CheckCall.idle ⟨2, 1, 0, .slidingWindow⟩) pool ∧
      2 < CheckCall.admissions 1000 1 pool.calls := by
  have admits : ((CheckCall.program.play (fun _ _ _ => True)
      (CheckCall.idle ⟨2, 1, 0, .slidingWindow⟩) overtaken).map fun pool =>
        CheckCall.admissions 1000 1 pool.calls) = some 3 := by
    decide
  obtain ⟨pool, played, three⟩ := Option.map_eq_some_iff.mp admits
  exact ⟨pool, Program.run_of_play _ played, three ▸ Nat.lt_succ_self 2⟩

end Ophan.Limiter
