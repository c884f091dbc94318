import Mathlib.Data.List.Basic
import Mathlib.Logic.Relation
import Mathlib.Tactic.Tauto

/-!
# Interleaved calls

Calls that run at the same time over a shared state.  A program says how a call
starts and what one atomic step of a call does; a choice resolves what the step
leaves open.  A run starts calls and moves any of them, in any order.
-/

namespace Ophan

universe u v w x

structure Pool (σ : Type u) (τ : Type v) where
  shared : σ
  calls : List τ
  deriving DecidableEq, Repr

section Beside

variable {τ : Type v} {before after : List τ} {call call' other : τ}

theorem countP_beside (test : τ → Bool) (before after : List τ) (call : τ) :
    (before ++ call :: after).countP test = (before ++ after).countP test + (test call).toNat := by
  simp only [List.countP_append, List.countP_cons]
  cases test call <;> simp [Nat.add_assoc]

theorem mem_move : call' ∈ before ++ call :: after ↔ call' = call ∨ call' ∈ before ++ after := by
  simp only [List.mem_append, List.mem_cons]
  tauto

theorem mem_moving : call ∈ before ++ call :: after := mem_move.mpr (Or.inl rfl)

theorem mem_beside (member : other ∈ before ++ call' :: after) :
    other = call' ∨ other ∈ before ++ call :: after :=
  (mem_move.mp member).imp_right fun beside => mem_move.mpr (Or.inr beside)

/-- What holds of all calls holds of them after a move, if it does of the moved one. -/
theorem forall_move {holds : τ → Prop} (all : ∀ other ∈ before ++ call :: after, holds other)
    (moved : holds call') : ∀ other ∈ before ++ call' :: after, holds other := by
  intro other member
  rcases mem_beside member with rfl | there
  · exact moved
  · exact all other there

theorem not_beside {test : τ → Bool} (atMost : (before ++ call :: after).countP test ≤ 1) (passes : test call = true)
    (beside : other ∈ before ++ after) : test other = false := by
  rw [countP_beside, passes] at atMost
  have nobody : (before ++ after).countP test = 0 := Nat.le_zero.mp (Nat.le_of_succ_le_succ atMost)
  exact Bool.eq_false_iff.mpr (List.countP_eq_zero.mp nobody other beside)

end Beside

structure Program (σ : Type u) (τ : Type v) (ι : Type w) (χ : Type x) where
  start : σ → ι → Option (σ × List τ)
  move : σ → τ → χ → Option (σ × τ)

namespace Program

variable {σ : Type u} {τ : Type v} {ι : Type w} {χ : Type x}

/-- One step of a run; a guard limits the moves by the pool before them. -/
inductive Step (program : Program σ τ ι χ) (guard : Pool σ τ → τ → χ → Prop) :
    Pool σ τ → Pool σ τ → Prop where
  | start {shared shared' : σ} {calls started : List τ} {input : ι}
      (starts : program.start shared input = some (shared', started)) :
      Step program guard ⟨shared, calls⟩ ⟨shared', calls ++ started⟩
  | move {shared shared' : σ} {before after : List τ} {call call' : τ} {choice : χ}
      (guarded : guard ⟨shared, before ++ call :: after⟩ call choice)
      (moves : program.move shared call choice = some (shared', call')) :
      Step program guard ⟨shared, before ++ call :: after⟩ ⟨shared', before ++ call' :: after⟩

def Run (program : Program σ τ ι χ) (guard : Pool σ τ → τ → χ → Prop) :
    Pool σ τ → Pool σ τ → Prop :=
  Relation.ReflTransGen (program.Step guard)

/-- What every step keeps holds along a run. -/
theorem Run.invariant {program : Program σ τ ι χ} {guard : Pool σ τ → τ → χ → Prop}
    {holds : Pool σ τ → Prop}
    (keeps : ∀ pool pool', holds pool → program.Step guard pool pool' → holds pool')
    {pool pool' : Pool σ τ} (initially : holds pool) (run : program.Run guard pool pool') :
    holds pool' := by
  induction run with
  | refl => exact initially
  | tail _ step ih => exact keeps _ _ ih step

inductive Command (ι : Type w) (χ : Type x) where
  | start (input : ι)
  | move (index : Nat) (choice : χ)
  deriving Repr

section Schedule

variable (program : Program σ τ ι χ) (guard : Pool σ τ → τ → χ → Prop)
  [∀ pool call choice, Decidable (guard pool call choice)]

def exec (pool : Pool σ τ) : Command ι χ → Option (Pool σ τ)
  | .start input =>
    (program.start pool.shared input).map fun started => ⟨started.1, pool.calls ++ started.2⟩
  | .move index choice =>
    pool.calls[index]?.bind fun call =>
      if guard pool call choice then
        (program.move pool.shared call choice).map fun moved =>
          ⟨moved.1, pool.calls.take index ++ moved.2 :: pool.calls.drop (index + 1)⟩
      else none

def play (pool : Pool σ τ) : List (Command ι χ) → Option (Pool σ τ)
  | [] => some pool
  | command :: rest => (program.exec guard pool command).bind fun next => play next rest

variable {program guard}

theorem exec_step {pool pool' : Pool σ τ} {command : Command ι χ}
    (isNext : program.exec guard pool command = some pool') :
    program.Step guard pool pool' := by
  cases command with
  | start input =>
    obtain ⟨started, starts, rfl⟩ := Option.map_eq_some_iff.mp isNext
    exact .start starts
  | move index choice =>
    obtain ⟨call, isCall, isMoved⟩ := Option.bind_eq_some_iff.mp isNext
    obtain ⟨guarded, isMoved⟩ := (Option.ite_none_right_eq_some).mp isMoved
    obtain ⟨moved, moves, rfl⟩ := Option.map_eq_some_iff.mp isMoved
    obtain ⟨inside, isCall⟩ := List.getElem?_eq_some_iff.mp isCall
    obtain ⟨shared, calls⟩ := pool
    have split : calls = calls.take index ++ call :: calls.drop (index + 1) := by
      rw [← isCall, ← List.drop_eq_getElem_cons inside, List.take_append_drop]
    rw [split] at guarded
    have step : program.Step guard
        ⟨shared, calls.take index ++ call :: calls.drop (index + 1)⟩ _ := .move guarded moves
    rw [← split] at step
    exact step

/-- A schedule that can be carried out is a run. -/
theorem run_of_play {pool pool' : Pool σ τ} (schedule : List (Command ι χ))
    (played : program.play guard pool schedule = some pool') :
    program.Run guard pool pool' := by
  induction schedule generalizing pool with
  | nil =>
    cases played
    exact .refl
  | cons command rest ih =>
    obtain ⟨next, isNext, playedRest⟩ := Option.bind_eq_some_iff.mp played
    exact .head (exec_step isNext) (ih playedRest)

end Schedule

end Program

section Total

variable {σ : Type u}

/-- Whichever steps are taken, the goal is reached after finitely many of them. -/
inductive Eventually (step : σ → σ → Prop) (goal : σ → Prop) : σ → Prop where
  | now {state : σ} (reached : goal state) : Eventually step goal state
  | later {state : σ} (goes : ∃ next, step state next)
      (all : ∀ next, step state next → Eventually step goal next) : Eventually step goal state

variable {step : σ → σ → Prop} {goal holds : σ → Prop} {state last : σ}

/-- Steps that cannot go on for ever reach what holds wherever they stop. -/
theorem Eventually.of_wellFounded (ends : WellFounded fun next state => step state next)
    (keeps : ∀ state next, holds state → step state next → holds next)
    (stops : ∀ state, holds state → (∀ next, ¬ step state next) → goal state)
    (initially : holds state) : Eventually step goal state := by
  induction state using ends.induction with
  | _ state ih =>
    by_cases goes : ∃ next, step state next
    · exact .later goes fun next isNext => ih next isNext (keeps state next initially isNext)
    · exact .now (stops state initially (not_exists.mp goes))

/-- A goal at which nothing goes on holds wherever a run stops. -/
theorem Eventually.goal_of_stop (eventually : Eventually step goal state)
    (final : ∀ state next, goal state → ¬ step state next)
    (run : Relation.ReflTransGen step state last) (stops : ∀ next, ¬ step last next) :
    goal last := by
  induction eventually with
  | now reached =>
    rcases run.cases_head with rfl | ⟨next, isNext, _⟩
    · exact reached
    · exact absurd isNext (final _ next reached)
  | later goes _ ih =>
    rcases run.cases_head with rfl | ⟨next, isNext, rest⟩
    · exact absurd goes (not_exists.mpr stops)
    · exact ih next isNext rest

end Total

end Ophan
