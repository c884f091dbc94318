import Mathlib.Order.Basic
import Ophan.Cache.Ufo

/-!
# Invalidation of the file cache

`Filesystem` remembers the objects that it read from disk and the paths that it did
not find there.  A load stores what it read in a later step, without a look at the
invalidations since.  Reads and invalidations have numbers, by which an answer tells
the read that is behind it.
-/

namespace Ophan.Static.Filesystem

open Ufo

universe u v

inductive ErrorKind where
  | notFound
  | other
  deriving DecidableEq, Repr

/-- Upper bound for how long a failed probe is remembered. -/
def missTtl : Nat := 2 * 1000000000

/-- A call of `fetch_or_load`, alone or inside of `probe`, with the number of the last
invalidation of its path that had returned when it started. -/
structure Request (Path : Type u) where
  isProbe : Bool
  path : Path
  ttl : Option Nat
  since : Nat

/-- The objects and the misses with the numbers of their reads, and for every path the
numbers of its last invalidation that has begun and that has returned. -/
structure Shared (Path : Type u) (Object : Type v) where
  cache : MemoryCache Path (Object × Nat) Empty
  misses : MemoryCache Path Nat Empty
  defaultTtl : Nat
  clock : Nat
  number : Nat
  begun : Path → Nat
  returned : Path → Nat

/-- The next operation of a call; `reload` goes on with the load behind an
invalidation. -/
inductive Point (Path : Type u) (Object : Type v) where
  | probeMiss (request : Request Path)
  | checkMiss (request : Request Path)
  | checkCache (request : Request Path)
  | load (request : Request Path)
  | store (request : Request Path) (readAt : Nat) (loaded : Except ErrorKind Object)
  | removeObject (path : Path) (reload : Option (Option Nat))
  | removeMiss (path : Path) (begunAt : Nat) (reload : Option (Option Nat))
  | returned (request : Request Path) (source : Option Nat)
      (result : Except ErrorKind (Option Object))
  | invalidated

inductive Input (Path : Type u) where
  | fetchOrLoad (path : Path) (ttl : Option Nat)
  | probe (path : Path) (ttl : Option Nat)
  | reload (path : Path) (ttl : Option Nat)
  | invalidate (path : Path)
  -- the clock, and what the caches drop for their size
  | tick (now : Nat)
  | evictObject (path : Path)
  | evictMiss (path : Path)

variable {Path : Type u} {Object : Type v}

/-- What a call returns; a missing path is no error of `probe`. -/
def Request.give (request : Request Path) :
    Except ErrorKind Object → Except ErrorKind (Option Object)
  | .ok object => .ok (some object)
  | .error .notFound => if request.isProbe then .ok none else .error .notFound
  | .error error => .error error

section Steps

variable [DecidableEq Path]

def remove {α : Type*} (cache : MemoryCache Path α Empty) (path : Path) :
    MemoryCache Path α Empty :=
  { cache with inner := cache.inner.erase path }

/-- The operation at a point; what the disk holds when it is read is left open. -/
def advance (shared : Shared Path Object) (disk : Except ErrorKind Object) :
    Point Path Object → Option (Shared Path Object × Point Path Object)
  | .probeMiss request =>
    match shared.misses.getValue request.path shared.clock with
    | some readAt => some (shared, .returned request (some readAt) (.ok none))
    | none => some (shared, .checkMiss request)
  | .checkMiss request =>
    match shared.misses.getValue request.path shared.clock with
    | some readAt =>
      some (shared, .returned request (some readAt) (request.give (.error .notFound)))
    | none => some (shared, .checkCache request)
  | .checkCache request =>
    match shared.cache.getValue request.path shared.clock with
    | some (object, readAt) =>
      some (shared, .returned request (some readAt) (request.give (.ok object)))
    | none => some (shared, .load request)
  | .load request =>
    some ({ shared with number := shared.number + 1 }, .store request shared.number disk)
  | .store request readAt loaded =>
    let ttl := request.ttl.getD shared.defaultTtl
    some (match loaded with
      | .ok object =>
        { shared with
          cache := shared.cache.put request.path (object, readAt) (some ttl) shared.clock }
      | .error .notFound =>
        { shared with
          misses := shared.misses.put request.path readAt (some (min ttl missTtl)) shared.clock }
      | .error _ => shared,
      .returned request none (request.give loaded))
  | .removeObject path reload =>
    some ({ shared with
        cache := remove shared.cache path
        number := shared.number + 1
        begun := Function.update shared.begun path shared.number },
      .removeMiss path shared.number reload)
  | .removeMiss path begunAt reload =>
    let last := max (shared.returned path) begunAt
    some ({ shared with
        misses := remove shared.misses path
        returned := Function.update shared.returned path last },
      match reload with
      | some ttl => .checkMiss ⟨false, path, ttl, last⟩
      | none => .invalidated)
  | .returned _ _ _ | .invalidated => none

def program : Program (Shared Path Object) (Point Path Object) (Input Path)
    (Except ErrorKind Object) where
  start shared
    | .fetchOrLoad path ttl => some (shared, [.checkMiss ⟨false, path, ttl, shared.returned path⟩])
    | .probe path ttl => some (shared, [.probeMiss ⟨true, path, ttl, shared.returned path⟩])
    | .reload path ttl => some (shared, [.removeObject path (some ttl)])
    | .invalidate path => some (shared, [.removeObject path none])
    | .tick now => if shared.clock ≤ now then some ({ shared with clock := now }, []) else none
    | .evictObject path => some ({ shared with cache := remove shared.cache path }, [])
    | .evictMiss path => some ({ shared with misses := remove shared.misses path }, [])
  move shared point disk := advance shared disk point

def idle (defaultTtl clock : Nat) : Pool (Shared Path Object) (Point Path Object) :=
  ⟨⟨.new 0, .new 0, defaultTtl, clock, 0, fun _ => 0, fun _ => 0⟩, []⟩

/-- The path of a load that has read the disk and not yet stored what it read. -/
def Point.pending : Point Path Object → Option Path
  | .store request _ _ => some request.path
  | _ => none

/-- An invalidation begins while no load of its path is pending. -/
def Settled (pool : Pool (Shared Path Object) (Point Path Object)) (point : Point Path Object)
    (_ : Except ErrorKind Object) : Prop :=
  match point with
  | .removeObject path _ => ∀ other ∈ pool.calls, other.pending ≠ some path
  | _ => True

instance (pool : Pool (Shared Path Object) (Point Path Object)) (point : Point Path Object)
    (disk : Except ErrorKind Object) : Decidable (Settled pool point disk) := by
  unfold Settled
  cases point <;> infer_instance

end Steps

section Invariant

/-- What a call holds is not older than the invalidations of its path. -/
def Point.Fresh (returned begun : Path → Nat) : Point Path Object → Prop
  | .probeMiss request | .checkMiss request | .checkCache request =>
    request.since ≤ returned request.path
  | .store request readAt _ => begun request.path ≤ readAt
  | .removeMiss path begunAt _ => begunAt ≤ begun path
  | .returned request source _ => ∀ readAt ∈ source, request.since ≤ readAt
  | _ => True

theorem Point.Fresh.mono {point : Point Path Object} {returned returned' begun begun' : Path → Nat}
    (fresh : point.Fresh returned begun) (returnedLe : returned ≤ returned')
    (begunLe : begun ≤ begun')
    (same : ∀ path, point.pending = some path → begun' path = begun path) :
    point.Fresh returned' begun' := by
  cases point with
  | probeMiss | checkMiss | checkCache => exact Nat.le_trans fresh (returnedLe _)
  | store => exact Nat.le_trans (same _ rfl).le fresh
  | removeMiss => exact Nat.le_trans fresh (begunLe _)
  | load | removeObject | returned | invalidated => exact fresh

variable {α : Type*} [DecidableEq Path]

def AtLeast (cache : MemoryCache Path α Empty) (readAt : α → Nat) (least : Path → Nat) : Prop :=
  ∀ path now value, cache.getValue path now = some value → least path ≤ readAt value

structure Fresh (shared : Shared Path Object) : Prop where
  returned : shared.returned ≤ shared.begun
  begun : shared.begun ≤ fun _ => shared.number
  objects : AtLeast shared.cache Prod.snd shared.begun
  misses : AtLeast shared.misses id shared.returned

section Caches

variable {cache : MemoryCache Path α Empty} {readAt : α → Nat} {least least' : Path → Nat}
  {path : Path} {value : α} {now : Nat}

theorem AtLeast.put (atLeast : AtLeast cache readAt least) (isLe : least path ≤ readAt value)
    (ttl : Option Nat) : AtLeast (cache.put path value ttl now) readAt least := by
  unfold MemoryCache.put
  split
  · exact atLeast
  · intro other later found isFound
    by_cases same : other = path
    · subst same
      simp only [MemoryCache.getValue, AList.lookup_insert, Option.bind_some] at isFound
      split at isFound <;> cases isFound
      exact isLe
    · simp only [MemoryCache.getValue, AList.lookup_insert_ne same] at isFound
      exact atLeast other later found isFound

theorem AtLeast.remove (atLeast : AtLeast cache readAt least) (path : Path)
    (same : ∀ other, other ≠ path → least' other = least other) :
    AtLeast (remove cache path) readAt least' := by
  intro other now found isFound
  by_cases isPath : other = path
  · subst isPath
    simp [MemoryCache.getValue, Filesystem.remove] at isFound
  · simp only [MemoryCache.getValue, Filesystem.remove, AList.lookup_erase_ne isPath] at isFound
    rw [same other isPath]
    exact atLeast other now found isFound

end Caches

variable {shared shared' : Shared Path Object} {point point' : Point Path Object}

theorem start_fresh {input : Input Path} {started : List (Point Path Object)}
    (fresh : Fresh shared) (starts : program.start shared input = some (shared', started)) :
    Fresh shared' ∧ shared'.returned = shared.returned ∧ shared'.begun = shared.begun ∧
      ∀ point ∈ started, point.Fresh shared'.returned shared'.begun := by
  cases input with
  | fetchOrLoad | probe | reload | invalidate =>
    cases starts
    exact ⟨fresh, rfl, rfl, by simp [Point.Fresh]⟩
  | tick now =>
    obtain ⟨_, isNext⟩ := Option.ite_none_right_eq_some.mp starts
    cases isNext
    exact ⟨{ fresh with }, rfl, rfl, by simp⟩
  | evictObject path =>
    cases starts
    exact ⟨{ fresh with objects := fresh.objects.remove path fun _ _ => rfl }, rfl, rfl, by simp⟩
  | evictMiss path =>
    cases starts
    exact ⟨{ fresh with misses := fresh.misses.remove path fun _ _ => rfl }, rfl, rfl, by simp⟩

/-- One operation of a call; the calls beside it may not be pending where it begins to
invalidate. -/
theorem advance_fresh {disk : Except ErrorKind Object} (fresh : Fresh shared)
    (holds : point.Fresh shared.returned shared.begun)
    (moves : advance shared disk point = some (shared', point')) :
    Fresh shared' ∧ point'.Fresh shared'.returned shared'.begun ∧
      ∀ other : Point Path Object, other.Fresh shared.returned shared.begun →
        (∀ path reload, point = .removeObject path reload → other.pending ≠ some path) →
          other.Fresh shared'.returned shared'.begun := by
  cases point with
  | probeMiss request | checkMiss request =>
    rw [advance] at moves
    split at moves <;> cases moves
    · rename_i readAt found
      refine ⟨fresh, ?_, fun _ kept _ => kept⟩
      rintro _ ⟨⟩
      exact Nat.le_trans holds (fresh.misses _ _ _ found)
    · exact ⟨fresh, holds, fun _ kept _ => kept⟩
  | checkCache request =>
    rw [advance] at moves
    split at moves <;> cases moves
    · rename_i object readAt found
      refine ⟨fresh, ?_, fun _ kept _ => kept⟩
      rintro _ ⟨⟩
      have isLe := fresh.objects _ _ _ found
      exact Nat.le_trans holds (Nat.le_trans (fresh.returned _) isLe)
    · exact ⟨fresh, trivial, fun _ kept _ => kept⟩
  | load request =>
    cases moves
    have begun : shared.begun ≤ fun _ => shared.number + 1 :=
      fun path => Nat.le_succ_of_le (fresh.begun path)
    exact ⟨{ fresh with begun }, fresh.begun request.path, fun _ kept _ => kept⟩
  | store request readAt loaded =>
    have noSource : ∀ number ∈ (none : Option Nat), request.since ≤ number := by simp
    rcases loaded with (_ | _) | object <;> cases moves
    · have isLe : shared.returned request.path ≤ readAt := (fresh.returned _).trans holds
      exact ⟨{ fresh with misses := fresh.misses.put isLe _ }, noSource, fun _ kept _ => kept⟩
    · exact ⟨fresh, noSource, fun _ kept _ => kept⟩
    · have isLe : shared.begun request.path ≤ (object, readAt).2 := holds
      exact ⟨{ fresh with objects := fresh.objects.put isLe _ }, noSource, fun _ kept _ => kept⟩
  | removeObject path reload =>
    cases moves
    have begunLe : shared.begun ≤ Function.update shared.begun path shared.number :=
      le_update_self_iff.mpr (fresh.begun path)
    have begun : Function.update shared.begun path shared.number ≤ fun _ => shared.number + 1 :=
      update_le_iff.mpr ⟨Nat.le_succ _, fun other _ => Nat.le_succ_of_le (fresh.begun other)⟩
    have objects := fresh.objects.remove path fun other ne =>
      Function.update_of_ne ne shared.number shared.begun
    refine ⟨⟨fresh.returned.trans begunLe, begun, objects, fresh.misses⟩, ?_, ?_⟩
    · simp [Point.Fresh]
    · intro other kept notPending
      apply kept.mono le_rfl begunLe
      intro pending isPending
      apply Function.update_of_ne
      rintro rfl
      exact notPending _ reload rfl isPending
  | removeMiss path begunAt reload =>
    cases moves
    have returnedLe : shared.returned ≤ Function.update shared.returned path
        (max (shared.returned path) begunAt) := le_update_self_iff.mpr (le_max_left _ _)
    have returned : Function.update shared.returned path
        (max (shared.returned path) begunAt) ≤ shared.begun :=
      update_le_iff.mpr ⟨max_le (fresh.returned path) holds, fun other _ => fresh.returned other⟩
    have misses := fresh.misses.remove path fun other ne =>
      Function.update_of_ne ne (max (shared.returned path) begunAt) shared.returned
    refine ⟨⟨returned, fresh.begun, fresh.objects, misses⟩, ?_, ?_⟩
    · cases reload <;> simp [Point.Fresh]
    · intro other kept _
      exact kept.mono returnedLe le_rfl fun _ _ => rfl
  | returned | invalidated => cases moves

/-- What the caches and the calls hold is fresh. -/
def Sound (pool : Pool (Shared Path Object) (Point Path Object)) : Prop :=
  Fresh pool.shared ∧ ∀ point ∈ pool.calls, point.Fresh pool.shared.returned pool.shared.begun

theorem idle_sound (defaultTtl clock : Nat) :
    Sound (idle defaultTtl clock : Pool (Shared Path Object) (Point Path Object)) := by
  refine ⟨⟨le_rfl, le_rfl, ?_, ?_⟩, by simp [idle]⟩
  · intro path now value found
    cases found
  · intro path now value found
    cases found

theorem Sound.step {pool pool' : Pool (Shared Path Object) (Point Path Object)}
    (sound : Sound pool) (step : program.Step Settled pool pool') : Sound pool' := by
  obtain ⟨fresh, calls⟩ := sound
  cases step with
  | start starts =>
    obtain ⟨freshAfter, sameReturned, sameBegun, started⟩ := start_fresh fresh starts
    refine ⟨freshAfter, fun point member => ?_⟩
    rcases List.mem_append.mp member with earlier | isNew
    · simp_all
    · exact started point isNew
  | @move _ _ before after call _ _ settled moves =>
    obtain ⟨freshAfter, moved, beside⟩ :=
      advance_fresh fresh (calls call mem_moving) moves
    refine ⟨freshAfter, fun point member => ?_⟩
    rcases mem_beside member with rfl | wasThere
    · exact moved
    · refine beside point (calls point wasThere) ?_
      rintro path reload rfl
      exact settled point wasThere

end Invariant

/-- The answers from the caches: the last invalidation that had returned when the call
started, and the read behind the answer. -/
def answers (pool : Pool (Shared Path Object) (Point Path Object)) : List (Nat × Nat) :=
  pool.calls.filterMap fun
    | .returned request (some readAt) _ => some (request.since, readAt)
    | _ => none

/-- Where no path is invalidated while a load of it is pending, what the caches answer was
read after the invalidations that had returned when the call started. -/
theorem answers_fresh [DecidableEq Path] {defaultTtl clock : Nat}
    {pool : Pool (Shared Path Object) (Point Path Object)}
    (run : program.Run Settled (idle defaultTtl clock) pool) :
    ∀ answer ∈ answers pool, answer.1 ≤ answer.2 := by
  have sound : Sound pool :=
    Program.Run.invariant (fun _ _ => Sound.step) (idle_sound defaultTtl clock) run
  intro answer member
  obtain ⟨point, inPool, isAnswer⟩ := List.mem_filterMap.mp member
  split at isAnswer <;> cases isAnswer
  exact sound.2 _ inPool _ rfl

/-- Load an object, invalidate its path, load it again and ask for it. -/
def reloaded : List (Program.Command (Input Unit) (Except ErrorKind Unit)) :=
  .start (.fetchOrLoad () none) :: List.replicate 4 (.move 0 (.ok ())) ++
    .start (.reload () none) :: List.replicate 6 (.move 1 (.ok ())) ++
    .start (.fetchOrLoad () none) :: List.replicate 2 (.move 2 (.ok ()))

theorem answers_fresh_reloaded :
    ∃ pool : Pool (Shared Unit Unit) (Point Unit Unit),
      program.Run Settled (idle 60000000000 0) pool ∧ answers pool = [(1, 2)] ∧
        ∀ answer ∈ answers pool, answer.1 ≤ answer.2 := by
  have isAnswer : (program.play Settled (idle 60000000000 0) reloaded).map answers =
      some [(1, 2)] := by
    decide
  obtain ⟨pool, played, isPool⟩ := Option.map_eq_some_iff.mp isAnswer
  have run := Program.run_of_play reloaded played
  exact ⟨pool, run, isPool, answers_fresh run⟩

/-- The path is invalidated between the read of a load and its store. -/
def overtaken : List (Program.Command (Input Unit) (Except ErrorKind Unit)) :=
  .start (.fetchOrLoad () none) :: List.replicate 3 (.move 0 (.ok ())) ++
    .start (.invalidate ()) :: List.replicate 2 (.move 1 (.ok ())) ++
    .move 0 (.ok ()) :: .start (.fetchOrLoad () none) :: List.replicate 2 (.move 2 (.ok ()))

/-- A call that starts after the invalidation is answered with what was read before. -/
theorem invalidated_answer :
    ∃ pool : Pool (Shared Unit Unit) (Point Unit Unit),
      program.Run (fun _ _ _ => True) (idle 60000000000 0) pool ∧ answers pool = [(1, 0)] := by
  have isAnswer : (program.play (fun _ _ _ => True) (idle 60000000000 0) overtaken).map answers =
      some [(1, 0)] := by
    decide
  obtain ⟨pool, played, isPool⟩ := Option.map_eq_some_iff.mp isAnswer
  exact ⟨pool, Program.run_of_play overtaken played, isPool⟩

end Ophan.Static.Filesystem
