import Mathlib.Data.List.Dedup
import Ophan.Limiter.Eviction

/-!
# The size of the store

Below the capacity a new client gets a state of its own.  From there on the new
clients of a policy share one state, so that every scope adds at most one state to
those of the clients.
-/

namespace Ophan.Limiter.MemoryRateLimiter

open List

/-- The stores that calls lead to, with the keys that were consumed. -/
inductive Reached (capacity : Nat) : List LimiterKey → MemoryRateLimiter → Prop where
  | new : Reached capacity [] { new with maxTracked := capacity }
  | consume {keys : List LimiterKey} {self next : MemoryRateLimiter} {key : LimiterKey}
      {cfg : LimiterConfig} {nowMs : Nat} {result : RateLimitResult}
      (reached : Reached capacity keys self)
      (consumed : self.consume key cfg nowMs = .ok (result, next)) :
      Reached capacity (key :: keys) next
  | evictIdle {keys : List LimiterKey} {self next : MemoryRateLimiter} {nowMs left : Nat}
      (reached : Reached capacity keys self)
      (evicted : self.evictIdle nowMs = .ok (left, next)) : Reached capacity keys next

/-- The clients have no more states than the capacity, and every state has the scope
of a key that was consumed. -/
structure Bounded (capacity : Nat) (keys : List LimiterKey) (store : MemoryRateLimiter) :
    Prop where
  isMax : store.maxTracked = capacity
  tracked : store.tracked = store.states.len
  clients : store.states.keys.countP (·.keyHash ≠ overflowKey) ≤ capacity
  scopes : ∀ key ∈ store.states, key.scope ∈ keys.map (·.scope)

/-- A client is counted in its state, which other calls leave or count in, until an
eviction finds it at rest. -/
structure Counts (store : MemoryRateLimiter) (key : LimiterKey) (state : LimiterState) :
    Prop where
  own : ∀ cfg nowMs, store.consume key cfg nowMs = store.checkAt key state nowMs
  stays : ∀ other cfg nowMs result next, store.consume other cfg nowMs = .ok (result, next) →
    ∃ after, next.states.lookup key = some after ∧
      (after = state ∨ state.check nowMs = .ok (result, after))
  evicted : ∀ nowMs left next, store.evictIdle nowMs = .ok (left, next) →
    next.states.lookup key = if state.isIdle nowMs = .ok true then none else some state

variable {capacity nowMs left : Nat} {keys : List LimiterKey} {self next : MemoryRateLimiter}
  {key : LimiterKey} {cfg : LimiterConfig} {result : RateLimitResult} {state : LimiterState}

/-- A call is counted in a state that is there, or in a new one of its slot. -/
theorem consume_cases (consumed : self.consume key cfg nowMs = .ok (result, next)) :
    ∃ slot state after, state.check nowMs = .ok (result, after) ∧ slot.scope = key.scope ∧
      (self.states.lookup slot = some state ∧
          next = { self with states := self.states.insert slot after } ∨
        slot = self.slotFor key ∧ slot ∉ self.states ∧
          next = ⟨self.states.insert slot after, self.tracked + 1, self.maxTracked⟩) := by
  have sameScope : (self.slotFor key).scope = key.scope := by
    rw [slotFor]
    split <;> rfl
  unfold MemoryRateLimiter.consume at consumed
  split at consumed
  · rename_i state isState
    obtain ⟨checked, isChecked, equal⟩ := Outcome.map_eq_ok_iff.mp consumed
    cases equal
    exact ⟨key, state, _, isChecked, rfl, Or.inl ⟨isState, rfl⟩⟩
  · split at consumed
    · rename_i state isState
      obtain ⟨checked, isChecked, equal⟩ := Outcome.map_eq_ok_iff.mp consumed
      cases equal
      exact ⟨_, state, _, isChecked, sameScope, Or.inl ⟨isState, rfl⟩⟩
    · rename_i absent
      obtain ⟨state, -, consumed⟩ := Outcome.bind_eq_ok_iff.mp consumed
      obtain ⟨checked, isChecked, equal⟩ := Outcome.map_eq_ok_iff.mp consumed
      cases equal
      exact ⟨_, state, _, isChecked, sameScope, Or.inr ⟨rfl, AList.lookup_eq_none.mp absent, rfl⟩⟩

theorem eq_of_evictIdle (evicted : self.evictIdle nowMs = .ok (left, next)) :
    next = ⟨self.states.retain fun _ => kept nowMs,
      (self.states.retain fun _ => kept nowMs).len, self.maxTracked⟩ := by
  unfold MemoryRateLimiter.evictIdle at evicted
  split at evicted
  · cases evicted
  · cases evicted
    rfl

theorem Bounded.consume (bounded : Bounded capacity keys self)
    (consumed : self.consume key cfg nowMs = .ok (result, next)) :
    Bounded capacity (key :: keys) next := by
  obtain ⟨slot, state, after, -, sameScope, isNext⟩ := consume_cases consumed
  have scopes : ∀ other ∈ self.states.insert slot after,
      other.scope ∈ (key :: keys).map (·.scope) := by
    intro other member
    rcases (AList.mem_insert _).mp member with rfl | old
    · simp_all
    · exact mem_cons_of_mem _ (bounded.scopes other old)
  rcases isNext with ⟨isState, rfl⟩ | ⟨isSlot, absent, rfl⟩
  · have present := lookup_mem isState
    refine ⟨bounded.isMax, ?_, ?_, scopes⟩
    · exact bounded.tracked.trans (KeyMap.len_insert_of_mem present _).symm
    · rw [AList.keys_insert, (perm_cons_erase present).symm.countP_eq]
      exact bounded.clients
  · refine ⟨bounded.isMax, ?_, ?_, scopes⟩
    · rw [KeyMap.len_insert_of_notMem absent, bounded.tracked]
    · rw [AList.keys_insert, erase_of_not_mem absent, countP_cons]
      by_cases full : self.maxTracked ≤ self.tracked
      · -- the slot is the shared one
        simpa [isSlot, slotFor, full] using bounded.clients
      · have few : self.states.keys.countP (·.keyHash ≠ overflowKey) ≤ _ := countP_le_length
        rw [← KeyMap.len_eq, ← bounded.tracked] at few
        rw [bounded.isMax] at full
        split <;> omega

theorem Bounded.evictIdle (bounded : Bounded capacity keys self)
    (evicted : self.evictIdle nowMs = .ok (left, next)) : Bounded capacity keys next := by
  obtain rfl := eq_of_evictIdle evicted
  have fewer : (self.states.retain fun _ => kept nowMs).keys.Sublist self.states.keys :=
    filter_sublist.map _
  exact
    { isMax := bounded.isMax
      tracked := rfl
      clients := fewer.countP_le.trans bounded.clients
      scopes := fun key member => bounded.scopes key (fewer.subset member) }

theorem Reached.bounded (reached : Reached capacity keys self) : Bounded capacity keys self := by
  induction reached with
  | new => exact ⟨rfl, rfl, Nat.zero_le _, by rintro key ⟨⟩⟩
  | consume _ consumed ih => exact ih.consume consumed
  | evictIdle _ evicted ih => exact ih.evictIdle evicted

theorem Bounded.len_le (bounded : Bounded capacity keys self) :
    self.states.len ≤ capacity + (keys.map (·.scope)).dedup.length := by
  have distinct : ((self.states.keys.filter (·.keyHash = overflowKey)).map (·.scope)).Nodup := by
    refine (self.states.keys_nodup.filter _).map_on ?_
    rintro ⟨_, scope⟩ first ⟨_, other⟩ second rfl
    simp_all
  have inScopes : (self.states.keys.filter (·.keyHash = overflowKey)).map (·.scope) ⊆
      (keys.map (·.scope)).dedup := by
    intro scope member
    obtain ⟨key, isKey, rfl⟩ := mem_map.mp member
    exact mem_dedup.mpr (bounded.scopes key (mem_filter.mp isKey).1)
  have shared := (subperm_of_subset distinct inScopes).length_le
  have clients := bounded.clients
  rw [length_map, ← countP_eq_length_filter] at shared
  rw [KeyMap.len_eq, length_eq_countP_add_countP (·.keyHash = overflowKey)]
  simp only [decide_not, Bool.decide_eq_true] at clients ⊢
  omega

theorem counts_of_lookup (isState : self.states.lookup key = some state) :
    Counts self key state where
  own _ _ := consume_of_some isState
  stays other cfg nowMs result next consumed := by
    obtain ⟨slot, counted, after, checked, -, isNext⟩ := consume_cases consumed
    have sameStates : next.states = self.states.insert slot after := by
      rcases isNext with ⟨-, rfl⟩ | ⟨-, -, rfl⟩ <;> rfl
    rw [sameStates]
    by_cases same : key = slot
    · subst same
      refine ⟨after, AList.lookup_insert _, Or.inr ?_⟩
      rcases isNext with ⟨isCounted, -⟩ | ⟨-, absent, -⟩
      · simp_all
      · exact absurd (lookup_mem isState) absent
    · exact ⟨state, (AList.lookup_insert_ne same).trans isState, Or.inl rfl⟩
  evicted nowMs left next evicted := by
    obtain rfl := eq_of_evictIdle evicted
    simp [isState, kept, Option.filter]

/-- The counter is the number of states, which is at most the capacity and one for
every scope, and a client with a state is counted in it until it is at rest. -/
theorem store_bounded (reached : Reached capacity keys self) :
    self.tracked = self.states.len ∧
      self.states.len ≤ capacity + (keys.map (·.scope)).dedup.length ∧
      ∀ key state, self.states.lookup key = some state → Counts self key state :=
  ⟨reached.bounded.tracked, reached.bounded.len_le, fun _ _ => counts_of_lookup⟩

/-- The client of a store without room gets the shared state. -/
theorem store_bounded_shared :
    ∃ store : MemoryRateLimiter,
      store.states.keys = [⟨overflowKey, 3⟩] ∧ store.states.len ≤ 0 + 1 := by
  have returns : ((⟨∅, 0, 0⟩ : MemoryRateLimiter).consume ⟨7, 3⟩ ⟨1, 1, 0, .slidingWindow⟩ 0).map
      (·.2.states.keys) = .ok [⟨overflowKey, 3⟩] := by
    decide
  obtain ⟨⟨_, store⟩, consumed, shared⟩ := Outcome.map_eq_ok_iff.mp returns
  exact ⟨store, shared, (store_bounded (.consume .new consumed)).2.1⟩

end Ophan.Limiter.MemoryRateLimiter
