import Mathlib.Data.List.Basic

/-!
# Steps on a shared state

A list of steps that pass a state on.  What the steps do to the state is recorded
as a list of effects, so that a property of one step becomes one of all of them.
-/

namespace Ophan.Lib

open List

universe u v w t

variable {α : Type u} {β : Type v} {σ : Type w} {γ : Type t}

def threadMap (step : α → σ → β × σ) : List α → σ → List β × σ
  | [], state => ([], state)
  | item :: items, state =>
    let first := step item state
    let rest := threadMap step items first.2
    (first.1 :: rest.1, rest.2)

theorem map_threadMap {δ : Type*} {step : α → σ → β × σ} {ofResult : β → δ}
    {ofItem : α → δ} (same : ∀ item state, ofResult (step item state).1 = ofItem item)
    (items : List α) (state : σ) :
    (threadMap step items state).1.map ofResult = items.map ofItem := by
  induction items generalizing state with
  | nil => rfl
  | cons item items ih => rw [threadMap, map_cons, map_cons, same, ih]

theorem length_threadMap (step : α → σ → β × σ) (items : List α) (state : σ) :
    (threadMap step items state).1.length = items.length := by
  induction items generalizing state with
  | nil => rfl
  | cons item items ih => rw [threadMap, length_cons, length_cons, ih]

structure Traced (Effect : σ → σ → List γ → Prop) : Prop where
  refl : ∀ state, Effect state state []
  trans : ∀ {first second third trace more}, Effect first second trace →
    Effect second third more → Effect first third (trace ++ more)

/-- Steps that have their effects, and results that later effects leave valid. -/
theorem threadMap_spec {Effect : σ → σ → List γ → Prop} (traced : Traced Effect)
    (Valid : α → β → σ → Prop)
    (stable : ∀ {item result first second trace}, Valid item result first →
      Effect first second trace → Valid item result second)
    {step : α → σ → β × σ} {effects : α → List γ} {start : σ} {items : List α}
    (each : ∀ item ∈ items, ∀ state trace, Effect start state trace →
      Effect state (step item state).2 (effects item) ∧
        Valid item (step item state).1 (step item state).2)
    {state : σ} {past : List γ} (reached : Effect start state past) :
    Effect state (threadMap step items state).2 (items.flatMap effects) ∧
      ∀ result ∈ (threadMap step items state).1, ∃ item ∈ items,
        Valid item result (threadMap step items state).2 := by
  induction items generalizing state past with
  | nil => exact ⟨traced.refl state, by simp [threadMap]⟩
  | cons item items ih =>
    obtain ⟨effect, valid⟩ := each item (mem_cons_self ..) state past reached
    obtain ⟨effects, allValid⟩ := ih (forall_mem_cons.mp each).2 (traced.trans reached effect)
    rw [threadMap, flatMap_cons]
    refine ⟨traced.trans effect effects, ?_⟩
    intro result member
    rcases mem_cons.mp member with rfl | inRest
    · exact ⟨item, mem_cons_self .., stable valid effects⟩
    · obtain ⟨other, isItem, isValid⟩ := allValid result inRest
      exact ⟨other, mem_cons_of_mem _ isItem, isValid⟩

end Ophan.Lib
