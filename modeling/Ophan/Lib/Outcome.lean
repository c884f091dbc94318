import Mathlib.Data.List.Basic

/-!
# Calls that return, fail or panic

A call of the modelled program returns a value, returns an error of its
error type, or unwinds.  `Outcome` keeps the three apart, so that a theorem
about returned values says nothing about a run that panicked, and a theorem
that excludes `panic` says that no such run exists.
-/

namespace Ophan

universe u v w

inductive Outcome (ε : Type u) (α : Type v) where
  | ok (value : α)
  | err (error : ε)
  | panic
  deriving DecidableEq, Repr

namespace Outcome

variable {ε : Type u} {α : Type v} {β : Type w}

def bind (first : Outcome ε α) (next : α → Outcome ε β) : Outcome ε β :=
  match first with
  | .ok value => next value
  | .err error => .err error
  | .panic => .panic

def map (f : α → β) : Outcome ε α → Outcome ε β
  | .ok value => .ok (f value)
  | .err error => .err error
  | .panic => .panic

def isOk : Outcome ε α → Bool
  | .ok _ => true
  | _ => false

@[simp]
theorem isOk_ok (value : α) : (Outcome.ok value : Outcome ε α).isOk = true := rfl

@[simp]
theorem isOk_err (error : ε) : (Outcome.err error : Outcome ε α).isOk = false := rfl

@[simp]
theorem isOk_panic : (Outcome.panic : Outcome ε α).isOk = false := rfl

@[simp]
theorem bind_ok (value : α) (next : α → Outcome ε β) :
    (Outcome.ok value : Outcome ε α).bind next = next value := rfl

@[simp]
theorem bind_err (error : ε) (next : α → Outcome ε β) :
    (Outcome.err error : Outcome ε α).bind next = .err error := rfl

@[simp]
theorem bind_panic (next : α → Outcome ε β) :
    (Outcome.panic : Outcome ε α).bind next = .panic := rfl

@[simp]
theorem map_ok (f : α → β) (value : α) :
    (Outcome.ok value : Outcome ε α).map f = .ok (f value) := rfl

@[simp]
theorem map_err (f : α → β) (error : ε) :
    (Outcome.err error : Outcome ε α).map f = .err error := rfl

@[simp]
theorem map_panic (f : α → β) : (Outcome.panic : Outcome ε α).map f = .panic := rfl

theorem bind_assoc {γ : Type*} (first : Outcome ε α) (next : α → Outcome ε β)
    (last : β → Outcome ε γ) :
    (first.bind next).bind last = first.bind fun value => (next value).bind last := by
  cases first with
  | ok | err | panic => rfl

theorem map_eq_ok_iff {first : Outcome ε α} {f : α → β} {result : β} :
    first.map f = .ok result ↔ ∃ value, first = .ok value ∧ f value = result := by
  cases first with
  | ok | err | panic => simp

theorem bind_eq_ok_iff {first : Outcome ε α} {next : α → Outcome ε β} {result : β} :
    first.bind next = .ok result ↔ ∃ value, first = .ok value ∧ next value = .ok result := by
  cases first with
  | ok | err | panic => simp

end Outcome

end Ophan
