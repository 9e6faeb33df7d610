import Mathlib.Tactic

/-!
# Outcomes of freestanding code

Code that runs without an operating system below it has three ways to behave.
It returns a value, it stops the processor for good with a message, or it never
leaves a loop.  `Outcome` keeps the three apart, so that a statement about the
returned value cannot hide a stopped or a spinning machine.
-/

universe u

/-- What a call of freestanding code does. -/
inductive Outcome (α : Type u) where
  | done (a : α)
  | halt (msg : String)
  | spin
  deriving DecidableEq, Repr

namespace Outcome

variable {α β : Type u}

def bind : Outcome α → (α → Outcome β) → Outcome β
  | done a, f => f a
  | halt msg, _ => halt msg
  | spin, _ => spin

instance : Monad Outcome where
  pure := done
  bind := bind

@[simp] theorem pure_eq_done (a : α) : (pure a : Outcome α) = done a := rfl

@[simp] theorem done_bind (a : α) (f : α → Outcome β) : (done a >>= f) = f a := rfl

@[simp] theorem halt_bind (msg : String) (f : α → Outcome β) :
    (halt msg >>= f) = halt msg := rfl

@[simp] theorem spin_bind (f : α → Outcome β) : (spin >>= f) = spin := rfl

theorem bind_assoc {γ : Type u} (x : Outcome α) (f : α → Outcome β) (g : β → Outcome γ) :
    (x >>= f) >>= g = x >>= fun a ↦ f a >>= g := by
  cases x with
  | done a => rfl
  | halt msg => rfl
  | spin => rfl

/-- A sequence returns exactly when both of its parts return. -/
theorem bind_eq_done_iff {x : Outcome α} {f : α → Outcome β} {b : β} :
    (x >>= f) = done b ↔ ∃ a, x = done a ∧ f a = done b := by
  cases x with
  | done a => simp
  | halt msg => simp
  | spin => simp

/-- The value of a call that returns. -/
def value? : Outcome α → Option α
  | done a => some a
  | _ => none

@[simp] theorem value?_eq_some {x : Outcome α} {a : α} : x.value? = some a ↔ x = done a := by
  cases x <;> simp [value?]

end Outcome
