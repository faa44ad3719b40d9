import Mathlib.Tactic

/-!
# Results of computations that may throw

A bind returns when both of its parts do, which is how a computation in `do`
notation is taken apart and put together.
-/
namespace NexgileIde.Library

variable {ε α β : Type} {e : Except ε α} {f : α → Except ε β}

theorem bind_eq_ok {b : β} : (e >>= f) = .ok b ↔ ∃ a, e = .ok a ∧ f a = .ok b := by
  cases e with
  | error err => simp [bind, Except.bind]
  | ok a => simp [bind, Except.bind]

/-- A bind whose first part is known to return. -/
theorem bind_of_ok {a : α} (h : e = .ok a) : (e >>= f) = f a := by
  rw [h]
  rfl

end NexgileIde.Library
