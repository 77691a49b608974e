import Mathlib

/-!
# Fallible Computations

Inversion rules for computations in `Except`. A run that succeeds is peeled apart one
bind at a time with `Except.bind_eq_ok_iff`, so that proofs about a fallible function
never unfold the monad.
-/

namespace Except

universe u v

variable {ε : Type u} {α β : Type v}

/-- A sequenced computation succeeds exactly when both of its parts do. -/
theorem bind_eq_ok_iff {x : Except ε α} {f : α → Except ε β} {b : β} :
    (x >>= f) = .ok b ↔ ∃ a, x = .ok a ∧ f a = .ok b := by
  cases x with
  | error e | ok a => simp [bind, Except.bind]

theorem pure_eq_ok_iff {a b : α} : (pure a : Except ε α) = .ok b ↔ a = b := by
  simp [pure, Except.pure]

end Except
