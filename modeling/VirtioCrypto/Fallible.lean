/-!
# Computations that may fail

How a sequence of fallible steps (`Except.bind`) came to its result: it succeeded because each
step did, or it failed at one of them. Proofs about such a sequence take it apart with these and
never unfold it.
-/

namespace Fallible

variable {ε α β : Type} {x : Except ε α} {f : α → Except ε β}

theorem ok_bind (a : α) (f : α → Except ε β) : (Except.ok a).bind f = f a := rfl

theorem bind_eq_ok {b : β} : x.bind f = .ok b ↔ ∃ a, x = .ok a ∧ f a = .ok b := by
  cases x with
  | error e => simp [Except.bind]
  | ok a => simp [Except.bind]

theorem bind_eq_error {e : ε} :
    x.bind f = .error e ↔ x = .error e ∨ ∃ a, x = .ok a ∧ f a = .error e := by
  cases x with
  | error e' => simp [Except.bind]
  | ok a => simp [Except.bind]

end Fallible
