import Mathlib.Tactic.Common

/-!
# Computations that can fail

How the outcome of `Except` computations comes about.

* `bind_ok`, `bind_error` — a sequence succeeds if both parts do, and fails with the first part
  that does;
* `Avoids` — a computation that does not fail with a given error, and what holds of its result.
-/

namespace Fallible

variable {ε α β : Type} {x : Except ε α} {f : α → Except ε β} {a a' : α} {b : β} {e : ε}

theorem bind_ok : x >>= f = .ok b ↔ ∃ a, x = .ok a ∧ f a = .ok b := by
  cases x with
  | error e => simp [Bind.bind, Except.bind]
  | ok a => simp [Bind.bind, Except.bind]

theorem bind_error : x >>= f = .error e ↔ x = .error e ∨ ∃ a, x = .ok a ∧ f a = .error e := by
  cases x with
  | error e' => simp [Bind.bind, Except.bind]
  | ok a => simp [Bind.bind, Except.bind]

theorem pure_ok : (pure a : Except ε α) = .ok a' ↔ a = a' := by
  constructor
  · intro h
    cases h
    rfl
  · rintro rfl
    rfl

/-- The computation does not fail with `e`, and its result has the property `Q`. -/
def Avoids (e : ε) (x : Except ε α) (Q : α → Prop) : Prop :=
  x ≠ .error e ∧ ∀ a, x = .ok a → Q a

namespace Avoids

variable {P Q : α → Prop} {R : β → Prop}

theorem ok (h : Q a) : Avoids e (.ok a) Q := by
  refine ⟨by simp, fun a' ha => ?_⟩
  cases ha
  exact h

theorem error {e' : ε} (h : e' ≠ e) : Avoids e (.error e' : Except ε α) Q :=
  ⟨fun heq => h (by cases heq; rfl), fun a ha => by cases ha⟩

/-- **The rule for sequences.** -/
theorem bind (hx : Avoids e x P) (hf : ∀ a, P a → Avoids e (f a) R) : Avoids e (x >>= f) R := by
  refine ⟨fun h => ?_, fun b hb => ?_⟩
  · rcases bind_error.mp h with herr | ⟨a, ha, herr⟩
    · exact hx.1 herr
    · exact (hf a (hx.2 a ha)).1 herr
  · obtain ⟨a, ha, hb⟩ := bind_ok.mp hb
    exact (hf a (hx.2 a ha)).2 b hb

end Avoids

end Fallible
