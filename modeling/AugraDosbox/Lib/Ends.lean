import Mathlib.Data.Option.Basic
import Mathlib.Tactic.Common

/-!
# Total correctness of computations that may fail

A computation in `Option`, such as one with a bound on how deep its calls may nest,
together with what holds of its result.

* `Ends r P` — the computation `r` has a result, and the result satisfies `P`;
* `Ends.bind`, `Ends.map`, `Ends.ite`, `Ends.foldlM` — one rule for each way of putting
  computations together; the rule for a loop asks for an invariant.
-/

namespace Total

variable {α β : Type*} {r : Option α} {P Q : α → Prop} {a : α}

/-- The computation has a result, and `P` holds of it. -/
def Ends (r : Option α) (P : α → Prop) : Prop := ∃ a, r = some a ∧ P a

theorem ends_some (h : P a) : Ends (some a) P := ⟨a, rfl, h⟩

namespace Ends

theorem mono (h : Ends r P) (hPQ : ∀ a, P a → Q a) : Ends r Q := by
  obtain ⟨a, ha, hP⟩ := h
  exact ⟨a, ha, hPQ a hP⟩

theorem bind {f : α → Option β} {R : β → Prop} (h : Ends r P) (hf : ∀ a, P a → Ends (f a) R) :
    Ends (r.bind f) R := by
  obtain ⟨a, ha, hP⟩ := h
  rw [ha]
  exact hf a hP

theorem map {f : α → β} {R : β → Prop} (h : Ends r P) (hf : ∀ a, P a → R (f a)) :
    Ends (r.map f) R := by
  obtain ⟨a, ha, hP⟩ := h
  exact ⟨f a, by rw [ha, Option.map_some], hf a hP⟩

theorem ite {c : Prop} [Decidable c] {r' : Option α} (h : c → Ends r P) (h' : ¬c → Ends r' P) :
    Ends (if c then r else r') P := by
  by_cases hc : c
  · rw [if_pos hc]
    exact h hc
  · rw [if_neg hc]
    exact h' hc

/-- A loop keeps what each of its rounds keeps. -/
theorem foldlM {f : α → β → Option α} (hf : ∀ a b, P a → Ends (f a b) P) (bs : List β) (ha : P a) :
    Ends (bs.foldlM f a) P := by
  induction bs generalizing a with
  | nil => exact ends_some ha
  | cons b bs ih =>
    rw [List.foldlM_cons]
    exact bind (hf a b ha) fun a' ha' => ih ha'

end Ends

end Total
