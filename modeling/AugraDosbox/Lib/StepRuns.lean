import Mathlib.Logic.Basic

/-!
# What holds in every state of a run

A machine that takes one event after the other, where an event may spoil what holds.

* `Always` — it holds in each state of the run, the first and the last one included;
* `EachStep` — each event of the run meets a condition in the state that it finds;
* **`always_of_eachStep`** — the rule, with an invariant for what has to be known besides;
* `outputs`, `outputs_eq` — what a machine answers, and two machines that answer the same.
-/

namespace StepRuns

variable {σ ε : Type*} (step : σ → ε → σ)

def Always (good : σ → Prop) : σ → List ε → Prop
  | s, [] => good s
  | s, e :: es => good s ∧ Always good (step s e) es

def EachStep (fits : σ → ε → Prop) : σ → List ε → Prop
  | _, [] => True
  | s, e :: es => fits s e ∧ EachStep fits (step s e) es

variable {step} {inv good : σ → Prop} {fits : σ → ε → Prop} {s : σ} {es : List ε}

/-- **A condition that is enough for a step is enough for runs.** -/
theorem always_of_eachStep (hstep : ∀ s e, inv s → fits s e → inv (step s e))
    (hgood : ∀ s, inv s → good s) (hs : inv s) (h : EachStep step fits s es) :
    Always step good s es := by
  induction es generalizing s with
  | nil => exact hgood s hs
  | cons e es ih => exact ⟨hgood s hs, ih (hstep s e hs h.1) h.2⟩

/-! ## Answers -/

/-- What a machine answers to one event after the other. -/
def outputs {α : Type*} (step : σ → ε → α × σ) : σ → List ε → List α
  | _, [] => []
  | s, e :: es => (step s e).1 :: outputs step (step s e).2 es

/-- **Simulation**: steps that answer the same and keep two states related give equal runs. -/
theorem outputs_eq {α τ : Type*} {f : σ → ε → α × σ} {g : τ → ε → α × τ} {R : τ → σ → Prop}
    (hstep : ∀ t s, R t s → ∀ e, (f s e).1 = (g t e).1 ∧ R (g t e).2 (f s e).2) {t : τ}
    (h : R t s) (es : List ε) : outputs f s es = outputs g t es := by
  induction es generalizing s t with
  | nil => rfl
  | cons e es ih =>
    obtain ⟨hhead, hnext⟩ := hstep t s h e
    rw [outputs, outputs, hhead, ih hnext]

end StepRuns
