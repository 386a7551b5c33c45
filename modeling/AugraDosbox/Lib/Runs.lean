import Mathlib.Order.Lattice
import Mathlib.Tactic.Common

/-!
# Maximal runs of a predicate

The runs of consecutive numbers of an interval that satisfy a predicate, as one pass over the
interval finds them.

* `IsRun` — a run that cannot be made longer on either side inside the interval;
* `scan` — the pass, with the beginning of the run that it is in, if it is in one;
* **`mem_scan`** — the pass finds the maximal runs and nothing else.
-/

namespace Runs

variable {p : ℕ → Prop} {lo hi a l n i : ℕ}

/-- The `l` numbers from `a` on satisfy the predicate and no longer run around them does. -/
structure IsRun (p : ℕ → Prop) (lo hi a l : ℕ) : Prop where
  lo_le : lo ≤ a
  pos : 0 < l
  le_hi : a + l ≤ hi
  all : ∀ i, a ≤ i → i < a + l → p i
  left : lo < a → ¬ p (a - 1)
  right : a + l < hi → ¬ p (a + l)

/-- One pass over the `n` numbers from `i` on. -/
def scan (p : ℕ → Prop) [DecidablePred p] : ℕ → ℕ → Option ℕ → List (ℕ × ℕ)
  | 0, _, none => []
  | 0, i, some first => [(first, i - first)]
  | n + 1, i, none => scan p n (i + 1) (if p i then some i else none)
  | n + 1, i, some first =>
      if p i then scan p n (i + 1) (some first)
      else (first, i - first) :: scan p n (i + 1) none

/-- What the pass knows at `i` about the run that it is in. -/
def Open (p : ℕ → Prop) (lo i : ℕ) : Option ℕ → Prop
  | none => lo < i → ¬ p (i - 1)
  | some first => lo ≤ first ∧ first < i ∧ (∀ j, first ≤ j → j < i → p j) ∧
      (lo < first → ¬ p (first - 1))

theorem Open.skip (h : ¬ p i) : Open p lo (i + 1) none := fun _ => h

theorem Open.enter (h : Open p lo i none) (hlo : lo ≤ i) (hp : p i) :
    Open p lo (i + 1) (some i) := by
  refine ⟨hlo, Nat.lt_succ_self i, fun j hj hj' => ?_, h⟩
  have hji : j = i := by omega
  rwa [hji]

theorem Open.stay {first : ℕ} (h : Open p lo i (some first)) (hp : p i) :
    Open p lo (i + 1) (some first) := by
  obtain ⟨h1, h2, h3, h4⟩ := h
  refine ⟨h1, by omega, fun j hj hj' => ?_, h4⟩
  by_cases hji : j = i
  · rwa [hji]
  · exact h3 j hj (by omega)

/-- The run that the pass is in ends where the predicate does not hold any more. -/
theorem Open.isRun {first : ℕ} (h : Open p lo i (some first)) (hle : i ≤ hi)
    (hp : i < hi → ¬ p i) : IsRun p lo hi first (i - first) := by
  obtain ⟨h1, h2, h3, h4⟩ := h
  have hend : first + (i - first) = i := by omega
  exact ⟨h1, by omega, by omega, by rwa [hend], h4, by rwa [hend]⟩

/-- A run that begins where the pass is in one is that run. -/
theorem Open.eq_of_isRun {first : ℕ} (h : Open p lo i (some first)) (hrun : IsRun p lo hi first l)
    (hle : i ≤ hi) (hp : i < hi → ¬ p i) : l = i - first := by
  obtain ⟨-, h2, h3, -⟩ := h
  have hle : first + l ≤ i := by
    by_contra hlt
    exact hp (by have := hrun.le_hi; omega) (hrun.all i (by omega) (by omega))
  by_contra hne
  exact hrun.right (by omega) (h3 (first + l) (by omega) (by omega))

variable [DecidablePred p]

/-- **The pass finds the run that it is in and the runs that begin later.** -/
theorem mem_scan_open {first : Option ℕ} (ho : Open p lo i first) (hlo : lo ≤ i) :
    (a, l) ∈ scan p n i first ↔ IsRun p lo (i + n) a l ∧ (some a = first ∨ i ≤ a) := by
  induction n generalizing i first with
  | zero =>
    cases first with
    | none =>
      simp only [scan, List.not_mem_nil, false_iff]
      rintro ⟨hrun, h | h⟩
      · cases h
      · have := hrun.pos
        have := hrun.le_hi
        omega
    | some first =>
      have hrun := ho.isRun le_rfl fun h => absurd h (lt_irrefl i)
      simp only [scan, List.mem_singleton, Prod.mk.injEq, Nat.add_zero]
      constructor
      · rintro ⟨rfl, rfl⟩
        exact ⟨hrun, Or.inl rfl⟩
      · rintro ⟨hal, h | h⟩
        · obtain rfl : a = first := Option.some.inj h
          exact ⟨rfl, ho.eq_of_isRun hal le_rfl fun h => absurd h (lt_irrefl i)⟩
        · have := hal.pos
          have := hal.le_hi
          omega
  | succ n ih =>
    have hend : i + 1 + n = i + (n + 1) := by omega
    cases first with
    | none =>
      rw [scan]
      by_cases hp : p i
      · rw [if_pos hp, ih (ho.enter hlo hp) (by omega), hend]
        refine and_congr_right fun hrun => ?_
        have hsome : some a = some i ↔ a = i := Option.some_inj
        have hnone : some a ≠ none := Option.some_ne_none a
        simp only [hsome, hnone, false_or]
        omega
      · rw [if_neg hp, ih (Open.skip hp) (by omega), hend]
        refine and_congr_right fun hrun => ?_
        have hai : a ≠ i := by
          rintro rfl
          exact hp (hrun.all a le_rfl (by have := hrun.pos; omega))
        have hnone : some a ≠ none := Option.some_ne_none a
        simp only [hnone, false_or]
        omega
    | some first =>
      rw [scan]
      by_cases hp : p i
      · rw [if_pos hp, ih (ho.stay hp) (by omega), hend]
        refine and_congr_right fun hrun => or_congr_right' fun hne => ?_
        have hai : a ≠ i := by
          rintro rfl
          obtain ⟨h1, h2, h3, -⟩ := ho
          exact hrun.left (by omega) (h3 (a - 1) (by omega) (by omega))
        omega
      · have hclosed := ho.isRun (by omega : i ≤ i + (n + 1)) fun _ => hp
        rw [if_neg hp, List.mem_cons, ih (Open.skip hp) (by omega), hend]
        constructor
        · rintro (heq | ⟨hrun, h | h⟩)
          · simp only [Prod.mk.injEq] at heq
            obtain ⟨rfl, rfl⟩ := heq
            exact ⟨hclosed, Or.inl rfl⟩
          · cases h
          · exact ⟨hrun, Or.inr (by omega)⟩
        · rintro ⟨hrun, h | h⟩
          · obtain rfl : a = first := Option.some.inj h
            exact Or.inl (by rw [ho.eq_of_isRun hrun (by omega) fun _ => hp])
          · refine Or.inr ⟨hrun, Or.inr ?_⟩
            have hai : a ≠ i := by
              rintro rfl
              exact hp (hrun.all a le_rfl (by have := hrun.pos; omega))
            omega

/-- **The pass over an interval finds exactly its maximal runs.** -/
theorem mem_scan (lo n : ℕ) : (a, l) ∈ scan p n lo none ↔ IsRun p lo (lo + n) a l := by
  have ho : Open p lo lo none := fun h => absurd h (lt_irrefl lo)
  rw [mem_scan_open ho le_rfl]
  exact ⟨fun h => h.1, fun h => ⟨h, Or.inr h.lo_le⟩⟩

end Runs
