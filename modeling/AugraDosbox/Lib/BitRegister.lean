import Mathlib.Data.Fintype.Basic
import Mathlib.Tactic.Cases

/-!
# Registers of single bits

A device register whose bits are read and written one at a time, as a
`BitVec w`.

* `bit` — the value with one bit set, `1 << i` cut to the register's width, and
  what setting, clearing and testing that bit do to every bit of the register;
* `firstSet` — the loop `for (i = 0, s = 1; i < max; i++, s <<= 1)` that looks
  for the lowest set bit below a limit, and **`firstSet_eq_some_iff`**: it stops
  exactly at the lowest one;
* `LowestSet` — the position of the lowest set bit, the width when there is none.
-/

namespace BitRegister

variable {w : Nat} {r : BitVec w} {i n max : Nat}

/-! ## One bit -/

/-- The register value with bit `i` set; `0` when the register is too narrow. -/
def bit (w i : Nat) : BitVec w := 1#w <<< i

@[simp] theorem getLsbD_bit (w i n : Nat) :
    (bit w i).getLsbD n = (decide (i < w) && decide (i = n)) := by
  unfold bit
  rw [BitVec.getLsbD_shiftLeft, BitVec.getLsbD_one, Bool.eq_iff_iff]
  simp only [Bool.and_eq_true, Bool.not_eq_true', decide_eq_true_eq, decide_eq_false_iff_not]
  omega

/-- Testing a register against one bit reads that bit. -/
theorem and_bit_ne_zero (r : BitVec w) (i : Nat) : r &&& bit w i ≠ 0 ↔ r.getLsbD i = true := by
  constructor
  · intro h
    by_contra hbit
    apply h
    apply BitVec.eq_of_getLsbD_eq
    intro n hn
    by_cases hin : i = n
    · subst hin
      simp [hbit]
    · simp [hin]
  · intro h hzero
    have hi : i < w := BitVec.lt_of_getLsbD h
    have hread := congrArg (fun v : BitVec w => v.getLsbD i) hzero
    rw [BitVec.getLsbD_and, getLsbD_bit, h] at hread
    simp [hi] at hread

/-! ## The lowest set bit -/

/-- The lowest set bit below `max`, as the scanning loop finds it. -/
def firstSet (r : BitVec w) (max : Nat) : Option Nat :=
  (List.range max).find? fun i => decide (r &&& bit w i ≠ 0)

/-- **The scan stops exactly at the lowest set bit below the limit.** -/
theorem firstSet_eq_some_iff :
    firstSet r max = some i ↔
      i < max ∧ r.getLsbD i = true ∧ ∀ j < i, r.getLsbD j = false := by
  unfold firstSet
  rw [List.find?_range_eq_some]
  simp only [decide_eq_true_eq, and_bit_ne_zero, Bool.not_eq_true', decide_eq_false_iff_not,
    Bool.not_eq_true, List.mem_range]
  tauto

/-- The scan finds nothing exactly when no bit below the limit is set. -/
theorem firstSet_eq_none_iff :
    firstSet r max = none ↔ ∀ i < max, r.getLsbD i = false := by
  unfold firstSet
  rw [List.find?_range_eq_none]
  simp only [Bool.not_eq_true', decide_eq_false_iff_not, and_bit_ne_zero, Bool.not_eq_true]

/-- The position of the lowest set bit; the width of the register when it is zero. -/
def LowestSet (r : BitVec w) (n : Nat) : Prop :=
  n ≤ w ∧ (n < w → r.getLsbD n = true) ∧ ∀ j < n, r.getLsbD j = false

theorem lowestSet_zero : LowestSet (0 : BitVec w) w :=
  ⟨le_refl w, fun h => absurd h (lt_irrefl w), fun _ _ => BitVec.getLsbD_zero⟩

theorem lowestSet_of_firstSet (h : firstSet r w = some i) : LowestSet r i := by
  obtain ⟨hi, hbit, hlow⟩ := firstSet_eq_some_iff.1 h
  exact ⟨Nat.le_of_lt hi, fun _ => hbit, hlow⟩

/-- A register that is not zero has a bit for the scan to find. -/
theorem firstSet_width_ne_none (h : r ≠ 0) : firstSet r w ≠ none := by
  intro hnone
  apply h
  apply BitVec.eq_of_getLsbD_eq
  intro i hi
  rw [firstSet_eq_none_iff.1 hnone i hi]
  exact BitVec.getLsbD_zero.symm

end BitRegister
