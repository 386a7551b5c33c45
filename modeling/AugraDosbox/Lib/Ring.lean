import Mathlib.Data.Nat.ModEq
import Mathlib.Tactic.Common

/-!
# Rings of slots

Positions that are counted without end, in a ring of `size` slots that begins at `start`.

* `slot` — the slot of a position;
* `slot_inj` — positions less than a whole ring apart have different slots;
* `slot_add` — going on by at most a whole ring, with one comparison;
* **`mem_run_iff`** — a run of slots that does not go over the end is a run of positions;
* `slot_scale` — a ring of pages as a ring of bytes.
-/

namespace Ring

variable {start size v w : ℕ}

/-- The slot of the `v`-th position. -/
def slot (start size v : ℕ) : ℕ := start + v % size

theorem le_slot : start ≤ slot start size v := Nat.le_add_right ..

theorem slot_lt (h : 0 < size) : slot start size v < start + size :=
  Nat.add_lt_add_left (Nat.mod_lt v h) start

theorem slot_of_mem {p : ℕ} (h : start ≤ p) (h' : p < start + size) :
    slot start size (p - start) = p := by
  unfold slot
  rw [Nat.mod_eq_of_lt (by omega)]
  omega

/-- Positions less than a whole ring apart have different slots. -/
theorem slot_inj (h : v ≤ w) (h' : w < v + size) (heq : slot start size v = slot start size w) :
    v = w := by
  have hmod : v % size = w % size := Nat.add_left_cancel heq
  have hdvd : size ∣ w - v := (Nat.modEq_iff_dvd' h).mp hmod
  have hzero : w - v = 0 := Nat.eq_zero_of_dvd_of_lt hdvd (by omega)
  omega

theorem slot_inj_of_window {lo : ℕ} (hv : lo ≤ v) (hv' : v < lo + size) (hw : lo ≤ w)
    (hw' : w < lo + size) (heq : slot start size v = slot start size w) : v = w := by
  rcases Nat.le_total v w with h | h
  · exact slot_inj h (by omega) heq
  · exact (slot_inj h (by omega) heq.symm).symm

theorem slot_add {k : ℕ} (h : k ≤ size) : slot start size (v + k) =
    if slot start size v + k < start + size then slot start size v + k
    else slot start size v + k - size := by
  rcases Nat.eq_zero_or_pos size with rfl | hpos
  · obtain rfl : k = 0 := by omega
    simp [slot]
  have hlt := Nat.mod_lt v hpos
  have hmod : (v + k) % size = (v % size + k) % size := by simp
  unfold slot
  rw [hmod]
  split
  · rw [Nat.mod_eq_of_lt (by omega)]
    omega
  · rw [Nat.mod_eq_sub_mod (by omega), Nat.mod_eq_of_lt (by omega)]
    omega

theorem slot_add_of_lt {k : ℕ} (h : slot start size v + k < start + size) :
    slot start size (v + k) = slot start size v + k := by
  have hle : start ≤ slot start size v := le_slot
  rw [slot_add (by omega), if_pos h]

/-- A run of slots that does not go over the end is a run of positions. -/
theorem mem_run_iff {lo a n : ℕ} (ha : lo ≤ a) (ha' : a + n ≤ lo + size) (hv : lo ≤ v)
    (hv' : v < lo + size) (hend : slot start size a + n ≤ start + size) :
    (slot start size a ≤ slot start size v ∧ slot start size v < slot start size a + n) ↔
      (a ≤ v ∧ v < a + n) := by
  have hpos : 0 < size := by omega
  constructor
  · rintro ⟨hle, hlt⟩
    have hslot : slot start size (a + (slot start size v - slot start size a)) =
        slot start size v := by
      rw [slot_add_of_lt (by omega)]
      omega
    have heq := slot_inj_of_window (by omega) (by omega) hv hv' hslot
    omega
  · rintro ⟨hle, hlt⟩
    have hslot : slot start size (a + (v - a)) = slot start size a + (v - a) :=
      slot_add_of_lt (by omega)
    rw [Nat.add_sub_cancel' hle] at hslot
    omega

theorem slot_sub {a n : ℕ} (hv : a ≤ v) (hv' : v < a + n)
    (hend : slot start size a + n ≤ start + size) :
    slot start size v - slot start size a = v - a := by
  have hslot : slot start size (a + (v - a)) = slot start size a + (v - a) :=
    slot_add_of_lt (by omega)
  rw [Nat.add_sub_cancel' hv] at hslot
  omega

/-- A ring of pages as a ring of bytes. -/
theorem slot_scale {m i : ℕ} (hi : i < m) :
    slot (start * m) (size * m) (v * m + i) = slot start size v * m + i := by
  unfold slot
  have hdiv : (v * m + i) / m = v := by
    rw [Nat.mul_comm, Nat.mul_add_div (by omega), Nat.div_eq_of_lt hi, Nat.add_zero]
  have hrest : (v * m + i) % m = i := by
    rw [Nat.mul_comm, Nat.mul_add_mod, Nat.mod_eq_of_lt hi]
  rw [Nat.mul_comm size m, Nat.mod_mul, hdiv, hrest, Nat.add_mul, Nat.mul_comm m]
  omega

end Ring
