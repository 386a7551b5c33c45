import Mathlib.Algebra.GroupWithZero.Nat
import Mathlib.Logic.Function.Basic
import Mathlib.Data.Nat.Bitwise
import Mathlib.Tactic.Common

/-!
# Numbers in a memory of bytes

A memory is a function from byte offsets to bytes; numbers are stored in it with their
lowest byte first.

* `load`, `store` — a number of `n` bytes at an offset;
* `bit` — the memory as a sequence of bits, the lowest bit of each byte first;
* `testBit_load`, `bit_store` — loading and storing, bit by bit.  What is packed into a
  memory without regard for the limits of bytes is described by its bits;
* `load_store`, `load_congr`, `store_of_not_mem` — reading back, and the frame rules;
* `load_shift`, `store_shift` — a part of a memory that has been moved elsewhere.
-/

namespace ByteMemory

/-- A memory of bytes. -/
abbrev Memory := ℕ → UInt8

variable {m m' : Memory} {o n x k i : ℕ}

/-- The number in the `n` bytes from `o` on. -/
def load (m : Memory) (o : ℕ) : ℕ → ℕ
  | 0 => 0
  | n + 1 => (m o).toNat + 2 ^ 8 * load m (o + 1) n

/-- Stores the lower `n` bytes of `x` from `o` on. -/
def store (m : Memory) (o : ℕ) : ℕ → ℕ → Memory
  | 0, _ => m
  | n + 1, x => store (Function.update m o (UInt8.ofNat x)) (o + 1) n (x / 2 ^ 8)

/-- The bit with number `k`. -/
def bit (m : Memory) (k : ℕ) : Bool := (m (k / 8)).toNat.testBit (k % 8)

/-! ## Loading -/

/-- A number that lies elsewhere in another memory. -/
theorem load_shift (s : ℕ) (h : ∀ k, o ≤ k → k < o + n → m k = m' (s + k)) :
    load m o n = load m' (s + o) n := by
  induction n generalizing o with
  | zero => rfl
  | succ n ih =>
    show (m o).toNat + 2 ^ 8 * load m (o + 1) n
      = (m' (s + o)).toNat + 2 ^ 8 * load m' (s + (o + 1)) n
    rw [h o le_rfl (by omega), ih fun k hk hk' => h k (by omega) (by omega)]

theorem load_congr (h : ∀ k, o ≤ k → k < o + n → m k = m' k) : load m o n = load m' o n := by
  have hshift : load m o n = load m' (0 + o) n :=
    load_shift 0 fun k hk hk' => by rw [h k hk hk', Nat.zero_add]
  rwa [Nat.zero_add] at hshift

/-- **A number has the bits of its bytes.** -/
theorem testBit_load : (load m o n).testBit i = (decide (i < 8 * n) && bit m (8 * o + i)) := by
  induction n generalizing o i with
  | zero => simp [load]
  | succ n ih =>
    have hbyte : (m o).toNat < 2 ^ 8 := (m o).toNat_lt
    have hsplit := Nat.testBit_two_pow_mul_add (load m (o + 1) n) hbyte i
    have hload : load m o (n + 1) = 2 ^ 8 * load m (o + 1) n + (m o).toNat := Nat.add_comm _ _
    rw [hload, hsplit]
    by_cases hi : i < 8
    · rw [if_pos hi]
      have hdiv : (8 * o + i) / 8 = o := by omega
      have hmod : (8 * o + i) % 8 = i := by omega
      simp [bit, hdiv, hmod, show i < 8 * (n + 1) by omega]
    · rw [if_neg hi, ih]
      congr 1
      · exact decide_eq_decide.mpr (by omega)
      · congr 1
        omega

/-! ## Storing -/

theorem store_of_not_mem (h : k < o ∨ o + n ≤ k) : store m o n x k = m k := by
  induction n generalizing m o x with
  | zero => rfl
  | succ n ih =>
    show store (Function.update m o (UInt8.ofNat x)) (o + 1) n (x / 2 ^ 8) k = m k
    rw [ih (by omega), Function.update_of_ne (by omega)]

theorem store_shift (s : ℕ) (h : m k = m' (s + k)) :
    store m o n x k = store m' (s + o) n x (s + k) := by
  induction n generalizing m m' o x with
  | zero => exact h
  | succ n ih =>
    refine ih ?_
    by_cases hk : k = o
    · rw [hk, Function.update_self, Function.update_self]
    · rw [Function.update_of_ne hk, Function.update_of_ne (by omega), h]

/-- **Storing sets the bits of its bytes and no others.** -/
theorem bit_store : bit (store m o n x) k
    = if 8 * o ≤ k ∧ k < 8 * (o + n) then x.testBit (k - 8 * o) else bit m k := by
  induction n generalizing m o x with
  | zero => rw [if_neg (by omega)]; rfl
  | succ n ih =>
    show bit (store (Function.update m o (UInt8.ofNat x)) (o + 1) n (x / 2 ^ 8)) k = _
    rw [ih]
    by_cases hhigh : 8 * (o + 1) ≤ k ∧ k < 8 * (o + 1 + n)
    · rw [if_pos hhigh, if_pos (by omega), Nat.testBit_div_two_pow]
      congr 1
      omega
    · rw [if_neg hhigh]
      by_cases hlow : 8 * o ≤ k ∧ k < 8 * (o + (n + 1))
      · have hdiv : k / 8 = o := by omega
        rw [if_pos hlow, bit, hdiv, Function.update_self, UInt8.toNat_ofNat',
          Nat.testBit_mod_two_pow]
        simp [show k % 8 = k - 8 * o by omega, show k - 8 * o < 8 by omega]
      · rw [if_neg hlow, bit, bit, Function.update_of_ne (by omega)]

theorem load_store : load (store m o n x) o n = x % 2 ^ (8 * n) := by
  refine Nat.eq_of_testBit_eq fun i => ?_
  rw [testBit_load, bit_store, Nat.testBit_mod_two_pow]
  by_cases hi : i < 8 * n
  · rw [if_pos (by omega)]
    simp
  · simp [hi]

theorem load_store_of_disjoint {o' n' : ℕ} (h : o' + n' ≤ o ∨ o + n ≤ o') :
    load (store m o n x) o' n' = load m o' n' :=
  load_congr fun _ _ _ => store_of_not_mem (by omega)

end ByteMemory
