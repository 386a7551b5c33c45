import Mathlib.Data.BitVec
import Mathlib.Tactic.Common

/-!
# Words and exact integers

When a sum or a difference of words, with a carry, is the exact one: the range of a word as an
unsigned and as a signed number, and how the bits of the operands and of the result tell that the
exact number is outside of it.

* `borrow_iff`, `carry_iff` — outside the unsigned range;
* `add_overflow_iff`, `sub_overflow_iff` — outside the signed range, from three sign bits;
* `add_adjust_iff`, `sub_adjust_iff` — the same of the low `i` bits, from one bit.
-/

namespace ExactWord

/-- The number is not one of an unsigned word. -/
def NotUnsigned (n : ℕ) (d : ℤ) : Prop := d < 0 ∨ 2 ^ n ≤ d

/-- The number is not one of a signed word. -/
def NotSigned (n : ℕ) (d : ℤ) : Prop := d < -2 ^ (n - 1) ∨ 2 ^ (n - 1) ≤ d

instance (n : ℕ) (d : ℤ) : Decidable (NotUnsigned n d) := inferInstanceAs (Decidable (_ ∨ _))

instance (n : ℕ) (d : ℤ) : Decidable (NotSigned n d) := inferInstanceAs (Decidable (_ ∨ _))

variable {n : ℕ} {x y : BitVec n} {c : Bool}

/-- A carry as a word. -/
def carryWord (n : ℕ) (c : Bool) : BitVec n := (BitVec.ofBool c).setWidth n

theorem carryWord_eq_ofInt (n : ℕ) (c : Bool) : carryWord n c = BitVec.ofInt n c.toNat := by
  cases c
  · simp [carryWord]
  · rw [carryWord, Bool.toNat_true, BitVec.ofInt_natCast]
    exact BitVec.setWidth_ofNat_one_eq_ofNat_one_of_lt Nat.zero_lt_one

/-! ## The result -/

theorem ofInt_toNat (x : BitVec n) : BitVec.ofInt n x.toNat = x := by
  rw [BitVec.ofInt_natCast, BitVec.ofNat_toNat, BitVec.setWidth_eq]

/-- The sum of two words and a carry is the exact one, modulo the range of a word. -/
theorem add_eq_ofInt : x + y + carryWord n c = BitVec.ofInt n (x.toNat + y.toNat + c.toNat) := by
  rw [BitVec.ofInt_add, BitVec.ofInt_add, ofInt_toNat, ofInt_toNat, carryWord_eq_ofInt]

/-- The same of a difference and a borrow. -/
theorem sub_eq_ofInt :
    x - (y + carryWord n c) = BitVec.ofInt n (x.toNat - y.toNat - c.toNat) := by
  rw [sub_sub, sub_eq_add_neg (x.toNat : ℤ), BitVec.ofInt_add, BitVec.ofInt_neg, BitVec.ofInt_add,
    ofInt_toNat, ofInt_toNat, carryWord_eq_ofInt, BitVec.sub_eq_add_neg]

/-- A difference is the sum with the complement, and no borrow is a carry. -/
theorem sub_eq_add_not : x - (y + carryWord n c) = x + ~~~y + carryWord n (!c) := by
  have hfalse : carryWord n false = 0#n := by
    rw [carryWord_eq_ofInt]
    rfl
  have htrue : carryWord n true = 1#n := carryWord_eq_ofInt n true
  cases c
  · rw [hfalse, Bool.not_false, htrue, BitVec.add_zero, BitVec.sub_eq_add_neg,
      BitVec.neg_eq_not_add, BitVec.add_assoc]
  · rw [Bool.not_true, hfalse, htrue, BitVec.add_zero, BitVec.sub_eq_add_neg, BitVec.neg_add,
      BitVec.not_eq_neg_add]

variable {i : ℕ}

theorem setWidth_sub (hi : i ≤ n) : (x - y).setWidth i = x.setWidth i - y.setWidth i := by
  have hadd := BitVec.setWidth_add (x - y) y hi
  rw [BitVec.sub_add_cancel] at hadd
  rw [hadd, BitVec.add_sub_cancel]

/-! ## Unsigned -/

theorem carry_iff : NotUnsigned n (x.toNat + y.toNat + c.toNat) ↔
    2 ^ n ≤ x.toNat + y.toNat + c.toNat := by
  have hpow : ((2 ^ n : ℕ) : ℤ) = 2 ^ n := Nat.cast_pow 2 n
  rw [NotUnsigned, ← hpow]
  generalize 2 ^ n = N
  omega

theorem borrow_iff : NotUnsigned n (x.toNat - y.toNat - c.toNat) ↔
    x.toNat < y.toNat + c.toNat := by
  have hx := x.isLt
  have hpow : ((2 ^ n : ℕ) : ℤ) = 2 ^ n := Nat.cast_pow 2 n
  rw [NotUnsigned, ← hpow]
  generalize 2 ^ n = N at hx
  omega

/-- A negation borrows unless it is that of zero. -/
theorem neg_borrow_iff : NotUnsigned n (-x.toNat) ↔ x ≠ 0 := by
  have hpos : (0 : ℤ) < 2 ^ n := Int.pow_pos (by decide)
  rw [NotUnsigned, ne_eq, ← BitVec.toNat_inj]
  generalize (2 : ℤ) ^ n = N at hpos
  show _ ↔ ¬ x.toNat = 0 % 2 ^ n
  rw [Nat.zero_mod]
  omega

/-- A bit of the operands and of the sum tells whether the bits below it carry. -/
theorem add_adjust_iff (hi : i < n) :
    (x ^^^ y ^^^ (x + y + carryWord n c)).getLsbD i = true ↔
      NotUnsigned i ((x.toNat % 2 ^ i : ℕ) + (y.toNat % 2 ^ i : ℕ) + c.toNat) := by
  have hpow : ((2 ^ i : ℕ) : ℤ) = 2 ^ i := Nat.cast_pow 2 i
  rw [BitVec.getLsbD_xor, BitVec.getLsbD_xor, carryWord, BitVec.getLsbD_add_add_bool hi,
    BitVec.carry, NotUnsigned, ← hpow]
  generalize x.getLsbD i = p, y.getLsbD i = q, 2 ^ i = N
  have hxor : ∀ r : Bool, (p ^^ q ^^ (p ^^ (q ^^ r))) = r := by
    cases p <;> cases q <;> decide
  rw [hxor, decide_eq_true_eq]
  omega

theorem toNat_not_mod (hi : i ≤ n) :
    (~~~y).toNat % 2 ^ i = 2 ^ i - 1 - y.toNat % 2 ^ i := by
  have hlow := congrArg BitVec.toNat (BitVec.setWidth_not (x := y) hi)
  rwa [BitVec.toNat_setWidth, BitVec.toNat_not (x := y.setWidth i), BitVec.toNat_setWidth] at hlow

theorem sub_adjust_iff (hi : i < n) :
    (x ^^^ y ^^^ (x - (y + carryWord n c))).getLsbD i = true ↔
      NotUnsigned i ((x.toNat % 2 ^ i : ℕ) - (y.toNat % 2 ^ i : ℕ) - c.toNat) := by
  have hpow : ((2 ^ i : ℕ) : ℤ) = 2 ^ i := Nat.cast_pow 2 i
  have hadd := add_adjust_iff (x := x) (y := ~~~y) (c := !c) hi
  have hx : x.toNat % 2 ^ i < 2 ^ i := Nat.mod_lt _ (Nat.two_pow_pos i)
  have hy : y.toNat % 2 ^ i < 2 ^ i := Nat.mod_lt _ (Nat.two_pow_pos i)
  have hc : (!c).toNat + c.toNat = 1 := by cases c <;> rfl
  rw [BitVec.getLsbD_xor, BitVec.getLsbD_xor, BitVec.getLsbD_not, toNat_not_mod hi.le, NotUnsigned,
    ← hpow] at hadd
  rw [BitVec.getLsbD_xor, BitVec.getLsbD_xor, sub_eq_add_not, NotUnsigned, ← hpow]
  generalize hr : (x + ~~~y + carryWord n (!c)).getLsbD i = r at hadd ⊢
  generalize x.getLsbD i = p, y.getLsbD i = q at hadd ⊢
  have hxor : (p ^^ q ^^ r) = !(p ^^ (decide (i < n) && !q) ^^ r) := by
    rw [decide_eq_true hi]
    cases p <;> cases q <;> cases r <;> rfl
  rw [hxor, Bool.not_eq_true', ← Bool.not_eq_true, hadd]
  generalize 2 ^ i = N at hx hy ⊢
  omega

/-! ## Signed -/

theorem msb_eq {m : ℕ} (a : BitVec (m + 1)) : a.msb = decide (2 ^ m ≤ a.toNat) := by
  rw [BitVec.msb_eq_decide, Nat.add_sub_cancel]

/-- The sign bits of the operands and of the sum tell whether the exact sum is out of range. -/
theorem add_overflow_iff (hn : 0 < n) :
    (x.msb == y.msb && (x + y + carryWord n c).msb != x.msb) = true ↔
      NotSigned n (x.toInt + y.toInt + c.toNat) := by
  obtain ⟨m, rfl⟩ := Nat.exists_eq_add_one.mpr hn
  have hpow : ((2 ^ m : ℕ) : ℤ) = 2 ^ m := Nat.cast_pow 2 m
  have htwo : 2 ^ (m + 1) = 2 * 2 ^ m := Nat.pow_succ'
  have hx := x.isLt
  have hy := y.isLt
  have hc := Bool.toNat_le c
  have hr : (x + y + carryWord _ c).toNat = (x.toNat + y.toNat + c.toNat) % 2 ^ (m + 1) := by
    rw [add_eq_ofInt, BitVec.toNat_ofInt]
    norm_cast
  simp only [Bool.and_eq_true, beq_iff_eq, bne_iff_ne, ne_eq, msb_eq, decide_eq_decide, hr,
    NotSigned, Nat.add_sub_cancel, BitVec.toInt_eq_toNat_cond, ← hpow]
  rw [htwo] at hx hy ⊢
  generalize x.toNat = p, y.toNat = q, c.toNat = r, 2 ^ m = N at *
  -- The sum wraps around at most once.
  rcases Nat.lt_or_ge (p + q + r) (2 * N) with hlt | hge
  · rw [Nat.mod_eq_of_lt hlt]
    split <;> split <;> omega
  · rw [Nat.mod_eq_sub_mod hge, Nat.mod_eq_of_lt (by omega)]
    split <;> split <;> omega

/-- The complement is the number below the opposite one. -/
theorem toInt_not (hn : 0 < n) (x : BitVec n) : (~~~x).toInt = -1 - x.toInt := by
  obtain ⟨m, rfl⟩ := Nat.exists_eq_add_one.mpr hn
  have htwo : 2 ^ (m + 1) = 2 * 2 ^ m := Nat.pow_succ'
  have hx := x.isLt
  rw [BitVec.toInt_eq_toNat_cond, BitVec.toInt_eq_toNat_cond, BitVec.toNat_not]
  rw [htwo] at hx ⊢
  generalize x.toNat = p, 2 ^ m = N at *
  split <;> split <;> omega

theorem sub_overflow_iff (hn : 0 < n) :
    (x.msb != y.msb && (x - (y + carryWord n c)).msb != x.msb) = true ↔
      NotSigned n (x.toInt - y.toInt - c.toNat) := by
  have hexact : x.toInt - y.toInt - c.toNat = x.toInt + (~~~y).toInt + (!c).toNat := by
    rw [toInt_not hn]
    cases c <;> simp <;> omega
  have hmsb : (x.msb != y.msb) = (x.msb == (~~~y).msb) := by
    rw [BitVec.msb_not, decide_eq_true hn, Bool.true_and]
    cases x.msb <;> cases y.msb <;> rfl
  rw [hexact, hmsb, sub_eq_add_not]
  exact add_overflow_iff hn

/-- A difference is negative when its sign bit and its overflow differ. -/
theorem sub_neg_iff (hn : 0 < n) :
    ((x - y).msb != (x.msb != y.msb && (x - y).msb != x.msb)) = true ↔ x.toInt < y.toInt := by
  obtain ⟨m, rfl⟩ := Nat.exists_eq_add_one.mpr hn
  have htwo : 2 ^ (m + 1) = 2 * 2 ^ m := Nat.pow_succ'
  have hx := x.isLt
  have hy := y.isLt
  simp only [bne_iff_ne, ne_eq, Bool.eq_iff_iff (b := _ && _), Bool.and_eq_true, msb_eq,
    decide_eq_decide, decide_eq_true_eq, BitVec.toNat_sub, BitVec.toInt_eq_toNat_cond]
  rw [htwo] at hx hy ⊢
  generalize x.toNat = p, y.toNat = q, 2 ^ m = N at *
  rcases Nat.lt_or_ge p q with hlt | hge
  · rw [Nat.mod_eq_of_lt (by omega)]
    split <;> split <;> omega
  · rw [Nat.mod_eq_sub_mod (by omega), Nat.mod_eq_of_lt (by omega)]
    split <;> split <;> omega

/-- The lowest signed number. -/
theorem eq_sign_iff (hn : 0 < n) :
    x = BitVec.twoPow n (n - 1) ↔ x.toInt = -2 ^ (n - 1) := by
  obtain ⟨m, rfl⟩ := Nat.exists_eq_add_one.mpr hn
  have hpow : ((2 ^ m : ℕ) : ℤ) = 2 ^ m := Nat.cast_pow 2 m
  have htwo : 2 ^ (m + 1) = 2 * 2 ^ m := Nat.pow_succ'
  have hx := x.isLt
  rw [← BitVec.toNat_inj, BitVec.toNat_twoPow, Nat.add_sub_cancel, BitVec.toInt_eq_toNat_cond,
    Nat.mod_eq_of_lt (Nat.pow_lt_pow_right (by decide) m.lt_succ_self), ← hpow]
  rw [htwo] at hx ⊢
  generalize x.toNat = p, 2 ^ m = N at *
  split <;> omega

/-- The increment overflows to the lowest signed number. -/
theorem add_one_overflow_iff (hn : 0 < n) :
    x + 1 = BitVec.twoPow n (n - 1) ↔ NotSigned n (x.toInt + 1) := by
  obtain ⟨m, rfl⟩ := Nat.exists_eq_add_one.mpr hn
  have hpow : ((2 ^ m : ℕ) : ℤ) = 2 ^ m := Nat.cast_pow 2 m
  have htwo : 2 ^ (m + 1) = 2 * 2 ^ m := Nat.pow_succ'
  have hx := x.isLt
  have hpos := Nat.two_pow_pos m
  have hone : (1 : BitVec (m + 1)).toNat = 1 :=
    Nat.mod_eq_of_lt (Nat.one_lt_two_pow m.succ_ne_zero)
  rw [← BitVec.toNat_inj, BitVec.toNat_add, hone, BitVec.toNat_twoPow, Nat.add_sub_cancel,
    NotSigned, Nat.add_sub_cancel, BitVec.toInt_eq_toNat_cond,
    Nat.mod_eq_of_lt (a := 2 ^ m) (Nat.pow_lt_pow_right (by decide) m.lt_succ_self), ← hpow]
  rw [htwo] at hx ⊢
  generalize x.toNat = p, 2 ^ m = N at *
  rcases Nat.lt_or_ge (p + 1) (2 * N) with hlt | hge
  · rw [Nat.mod_eq_of_lt hlt]
    split <;> omega
  · rw [show p + 1 = 2 * N by omega, Nat.mod_self]
    split <;> omega

/-- The decrement overflows from the lowest signed number. -/
theorem sub_one_overflow_iff (hn : 0 < n) :
    x - 1 = BitVec.twoPow n (n - 1) - 1 ↔ NotSigned n (x.toInt - 1) := by
  have hlow := BitVec.le_toInt x
  have hhigh := BitVec.toInt_lt (x := x)
  have hiff : x - 1 = BitVec.twoPow n (n - 1) - 1 ↔ x = BitVec.twoPow n (n - 1) :=
    BitVec.sub_left_inj _
  rw [hiff, eq_sign_iff hn, NotSigned]
  generalize (2 : ℤ) ^ (n - 1) = N at *
  omega

/-- The negation overflows from the lowest signed number. -/
theorem neg_overflow_iff (hn : 0 < n) :
    x = BitVec.twoPow n (n - 1) ↔ NotSigned n (-x.toInt) := by
  have hlow := BitVec.le_toInt x
  have hhigh := BitVec.toInt_lt (x := x)
  have hpos : (0 : ℤ) < 2 ^ (n - 1) := Int.pow_pos (by decide)
  rw [eq_sign_iff hn, NotSigned]
  generalize (2 : ℤ) ^ (n - 1) = N at *
  omega

end ExactWord
