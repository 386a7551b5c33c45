import AugraDosbox.Cpu.FlagsAgree

/-!
# Shifts

What the shift macros of `cpu/instructions.h` store, and the carry and the overflow that
`FillFlags` reports for them, bit by bit.

* `ShiftOp.bit`, `ShiftOp.lastOut`, `ShiftOp.overflow` — the bits of the result, the bit that is
  shifted out last and the overflow of a shift by one;
* **`shift_right_iff`** — the macros and `FillFlags` give them, but for the overflow of `DSHLW` by
  one: it is taken from the second operand in the low half of `lf_var1d`, so it is right exactly
  when the two operands have the same sign;
* `dshlw_overflow_wrong` — such a `DSHLW`.
-/

namespace AugraDosbox

open FlagType LazyFlags

/-! ## The instructions on bits -/

/-- The shifts; the last two take their new bits from a second operand. -/
inductive ShiftOp where
  | SHL
  | SHR
  | SAR
  | SHLD
  | SHRD
  deriving DecidableEq, Repr

namespace ShiftOp

/-- The instruction; there are no double shifts of bytes. -/
def instr : ShiftOp → (w : Width) → BitVec w.bits → BitVec w.bits → BitVec 8 → Option Instr
  | SHL, _, op1, _, count => some (.SHL op1 count)
  | SHR, _, op1, _, count => some (.SHR op1 count)
  | SAR, _, op1, _, count => some (.SAR op1 count)
  | SHLD, .word, op1, op2, count => some (.DSHLW op1 op2 count)
  | SHLD, .dword, op1, op2, count => some (.DSHLD op1 op2 count)
  | SHRD, .word, op1, op2, count => some (.DSHRW op1 op2 count)
  | SHRD, .dword, op1, op2, count => some (.DSHRD op1 op2 count)
  | SHLD, .byte, _, _, _ | SHRD, .byte, _, _, _ => none

/-- Bit `j` of the operand shifted by `n`. -/
def bit (w : Width) (op1 op2 : BitVec w.bits) (n j : ℕ) : ShiftOp → Bool
  | SHL => decide (n ≤ j) && op1.getLsbD (j - n)
  | SHR => op1.getLsbD (j + n)
  | SAR => if j + n < w.bits then op1.getLsbD (j + n) else op1.msb
  | SHLD => if n ≤ j then op1.getLsbD (j - n) else op2.getLsbD (w.bits - n + j)
  | SHRD => if j + n < w.bits then op1.getLsbD (j + n) else op2.getLsbD (j + n - w.bits)

/-- The bit shifted out last. -/
def lastOut (w : Width) (op1 : BitVec w.bits) (n : ℕ) : ShiftOp → Bool
  | SHL | SHLD => op1.getLsbD (w.bits - n)
  | SHR | SAR | SHRD => op1.getLsbD (n - 1)

/-- The overflow of a shift by one: that the sign changes, or the sign shifted out. -/
def overflow (w : Width) (op1 op2 : BitVec w.bits) (op : ShiftOp) : Option Bool :=
  match op with
  | SHL | SHLD | SHRD => some (op.bit w op1 op2 1 (w.bits - 1) != op1.msb)
  | SHR => some op1.msb
  | SAR => none

/-- The result and the flags are those of the instruction, where these are defined. -/
structure Right (op : ShiftOp) (w : Width) (op1 op2 : BitVec w.bits) (n : ℕ) (c : Cpu) : Prop where
  value : ∀ j < w.bits, (c.lflags.lf_res w).getLsbD j = op.bit w op1 op2 n j
  carry : n ≤ w.bits → isSet (FillFlags c).1 .CF = op.lastOut w op1 n
  overflow : n = 1 → ∀ v, op.overflow w op1 op2 = some v → isSet (FillFlags c).1 .OF = v

end ShiftOp

/-! ## Bits -/

section Bits

variable {w : Width}

theorem bits_le (w : Width) : 8 ≤ w.bits ∧ w.bits ≤ 32 := by
  cases w <;> decide

theorem truth_and_one (x : BitVec 32) : truth (x &&& 1) = x.getLsbD 0 :=
  truth_and_twoPow (i := 0) x (by decide)

/-- The masked count is one of 31. -/
theorem masked_lt (count : BitVec 8) : (count &&& 0x1f).toNat < 32 := by
  rw [BitVec.toNat_and]
  exact Nat.and_lt_two_pow _ (by decide : (0x1f#8).toNat < 2 ^ 5)

/-- The lazy flags of a shift by `val`. -/
structure RecordedShift (l : LazyFlags) (type : FlagType) (op1 : BitVec w.bits) (val : BitVec 8)
    (res : BitVec w.bits) : Prop where
  type : l.type = type
  var1 : l.lf_var1 w = op1
  count : l.lf_var2b = val
  res : l.lf_res w = res

theorem recordedShift {type : FlagType} {op1 res : BitVec w.bits} {val : BitVec 8}
    {l : LazyFlags} : RecordedShift (recordShift type op1 val res l) type op1 val res :=
  ⟨rfl, setWidth_store .., setWidth_store (w := .byte) .., setWidth_store ..⟩

variable {l : LazyFlags} {type : FlagType} {op1 res : BitVec w.bits} {val : BitVec 8}

theorem truth_shiftedOutLeft (hvar1 : l.lf_var1 w = op1) (hcount : l.lf_var2b = val)
    (hpos : 0 < val.toNat) : truth (shiftedOutLeft w l) = op1.getLsbD (w.bits - val.toNat) := by
  have hw := bits_le w
  rw [shiftedOutLeft, truth_and_one, hvar1, hcount, BitVec.getLsbD_ushiftRight, Nat.add_zero,
    BitVec.getLsbD_setWidth, decide_eq_true (by omega), Bool.true_and]

theorem truth_shlCarry (h : RecordedShift l type op1 val res) (hpos : 0 < val.toNat)
    (hle : val.toNat ≤ w.bits) :
    truth (shlCarry w l) = op1.getLsbD (w.bits - val.toNat) := by
  rw [← truth_shiftedOutLeft h.var1 h.count hpos]
  cases w with
  | byte =>
    rw [shlCarry, if_neg]
    rw [h.count]
    exact Nat.not_lt.mpr hle
  | word =>
    rw [shlCarry, if_neg]
    rw [h.count]
    exact Nat.not_lt.mpr hle
  | dword => rfl

theorem minus_one_toNat (hpos : 0 < val.toNat) : (val - 1).toNat = val.toNat - 1 :=
  BitVec.toNat_sub_of_le hpos

theorem truth_shiftedOutRight (hvar1 : l.lf_var1 w = op1) (hcount : l.lf_var2b = val)
    (hpos : 0 < val.toNat) (hle : val.toNat ≤ 32) :
    truth (shiftedOutRight w l) = op1.getLsbD (val.toNat - 1) := by
  rw [shiftedOutRight, truth_and_one, hvar1, lf_var2b_minus_one, hcount,
    BitVec.getLsbD_ushiftRight, Nat.add_zero, BitVec.getLsbD_setWidth, minus_one_toNat hpos,
    decide_eq_true (by omega), Bool.true_and]

theorem truth_shiftedOutSigned (h : RecordedShift l type op1 val res) (hpos : 0 < val.toNat)
    (hle : val.toNat ≤ w.bits) :
    truth (shiftedOutSigned w l) = op1.getLsbD (val.toNat - 1) := by
  have hw := bits_le w
  rw [shiftedOutSigned, truth_and_one, h.var1, lf_var2b_minus_one, h.count,
    BitVec.getLsbD_sshiftRight, minus_one_toNat hpos, Nat.add_zero, BitVec.getLsbD_signExtend,
    if_pos (by omega), if_pos (by omega), decide_eq_false (by omega), decide_eq_true (by omega)]
  rfl

end Bits

/-! ## What `FillFlags` reports of a shift -/

section Flags

variable {w : Width} {c : Cpu} {op1 res : BitVec w.bits} {val : BitVec 8}

theorem carry_shl (h : RecordedShift c.lflags (t_SHL w) op1 val res) (hpos : 0 < val.toNat)
    (hle : val.toNat ≤ w.bits) :
    isSet (FillFlags c).1 .CF = op1.getLsbD (w.bits - val.toNat) := by
  rw [← truth_shlCarry h hpos hle]
  simp only [FillFlags, h.type, DOFLAG_SF_eq, DOFLAG_PF_eq, DOFLAG_ZF, isSet_SETFLAGBIT,
    reduceCtorEq, if_true, if_false]

theorem overflow_shl (h : RecordedShift c.lflags (t_SHL w) op1 val res) :
    isSet (FillFlags c).1 .OF = (res.msb != op1.msb) := by
  simp only [FillFlags, h.type, h.var1, h.res, DOFLAG_SF_eq, DOFLAG_PF_eq, DOFLAG_ZF,
    isSet_SETFLAGBIT, truth_and_sign, BitVec.msb_xor, reduceCtorEq, if_true, if_false]

theorem carry_shr (h : RecordedShift c.lflags (t_SHR w) op1 val res) (hpos : 0 < val.toNat)
    (hle : val.toNat ≤ 32) : isSet (FillFlags c).1 .CF = op1.getLsbD (val.toNat - 1) := by
  rw [← truth_shiftedOutRight h.var1 h.count hpos hle]
  simp only [FillFlags, h.type, DOFLAG_SF_eq, DOFLAG_PF_eq, DOFLAG_ZF, isSet_SETFLAGBIT,
    reduceCtorEq, if_true, if_false]

theorem sign_le_iff : w.sign ≤ op1 ↔ op1.msb = true := by
  have hsign : w.sign.toNat = 2 ^ (w.bits - 1) := by cases w <;> rfl
  rw [BitVec.le_def, hsign, BitVec.msb_eq_decide, decide_eq_true_eq]

theorem overflow_shr (h : RecordedShift c.lflags (t_SHR w) op1 1 res) :
    isSet (FillFlags c).1 .OF = op1.msb := by
  have hone : (c.lflags.lf_var2 w).setWidth 32 &&& 0x1f#32 = 1#32 := by
    rw [masked_count, h.count]
    rfl
  simp only [FillFlags, h.type, h.var1, DOFLAG_SF_eq, DOFLAG_PF_eq, DOFLAG_ZF, isSet_SETFLAGBIT,
    reduceCtorEq, if_true, if_false, hone, true_and, sign_le_iff, Bool.decide_eq_true]

theorem carry_sar (h : RecordedShift c.lflags (t_SAR w) op1 val res) (hpos : 0 < val.toNat)
    (hle : val.toNat ≤ w.bits) : isSet (FillFlags c).1 .CF = op1.getLsbD (val.toNat - 1) := by
  rw [← truth_shiftedOutSigned h hpos hle]
  simp only [FillFlags, h.type, DOFLAG_SF_eq, DOFLAG_PF_eq, DOFLAG_ZF, isSet_SETFLAGBIT,
    reduceCtorEq, if_true, if_false]

end Flags

section DoubleFlags

variable {c : Cpu} {op1 res : BitVec (Width.bits .dword)} {val : BitVec 8}

theorem carry_dshld (h : RecordedShift (w := .dword) c.lflags t_DSHLd op1 val res)
    (hpos : 0 < val.toNat) : isSet (FillFlags c).1 .CF = op1.getLsbD (32 - val.toNat) := by
  have hcarry := truth_shiftedOutLeft h.var1 h.count hpos
  change _ = op1.getLsbD (32 - val.toNat) at hcarry
  rw [← hcarry]
  simp only [FillFlags, h.type, DOFLAG_SF_eq, DOFLAG_PF_eq, DOFLAG_ZF, isSet_SETFLAGBIT,
    reduceCtorEq, if_true, if_false]

theorem carry_dshrd (h : RecordedShift (w := .dword) c.lflags t_DSHRd op1 val res)
    (hpos : 0 < val.toNat) (hle : val.toNat ≤ 32) :
    isSet (FillFlags c).1 .CF = op1.getLsbD (val.toNat - 1) := by
  rw [← truth_shiftedOutRight h.var1 h.count hpos hle]
  simp only [FillFlags, h.type, DOFLAG_SF_eq, DOFLAG_PF_eq, DOFLAG_ZF, isSet_SETFLAGBIT,
    reduceCtorEq, if_true, if_false]

theorem overflow_double (h : RecordedShift (w := .dword) c.lflags t_DSHLd op1 val res ∨
    RecordedShift (w := .dword) c.lflags t_DSHRd op1 val res) :
    isSet (FillFlags c).1 .OF = (res.msb != op1.msb) := by
  rcases h with h | h <;>
    simp only [FillFlags, h.type, h.var1, h.res, DOFLAG_SF_eq, DOFLAG_PF_eq, DOFLAG_ZF,
      isSet_SETFLAGBIT, truth_and_sign, BitVec.msb_xor, reduceCtorEq, if_true, if_false]

end DoubleFlags

/-! ## Double shifts of words -/

section Words

/-- The two words of `lf_var1d` of a double shift. -/
structure RecordedWords (l : LazyFlags) (type : FlagType) (high low : BitVec 16) (val : BitVec 8)
    (res : BitVec 16) : Prop where
  type : l.type = type
  var1 : l.var1 = (high.setWidth 32 <<< 16) ||| low.setWidth 32
  count : l.lf_var2b = val
  res : l.lf_res .word = res

theorem getLsbD_words (high low : BitVec 16) (i : ℕ) :
    ((high.setWidth 32 <<< 16) ||| low.setWidth 32).getLsbD i =
      if i < 16 then low.getLsbD i else high.getLsbD (i - 16) := by
  rw [BitVec.getLsbD_or, BitVec.getLsbD_shiftLeft, BitVec.getLsbD_setWidth, BitVec.getLsbD_setWidth]
  by_cases hi : i < 16
  · simp [hi, Nat.lt_trans hi (by decide : 16 < 32)]
  · rw [if_neg hi, BitVec.getLsbD_of_ge low i (by omega)]
    by_cases hi' : i < 32
    · simp [hi, hi', show i - 16 < 32 by omega]
    · simp [hi', BitVec.getLsbD_of_ge high (i - 16) (by omega)]

variable {c : Cpu} {high low res : BitVec 16} {val : BitVec 8}

theorem RecordedWords.low_eq {type : FlagType} (h : RecordedWords c.lflags type high low val res) :
    c.lflags.lf_var1 .word = low := by
  refine BitVec.eq_of_getLsbD_eq fun i hi => ?_
  change i < 16 at hi
  rw [lf_var1, h.var1, BitVec.getLsbD_setWidth, getLsbD_words, if_pos hi]
  exact Bool.and_eq_right_iff_imp.mpr fun _ => decide_eq_true hi

theorem carry_dshlw (h : RecordedWords c.lflags t_DSHLw high low val res) (hpos : 0 < val.toNat)
    (hle : val.toNat ≤ 16) : isSet (FillFlags c).1 .CF = high.getLsbD (16 - val.toNat) := by
  have hcarry := truth_shiftedOutLeft (w := .dword) (l := c.lflags) rfl h.count hpos
  rw [lf_var1, h.var1] at hcarry
  change _ = (((high.setWidth 32 <<< 16) ||| low.setWidth 32).setWidth 32).getLsbD
    (32 - val.toNat) at hcarry
  rw [BitVec.setWidth_eq, getLsbD_words, if_neg (by omega)] at hcarry
  rw [show 16 - val.toNat = 32 - val.toNat - 16 by omega, ← hcarry]
  simp only [FillFlags, h.type, DOFLAG_SF_eq, DOFLAG_PF_eq, DOFLAG_ZF, isSet_SETFLAGBIT,
    reduceCtorEq, if_true, if_false]

theorem carry_dshrw (h : RecordedWords c.lflags t_DSHRw high low val res) (hpos : 0 < val.toNat)
    (hle : val.toNat ≤ 16) : isSet (FillFlags c).1 .CF = low.getLsbD (val.toNat - 1) := by
  have hcarry := truth_shiftedOutRight (w := .dword) (l := c.lflags) rfl h.count hpos (by omega)
  rw [lf_var1, h.var1] at hcarry
  change _ = (((high.setWidth 32 <<< 16) ||| low.setWidth 32).setWidth 32).getLsbD
    (val.toNat - 1) at hcarry
  rw [BitVec.setWidth_eq, getLsbD_words, if_pos (by omega)] at hcarry
  rw [← hcarry]
  simp only [FillFlags, h.type, DOFLAG_SF_eq, DOFLAG_PF_eq, DOFLAG_ZF, isSet_SETFLAGBIT,
    reduceCtorEq, if_true, if_false]

/-- The overflow is taken from the operand in the low word. -/
theorem overflow_words (h : RecordedWords c.lflags t_DSHLw high low val res ∨
    RecordedWords c.lflags t_DSHRw high low val res) :
    isSet (FillFlags c).1 .OF = (res.msb != low.msb) := by
  have hmsb : ∀ x y : BitVec (Width.bits .word),
      truth ((x ^^^ y) &&& Width.sign .word) = (x.msb ^^ y.msb) :=
    fun x y => (truth_and_sign (x ^^^ y)).trans BitVec.msb_xor
  rcases h with h | h <;>
    simp only [FillFlags, h.type, h.low_eq, h.res, DOFLAG_SF_eq, DOFLAG_PF_eq, DOFLAG_ZF,
      isSet_SETFLAGBIT, reduceCtorEq, if_true, if_false] <;>
    exact hmsb res low

end Words

/-! ## The shifted values -/

section Values

variable {w : Width} {op1 op2 : BitVec w.bits} {n j : ℕ}

theorem getLsbD_shl (hj : j < w.bits) :
    (op1 <<< n).getLsbD j = ShiftOp.SHL.bit w op1 op2 n j := by
  rw [BitVec.getLsbD_shiftLeft, ShiftOp.bit, decide_eq_true hj, Bool.true_and]
  by_cases hn : n ≤ j
  · rw [decide_eq_true hn, decide_eq_false (Nat.not_lt.mpr hn)]
    rfl
  · rw [decide_eq_false hn, decide_eq_true (Nat.lt_of_not_le hn)]
    rfl

theorem getLsbD_shr : (op1 >>> n).getLsbD j = ShiftOp.SHR.bit w op1 op2 n j := by
  rw [BitVec.getLsbD_ushiftRight, Nat.add_comm]
  rfl

/-- An arithmetic shift by the width or more is one by the width. -/
theorem getLsbD_sar {m : ℕ} (hm : m = min n w.bits) (hj : j < w.bits) :
    (sarResult op1 m).getLsbD j = ShiftOp.SAR.bit w op1 op2 n j := by
  have hsign : op1 &&& w.sign ≠ 0 ↔ op1.msb = true := by
    rw [← truth_and_sign, truth, bne_iff_ne]
  rw [sarResult, ShiftOp.bit]
  by_cases hmsb : op1.msb = true
  · rw [if_pos (hsign.mpr hmsb), BitVec.getLsbD_or, BitVec.getLsbD_ushiftRight,
      BitVec.getLsbD_shiftLeft, BitVec.getLsbD_allOnes, hmsb]
    by_cases hin : j + n < w.bits
    · rw [if_pos hin, show m + j = j + n by omega, decide_eq_true (show j < w.bits - m by omega)]
      simp
    · rw [if_neg hin, decide_eq_false (show ¬ j < w.bits - m by omega), decide_eq_true hj,
        decide_eq_true (show j - (w.bits - m) < w.bits by omega)]
      simp
  · rw [if_neg (fun h => hmsb (hsign.mp h)), BitVec.getLsbD_ushiftRight]
    by_cases hin : j + n < w.bits
    · rw [if_pos hin, show m + j = j + n by omega]
    · rw [if_neg hin, BitVec.getLsbD_of_ge op1 (m + j) (by omega)]
      exact (Bool.not_eq_true _ ▸ hmsb).symm

theorem sarCount_eq (val : BitVec 8) (hlt : val.toNat < 32) :
    (sarCount w val).toNat = min val.toNat w.bits := by
  cases w with
  | byte =>
    rw [sarCount]
    split
    · next h =>
      change 8 < val.toNat at h
      exact (Nat.min_eq_right h.le).symm
    · next h =>
      change ¬ 8 < val.toNat at h
      exact (Nat.min_eq_left (Nat.le_of_not_lt h)).symm
  | word =>
    rw [sarCount]
    split
    · next h =>
      change 16 < val.toNat at h
      exact (Nat.min_eq_right h.le).symm
    · next h =>
      change ¬ 16 < val.toNat at h
      exact (Nat.min_eq_left (Nat.le_of_not_lt h)).symm
  | dword => exact (Nat.min_eq_left hlt.le).symm

end Values

section DoubleValues

variable {n j : ℕ}

theorem getLsbD_dshld {op1 op2 : BitVec (Width.bits .dword)} (hj : j < 32) :
    ((op1 <<< n) ||| (op2 >>> (32 - n))).getLsbD j = ShiftOp.SHLD.bit .dword op1 op2 n j := by
  rw [BitVec.getLsbD_or, BitVec.getLsbD_shiftLeft, BitVec.getLsbD_ushiftRight, ShiftOp.bit]
  by_cases hn : n ≤ j
  · rw [if_pos hn, BitVec.getLsbD_of_ge op2 (32 - n + j) (by change 32 ≤ _; omega),
      decide_eq_true (show j < Width.bits .dword from hj), decide_eq_false (Nat.not_lt.mpr hn)]
    simp
  · rw [if_neg hn, decide_eq_true (Nat.lt_of_not_le hn)]
    simp
    rfl

theorem getLsbD_dshrd {op1 op2 : BitVec (Width.bits .dword)} (hn : n ≤ 32) (hj : j < 32) :
    ((op1 >>> n) ||| (op2 <<< (32 - n))).getLsbD j = ShiftOp.SHRD.bit .dword op1 op2 n j := by
  rw [BitVec.getLsbD_or, BitVec.getLsbD_shiftLeft, BitVec.getLsbD_ushiftRight, ShiftOp.bit,
    decide_eq_true (show j < Width.bits .dword from hj)]
  by_cases hin : j + n < Width.bits .dword
  · rw [if_pos hin, Nat.add_comm n j]
    change j + n < 32 at hin
    rw [decide_eq_true (show j < 32 - n by omega)]
    simp
  · rw [if_neg hin, BitVec.getLsbD_of_ge op1 (n + j) (by omega)]
    change ¬ j + n < 32 at hin
    rw [decide_eq_false (show ¬ j < 32 - n by omega)]
    change (false || true && !false && op2.getLsbD (j - (32 - n))) = op2.getLsbD (j + n - 32)
    rw [show j - (32 - n) = j + n - 32 by omega]
    simp

theorem getLsbD_dshlw {op1 op2 : BitVec 16} (hn : n ≤ 16) (hj : j < 16) :
    (((((op1.setWidth 32 <<< 16) ||| op2.setWidth 32) <<< n) >>> 16).setWidth 16).getLsbD j =
      if n ≤ j then op1.getLsbD (j - n) else op2.getLsbD (16 - n + j) := by
  rw [BitVec.getLsbD_setWidth, decide_eq_true hj, BitVec.getLsbD_ushiftRight,
    BitVec.getLsbD_shiftLeft, decide_eq_true (show 16 + j < 32 by omega),
    decide_eq_false (show ¬ 16 + j < n by omega), getLsbD_words]
  by_cases hin : n ≤ j
  · rw [if_pos hin, if_neg (by omega), show 16 + j - n - 16 = j - n by omega]
    rfl
  · rw [if_neg hin, if_pos (by omega), show 16 + j - n = 16 - n + j by omega]
    rfl

theorem getLsbD_dshrw {op1 op2 : BitVec 16} (hj : j < 16) :
    ((((op2.setWidth 32 <<< 16) ||| op1.setWidth 32) >>> n).setWidth 16).getLsbD j =
      if j + n < 16 then op1.getLsbD (j + n) else op2.getLsbD (j + n - 16) := by
  rw [BitVec.getLsbD_setWidth, decide_eq_true hj, BitVec.getLsbD_ushiftRight, getLsbD_words,
    Nat.add_comm n j]
  rfl

end DoubleValues

/-! ## Every shift -/

namespace ShiftOp

variable {op : ShiftOp} {w : Width} {op1 op2 : BitVec w.bits} {count : BitVec 8} {c : Cpu}
  {i : Instr}

/-- The shifts of which the code reports a wrong overflow. -/
def WrongOverflow (op : ShiftOp) (w : Width) (op1 op2 : BitVec w.bits) (count : BitVec 8) : Prop :=
  op = .SHLD ∧ w = .word ∧ count &&& 0x1f = 1 ∧ op1.msb ≠ op2.msb

theorem not_wrong (h : op ≠ .SHLD ∨ w ≠ .word) : ¬ WrongOverflow op w op1 op2 count := by
  rintro ⟨hop, hw, -⟩
  exact h.elim (fun h => h hop) fun h => h hw

theorem msb_eq_bit {res : BitVec w.bits} {n : ℕ}
    (hvalue : ∀ j < w.bits, res.getLsbD j = op.bit w op1 op2 n j) :
    res.msb = op.bit w op1 op2 n (w.bits - 1) := by
  rw [BitVec.msb_eq_getLsbD_last]
  exact hvalue _ (by have := bits_le w; omega)

theorem right_shl (hn : count &&& 0x1f ≠ 0) :
    SHL.Right w op1 op2 (count &&& 0x1f).toNat ((Instr.SHL op1 count).record c) := by
  have hpos : 0 < (count &&& 0x1f).toNat :=
    Nat.pos_of_ne_zero fun h => hn (BitVec.eq_of_toNat_eq h)
  have hrec : RecordedShift ((Instr.SHL op1 count).record c).lflags (t_SHL w) op1 (count &&& 0x1f)
      (op1 <<< (count &&& 0x1f).toNat) := by
    rw [Instr.record, if_neg hn]
    exact recordedShift
  have hvalue : ∀ j < w.bits, (op1 <<< (count &&& 0x1f).toNat).getLsbD j =
    SHL.bit w op1 op2 (count &&& 0x1f).toNat j := fun j hj => getLsbD_shl hj
  refine ⟨fun j hj => ?_, fun hle => carry_shl hrec hpos hle, fun hone v hv => ?_⟩
  · rw [hrec.res]
    exact hvalue j hj
  · cases hv
    rw [overflow_shl hrec, msb_eq_bit hvalue, hone]

theorem right_shr (hn : count &&& 0x1f ≠ 0) :
    SHR.Right w op1 op2 (count &&& 0x1f).toNat ((Instr.SHR op1 count).record c) := by
  have hpos : 0 < (count &&& 0x1f).toNat :=
    Nat.pos_of_ne_zero fun h => hn (BitVec.eq_of_toNat_eq h)
  have hrec : RecordedShift ((Instr.SHR op1 count).record c).lflags (t_SHR w) op1 (count &&& 0x1f)
      (op1 >>> (count &&& 0x1f).toNat) := by
    rw [Instr.record, if_neg hn]
    exact recordedShift
  refine ⟨fun j _ => ?_, fun _ => carry_shr hrec hpos (masked_lt count).le, fun hone v hv => ?_⟩
  · rw [hrec.res]
    exact getLsbD_shr
  · cases hv
    have hval : count &&& 0x1f = 1 := BitVec.eq_of_toNat_eq hone
    rw [hval] at hrec
    exact overflow_shr hrec

theorem right_sar (hn : count &&& 0x1f ≠ 0) :
    SAR.Right w op1 op2 (count &&& 0x1f).toNat ((Instr.SAR op1 count).record c) := by
  have hpos : 0 < (count &&& 0x1f).toNat :=
    Nat.pos_of_ne_zero fun h => hn (BitVec.eq_of_toNat_eq h)
  have hmin := sarCount_eq (w := w) (count &&& 0x1f) (masked_lt count)
  have hrec : RecordedShift ((Instr.SAR op1 count).record c).lflags (t_SAR w) op1
      (sarCount w (count &&& 0x1f)) (sarResult op1 (sarCount w (count &&& 0x1f)).toNat) := by
    rw [Instr.record]
    dsimp only
    rw [if_neg hn]
    exact recordedShift
  refine ⟨fun j hj => ?_, fun hle => ?_, fun _ v hv => by cases hv⟩
  · rw [hrec.res]
    exact getLsbD_sar hmin hj
  · have hcount : (sarCount w (count &&& 0x1f)).toNat = (count &&& 0x1f).toNat := by omega
    rw [carry_sar hrec (by omega) (by omega), hcount]
    rfl

theorem right_dshld {op1 op2 : BitVec 32} (hn : count &&& 0x1f ≠ 0) :
    SHLD.Right .dword op1 op2 (count &&& 0x1f).toNat ((Instr.DSHLD op1 op2 count).record c) := by
  have hpos : 0 < (count &&& 0x1f).toNat :=
    Nat.pos_of_ne_zero fun h => hn (BitVec.eq_of_toNat_eq h)
  have hrec : RecordedShift (w := .dword) ((Instr.DSHLD op1 op2 count).record c).lflags t_DSHLd op1
      (count &&& 0x1f)
      ((op1 <<< (count &&& 0x1f).toNat) ||| (op2 >>> (32 - (count &&& 0x1f).toNat))) := by
    rw [Instr.record, if_neg hn]
    exact recordedShift
  have hvalue : ∀ j < 32, ((op1 <<< (count &&& 0x1f).toNat) |||
      (op2 >>> (32 - (count &&& 0x1f).toNat))).getLsbD j =
        SHLD.bit .dword op1 op2 (count &&& 0x1f).toNat j := fun j hj => getLsbD_dshld hj
  refine ⟨fun j hj => ?_, fun _ => carry_dshld hrec hpos, fun hone v hv => ?_⟩
  · rw [hrec.res]
    exact hvalue j hj
  · cases hv
    have hmsb := msb_eq_bit (w := .dword) hvalue
    rw [overflow_double (.inl hrec)]
    refine congrArg (· != op1.msb) (hmsb.trans ?_)
    rw [hone]

theorem right_dshrd {op1 op2 : BitVec 32} (hn : count &&& 0x1f ≠ 0) :
    SHRD.Right .dword op1 op2 (count &&& 0x1f).toNat ((Instr.DSHRD op1 op2 count).record c) := by
  have hpos : 0 < (count &&& 0x1f).toNat :=
    Nat.pos_of_ne_zero fun h => hn (BitVec.eq_of_toNat_eq h)
  have hle := (masked_lt count).le
  have hrec : RecordedShift (w := .dword) ((Instr.DSHRD op1 op2 count).record c).lflags t_DSHRd op1
      (count &&& 0x1f)
      ((op1 >>> (count &&& 0x1f).toNat) ||| (op2 <<< (32 - (count &&& 0x1f).toNat))) := by
    rw [Instr.record, if_neg hn]
    exact recordedShift
  have hvalue : ∀ j < 32, ((op1 >>> (count &&& 0x1f).toNat) |||
      (op2 <<< (32 - (count &&& 0x1f).toNat))).getLsbD j =
        SHRD.bit .dword op1 op2 (count &&& 0x1f).toNat j := fun j hj => getLsbD_dshrd hle hj
  refine ⟨fun j hj => ?_, fun _ => carry_dshrd hrec hpos hle, fun hone v hv => ?_⟩
  · rw [hrec.res]
    exact hvalue j hj
  · cases hv
    have hmsb := msb_eq_bit (w := .dword) hvalue
    rw [overflow_double (.inr hrec)]
    refine congrArg (· != op1.msb) (hmsb.trans ?_)
    rw [hone]

section Words

variable {op1 op2 : BitVec 16}

theorem recorded_dshlw (hn : count &&& 0x1f ≠ 0) (hle : (count &&& 0x1f).toNat ≤ 16) :
    RecordedWords ((Instr.DSHLW op1 op2 count).record c).lflags t_DSHLw op1 op2 (count &&& 0x1f)
      (((((op1.setWidth 32 <<< 16) ||| op2.setWidth 32) <<< (count &&& 0x1f).toNat) >>>
        16).setWidth 16) := by
  have hsmall : ¬ count &&& 0x1f > 16 := Nat.not_lt.mpr hle
  rw [Instr.record, if_neg hn]
  dsimp only
  rw [if_neg hsmall]
  exact ⟨rfl, rfl, setWidth_store (w := .byte) .., setWidth_store (w := .word) ..⟩

theorem recorded_dshrw (hn : count &&& 0x1f ≠ 0) (hle : (count &&& 0x1f).toNat ≤ 16) :
    RecordedWords ((Instr.DSHRW op1 op2 count).record c).lflags t_DSHRw op2 op1 (count &&& 0x1f)
      ((((op2.setWidth 32 <<< 16) ||| op1.setWidth 32) >>>
        (count &&& 0x1f).toNat).setWidth 16) := by
  have hsmall : ¬ count &&& 0x1f > 16 := Nat.not_lt.mpr hle
  rw [Instr.record, if_neg hn]
  dsimp only
  rw [if_neg hsmall]
  exact ⟨rfl, rfl, setWidth_store (w := .byte) .., setWidth_store (w := .word) ..⟩

theorem right_dshrw (hn : count &&& 0x1f ≠ 0) (hle : (count &&& 0x1f).toNat ≤ 16) :
    SHRD.Right .word op1 op2 (count &&& 0x1f).toNat ((Instr.DSHRW op1 op2 count).record c) := by
  have hpos : 0 < (count &&& 0x1f).toNat :=
    Nat.pos_of_ne_zero fun h => hn (BitVec.eq_of_toNat_eq h)
  have hrec := @recorded_dshrw count c op1 op2 hn hle
  have hvalue : ∀ j < 16, ((((op2.setWidth 32 <<< 16) ||| op1.setWidth 32) >>>
      (count &&& 0x1f).toNat).setWidth 16).getLsbD j =
        SHRD.bit .word op1 op2 (count &&& 0x1f).toNat j := fun j hj => getLsbD_dshrw hj
  refine ⟨fun j hj => ?_, fun _ => carry_dshrw hrec hpos hle, fun hone v hv => ?_⟩
  · rw [hrec.res]
    exact hvalue j hj
  · cases hv
    have hmsb := msb_eq_bit (w := .word) hvalue
    rw [overflow_words (.inr hrec)]
    refine congrArg (· != op1.msb) (hmsb.trans ?_)
    rw [hone]

/-- Two comparisons with one bit that agree are comparisons of equal bits. -/
theorem bne_right_injective {r r' p q : Bool} (hr : r = r') (h : (r != q) = (r' != p)) : p = q := by
  subst hr
  revert h
  cases r <;> cases p <;> cases q <;> decide

/-- The words shifted to the left are right but for the overflow. -/
theorem right_dshlw_iff (hn : count &&& 0x1f ≠ 0) (hle : (count &&& 0x1f).toNat ≤ 16) :
    SHLD.Right .word op1 op2 (count &&& 0x1f).toNat ((Instr.DSHLW op1 op2 count).record c) ↔
      ¬ WrongOverflow SHLD .word op1 op2 count := by
  have hpos : 0 < (count &&& 0x1f).toNat :=
    Nat.pos_of_ne_zero fun h => hn (BitVec.eq_of_toNat_eq h)
  have hrec := @recorded_dshlw count c op1 op2 hn hle
  have hvalue : ∀ j < 16, (((((op1.setWidth 32 <<< 16) ||| op2.setWidth 32) <<<
      (count &&& 0x1f).toNat) >>> 16).setWidth 16).getLsbD j =
        SHLD.bit .word op1 op2 (count &&& 0x1f).toNat j := fun j hj => getLsbD_dshlw hle hj
  have hmsb := msb_eq_bit (w := .word) hvalue
  have hof := overflow_words (.inl hrec)
  constructor
  · rintro hright ⟨-, -, hone, hne⟩
    have htoNat : (count &&& 0x1f).toNat = 1 := congrArg BitVec.toNat hone
    have hover := hright.overflow htoNat _ rfl
    rw [hof] at hover
    rw [htoNat] at hmsb hover
    exact hne (bne_right_injective hmsb hover)
  · intro hwrong
    refine ⟨fun j hj => ?_, fun _ => carry_dshlw hrec hpos hle, fun hone v hv => ?_⟩
    · rw [hrec.res]
      exact hvalue j hj
    · cases hv
      have hval : count &&& 0x1f = 1 := BitVec.eq_of_toNat_eq hone
      have hsame : op1.msb = op2.msb := by
        by_contra hne
        exact hwrong ⟨rfl, rfl, hval, hne⟩
      rw [hof, ← hsame]
      refine congrArg (· != op1.msb) (hmsb.trans ?_)
      rw [hone]

end Words

/-- **Shifts and double shifts store the shifted operand and report its carry and overflow**, for
every count that the instruction masks to 1 to 31, and to at most 16 for a double shift of words,
exactly when the instruction is not a `DSHLW` by one of operands with different signs. -/
theorem shift_right_iff (hi : op.instr w op1 op2 count = some i) (hn : count &&& 0x1f ≠ 0)
    (hle : w = .word → op = .SHLD ∨ op = .SHRD → (count &&& 0x1f).toNat ≤ 16) :
    op.Right w op1 op2 (count &&& 0x1f).toNat (i.record c) ↔
      ¬ op.WrongOverflow w op1 op2 count := by
  cases op with
  | SHL =>
    cases hi
    exact iff_of_true (right_shl hn) (not_wrong (.inl nofun))
  | SHR =>
    cases hi
    exact iff_of_true (right_shr hn) (not_wrong (.inl nofun))
  | SAR =>
    cases hi
    exact iff_of_true (right_sar hn) (not_wrong (.inl nofun))
  | SHLD =>
    cases w with
    | byte => cases hi
    | word =>
      cases hi
      exact right_dshlw_iff hn (hle rfl (.inl rfl))
    | dword =>
      cases hi
      exact iff_of_true (right_dshld hn) (not_wrong (.inr nofun))
  | SHRD =>
    cases w with
    | byte => cases hi
    | word =>
      cases hi
      exact iff_of_true (right_dshrw hn (hle rfl (.inr rfl))) (not_wrong (.inl nofun))
    | dword =>
      cases hi
      exact iff_of_true (right_dshrd hn) (not_wrong (.inl nofun))

/-- A `SHLD` of two words of the same sign. -/
theorem shift_right_same :
    SHLD.Right .word 0x4000#16 0x1234#16 (1 &&& 0x1f#8).toNat
        ((Instr.DSHLW 0x4000#16 0x1234#16 1).record ⟨0, {}⟩) ↔
      ¬ SHLD.WrongOverflow .word 0x4000#16 0x1234#16 1 :=
  shift_right_iff rfl (by decide) fun _ _ => by decide

/-- **`SHLD AX,BX,1` with `AX = 0` and `BX = 0x8000`** reports an overflow, although the sign of AX
does not change. -/
theorem dshlw_overflow_wrong : ¬ SHLD.Right .word 0x0000#16 0x8000#16 (1 &&& 0x1f#8).toNat
    ((Instr.DSHLW 0x0000#16 0x8000#16 1).record ⟨0, {}⟩) := by
  intro hright
  have hover := hright.overflow rfl _ rfl
  revert hover
  decide

end ShiftOp

end AugraDosbox
