import AugraDosbox.Cpu.FlagsAgree
import AugraDosbox.Cpu.NormalOps
import Mathlib.Tactic.Linarith

/-!
# Both cores compute the same

The helpers of the dynamic core against the macros of the normal core, for every operand,
count and state of the flags.

* `dynrec_eq_normal` — most helpers and macros leave the very same state;
* `rol_agrees`, `ror_agrees` — the helpers do not record a rotation by a multiple of the width,
  but give its flags;
* `dimul_word_agrees_iff`, `dimul_dword_agrees_iff`, `idiv_agrees_iff` — the three that differ;
* **`Helper.agrees_with_normal_iff`** — what a helper computes is what the normal core computes, but at the
  edges that `Helper.Matches` leaves out.
-/

namespace AugraDosbox.Dynrec

open FlagType DualOps SingleOps ShiftOps

/-! ## Helpers that do the same -/

namespace Outcome

theorem Agrees.refl {defined : CpuFlag → Bool} (o : Outcome) : o.Agrees defined o :=
  ⟨rfl, rfl, rfl, rfl, fun _ _ => rfl⟩

/-- Two states whose flags register is the same, with nothing recorded. -/
theorem agrees_of_unknown {defined : CpuFlag → Bool} {result : Option (BitVec 32)} {m : Machine}
    {c c' : Cpu} (hc : c.lflags.type = t_UNKNOWN) (hc' : c'.lflags.type = t_UNKNOWN)
    (h : ∀ f, defined f = true → isSet c.reg_flags f = isSet c'.reg_flags f) :
    Agrees defined ⟨result, { m with cpu := c }, false⟩ ⟨result, { m with cpu := c' }, false⟩ := by
  refine ⟨rfl, rfl, rfl, rfl, fun f hf => ?_⟩
  simp only [FillFlags, hc, hc']
  exact h f hf

end Outcome

theorem type_FillFlagsNoCFOF (c : Cpu) : (FillFlagsNoCFOF c).lflags.type = t_UNKNOWN := by
  unfold FillFlagsNoCFOF
  cases h : c.lflags.type <;> simp [h]

section

variable {m : Machine}

variable {w : Width} {op : ShiftOps} {hostBits : ℕ}

theorem dual_eq (op : DualOps) (op1 op2 : BitVec w.bits) :
    (Helper.dual op w op1 op2).dynrec m = (Helper.dual op w op1 op2).normal m := by
  cases op <;> rfl

theorem single_eq (op : SingleOps) (op1 : BitVec w.bits) :
    (Helper.single op w op1).dynrec m = (Helper.single op w op1).normal m := by
  cases op <;> rfl

theorem dpshift_word_eq (left : Bool) (op1 op2 : BitVec 16) (op3 : BitVec 8) :
    (Helper.dpshift_word left op1 op2 op3).dynrec m =
      (Helper.dpshift_word left op1 op2 op3).normal m := by
  by_cases hval : op3 &&& 0x1f = 0
  · cases left <;>
      simp only [Helper.dynrec, Helper.normal, Helper.recorded, dynrec_dshl_word,
        dynrec_dshr_word, Instr.record, if_pos hval]
  · cases left <;>
      simp only [Helper.dynrec, Helper.normal, Helper.recorded, dynrec_dshl_word,
        dynrec_dshr_word, Instr.record, if_neg hval] <;> rfl

theorem dpshift_dword_eq (left : Bool) (op1 op2 : BitVec 32) (op3 : BitVec 8) :
    (Helper.dpshift_dword left op1 op2 op3).dynrec m =
      (Helper.dpshift_dword left op1 op2 op3).normal m := by
  by_cases hval : op3 &&& 0x1f = 0
  · cases left <;>
      simp only [Helper.dynrec, Helper.normal, Helper.recorded, dynrec_dshl_dword,
        dynrec_dshr_dword, Instr.record, if_pos hval]
  · cases left <;>
      simp only [Helper.dynrec, Helper.normal, Helper.recorded, dynrec_dshl_dword,
        dynrec_dshr_dword, Instr.record, if_neg hval]

theorem sarLimit_eq (w : Width) (val : BitVec 8) : sarLimit w val = sarCount w val := by
  cases w <;> rfl

theorem sarBy_eq (op1 : BitVec w.bits) (val : BitVec 8) :
    sarBy w op1 val = sarResult op1 val.toNat := by
  unfold sarBy sarResult truth
  simp

theorem and_mask_mask (count : BitVec 8) : count &&& 0x1f &&& 0x1f = count &&& 0x1f := by
  rw [BitVec.and_assoc]
  rfl

theorem recorded_shift_eq (op1 : BitVec w.bits) (count : BitVec 8)
    (hop : op = SHIFT_SHL ∨ op = SHIFT_SHR ∨ op = SHIFT_SAR) :
    (Helper.shift op w op1 count).dynrec m = (Helper.shift op w op1 count).normal m := by
  by_cases hval : count &&& 0x1f = 0
  · rcases hop with rfl | rfl | rfl <;>
      simp only [Helper.dynrec, Helper.normal, Helper.grp2, dynrec_shl, dynrec_shr, dynrec_sar,
        if_pos hval]
  · rcases hop with rfl | rfl | rfl <;>
      simp only [Helper.dynrec, Helper.normal, Helper.grp2, dynrec_shl, dynrec_shr, dynrec_sar,
        Instr.record, and_mask_mask, sarLimit_eq, sarBy_eq, if_neg hval]

theorem rotated_carry_eq (op1 : BitVec w.bits) (count : BitVec 8)
    (hop : op = SHIFT_RCL ∨ op = SHIFT_RCR) :
    (Helper.shift op w op1 count).dynrec m = (Helper.shift op w op1 count).normal m := by
  by_cases hval : count &&& 0x1f = 0
  · rcases hop with rfl | rfl <;> cases w <;>
      simp only [Helper.dynrec, Helper.normal, Helper.grp2, dynrec_rcl, dynrec_rcr, hval] <;> rfl
  · rcases hop with rfl | rfl <;> cases w <;>
      simp only [Helper.dynrec, Helper.normal, Helper.grp2, dynrec_rcl, dynrec_rcr,
        NormalCore.RCL, NormalCore.RCR, if_neg hval, ite_not]

/-! ## Rotations by a multiple of the width -/

theorem truth_carryIn (cf : Bool) : truth (carryIn w cf) = cf := by
  cases w <;> cases cf <;> rfl

/-- The bit that a shift to the right leaves alone. -/
theorem shiftRight_and_one (x : BitVec w.bits) (i : ℕ) :
    (x >>> i) &&& 1 = carryIn w (x.getLsbD i) := by
  refine BitVec.eq_of_getLsbD_eq fun j hj => ?_
  have hpos : 0 < w.bits := by cases w <;> decide
  rcases Nat.eq_zero_or_pos j with rfl | hjpos
  · simp [carryIn, hpos]
  · have hone : BitVec.getLsbD (1 : BitVec w.bits) j = false := by
      simp [BitVec.getLsbD_one]
      omega
    have hcarry : (carryIn w (x.getLsbD i)).getLsbD j = false := by
      simp [carryIn, BitVec.getLsbD_ofBool, hjpos.ne']
    rw [BitVec.getLsbD_and, hone, Bool.and_false, hcarry]

theorem shiftRight_top (x : BitVec w.bits) :
    x >>> (w.bits - 1) = carryIn w (x.getLsbD (w.bits - 1)) := by
  rw [← shiftRight_and_one]
  refine BitVec.eq_of_getLsbD_eq fun j hj => ?_
  rcases Nat.eq_zero_or_pos j with rfl | hjpos
  · simp [hj]
  · have hone : BitVec.getLsbD (1 : BitVec w.bits) j = false := by
      simp [BitVec.getLsbD_one]
      omega
    simp only [BitVec.getLsbD_and, BitVec.getLsbD_ushiftRight, hone, Bool.and_false]
    exact BitVec.getLsbD_of_ge _ _ (by omega)

theorem carryIn_xor (a b : Bool) : carryIn w a ^^^ carryIn w b = carryIn w (a ^^ b) := by
  cases w <;> cases a <;> cases b <;> rfl

theorem msb_xor_shiftLeft (x : BitVec w.bits) :
    (x ^^^ (x <<< 1)).msb = (x.getLsbD (w.bits - 1) ^^ x.getLsbD (w.bits - 2)) := by
  have hbits : 2 ≤ w.bits := by cases w <;> decide
  rw [BitVec.msb_xor, BitVec.msb_eq_getLsbD_last, BitVec.msb_eq_getLsbD_last,
    BitVec.getLsbD_shiftLeft]
  have hpos : w.bits - 1 < w.bits ∧ ¬ w.bits - 1 < 1 := by omega
  simp only [hpos, decide_true, decide_false, Bool.not_false, Bool.true_and]
  rfl

theorem rolResult_zero (op1 : BitVec w.bits) : rolResult op1 0 = op1 := by
  have hzero : op1 >>> w.bits = 0 := BitVec.ushiftRight_eq_zero (Nat.le_refl _)
  change (op1 <<< 0) ||| (op1 >>> w.bits) = op1
  rw [hzero]
  simp

theorem rorResult_zero (op1 : BitVec w.bits) : rorResult op1 0 = op1 := by
  have hzero : op1 <<< w.bits = 0 := BitVec.shiftLeft_eq_zero (Nat.le_refl _)
  change (op1 >>> 0) ||| (op1 <<< w.bits) = op1
  rw [hzero]
  simp

/-- A whole turn gives the flags that the macro gives. -/
theorem rolWhole_agrees {defined : CpuFlag → Bool} (op1 : BitVec w.bits) :
    (Outcome.value m (rolWhole op1 m.cpu)).Agrees defined (Outcome.value m (rolBy op1 0 m.cpu)) := by
  unfold rolBy
  simp only [rolResult_zero]
  exact Outcome.agrees_of_unknown (type_FillFlagsNoCFOF m.cpu) (type_FillFlagsNoCFOF m.cpu)
    fun f _ => rfl

theorem rorWhole_agrees {defined : CpuFlag → Bool} (op1 : BitVec w.bits) :
    (Outcome.value m (rorWhole op1 m.cpu)).Agrees defined (Outcome.value m (rorBy op1 0 m.cpu)) := by
  have hcarry : truth (op1 >>> (w.bits - 1)) = truth (op1 &&& w.sign) := by
    rw [shiftRight_top, truth_carryIn, truth_and_sign, BitVec.msb_eq_getLsbD_last]
  have hoverflow : truth ((op1 >>> (w.bits - 1)) ^^^ ((op1 >>> (w.bits - 2)) &&& 1)) =
      truth ((op1 ^^^ (op1 <<< 1)) &&& w.sign) := by
    rw [shiftRight_top, shiftRight_and_one, carryIn_xor, truth_carryIn, truth_and_sign,
      msb_xor_shiftLeft]
  unfold rorBy rorWhole
  simp only [rorResult_zero]
  rw [hcarry, hoverflow]
  exact Outcome.agrees_of_unknown (type_FillFlagsNoCFOF m.cpu) (type_FillFlagsNoCFOF m.cpu)
    fun f _ => rfl

theorem whole_turn_byte : ∀ count : BitVec 8, count &&& 0x1f ≠ 0 →
    count &&& 0x1f &&& 0x7 = 0 → count &&& 0x1f &&& 0x18 ≠ 0 := by
  decide +kernel

theorem whole_turn_word : ∀ count : BitVec 8, count &&& 0x1f ≠ 0 →
    count &&& 0x1f &&& 0xf = 0 → count &&& 0x1f &&& 0x10 ≠ 0 := by
  decide

theorem sameAsNormal_of_eq {h : Helper} {o : Outcome} (hnormal : h.normal m = some o)
    (heq : h.dynrec m = h.normal m) : h.SameAsNormal m :=
  ⟨o, o, heq.trans hnormal, hnormal, .refl o⟩

theorem shift_normal_some (op : ShiftOps) (op1 : BitVec w.bits) (count : BitVec 8) :
    ∃ o, (Helper.shift op w op1 count).normal m = some o := by
  cases op <;> exact ⟨_, rfl⟩

theorem rotate_agrees (op1 : BitVec w.bits) (count : BitVec 8)
    (hop : op = SHIFT_ROL ∨ op = SHIFT_ROR) : (Helper.shift op w op1 count).SameAsNormal m := by
  obtain ⟨o, ho⟩ := shift_normal_some (m := m) op op1 count
  by_cases hval : count &&& 0x1f = 0
  · refine sameAsNormal_of_eq ho ?_
    rcases hop with rfl | rfl <;> cases w <;>
      simp only [Helper.dynrec, Helper.normal, Helper.grp2, dynrec_rol, dynrec_ror, hval] <;> rfl
  cases w with
  | byte =>
    by_cases hmask : count &&& 0x1f &&& 0x7 = 0
    · have hturn := whole_turn_byte count hval hmask
      rcases hop with rfl | rfl
      · refine ⟨_, _, ?_, ?_, rolWhole_agrees (m := m) op1⟩
        · simp only [Helper.dynrec, dynrec_rol, if_pos hmask, if_pos hturn]
        · simp only [Helper.normal, Helper.grp2, NormalCore.ROL, if_neg hval, hmask]
      · refine ⟨_, _, ?_, ?_, rorWhole_agrees (m := m) op1⟩
        · simp only [Helper.dynrec, dynrec_ror, if_pos hmask, if_pos hturn]
        · simp only [Helper.normal, Helper.grp2, NormalCore.ROR, if_neg hval, hmask]
    · refine sameAsNormal_of_eq ho ?_
      rcases hop with rfl | rfl <;>
        simp only [Helper.dynrec, Helper.normal, Helper.grp2, dynrec_rol, dynrec_ror,
          NormalCore.ROL, NormalCore.ROR, if_neg hval, if_neg hmask]
  | word =>
    by_cases hmask : count &&& 0x1f &&& 0xf = 0
    · have hturn := whole_turn_word count hval hmask
      rcases hop with rfl | rfl
      · refine ⟨_, _, ?_, ?_, rolWhole_agrees (m := m) op1⟩
        · simp only [Helper.dynrec, dynrec_rol, if_pos hmask, if_pos hturn]
        · simp only [Helper.normal, Helper.grp2, NormalCore.ROL, if_neg hval, hmask]
      · refine ⟨_, _, ?_, ?_, rorWhole_agrees (m := m) op1⟩
        · simp only [Helper.dynrec, dynrec_ror, if_pos hmask, if_pos hturn]
        · simp only [Helper.normal, Helper.grp2, NormalCore.ROR, if_neg hval, hmask]
    · refine sameAsNormal_of_eq ho ?_
      rcases hop with rfl | rfl <;>
        simp only [Helper.dynrec, Helper.normal, Helper.grp2, dynrec_rol, dynrec_ror,
          NormalCore.ROL, NormalCore.ROR, if_neg hval, if_neg hmask]
  | dword =>
    refine sameAsNormal_of_eq ho ?_
    rcases hop with rfl | rfl <;>
      simp only [Helper.dynrec, Helper.normal, Helper.grp2, dynrec_rol, dynrec_ror,
        NormalCore.ROL, NormalCore.ROR, if_neg hval]

/-! ## Products -/

theorem isSet_setCFOF {c : Cpu} (hc : c.lflags.type = t_UNKNOWN) (value : Bool) (f : CpuFlag) :
    isSet (FillFlags (setCFOF value c)).1 f =
      if f = .CF ∨ f = .OF then value else isSet c.reg_flags f := by
  have hfill : (FillFlags (setCFOF value c)).1 = (setCFOF value c).reg_flags := by
    simp only [FillFlags, setCFOF, hc]
  rw [hfill]
  simp only [setCFOF, isSet_SETFLAGBIT]
  cases f <;> simp

theorem type_setZFSF (value : BitVec w.bits) (c : Cpu) :
    (NormalCore.setZFSF value c).lflags.type = c.lflags.type := rfl

/-- The flags that a multiplication defines. -/
theorem mul_defined {f : CpuFlag} {value value' : Bool} {c c' : Cpu}
    (hc : c.lflags.type = t_UNKNOWN) (hc' : c'.lflags.type = t_UNKNOWN) (hvalue : value = value')
    (hf : f = .CF ∨ f = .OF) :
    isSet (FillFlags (setCFOF value c)).1 f = isSet (FillFlags (setCFOF value' c')).1 f := by
  rw [isSet_setCFOF hc, isSet_setCFOF hc', if_pos hf, if_pos hf, hvalue]

theorem setPair_cpu_eq (lo hi : BitVec w.bits) : (m.setPair w lo hi).cpu = m.cpu := by
  cases w <;> rfl

theorem mul_eq (op : BitVec w.bits) :
    (Helper.mul w op).dynrec m = (Helper.mul w op).normal m := by
  simp only [Helper.dynrec, Helper.normal, dynrec_mul, NormalCore.MUL, setPair_cpu_eq]

/-! ### The product of words, in 64 bits and in 32 -/

theorem setWidth_signExtend {n k l : ℕ} (x : BitVec n) (h : l ≤ k) :
    (x.signExtend k).setWidth l = x.signExtend l := by
  refine BitVec.eq_of_getLsbD_eq fun i hi => ?_
  have hk : i < k := by omega
  simp only [BitVec.getLsbD_setWidth, BitVec.getLsbD_signExtend, hi, hk, decide_true,
    Bool.true_and]

theorem word_product (a b : BitVec 16) :
    (a.signExtend 64 * b.signExtend 64).setWidth 32 = a.signExtend 32 * b.signExtend 32 := by
  rw [BitVec.setWidth_mul _ _ (by decide), setWidth_signExtend a (by decide),
    setWidth_signExtend b (by decide)]

theorem low_word (x : BitVec 64) : low .word (x.setWidth 32) = low .word x :=
  BitVec.setWidth_setWidth_of_le _ (by decide)

theorem high_word (x : BitVec 64) : high .word (x.setWidth 32) = high .word x := by
  refine BitVec.eq_of_getLsbD_eq fun i hi => ?_
  have hi' : 16 + i < 32 := by
    have hbits : Width.word.bits = 16 := rfl
    omega
  simp [high, BitVec.getLsbD_setWidth, BitVec.getLsbD_ushiftRight, Width.bits, hi']

theorem and_upper_half (x : BitVec 64) (y : BitVec 32) :
    x &&& y.setWidth 64 = (x.setWidth 32 &&& y).setWidth 64 := by
  refine BitVec.eq_of_getLsbD_eq fun i hi => ?_
  by_cases hi' : i < 32
  · simp [hi, hi']
  · have hy : y.getLsbD i = false := BitVec.getLsbD_of_ge _ _ (by omega)
    simp [BitVec.getLsbD_setWidth, hy]

theorem fits_word (x : BitVec 64) (y : BitVec 32) :
    x &&& y.setWidth 64 = y.setWidth 64 ↔ x.setWidth 32 &&& y = y := by
  rw [and_upper_half]
  constructor
  · intro h
    have hsmall := congrArg (BitVec.setWidth 32) h
    rwa [BitVec.setWidth_setWidth_of_le _ (by decide), BitVec.setWidth_setWidth_of_le _ (by decide),
      BitVec.setWidth_eq, BitVec.setWidth_eq] at hsmall
  · intro h
    rw [h]

/-- The two conditions under which a product of words fits. -/
theorem fits_word_eq (x : BitVec 64) :
    decide (x &&& 0xffff8000 = 0xffff8000 ∨ x &&& 0xffff8000 = 0) =
      decide (x.setWidth 32 &&& 0xffff8000 = 0xffff8000 ∨ x.setWidth 32 &&& 0xffff8000 = 0) := by
  have hones := fits_word x 0xffff8000
  have hzero : x &&& 0xffff8000 = 0 ↔ x.setWidth 32 &&& 0xffff8000 = 0 := by
    have hand := and_upper_half x 0xffff8000
    change x &&& 0xffff8000 = _ at hand
    rw [hand]
    constructor
    · intro h
      have hsmall := congrArg (BitVec.setWidth 32) h
      rwa [BitVec.setWidth_setWidth_of_le _ (by decide), BitVec.setWidth_eq] at hsmall
    · intro h
      rw [h]
      rfl
  exact decide_eq_decide.mpr (or_congr hones hzero)

theorem imul_word_same (op : BitVec 16) : (Helper.imul_word op).SameAsNormal m := by
  refine ⟨_, _, rfl, rfl, ?_⟩
  have hc := type_FillFlagsNoCFOF m.cpu
  have hproduct := word_product (m.eax.setWidth 16) op
  have hlow := low_word ((m.eax.setWidth 16).signExtend 64 * op.signExtend 64)
  have hhigh := high_word ((m.eax.setWidth 16).signExtend 64 * op.signExtend 64)
  have hfits := fits_word_eq ((m.eax.setWidth 16).signExtend 64 * op.signExtend 64)
  rw [hproduct] at hlow hhigh hfits
  constructor
  case result => rfl
  case eax => simp only [Outcome.registers, dynrec_imul_word, NormalCore.IMULW, hlow, hhigh]
  case edx => simp only [Outcome.registers, dynrec_imul_word, NormalCore.IMULW, hlow, hhigh]
  case exception => rfl
  case flags =>
    intro f hf
    refine mul_defined hc ?_ (by rw [hfits]) (of_decide_eq_true hf)
    rw [type_setZFSF, hc]

theorem imul_byte_same (op : BitVec 8) : (Helper.imul_byte op).SameAsNormal m := by
  refine ⟨_, _, rfl, rfl, rfl, rfl, rfl, rfl, fun f hf => ?_⟩
  have hc := type_FillFlagsNoCFOF m.cpu
  refine mul_defined hc ?_ rfl (of_decide_eq_true hf)
  rw [type_setZFSF, hc]

theorem imul_dword_same (op : BitVec 32) : (Helper.imul_dword op).SameAsNormal m := by
  refine ⟨_, _, rfl, rfl, rfl, rfl, rfl, rfl, fun f hf => ?_⟩
  have hc := type_FillFlagsNoCFOF m.cpu
  refine mul_defined hc ?_ rfl (of_decide_eq_true hf)
  rw [type_setZFSF, hc]

/-! ### Products with two operands -/

/-- The two outcomes of a product whose flags are all that can differ. -/
theorem dimul_agrees_iff {h : Helper} {n : ℕ} {res : BitVec n} {value value' : Bool}
    (hdynrec : h.dynrec m = some (.value m (res, setCFOF value (FillFlagsNoCFOF m.cpu))))
    (hnormal : h.normal m = some (.value m (res, setCFOF value' (FillFlagsNoCFOF m.cpu))))
    (hdefined : ∀ f, h.Defined f = decide (f = .CF ∨ f = .OF)) :
    h.SameAsNormal m ↔ value = value' := by
  have hc := type_FillFlagsNoCFOF m.cpu
  constructor
  · rintro ⟨o, o', ho, ho', hagrees⟩
    rw [hdynrec] at ho
    rw [hnormal] at ho'
    obtain rfl := Option.some.inj ho
    obtain rfl := Option.some.inj ho'
    have hcf := hagrees.flags .CF (by rw [hdefined]; rfl)
    simp only [Outcome.value, isSet_setCFOF hc] at hcf
    exact hcf
  · rintro rfl
    exact ⟨_, _, hdynrec, hnormal, .refl _⟩

/-- The operands for which a 16-bit product has the same flags in both cores: the dynamic core
finds an overflow at the edges, and the normal core does not read the operands as signed. -/
def DimulWordMatches (immediate : Bool) (op1 op2 : BitVec 16) : Prop :=
  if 0 ≤ op1.toInt ∧ (immediate = true ∨ 0 ≤ op2.toInt) then
    op1.toInt * op2.toInt ≠ 32767 ∧ op1.toInt * op2.toInt ≠ -32768
  else
    op1 = 0 ∨ op2 = 0 ∨
      (op1.toInt * op2.toInt ≤ -32768 ∨ 32767 ≤ op1.toInt * op2.toInt) ∧
        if immediate = true then ¬ (op1.toInt = -32768 ∧ op2.toInt = -1)
        else op1.toNat * op2.toNat < 2 ^ 31

/-- A product with an operand that is negative, when that is read as not negative. -/
theorem product_small_iff {a y : ℤ} (ha : 32768 ≤ a) (ha' : a < 65536) :
    (a * y ≥ -32768 ∧ a * y ≤ 32767) ↔ y = 0 ∨ a = 32768 ∧ y = -1 := by
  constructor
  · rintro ⟨hlo, hhi⟩
    have hle : y ≤ 0 := by nlinarith
    have hge : -1 ≤ y := by nlinarith
    rcases (by omega : y = 0 ∨ y = -1) with rfl | rfl
    · exact .inl rfl
    · exact .inr ⟨by omega, rfl⟩
  · rintro (rfl | ⟨rfl, rfl⟩)
    · omega
    · omega

theorem toInt_word (x : BitVec 16) : x.toInt = if x.toNat < 32768 then (x.toNat : ℤ)
    else (x.toNat : ℤ) - 65536 := by
  rw [BitVec.toInt_eq_toNat_cond]
  have hlt := x.isLt
  split <;> split <;> omega

theorem ofInt_product (op1 op2 : BitVec 16) (immediate : Bool) :
    BitVec.ofInt 16 (op1.toNat * if immediate then op2.toInt else op2.toNat) =
      BitVec.ofInt 16 (op1.toInt * op2.toInt) := by
  cases immediate <;>
    simp [BitVec.ofInt_mul, BitVec.ofInt_natCast, BitVec.ofInt_toInt]

/-- The normal core multiplies what the dynamic core multiplies, unless one of the operands
that it takes for unsigned is negative. -/
theorem dimul_word_flags_iff (immediate : Bool) (op1 op2 : BitVec 16)
    (hdefined : ¬ 2 ^ 31 ≤ (op1.toNat : ℤ) * if immediate then op2.toInt else (op2.toNat : ℤ)) :
    (op1.toInt * op2.toInt > -32768 ∧ op1.toInt * op2.toInt < 32767 ↔
      (op1.toNat : ℤ) * (if immediate then op2.toInt else (op2.toNat : ℤ)) ≥ -32768 ∧
        (op1.toNat : ℤ) * (if immediate then op2.toInt else (op2.toNat : ℤ)) ≤ 32767) ↔
      DimulWordMatches immediate op1 op2 := by
  have h1 := toInt_word op1
  have h2 := toInt_word op2
  have hlt1 := op1.isLt
  have hlt2 := op2.isLt
  have hzero1 : op1 = 0 ↔ op1.toNat = 0 := by
    rw [← BitVec.toNat_inj]
    rfl
  have hzero2 : op2 = 0 ↔ op2.toNat = 0 := by
    rw [← BitVec.toNat_inj]
    rfl
  unfold DimulWordMatches
  by_cases hpos : 0 ≤ op1.toInt ∧ (immediate = true ∨ 0 ≤ op2.toInt)
  · -- both cores read the operands in the same way
    have hsame : (op1.toNat : ℤ) * (if immediate then op2.toInt else (op2.toNat : ℤ)) =
        op1.toInt * op2.toInt := by
      have hfirst : (op1.toNat : ℤ) = op1.toInt := by
        split at h1 <;> omega
      cases immediate with
      | true => rw [if_pos rfl, hfirst]
      | false =>
        have hsecond : (op2.toNat : ℤ) = op2.toInt := by
          have hnonneg : 0 ≤ op2.toInt := hpos.2.resolve_left (by decide)
          split at h2 <;> omega
        rw [if_neg (by decide), hfirst, hsecond]
    rw [if_pos hpos, hsame]
    omega
  rw [if_neg hpos, hzero1, hzero2]
  cases immediate with
  | true =>
    have hneg : op1.toInt < 0 := by
      by_contra h
      exact hpos ⟨by omega, .inl rfl⟩
    have hlarge : ¬ op1.toNat < 32768 := by
      split at h1 <;> omega
    rw [if_neg hlarge] at h1
    simp only [if_true]
    rw [product_small_iff (by omega) (by omega)]
    have hsecond : op2.toInt = 0 ↔ op2.toNat = 0 := by
      split at h2 <;> omega
    by_cases hzero : op2.toInt = 0
    · simp [hzero, hsecond.mp hzero]
    · have hne : ¬ op2.toNat = 0 := fun h => hzero (hsecond.mpr h)
      by_cases hedge : op1.toInt = -32768 ∧ op2.toInt = -1
      · rw [hedge.1, hedge.2]
        omega
      · have hedge' : ¬ ((op1.toNat : ℤ) = 32768 ∧ op2.toInt = -1) := by
          rintro ⟨h, h'⟩
          exact hedge ⟨by omega, h'⟩
        constructor
        · intro h
          refine .inr (.inr ⟨?_, hedge⟩)
          by_contra hout
          exact (h.mp ⟨by omega, by omega⟩).elim hzero hedge'
        · rintro (h | h | ⟨h, -⟩)
          · omega
          · exact absurd h hne
          · constructor
            · rintro ⟨h', h''⟩
              omega
            · rintro (h' | h')
              · exact absurd h' hzero
              · exact absurd h' hedge'
  | false =>
    have hneg : op1.toInt < 0 ∨ op2.toInt < 0 := by
      by_contra h
      exact hpos ⟨by omega, .inr (by omega)⟩
    have hlarge : 32768 ≤ op1.toNat ∨ 32768 ≤ op2.toNat := by
      split at h1 <;> split at h2 <;> omega
    simp only [Bool.false_eq_true, if_false] at hdefined ⊢
    have hnonneg : (0 : ℤ) ≤ (op1.toNat : ℤ) * (op2.toNat : ℤ) := by positivity
    have hsmall : (op1.toNat : ℤ) * (op2.toNat : ℤ) ≤ 32767 ↔ op1.toNat = 0 ∨ op2.toNat = 0 := by
      constructor
      · intro h
        by_contra hne
        rcases hlarge with hl | hl
        · have hone : 1 ≤ op2.toNat := by omega
          nlinarith
        · have hone : 1 ≤ op1.toNat := by omega
          nlinarith
      · rintro (h | h) <;> rw [h] <;> simp
    have hdefined' : op1.toNat * op2.toNat < 2 ^ 31 := by
      have hcast : ((op1.toNat * op2.toNat : ℕ) : ℤ) < 2 ^ 31 := by
        push_cast
        omega
      exact_mod_cast hcast
    by_cases hzero : op1.toNat = 0 ∨ op2.toNat = 0
    · have hproduct : op1.toInt * op2.toInt = 0 := by
        rcases hzero with h | h
        · have hfirst : op1.toInt = 0 := by
            rw [if_pos (by omega)] at h1
            omega
          rw [hfirst, Int.zero_mul]
        · have hsecond : op2.toInt = 0 := by
            rw [if_pos (by omega)] at h2
            omega
          rw [hsecond, Int.mul_zero]
      rw [hproduct]
      have hle := hsmall.mpr hzero
      constructor
      · intro _
        exact hzero.elim .inl fun h => .inr (.inl h)
      · intro _
        constructor <;> intro _ <;> omega
    · constructor
      · intro h
        refine .inr (.inr ⟨?_, hdefined'⟩)
        by_contra hout
        exact hzero (hsmall.mp (h.mp ⟨by omega, by omega⟩).2)
      · rintro (h | h | ⟨h, -⟩)
        · exact absurd (.inl h) hzero
        · exact absurd (.inr h) hzero
        · constructor
          · rintro ⟨h', h''⟩
            omega
          · rintro ⟨-, h'⟩
            exact absurd (hsmall.mp h') hzero

/-- A product that an `int` does not hold is one that the cores do not agree on. -/
theorem not_dimulWordMatches {immediate : Bool} {op1 op2 : BitVec 16}
    (h : 2 ^ 31 ≤ (op1.toNat : ℤ) * if immediate then op2.toInt else (op2.toNat : ℤ)) :
    ¬ DimulWordMatches immediate op1 op2 := by
  have h1 := toInt_word op1
  have h2 := toInt_word op2
  have hlt1 := op1.isLt
  have hlt2 := op2.isLt
  cases immediate with
  | true =>
    rw [if_pos rfl] at h
    have hle : op2.toInt ≤ 32767 := by
      split at h2 <;> omega
    nlinarith
  | false =>
    simp only [Bool.false_eq_true, if_false] at h
    unfold DimulWordMatches
    by_cases hpos : 0 ≤ op1.toInt ∧ (false = true ∨ 0 ≤ op2.toInt)
    · have hsmall1 : op1.toNat < 32768 := by
        split at h1 <;> omega
      have hsmall2 : op2.toNat < 32768 := by
        have hnonneg := hpos.2.resolve_left (by decide)
        split at h2 <;> omega
      nlinarith
    · rw [if_neg hpos]
      rintro (rfl | rfl | ⟨-, hlt⟩)
      · simp at h
      · simp at h
      · have hcast : ((op1.toNat * op2.toNat : ℕ) : ℤ) < 2 ^ 31 := by exact_mod_cast hlt
        push_cast at hcast
        omega

theorem dimul_word_agrees_iff (immediate : Bool) (op1 op2 : BitVec 16) :
    (Helper.dimul_word immediate op1 op2).SameAsNormal m ↔
      DimulWordMatches immediate op1 op2 := by
  by_cases hint : 2 ^ 31 ≤ (op1.toNat : ℤ) * if immediate then op2.toInt else (op2.toNat : ℤ)
  · refine iff_of_false ?_ (not_dimulWordMatches hint)
    rintro ⟨o, o', -, ho', -⟩
    simp only [Helper.normal, NormalCore.DIMULW, if_pos hint, Option.map_none] at ho'
    exact absurd ho' (by simp)
  · have hnormal : (Helper.dimul_word immediate op1 op2).normal m =
        some (.value m (BitVec.ofInt 16 (op1.toInt * op2.toInt), setCFOF
          (!decide ((op1.toNat : ℤ) * (if immediate then op2.toInt else op2.toNat) ≥ -32768 ∧
            (op1.toNat : ℤ) * (if immediate then op2.toInt else op2.toNat) ≤ 32767))
          (FillFlagsNoCFOF m.cpu))) := by
      simp only [Helper.normal, NormalCore.DIMULW, if_neg hint, Option.map_some, ofInt_product]
    rw [← dimul_word_flags_iff immediate op1 op2 hint, dimul_agrees_iff rfl hnormal fun f => rfl,
      Bool.not_inj_iff, decide_eq_decide]

theorem dimul_dword_agrees_iff (op1 op2 : BitVec 32) :
    (Helper.dimul_dword op1 op2).SameAsNormal m ↔
      op1.toInt * op2.toInt ≠ 2147483647 ∧ op1.toInt * op2.toInt ≠ -2147483648 := by
  rw [dimul_agrees_iff (h := .dimul_dword op1 op2) rfl rfl fun f => rfl]
  generalize op1.toInt * op2.toInt = res
  have hwrap : (BitVec.ofInt 32 res).toInt = res ↔ -2147483648 ≤ res ∧ res ≤ 2147483647 := by
    rw [BitVec.toInt_ofInt, Int.bmod_def]
    omega
  have hflag : (!decide (res > -(2147483647 + 1) ∧ res < 2147483647)) =
      decide ((BitVec.ofInt 32 res).toInt ≠ res) ↔
      (res > -(2147483647 + 1) ∧ res < 2147483647 ↔ (BitVec.ofInt 32 res).toInt = res) := by
    rw [← decide_not, decide_eq_decide, not_iff_not]
  rw [hflag, hwrap]
  omega

/-! ## Divisions -/

/-- A quotient that has no value in a type of the host. -/
theorem idivide_eq_none_iff {op : BitVec w.bits} :
    idivide hostBits w op m = none ↔
      op.toInt ≠ 0 ∧ (m.pair w).toInt.tdiv op.toInt = 2 ^ (hostBits - 1) := by
  unfold idivide
  by_cases hval : op.toInt = 0
  · simp [hval]
  · by_cases hquo : (m.pair w).toInt.tdiv op.toInt = 2 ^ (hostBits - 1)
    · simp [hval, hquo]
    · simp only [if_neg hval, if_neg hquo]
      refine iff_of_false ?_ fun h => hquo h.2
      split <;> simp

theorem idivide_eq {hostBits' : ℕ} {op : BitVec w.bits} (h : idivide hostBits w op m ≠ none)
    (h' : idivide hostBits' w op m ≠ none) :
    idivide hostBits w op m = idivide hostBits' w op m := by
  rw [Ne, idivide_eq_none_iff, not_and] at h h'
  unfold idivide
  by_cases hval : op.toInt = 0
  · simp only [if_pos hval]
  · simp only [if_neg hval, if_neg (h hval), if_neg (h' hval)]

/-- The only quotient of `k + 1` bit numbers that is too large. -/
theorem tdiv_eq_two_pow_iff {num val : ℤ} {k : ℕ} (hlo : -2 ^ k ≤ num)
    (hhi : num < 2 ^ k) (hval : val ≠ 0) : num.tdiv val = 2 ^ k ↔ num = -2 ^ k ∧ val = -1 := by
  constructor
  · intro h
    have habs : (num.tdiv val).natAbs = num.natAbs / val.natAbs := Int.natAbs_tdiv num val
    have hnum : num.natAbs ≤ 2 ^ k := by
      zify
      exact abs_le.mpr ⟨hlo, hhi.le⟩
    have hquo : (num.tdiv val).natAbs = 2 ^ k := by
      rw [h]
      simp [Int.natAbs_pow]
    have hpos : 0 < 2 ^ k := Nat.two_pow_pos k
    have hone : val.natAbs = 1 := by
      by_contra hne
      have htwo : 2 ≤ val.natAbs := by omega
      have hlt : num.natAbs / val.natAbs < 2 ^ k :=
        (Nat.div_le_div hnum htwo (by decide)).trans_lt (Nat.div_lt_self hpos (by decide))
      rw [← habs, hquo] at hlt
      exact absurd hlt (Nat.lt_irrefl _)
    rcases Int.natAbs_eq_iff.mp hone with rfl | rfl
    · rw [Nat.cast_one, Int.tdiv_one] at h
      omega
    · refine ⟨?_, rfl⟩
      simp only [Nat.cast_one, Int.reduceNeg, Int.tdiv_neg, Int.tdiv_one] at h
      omega
  · rintro ⟨rfl, rfl⟩
    simp

theorem tdiv_le_two_pow {num val : ℤ} {k : ℕ} (hlo : -2 ^ k ≤ num) (hhi : num < 2 ^ k) :
    num.tdiv val ≤ 2 ^ k := by
  have habs := Int.natAbs_tdiv num val
  have hnum : num.natAbs ≤ 2 ^ k := by
    zify
    exact abs_le.mpr ⟨hlo, hhi.le⟩
  have hle : (num.tdiv val).natAbs ≤ 2 ^ k := habs ▸ (Nat.div_le_self ..).trans hnum
  have hcast : ((num.tdiv val).natAbs : ℤ) ≤ 2 ^ k := by exact_mod_cast hle
  exact le_trans Int.le_natAbs hcast

theorem pair_bounds (w : Width) : -2 ^ (2 * w.bits - 1) ≤ (m.pair w).toInt ∧
    (m.pair w).toInt < 2 ^ (2 * w.bits - 1) :=
  ⟨BitVec.le_toInt _, BitVec.toInt_lt⟩

/-- A division in a type that holds every quotient is defined. -/
theorem idivide_ne_none {op : BitVec w.bits} (h : 2 * w.bits < hostBits) :
    idivide hostBits w op m ≠ none := by
  rw [Ne, idivide_eq_none_iff]
  rintro ⟨-, hquo⟩
  have hle : (m.pair w).toInt.tdiv op.toInt ≤ 2 ^ (2 * w.bits - 1) :=
    tdiv_le_two_pow (pair_bounds w).1 (pair_bounds w).2
  rw [hquo] at hle
  have hbits : 0 < w.bits := by cases w <;> decide
  have hlt : (2 : ℤ) ^ (2 * w.bits - 1) < 2 ^ (hostBits - 1) :=
    pow_lt_pow_right₀ (by decide) (by omega)
  exact absurd hlt (not_lt.mpr hle)

theorem idivide_eq_none_iff_of_width {op : BitVec w.bits} :
    idivide (2 * w.bits) w op m = none ↔
      (m.pair w).toInt = -2 ^ (2 * w.bits - 1) ∧ op.toInt = -1 := by
  have hbits : 0 < 2 * w.bits - 1 := by cases w <;> decide
  rw [idivide_eq_none_iff]
  constructor
  · rintro ⟨hval, hquo⟩
    exact (tdiv_eq_two_pow_iff (pair_bounds w).1 (pair_bounds w).2 hval).mp hquo
  · rintro ⟨hnum, hval⟩
    have hne : op.toInt ≠ 0 := by omega
    exact ⟨hne, (tdiv_eq_two_pow_iff (pair_bounds w).1 (pair_bounds w).2 hne).mpr
      ⟨hnum, hval⟩⟩

/-- Divisions agree when both are defined. -/
theorem idiv_agrees_of {op : BitVec w.bits}
    (hnormal : (Helper.idiv w op).normal m = (idivide hostBits w op m).map .division) :
    (Helper.idiv w op).SameAsNormal m ↔
      idivide 64 w op m ≠ none ∧ idivide hostBits w op m ≠ none := by
  constructor
  · rintro ⟨o, o', ho, ho', -⟩
    rw [hnormal] at ho'
    constructor
    · intro h
      simp [Helper.dynrec, dynrec_idiv, h] at ho
    · intro h
      simp [h] at ho'
  · rintro ⟨hdefined, hdefined'⟩
    obtain ⟨r, hr⟩ := Option.ne_none_iff_exists'.mp hdefined
    refine sameAsNormal_of_eq (o := .division r) ?_ ?_
    · rw [hnormal, ← idivide_eq hdefined hdefined', hr]
      rfl
    · rw [hnormal, ← idivide_eq hdefined hdefined']
      rfl

theorem idiv_agrees_iff (w : Width) (op : BitVec w.bits) :
    (Helper.idiv w op).SameAsNormal m ↔ w = .byte ∨
      ¬ ((m.pair w).toInt = -2 ^ (2 * w.bits - 1) ∧ op.toInt = -1) := by
  cases w with
  | byte =>
    have hnormal : (Helper.idiv .byte op).normal m = (idivide 64 .byte op m).map .division := rfl
    have hne : idivide 64 .byte op m ≠ none := idivide_ne_none (by decide)
    rw [idiv_agrees_of hnormal]
    simp [hne]
  | word =>
    have hnormal : (Helper.idiv .word op).normal m = (idivide 32 .word op m).map .division := rfl
    have hne : idivide 64 .word op m ≠ none := idivide_ne_none (by decide)
    have hnone : idivide 32 .word op m = none ↔ _ := idivide_eq_none_iff_of_width
    rw [idiv_agrees_of hnormal, Ne, Ne, hnone]
    simp [hne]
  | dword =>
    have hnormal : (Helper.idiv .dword op).normal m = (idivide 64 .dword op m).map .division := rfl
    have hnone : idivide 64 .dword op m = none ↔ _ := idivide_eq_none_iff_of_width
    rw [idiv_agrees_of hnormal, Ne, hnone]
    simp

theorem div_agrees (w : Width) (op : BitVec w.bits) : (Helper.div w op).SameAsNormal m := by
  have hdefined : ∃ r, divide w op m = some r := by
    unfold divide
    dsimp only
    split
    · exact ⟨_, rfl⟩
    · split
      · exact ⟨_, rfl⟩
      · exact ⟨_, rfl⟩
  obtain ⟨r, hr⟩ := hdefined
  refine sameAsNormal_of_eq (o := .division r) ?_ rfl
  simp [Helper.normal, NormalCore.DIV, hr]

end

/-! ## All helpers -/

/-- The variants without flags compute what the helpers compute. -/
theorem simple_same (h : Helper) (m : Machine) : h.SimpleSame m := by
  intro r hr o ho
  cases h with
  | dual op w op1 op2 =>
    cases op <;> cases Option.some.inj hr <;> cases Option.some.inj ho <;> rfl
  | single op w op1 =>
    cases op <;> cases Option.some.inj hr <;> cases Option.some.inj ho <;> rfl
  | shift op w op1 count =>
    cases op with
    | SHIFT_RCL => exact absurd hr (by simp [Helper.simple])
    | SHIFT_RCR => exact absurd hr (by simp [Helper.simple])
    | SHIFT_ROL =>
      cases Option.some.inj hr
      cases Option.some.inj ho
      cases w <;> simp only [Outcome.value, dynrec_rol, dynrec_rol_simple] <;> split <;>
        first | rfl | (split <;> rfl)
    | SHIFT_ROR =>
      cases Option.some.inj hr
      cases Option.some.inj ho
      cases w <;> simp only [Outcome.value, dynrec_ror, dynrec_ror_simple] <;> split <;>
        first | rfl | (split <;> rfl)
    | SHIFT_SHL | SHIFT_SHR | SHIFT_SAR =>
      cases Option.some.inj hr
      cases Option.some.inj ho
      simp only [Outcome.value, dynrec_shl, dynrec_shr, dynrec_sar, dynrec_shl_simple,
        dynrec_shr_simple, dynrec_sar_simple]
      split <;> rfl
  | dpshift_word left op1 op2 op3 =>
    cases left <;> cases Option.some.inj hr <;> cases Option.some.inj ho <;>
      simp only [Outcome.value, dynrec_dshl_word, dynrec_dshr_word, dynrec_dshl_word_simple,
        dynrec_dshr_word_simple] <;> split <;> rfl
  | dpshift_dword left op1 op2 op3 =>
    cases left <;> cases Option.some.inj hr <;> cases Option.some.inj ho <;>
      simp only [Outcome.value, dynrec_dshl_dword, dynrec_dshr_dword, dynrec_dshl_dword_simple,
        dynrec_dshr_dword_simple, BitVec.setWidth_eq] <;> split <;> rfl
  | mul | imul_byte | imul_word | imul_dword | dimul_word | dimul_dword | div | idiv =>
    exact absurd hr (by simp [Helper.simple])

/-- The edges at which the cores differ. -/
def Helper.Matches (m : Machine) : Helper → Prop
  | dimul_word immediate op1 op2 => DimulWordMatches immediate op1 op2
  | dimul_dword op1 op2 =>
    op1.toInt * op2.toInt ≠ 2147483647 ∧ op1.toInt * op2.toInt ≠ -2147483648
  | idiv w op => w = .byte ∨ ¬ ((m.pair w).toInt = -2 ^ (2 * w.bits - 1) ∧ op.toInt = -1)
  | _ => True

/-- **A helper computes what the normal core computes**, and its variant without flags the same
result, exactly when the operands are not at one of the edges. -/
theorem Helper.agrees_with_normal_iff (h : Helper) (m : Machine) :
    h.SameAsNormal m ∧ h.SimpleSame m ↔ h.Matches m := by
  rw [and_iff_left (simple_same h m)]
  cases h with
  | dual op w op1 op2 =>
    obtain ⟨o, ho⟩ : ∃ o, (Helper.dual op w op1 op2).normal m = some o := by
      cases op <;> exact ⟨_, rfl⟩
    exact iff_of_true (sameAsNormal_of_eq ho (dual_eq op op1 op2)) trivial
  | single op w op1 =>
    obtain ⟨o, ho⟩ : ∃ o, (Helper.single op w op1).normal m = some o := by
      cases op <;> exact ⟨_, rfl⟩
    exact iff_of_true (sameAsNormal_of_eq ho (single_eq op op1)) trivial
  | shift op w op1 count =>
    obtain ⟨o, ho⟩ := shift_normal_some (m := m) op op1 count
    refine iff_of_true ?_ trivial
    cases op with
    | SHIFT_ROL => exact rotate_agrees op1 count (.inl rfl)
    | SHIFT_ROR => exact rotate_agrees op1 count (.inr rfl)
    | SHIFT_RCL => exact sameAsNormal_of_eq ho (rotated_carry_eq op1 count (.inl rfl))
    | SHIFT_RCR => exact sameAsNormal_of_eq ho (rotated_carry_eq op1 count (.inr rfl))
    | SHIFT_SHL => exact sameAsNormal_of_eq ho (recorded_shift_eq op1 count (.inl rfl))
    | SHIFT_SHR => exact sameAsNormal_of_eq ho (recorded_shift_eq op1 count (.inr (.inl rfl)))
    | SHIFT_SAR => exact sameAsNormal_of_eq ho (recorded_shift_eq op1 count (.inr (.inr rfl)))
  | dpshift_word left op1 op2 op3 =>
    obtain ⟨o, ho⟩ : ∃ o, (Helper.dpshift_word left op1 op2 op3).normal m = some o := by
      cases left <;> exact ⟨_, rfl⟩
    exact iff_of_true (sameAsNormal_of_eq ho (dpshift_word_eq left op1 op2 op3)) trivial
  | dpshift_dword left op1 op2 op3 =>
    obtain ⟨o, ho⟩ : ∃ o, (Helper.dpshift_dword left op1 op2 op3).normal m = some o := by
      cases left <;> exact ⟨_, rfl⟩
    exact iff_of_true (sameAsNormal_of_eq ho (dpshift_dword_eq left op1 op2 op3)) trivial
  | mul w op => exact iff_of_true (sameAsNormal_of_eq rfl (mul_eq op)) trivial
  | imul_byte op => exact iff_of_true (imul_byte_same op) trivial
  | imul_word op => exact iff_of_true (imul_word_same op) trivial
  | imul_dword op => exact iff_of_true (imul_dword_same op) trivial
  | dimul_word immediate op1 op2 => exact dimul_word_agrees_iff immediate op1 op2
  | dimul_dword op1 op2 => exact dimul_dword_agrees_iff op1 op2
  | div w op => exact iff_of_true (div_agrees w op) trivial
  | idiv w op => exact idiv_agrees_iff w op

/-- `IMUL EAX,EBX` of `0x7fffffff` and 1: the helper finds an overflow. -/
theorem Helper.dimul_dword_differs :
    ¬ ∀ (h : Helper) (m : Machine), h.SameAsNormal m ∧ h.SimpleSame m := by
  intro hall
  obtain ⟨⟨o, o', ho, ho', hagrees⟩, -⟩ :=
    hall (.dimul_dword 0x7fffffff 1) ⟨0, 0, ⟨2, {}⟩⟩
  obtain rfl := Option.some.inj ho
  obtain rfl := Option.some.inj ho'
  exact absurd (hagrees.flags .CF rfl) (by decide)

end AugraDosbox.Dynrec
