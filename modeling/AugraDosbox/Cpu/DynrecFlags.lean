import AugraDosbox.Cpu.FlagsAgree
import AugraDosbox.Cpu.DynrecOps

/-!
# The flags of the two-operand helpers

What `FillFlags` reads after a helper with two operands, as arithmetic on the operands.

* `DualOps.result`, `DualOps.flag` — the result and the six flags of an operation;
* `dual_call` — the helper of an operation, `dual_simple` its variant without flags;
* `flags_dual_call` — the helper gives the flags of the operation.
-/

namespace AugraDosbox.Dynrec

open FlagType LazyFlags DualOps

/-! ## The operations -/

/-- `ADC` and `SBB` use the carry. -/
def DualOps.carry (cf : Bool) : DualOps → Bool
  | DOP_ADC | DOP_SBB => cf
  | _ => false

/-- The result of an operation, with a carry coming in. -/
def DualOps.result (w : Width) (op1 op2 : BitVec w.bits) (cf : Bool) : DualOps → BitVec w.bits
  | DOP_ADD => op1 + op2
  | DOP_ADC => op1 + op2 + carryIn w cf
  | DOP_SUB | DOP_CMP => op1 - op2
  | DOP_SBB => op1 - (op2 + carryIn w cf)
  | DOP_XOR => op1 ^^^ op2
  | DOP_AND | DOP_TEST => op1 &&& op2
  | DOP_OR => op1 ||| op2

/-- The flags of an operation. -/
def DualOps.flag (w : Width) (op1 op2 : BitVec w.bits) (cf : Bool) (op : DualOps) : CpuFlag → Bool
  | .CF =>
    match op with
    | DOP_ADD | DOP_ADC => 2 ^ w.bits ≤ op1.toNat + op2.toNat + (op.carry cf).toNat
    | DOP_SUB | DOP_CMP | DOP_SBB => op1.toNat < op2.toNat + (op.carry cf).toNat
    | _ => false
  | .PF => truth (parity_lookup ((op.result w op1 op2 cf).setWidth 8))
  | .AF =>
    match op with
    | DOP_XOR | DOP_AND | DOP_OR | DOP_TEST => false
    | _ => (op1 ^^^ op2 ^^^ op.result w op1 op2 cf).getLsbD 4
  | .ZF => op.result w op1 op2 cf = 0
  | .SF => (op.result w op1 op2 cf).msb
  | .OF =>
    match op with
    | DOP_ADD | DOP_ADC => op1.msb == op2.msb && (op.result w op1 op2 cf).msb != op1.msb
    | DOP_SUB | DOP_CMP | DOP_SBB => op1.msb != op2.msb && (op.result w op1 op2 cf).msb != op1.msb
    | _ => false

/-- The helper that is called for an operation; `DOP_CMP` and `DOP_TEST` return nothing. -/
def dual_call (w : Width) (op1 op2 : BitVec w.bits) (c : Cpu) :
    DualOps → Option (BitVec w.bits) × Cpu
  | DOP_ADD => ((dynrec_add w op1 op2 c).1, (dynrec_add w op1 op2 c).2)
  | DOP_ADC => ((dynrec_adc w op1 op2 c).1, (dynrec_adc w op1 op2 c).2)
  | DOP_SUB => ((dynrec_sub w op1 op2 c).1, (dynrec_sub w op1 op2 c).2)
  | DOP_SBB => ((dynrec_sbb w op1 op2 c).1, (dynrec_sbb w op1 op2 c).2)
  | DOP_CMP => (none, dynrec_cmp w op1 op2 c)
  | DOP_XOR => ((dynrec_xor w op1 op2 c).1, (dynrec_xor w op1 op2 c).2)
  | DOP_AND => ((dynrec_and w op1 op2 c).1, (dynrec_and w op1 op2 c).2)
  | DOP_OR => ((dynrec_or w op1 op2 c).1, (dynrec_or w op1 op2 c).2)
  | DOP_TEST => (none, dynrec_test w op1 op2 c)

/-- The variants without flags. -/
def dual_simple (w : Width) (op1 op2 : BitVec w.bits) (c : Cpu) : DualOps → Option (BitVec w.bits)
  | DOP_ADD => some (op1 + op2)
  | DOP_ADC => some (dynrec_adc_simple w op1 op2 c)
  | DOP_SUB => some (op1 - op2)
  | DOP_SBB => some (dynrec_sbb_simple w op1 op2 c)
  | DOP_XOR => some (op1 ^^^ op2)
  | DOP_AND => some (op1 &&& op2)
  | DOP_OR => some (op1 ||| op2)
  | DOP_CMP | DOP_TEST => none

/-- Every operation but `DOP_CMP` and `DOP_TEST` writes its result back. -/
def DualOps.writes (op : DualOps) : Bool := op ≠ DOP_CMP ∧ op ≠ DOP_TEST

section

variable {w : Width} {op1 op2 : BitVec w.bits} {c : Cpu} {op : DualOps}

theorem dual_call_result : (dual_call w op1 op2 c op).1 =
    if op.writes then some (op.result w op1 op2 (truth (get_CF c))) else none := by
  cases op <;> rfl

theorem dual_simple_result : dual_simple w op1 op2 c op =
    if op.writes then some (op.result w op1 op2 (truth (get_CF c))) else none := by
  cases op <;> rfl

/-! ## What is recorded -/

/-- The lowest byte of what has been stored. -/
theorem lf_res_byte {l : LazyFlags} : l.lf_res .byte = (l.lf_res w).setWidth 8 := by
  have hle : 8 ≤ w.bits := by cases w <;> decide
  exact (BitVec.setWidth_setWidth_of_le _ hle).symm

theorem truth_bit_four (x : BitVec w.bits) : truth (x.setWidth 32 &&& 0x10) = x.getLsbD 4 := by
  have hw : 4 < w.bits := by cases w <;> decide
  rw [show (0x10 : BitVec 32) = BitVec.twoPow 32 4 from rfl, truth_and_twoPow _ (by decide),
    BitVec.getLsbD_setWidth]
  simp [hw]

/-! ## Carries -/

theorem toNat_carryIn {cf : Bool} : (carryIn w cf).toNat = cf.toNat := by
  cases w <;> cases cf <;> rfl

theorem add_lt_iff : op1 + op2 < op1 ↔ 2 ^ w.bits ≤ op1.toNat + op2.toNat := by
  have h1 := op1.isLt
  have h2 := op2.isLt
  rw [BitVec.lt_def, BitVec.toNat_add]
  rcases Nat.lt_or_ge (op1.toNat + op2.toNat) (2 ^ w.bits) with h | h
  · rw [Nat.mod_eq_of_lt h]
    omega
  · rw [Nat.mod_eq_sub_mod h, Nat.mod_eq_of_lt (by omega)]
    omega

theorem adc_carry_iff {cf : Bool} :
    (op1 + op2 + carryIn w cf < op1 ∨ cf = true ∧ op1 + op2 + carryIn w cf = op1) ↔
      2 ^ w.bits ≤ op1.toNat + op2.toNat + cf.toNat := by
  have h1 := op1.isLt
  have h2 := op2.isLt
  have hc : cf.toNat ≤ 1 := Bool.toNat_le cf
  have hone : cf = true ↔ cf.toNat = 1 := by cases cf <;> simp
  have hsum : (op1 + op2 + carryIn w cf).toNat =
      (op1.toNat + op2.toNat + cf.toNat) % 2 ^ w.bits := by
    rw [BitVec.toNat_add, BitVec.toNat_add, toNat_carryIn, Nat.mod_add_mod]
  rw [BitVec.lt_def, ← BitVec.toNat_inj, hsum, hone]
  rcases Nat.lt_or_ge (op1.toNat + op2.toNat + cf.toNat) (2 ^ w.bits) with h | h
  · rw [Nat.mod_eq_of_lt h]
    omega
  · rw [Nat.mod_eq_sub_mod h, Nat.mod_eq_of_lt (by omega)]
    omega

theorem sbb_borrow_iff {cf : Bool} :
    (op1 < op1 - (op2 + carryIn w cf) ∨ cf = true ∧ op2 = BitVec.allOnes w.bits) ↔
      op1.toNat < op2.toNat + cf.toNat := by
  have h1 := op1.isLt
  have h2 := op2.isLt
  have hc : cf.toNat ≤ 1 := Bool.toNat_le cf
  have hone : cf = true ↔ cf.toNat = 1 := by cases cf <;> simp
  rw [BitVec.lt_def, ← BitVec.toNat_inj, BitVec.toNat_allOnes, hone, BitVec.toNat_sub,
    BitVec.toNat_add, toNat_carryIn]
  rcases Nat.lt_or_ge (op2.toNat + cf.toNat) (2 ^ w.bits) with h | h
  · rw [Nat.mod_eq_of_lt h]
    rcases Nat.lt_or_ge op1.toNat (op2.toNat + cf.toNat) with hlt | hge
    · rw [Nat.mod_eq_of_lt (by omega)]
      omega
    · rw [show 2 ^ w.bits - (op2.toNat + cf.toNat) + op1.toNat =
        2 ^ w.bits + (op1.toNat - (op2.toNat + cf.toNat)) by omega, Nat.add_mod_left,
        Nat.mod_eq_of_lt (by omega)]
      omega
  · have hwrap : (op2.toNat + cf.toNat) % 2 ^ w.bits = 0 := by
      rw [show op2.toNat + cf.toNat = 2 ^ w.bits by omega, Nat.mod_self]
    rw [hwrap, Nat.sub_zero, Nat.add_mod_left, Nat.mod_eq_of_lt h1]
    omega

/-! ## Overflows -/

theorem add_overflow (a b r : Bool) :
    ((a ^^ b ^^ true) && (r ^^ a)) = (a == b && r != a) := by
  revert a b r
  decide

theorem sub_overflow (a b r : Bool) : ((a ^^ b) && (a ^^ r)) = (a != b && r != a) := by
  revert a b r
  decide

/-! ## What `FillFlags` reads -/

/-- The lazy flags of an operation with two operands. -/
structure Recorded2 (l : LazyFlags) (type : FlagType) (op1 op2 res : BitVec w.bits) : Prop where
  type : l.type = type
  var1 : l.lf_var1 w = op1
  var2 : l.lf_var2 w = op2
  res : l.lf_res w = res

theorem recorded2 {type : FlagType} {res : BitVec w.bits} {l : LazyFlags} :
    Recorded2 (record2 type op1 op2 res l) type op1 op2 res :=
  ⟨rfl, setWidth_store .., setWidth_store .., setWidth_store ..⟩

theorem recorded2_oldcf {type : FlagType} {res : BitVec w.bits} {l : LazyFlags} {oldcf : Bool} :
    Recorded2 { record2 type op1 op2 res l with oldcf := oldcf } type op1 op2 res :=
  ⟨rfl, setWidth_store .., setWidth_store .., setWidth_store ..⟩

section

variable {l : LazyFlags} {res : BitVec w.bits} {reg_flags : BitVec 32}

theorem flags_add (h : Recorded2 l (t_ADD w) op1 op2 (op1 + op2)) {cf : Bool} (f : CpuFlag) :
    isSet (FillFlags ⟨reg_flags, l⟩).1 f = DOP_ADD.flag w op1 op2 cf f := by
  cases f <;>
    simp only [FillFlags, h.type, DOFLAG_AF_eq w, DOFLAG_SF_eq, DOFLAG_PF_eq, DOFLAG_ZF,
      isSet_SETFLAGBIT, truth_bit_four, lf_res_byte (w := w), h.var1, h.var2,
      h.res, truth_and_sign, BitVec.msb_and, BitVec.msb_xor, msb_sign, reduceCtorEq, if_true,
      if_false, DualOps.flag, DualOps.result, DualOps.carry, add_lt_iff, add_overflow,
      Bool.toNat_false, Nat.add_zero]
  case CF => exact decide_eq_decide.mpr Iff.rfl
  case ZF => exact decide_eq_decide.mpr Iff.rfl

theorem flags_adc {cf : Bool} (h : Recorded2 l (t_ADC w) op1 op2 (op1 + op2 + carryIn w cf))
    (hcf : l.oldcf = cf) (f : CpuFlag) :
    isSet (FillFlags ⟨reg_flags, l⟩).1 f = DOP_ADC.flag w op1 op2 cf f := by
  cases f <;>
    simp only [FillFlags, h.type, DOFLAG_AF_eq w, DOFLAG_SF_eq, DOFLAG_PF_eq, DOFLAG_ZF,
      isSet_SETFLAGBIT, truth_bit_four, lf_res_byte (w := w), h.var1, h.var2,
      h.res, hcf, truth_and_sign, BitVec.msb_and, BitVec.msb_xor, msb_sign, reduceCtorEq, if_true,
      if_false, DualOps.flag, DualOps.result, DualOps.carry, adc_carry_iff, add_overflow]
  case CF => exact decide_eq_decide.mpr Iff.rfl
  case ZF => exact decide_eq_decide.mpr Iff.rfl

theorem flags_sub {type : FlagType} (htype : type = t_SUB w ∨ type = t_CMP w)
    (h : Recorded2 l type op1 op2 (op1 - op2)) (cf : Bool) (f : CpuFlag) :
    isSet (FillFlags ⟨reg_flags, l⟩).1 f = DOP_SUB.flag w op1 op2 cf f := by
  rcases htype with rfl | rfl <;> cases f <;>
    simp only [FillFlags, h.type, DOFLAG_AF_eq w, DOFLAG_SF_eq, DOFLAG_PF_eq, DOFLAG_ZF,
      isSet_SETFLAGBIT, truth_bit_four, lf_res_byte (w := w), h.var1, h.var2,
      h.res, truth_and_sign, BitVec.msb_and, BitVec.msb_xor, reduceCtorEq, if_true, if_false,
      DualOps.flag, DualOps.result, DualOps.carry, BitVec.lt_def, sub_overflow, Bool.toNat_false,
      Nat.add_zero]
  all_goals exact decide_eq_decide.mpr Iff.rfl

theorem flags_sbb {cf : Bool} (h : Recorded2 l (t_SBB w) op1 op2 (op1 - (op2 + carryIn w cf)))
    (hcf : l.oldcf = cf) (f : CpuFlag) :
    isSet (FillFlags ⟨reg_flags, l⟩).1 f = DOP_SBB.flag w op1 op2 cf f := by
  cases f <;>
    simp only [FillFlags, h.type, DOFLAG_AF_eq w, DOFLAG_SF_eq, DOFLAG_PF_eq, DOFLAG_ZF,
      isSet_SETFLAGBIT, truth_bit_four, lf_res_byte (w := w), h.var1, h.var2,
      h.res, hcf, truth_and_sign, BitVec.msb_and, BitVec.msb_xor, reduceCtorEq, if_true, if_false,
      DualOps.flag, DualOps.result, DualOps.carry, sbb_borrow_iff, sub_overflow]
  case CF => exact decide_eq_decide.mpr Iff.rfl
  case ZF => exact decide_eq_decide.mpr Iff.rfl

/-- The flags of a logical operation depend on its result only. -/
theorem flags_logic {type : FlagType}
    (htype : type = t_OR w ∨ type = t_TEST w ∨ type = t_AND w ∨ type = t_XOR w)
    (h : Recorded2 l type op1 op2 res) (f : CpuFlag) :
    isSet (FillFlags ⟨reg_flags, l⟩).1 f =
      match f with
      | .PF => truth (parity_lookup (res.setWidth 8))
      | .ZF => decide (res = 0)
      | .SF => res.msb
      | _ => false := by
  rcases htype with rfl | rfl | rfl | rfl <;> cases f <;>
    simp only [FillFlags, h.type, DOFLAG_SF_eq, DOFLAG_PF_eq, DOFLAG_ZF, isSet_SETFLAGBIT,
      lf_res_byte (w := w), h.res, reduceCtorEq, if_true, if_false]

end

/-- **A helper gives the flags of its operation.** -/
theorem flags_dual_call (f : CpuFlag) : isSet (FillFlags (dual_call w op1 op2 c op).2).1 f =
    op.flag w op1 op2 (truth (get_CF c)) f := by
  cases op with
  | DOP_ADD => exact flags_add recorded2 f
  | DOP_ADC => exact flags_adc recorded2_oldcf rfl f
  | DOP_SUB => exact flags_sub (.inl rfl) recorded2 _ f
  | DOP_SBB => exact flags_sbb recorded2_oldcf rfl f
  | DOP_CMP =>
    refine (flags_sub (.inr rfl) recorded2 false f).trans ?_
    cases f <;> rfl
  | DOP_XOR =>
    refine (flags_logic (.inr (.inr (.inr rfl))) recorded2 f).trans ?_
    cases f <;> rfl
  | DOP_AND =>
    refine (flags_logic (.inr (.inr (.inl rfl))) recorded2 f).trans ?_
    cases f <;> rfl
  | DOP_OR =>
    refine (flags_logic (.inl rfl) recorded2 f).trans ?_
    cases f <;> rfl
  | DOP_TEST =>
    refine (flags_logic (.inr (.inl rfl)) recorded2 f).trans ?_
    cases f <;> rfl

/-- What is recorded is one of the kinds that the getters and `FillFlags` agree on. -/
theorem recorded_dual_call : (dual_call w op1 op2 c op).2.lflags.type.Recorded := by
  cases op <;> exact trivial

end

end AugraDosbox.Dynrec
