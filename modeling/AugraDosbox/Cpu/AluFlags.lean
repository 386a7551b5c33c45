import AugraDosbox.Cpu.DynrecFlags
import AugraDosbox.Lib.ExactWord

/-!
# The flags of the integer instructions

What `FillFlags` and the jump conditions of `cpu/lazyflags.h` report after an addition, a
subtraction, a comparison, an increment, a decrement or a negation, against the instruction on
unbounded integers.

* `AluOp.exact` — the instruction on unbounded integers;
* `AluOp.Flag` — its flags: the carries and the overflow are ranges that the exact number leaves;
* **`alu_flags_exact`** — `FillFlags` gives these flags, and after a comparison the conditions of
  the jumps are the orders of the operands.
-/

namespace AugraDosbox

open FlagType LazyFlags Dynrec ExactWord

/-! ## The instructions on integers -/

/-- The instructions whose flags are those of a sum or a difference. -/
inductive AluOp where
  | ADD
  | ADC
  | SUB
  | SBB
  | CMP
  | INC
  | DEC
  | NEG
  deriving DecidableEq, Repr

namespace AluOp

/-- The instruction; the last three have one operand. -/
def instr {w : Width} (op1 op2 : BitVec w.bits) : AluOp → Instr
  | ADD => .ADD op1 op2
  | ADC => .ADC op1 op2
  | SUB => .SUB op1 op2
  | SBB => .SBB op1 op2
  | CMP => .CMP op1 op2
  | INC => .INC op1
  | DEC => .DEC op1
  | NEG => .NEG op1

/-- The exact result, with a carry coming in. -/
def exact (op1 op2 cf : ℤ) : AluOp → ℤ
  | ADD => op1 + op2
  | ADC => op1 + op2 + cf
  | SUB | CMP => op1 - op2
  | SBB => op1 - op2 - cf
  | INC => op1 + 1
  | DEC => op1 - 1
  | NEG => -op1

/-- The exact result, truncated. -/
def result (w : Width) (op1 op2 : BitVec w.bits) (cf : Bool) (op : AluOp) : BitVec w.bits :=
  BitVec.ofInt w.bits (op.exact op1.toNat op2.toNat cf.toNat)

/-- Increments and decrements leave the carry flag alone. -/
def keepsCarry (op : AluOp) : Bool := op = INC ∨ op = DEC

/-- The flags of the instruction. -/
def Flag (w : Width) (op1 op2 : BitVec w.bits) (cf : Bool) (op : AluOp) : CpuFlag → Prop
  | .CF =>
    if op.keepsCarry then cf = true
    else NotUnsigned w.bits (op.exact op1.toNat op2.toNat cf.toNat)
  | .PF => Even ((List.range 8).countP fun i => (op.result w op1 op2 cf).getLsbD i)
  | .AF => NotUnsigned 4 (op.exact (op1.toNat % 16 : ℕ) (op2.toNat % 16 : ℕ) cf.toNat)
  | .ZF => op.result w op1 op2 cf = 0
  | .SF => (op.result w op1 op2 cf).msb = true
  | .OF => NotSigned w.bits (op.exact op1.toInt op2.toInt cf.toNat)

end AluOp

/-! ## The jump conditions -/

def TFLG_B (c : Cpu) : Bool := truth (get_CF c)

def TFLG_BE (c : Cpu) : Bool := truth (get_CF c) || truth (get_ZF c)

def TFLG_L (c : Cpu) : Bool := truth (get_SF c) != truth (get_OF c)

def TFLG_LE (c : Cpu) : Bool := truth (get_ZF c) || (truth (get_SF c) != truth (get_OF c))

/-! ## Parity and zero -/

theorem even_countP_iff {α : Type} (p : α → Bool) (l : List α) :
    Even (l.countP p) ↔ (l.foldr (fun a b => p a ^^ b) false) = false := by
  induction l with
  | nil => simp
  | cons a l ih =>
    cases hp : p a
    · simp [hp, ih]
    · simp [hp, Nat.even_add_one, ih]

theorem truth_parityTable : parityTable.map truth =
    (List.range 256).map fun n => !(List.range 8).foldr (fun i b => n.testBit i ^^ b) false := by
  decide +kernel

/-- `parity_lookup` counts the bits of a byte. -/
theorem parity_lookup_iff (v : BitVec 8) :
    truth (parity_lookup v) = true ↔ Even ((List.range 8).countP fun i => v.getLsbD i) := by
  have hlen : parityTable.length = 256 := by simpa using congrArg List.length truth_parityTable
  have hentry : truth (parity_lookup v) = (parityTable.map truth)[v.toNat]?.getD false := by
    rw [parity_lookup, List.getD_eq_getElem _ _ (hlen ▸ v.isLt), List.getElem?_map,
      List.getElem?_eq_getElem (hlen ▸ v.isLt)]
    rfl
  rw [hentry, truth_parityTable, List.getElem?_map, List.getElem?_range v.isLt, even_countP_iff,
    Option.map_some, Option.getD_some, Bool.not_eq_true_eq_eq_false]
  rfl

variable {w : Width}

theorem bits_pos (w : Width) : 4 < w.bits := by
  cases w <;> decide

/-- The parity of a result is that of its low byte. -/
theorem parity_iff (x : BitVec w.bits) : truth (parity_lookup (x.setWidth 8)) = true ↔
    Even ((List.range 8).countP fun i => x.getLsbD i) := by
  rw [parity_lookup_iff]
  have hcount : ((List.range 8).countP fun i => (x.setWidth 8).getLsbD i) =
      (List.range 8).countP fun i => x.getLsbD i := by
    refine List.countP_congr fun i hi => ?_
    rw [BitVec.getLsbD_setWidth, decide_eq_true (List.mem_range.mp hi), Bool.true_and]
  rw [hcount]

/-! ## Sums and differences of two operands -/

section Dual

variable {op1 op2 : BitVec w.bits} {cf : Bool}

theorem add_carryIn_false (x : BitVec w.bits) : x + carryIn w false = x := by
  have hzero : carryIn w false = 0#w.bits := by cases w <;> rfl
  rw [hzero, BitVec.add_zero]

theorem adc_flag_iff (f : CpuFlag) :
    DualOps.DOP_ADC.flag w op1 op2 cf f = true ↔ AluOp.ADC.Flag w op1 op2 cf f := by
  have hresult : op1 + op2 + carryIn w cf = AluOp.ADC.result w op1 op2 cf := add_eq_ofInt
  cases f with
  | CF => exact decide_eq_true_iff.trans carry_iff.symm
  | PF =>
    rw [AluOp.Flag, ← hresult]
    exact parity_iff _
  | AF => exact add_adjust_iff (bits_pos w)
  | ZF =>
    rw [AluOp.Flag, ← hresult]
    exact decide_eq_true_iff
  | SF => rw [AluOp.Flag, ← hresult, DualOps.flag, DualOps.result]
  | OF => exact add_overflow_iff (by have := bits_pos w; omega)

theorem sbb_flag_iff (f : CpuFlag) :
    DualOps.DOP_SBB.flag w op1 op2 cf f = true ↔ AluOp.SBB.Flag w op1 op2 cf f := by
  have hresult : op1 - (op2 + carryIn w cf) = AluOp.SBB.result w op1 op2 cf := sub_eq_ofInt
  cases f with
  | CF => exact decide_eq_true_iff.trans borrow_iff.symm
  | PF =>
    rw [AluOp.Flag, ← hresult]
    exact parity_iff _
  | AF => exact sub_adjust_iff (bits_pos w)
  | ZF =>
    rw [AluOp.Flag, ← hresult]
    exact decide_eq_true_iff
  | SF => rw [AluOp.Flag, ← hresult, DualOps.flag, DualOps.result]
  | OF => exact sub_overflow_iff (by have := bits_pos w; omega)

/-- Without a carry the instructions are those with a clear one. -/
theorem add_flag_eq (f : CpuFlag) :
    DualOps.DOP_ADD.flag w op1 op2 cf f = DualOps.DOP_ADC.flag w op1 op2 false f := by
  cases f <;>
    simp only [DualOps.flag, DualOps.result, DualOps.carry, add_carryIn_false]
  all_goals exact decide_eq_decide.mpr Iff.rfl

theorem sub_flag_eq (f : CpuFlag) :
    DualOps.DOP_SUB.flag w op1 op2 cf f = DualOps.DOP_SBB.flag w op1 op2 false f := by
  cases f <;>
    simp only [DualOps.flag, DualOps.result, DualOps.carry, add_carryIn_false]
  all_goals exact decide_eq_decide.mpr Iff.rfl

theorem add_exact (f : CpuFlag) :
    AluOp.ADC.Flag w op1 op2 false f ↔ AluOp.ADD.Flag w op1 op2 cf f := by
  cases f <;>
    simp only [AluOp.Flag, AluOp.result, AluOp.exact, AluOp.keepsCarry, Bool.toNat_false,
      Nat.cast_zero, add_zero, reduceCtorEq, or_self, decide_false,
      Bool.false_eq_true, if_false]

theorem sub_exact {op : AluOp} (hop : op = .SUB ∨ op = .CMP) (f : CpuFlag) :
    AluOp.SBB.Flag w op1 op2 false f ↔ op.Flag w op1 op2 cf f := by
  rcases hop with rfl | rfl <;> cases f <;>
    simp only [AluOp.Flag, AluOp.result, AluOp.exact, AluOp.keepsCarry, Bool.toNat_false,
      Nat.cast_zero, sub_zero, reduceCtorEq, or_self, decide_false,
      Bool.false_eq_true, if_false]

end Dual

/-! ## One operand -/

section Single

variable {op1 : BitVec w.bits} {cf : Bool} {reg_flags : BitVec 32} {l : LazyFlags}

theorem low_four (x : BitVec w.bits) :
    x.setWidth 32 &&& 0x0f#32 = (x.setWidth 4).setWidth 32 := by
  refine BitVec.eq_of_toNat_eq ?_
  have hle : w.bits ≤ 32 := by cases w <;> decide
  have hlt : x.toNat < 2 ^ 32 := x.isLt.trans_le (Nat.pow_le_pow_right (by decide) hle)
  rw [BitVec.toNat_and, BitVec.toNat_setWidth, BitVec.toNat_setWidth, BitVec.toNat_setWidth,
    Nat.mod_eq_of_lt hlt]
  show x.toNat &&& 2 ^ 4 - 1 = _
  rw [Nat.and_two_pow_sub_one_eq_mod, Nat.mod_eq_of_lt (a := _ % _)]
  omega

/-- What the increments, decrements and negations record. -/
structure Recorded1 (l : LazyFlags) (type : FlagType) (op1 res : BitVec w.bits) : Prop where
  type : l.type = type
  var1 : l.lf_var1 w = op1
  res : l.lf_res w = res

theorem recorded1 {type : FlagType} {res : BitVec w.bits} :
    Recorded1 (record1 type op1 res l) type op1 res :=
  ⟨rfl, setWidth_store .., setWidth_store ..⟩

/-- The carry out of the low four bits of an increment. -/
theorem inc_adjust : ∀ y : BitVec 4, (y + 1).setWidth 32 = 0#32 ↔ NotUnsigned 4 (y.toNat + 1) := by
  decide

theorem dec_adjust : ∀ y : BitVec 4,
    (y - 1).setWidth 32 = 0x0f#32 ↔ NotUnsigned 4 (y.toNat - 1) := by
  decide

theorem neg_adjust : ∀ y : BitVec 4, (0 - y).setWidth 32 ≠ 0#32 ↔ NotUnsigned 4 (-y.toNat) := by
  decide

/-- The low four bits of an operand of a carry. -/
theorem toNat_low_four (x : BitVec w.bits) : ((x.setWidth 4).toNat : ℤ) = (x.toNat % 16 : ℕ) := by
  rw [BitVec.toNat_setWidth]

theorem setWidth_one_four : (1 : BitVec w.bits).setWidth 4 = 1 := by
  cases w <;> rfl

theorem ofInt_one : BitVec.ofInt w.bits 1 = 1 := by
  cases w <;> rfl

theorem flags_inc (h : Recorded1 l (t_INC w) op1 (op1 + 1)) {op2 : BitVec w.bits} (f : CpuFlag) :
    isSet (FillFlags ⟨reg_flags, l⟩).1 f = true ↔
      AluOp.INC.Flag w op1 op2 (isSet reg_flags .CF) f := by
  have hw := bits_pos w
  have hresult : op1 + 1 = AluOp.INC.result w op1 op2 (isSet reg_flags .CF) := by
    rw [AluOp.result, AluOp.exact, BitVec.ofInt_add, ofInt_toNat, ofInt_one]
  cases f <;>
    simp only [FillFlags, h.type, DOFLAG_SF_eq, DOFLAG_PF_eq, DOFLAG_ZF, isSet_SETFLAGBIT,
      lf_res_byte (w := w), h.res, reduceCtorEq, if_true, if_false, AluOp.Flag, ← hresult]
  case CF => exact Iff.rfl
  case PF => exact parity_iff _
  case AF =>
    rw [decide_eq_true_iff, low_four, BitVec.setWidth_add _ _ hw.le, setWidth_one_four,
      AluOp.exact, ← toNat_low_four]
    exact inc_adjust _
  case ZF => exact decide_eq_true_iff
  case OF =>
    rw [decide_eq_true_iff, sign_eq]
    exact add_one_overflow_iff (by omega)

theorem flags_dec (h : Recorded1 l (t_DEC w) op1 (op1 - 1)) {op2 : BitVec w.bits} (f : CpuFlag) :
    isSet (FillFlags ⟨reg_flags, l⟩).1 f = true ↔
      AluOp.DEC.Flag w op1 op2 (isSet reg_flags .CF) f := by
  have hw := bits_pos w
  have hresult : op1 - 1 = AluOp.DEC.result w op1 op2 (isSet reg_flags .CF) := by
    rw [AluOp.result, AluOp.exact, sub_eq_add_neg (op1.toNat : ℤ), BitVec.ofInt_add,
      BitVec.ofInt_neg, ofInt_toNat, ofInt_one, BitVec.sub_eq_add_neg]
  cases f <;>
    simp only [FillFlags, h.type, DOFLAG_SF_eq, DOFLAG_PF_eq, DOFLAG_ZF, isSet_SETFLAGBIT,
      lf_res_byte (w := w), h.res, reduceCtorEq, if_true, if_false, AluOp.Flag, ← hresult]
  case CF => exact Iff.rfl
  case PF => exact parity_iff _
  case AF =>
    rw [decide_eq_true_iff, low_four, setWidth_sub hw.le, setWidth_one_four, AluOp.exact,
      ← toNat_low_four]
    exact dec_adjust _
  case ZF => exact decide_eq_true_iff
  case OF =>
    rw [decide_eq_true_iff, sign_eq]
    exact sub_one_overflow_iff (by omega)

theorem flags_neg (h : Recorded1 l (t_NEG w) op1 (0 - op1)) {op2 : BitVec w.bits} (f : CpuFlag) :
    isSet (FillFlags ⟨reg_flags, l⟩).1 f = true ↔ AluOp.NEG.Flag w op1 op2 cf f := by
  have hw := bits_pos w
  have hresult : 0 - op1 = AluOp.NEG.result w op1 op2 cf := by
    rw [AluOp.result, AluOp.exact, BitVec.ofInt_neg, ofInt_toNat]
    exact BitVec.zero_sub op1
  cases f <;>
    simp only [FillFlags, h.type, DOFLAG_SF_eq, DOFLAG_PF_eq, DOFLAG_ZF, isSet_SETFLAGBIT,
      lf_res_byte (w := w), h.var1, h.res, reduceCtorEq, if_true, if_false, AluOp.Flag, ← hresult]
  case CF => exact decide_eq_true_iff.trans neg_borrow_iff.symm
  case PF => exact parity_iff _
  case AF =>
    have hzero : (0 : BitVec w.bits).setWidth 4 = 0 := by cases w <;> rfl
    rw [decide_eq_true_iff, low_four, setWidth_sub hw.le, hzero, AluOp.exact, ← toNat_low_four]
    exact neg_adjust _
  case ZF => exact decide_eq_true_iff
  case OF =>
    rw [decide_eq_true_iff, sign_eq]
    exact neg_overflow_iff (by omega)

end Single

/-! ## The instructions -/

variable {op1 op2 : BitVec w.bits} {c : Cpu}

/-- `FillFlags` gives the flags of the instruction. -/
theorem flags_alu (op : AluOp) (f : CpuFlag) :
    isSet (FillFlags ((op.instr op1 op2).record c)).1 f = true ↔
      op.Flag w op1 op2 (truth (get_CF c)) f := by
  cases op with
  | ADD =>
    rw [← add_exact, ← adc_flag_iff]
    exact Bool.eq_iff_iff.mp ((flags_add recorded2 f).trans (@add_flag_eq w op1 op2 false f))
  | ADC =>
    rw [← adc_flag_iff]
    exact Bool.eq_iff_iff.mp (flags_adc recorded2_oldcf rfl f)
  | SUB =>
    rw [← sub_exact (.inl rfl), ← sbb_flag_iff]
    exact Bool.eq_iff_iff.mp ((flags_sub (.inl rfl) recorded2 false f).trans (sub_flag_eq f))
  | SBB =>
    rw [← sbb_flag_iff]
    exact Bool.eq_iff_iff.mp (flags_sbb recorded2_oldcf rfl f)
  | CMP =>
    rw [← sub_exact (.inr rfl), ← sbb_flag_iff]
    exact Bool.eq_iff_iff.mp ((flags_sub (.inr rfl) recorded2 false f).trans (sub_flag_eq f))
  | INC =>
    have hcf : isSet (SETFLAGBIT .CF (truth (get_CF c)) c.reg_flags) .CF = truth (get_CF c) := by
      rw [isSet_SETFLAGBIT, if_pos rfl]
    have hrec : Recorded1 (record1 (t_INC w) op1 (op1 + 1) c.lflags) (t_INC w) op1 (op1 + 1) :=
      recorded1
    rw [← hcf]
    exact flags_inc hrec f
  | DEC =>
    have hcf : isSet (SETFLAGBIT .CF (truth (get_CF c)) c.reg_flags) .CF = truth (get_CF c) := by
      rw [isSet_SETFLAGBIT, if_pos rfl]
    have hrec : Recorded1 (record1 (t_DEC w) op1 (op1 - 1) c.lflags) (t_DEC w) op1 (op1 - 1) :=
      recorded1
    rw [← hcf]
    exact flags_dec hrec f
  | NEG => exact flags_neg recorded1 f

/-! ## The jumps after a comparison -/

/-- The getters read the flags of the difference. -/
theorem agrees_cmp : Agrees ((Instr.CMP op1 op2).record c) :=
  (Instr.agrees_record_iff (fun _ h => by cases h) c).mpr id

theorem getters_cmp {f : CpuFlag} : isSet (FillFlags ((Instr.CMP op1 op2).record c)).2.reg_flags f =
    DualOps.DOP_SUB.flag w op1 op2 false f :=
  flags_sub (.inr rfl) recorded2 false f

theorem TFLG_B_iff : TFLG_B ((Instr.CMP op1 op2).record c) = true ↔ op1.toNat < op2.toNat := by
  rw [TFLG_B, agrees_cmp.CF, getters_cmp]
  exact decide_eq_true_iff

theorem get_ZF_iff :
    truth (get_ZF ((Instr.CMP op1 op2).record c)) = true ↔ op1 = op2 := by
  rw [agrees_cmp.ZF, getters_cmp]
  refine decide_eq_true_iff.trans ⟨fun h => ?_, fun h => ?_⟩
  · rw [← BitVec.sub_add_cancel op1 op2, show op1 - op2 = 0#w.bits from h, BitVec.zero_add]
  · rw [h]
    exact BitVec.sub_self op2

theorem TFLG_L_iff : TFLG_L ((Instr.CMP op1 op2).record c) = true ↔ op1.toInt < op2.toInt := by
  have hw := bits_pos w
  rw [TFLG_L, agrees_cmp.SF, agrees_cmp.OF, getters_cmp, getters_cmp]
  exact sub_neg_iff (by omega)

theorem TFLG_BE_iff : TFLG_BE ((Instr.CMP op1 op2).record c) = true ↔ op1.toNat ≤ op2.toNat := by
  rw [TFLG_BE, Bool.or_eq_true, get_ZF_iff, ← BitVec.toNat_inj, Nat.le_iff_lt_or_eq]
  exact or_congr TFLG_B_iff Iff.rfl

theorem TFLG_LE_iff : TFLG_LE ((Instr.CMP op1 op2).record c) = true ↔ op1.toInt ≤ op2.toInt := by
  rw [TFLG_LE, Bool.or_eq_true, get_ZF_iff, ← BitVec.toInt_inj, le_iff_lt_or_eq, or_comm]
  exact or_congr TFLG_L_iff Iff.rfl

/-- **The flags are those of the exact instruction**, for every width, operand and carry, and
after a comparison the conditions of the jumps are the unsigned and the signed order. -/
theorem alu_flags_exact (w : Width) (op1 op2 : BitVec w.bits) (c : Cpu) :
    (∀ op : AluOp, ∀ f, isSet (FillFlags ((op.instr op1 op2).record c)).1 f = true ↔
      op.Flag w op1 op2 (truth (get_CF c)) f) ∧
    (TFLG_B ((Instr.CMP op1 op2).record c) = true ↔ op1.toNat < op2.toNat) ∧
    (TFLG_BE ((Instr.CMP op1 op2).record c) = true ↔ op1.toNat ≤ op2.toNat) ∧
    (TFLG_L ((Instr.CMP op1 op2).record c) = true ↔ op1.toInt < op2.toInt) ∧
    (TFLG_LE ((Instr.CMP op1 op2).record c) = true ↔ op1.toInt ≤ op2.toInt) :=
  ⟨flags_alu, TFLG_B_iff, TFLG_BE_iff, TFLG_L_iff, TFLG_LE_iff⟩

end AugraDosbox
