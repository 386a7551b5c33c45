import Mathlib.Data.List.GetD
import AugraDosbox.Cpu.LazyFlags

/-!
# Lazy and materialised flags

The getters, `FillFlags` and `FillFlagsNoCFOF` restate the same formulas.  They
agree on everything the macros record, with one exception: for `SHR` by one
`get_OF` compares the operand with `>` and `FillFlags` with `>=`.

* `agrees_record_iff` — the flags agree exactly when the instruction is not a
  `SHR` by one of an operand that is the sign bit alone.
* `shr_overflow_differs` — such a `SHR`.
-/

namespace AugraDosbox

open FlagType LazyFlags CpuFlag

/-! ## Bits of the flags register -/

section Bits

variable {reg_flags : BitVec 32} {f g : CpuFlag} {t : Bool}

theorem isSet_SETFLAGBIT :
    isSet (SETFLAGBIT f t reg_flags) g = if g = f then t else isSet reg_flags g := by
  cases f <;> cases g <;> cases t <;> simp [isSet, SETFLAGBIT, mask, bit]

theorem truth_and_twoPow {n i : ℕ} (x : BitVec n) (hi : i < n) :
    truth (x &&& BitVec.twoPow n i) = x.getLsbD i := by
  rw [BitVec.and_twoPow, truth]
  cases x.getLsbD i with
  | false => simp
  | true =>
    have : BitVec.twoPow n i ≠ 0 := by
      intro h
      have := congrArg (BitVec.getLsbD · i) h
      simp [hi] at this
    simpa using this

theorem truth_GETFLAG : truth (GETFLAG reg_flags f) = isSet reg_flags f :=
  truth_and_twoPow reg_flags (by cases f <;> decide)

/-- Clearing a flag and or-ing in its new value is `SETFLAGBIT`. -/
theorem clear_or_eq {x : BitVec 32} (hx : x = if t then f.mask else 0) :
    (reg_flags &&& ~~~f.mask) ||| x = SETFLAGBIT f t reg_flags := by
  subst hx
  cases t with
  | false => simp [SETFLAGBIT]
  | true =>
    ext i
    simp only [SETFLAGBIT, if_true, BitVec.getElem_or, BitVec.getElem_and, BitVec.getElem_not]
    cases f.mask[i] <;> simp

end Bits

/-! ## Bits of the operands -/

section Operands

variable {w : Width}

@[simp] theorem truth_setWidth (x : BitVec w.bits) : truth (x.setWidth 32) = truth x := by
  have hle : w.bits ≤ 32 := by cases w <;> decide
  have : x.setWidth 32 = 0 ↔ x = 0 := by
    constructor
    · intro h
      have := congrArg (BitVec.setWidth w.bits) h
      simpa [BitVec.setWidth_setWidth_of_le _ hle] using this
    · rintro rfl
      simp
  simp only [truth, bne, beq_eq_decide, this]

@[simp] theorem truth_ofCond (p : Prop) [Decidable p] : truth (ofCond p) = decide p := by
  by_cases h : p <;> simp [ofCond, truth, h]

theorem truth_ne (x : BitVec w.bits) : decide (x ≠ 0) = truth x := by
  simp [truth, bne, beq_eq_decide]

@[simp] theorem truth_zero {n : ℕ} : truth (0 : BitVec n) = false := by simp [truth]

theorem sign_eq : w.sign = BitVec.twoPow w.bits (w.bits - 1) := by
  cases w <;> rfl

@[simp] theorem truth_and_sign (x : BitVec w.bits) : truth (x &&& w.sign) = x.msb := by
  have hpos : 0 < w.bits := by cases w <;> decide
  rw [sign_eq, truth_and_twoPow x (by omega), BitVec.msb_eq_getLsbD_last]

@[simp] theorem msb_sign : w.sign.msb = true := by
  cases w <;> rfl

variable {l : LazyFlags} {reg_flags : BitVec 32}

/-- Bit 4 is the same whichever part of the registers it is read from. -/
theorem truth_adjust (w : Width) :
    truth (((l.lf_var1 w ^^^ l.lf_var2 w) ^^^ l.lf_res w).setWidth 32 &&& 0x10) =
      (l.var1 ^^^ l.var2 ^^^ l.res).getLsbD 4 := by
  rw [show (0x10 : BitVec 32) = BitVec.twoPow 32 4 from rfl, truth_and_twoPow _ (by decide)]
  rw [BitVec.getLsbD_setWidth]
  simp only [BitVec.getLsbD_xor, lf_var1, lf_var2, lf_res, BitVec.getLsbD_setWidth]
  have hw : 4 < w.bits := by cases w <;> decide
  simp [hw]

theorem DOFLAG_AF_eq (w : Width) : DOFLAG_AF l reg_flags = SETFLAGBIT .AF
    (truth (((l.lf_var1 w ^^^ l.lf_var2 w) ^^^ l.lf_res w).setWidth 32 &&& 0x10)) reg_flags := by
  refine clear_or_eq ?_
  rw [truth_adjust, ← truth_adjust .byte, show (0x10 : BitVec 32) = BitVec.twoPow 32 4 from rfl,
    truth_and_twoPow _ (by decide), BitVec.and_twoPow]
  rfl

/-- `DOFLAG_AF` sets what `get_AF` reads, at every width. -/
theorem isSet_DOFLAG_AF :
    isSet (DOFLAG_AF l reg_flags) .AF = (l.var1 ^^^ l.var2 ^^^ l.res).getLsbD 4 := by
  rw [DOFLAG_AF_eq .dword, isSet_SETFLAGBIT, if_pos rfl, truth_adjust]

theorem DOFLAG_SF_eq : DOFLAG_SF w l reg_flags = SETFLAGBIT .SF (l.lf_res w).msb reg_flags := by
  refine clear_or_eq ?_
  rw [sign_eq, BitVec.and_twoPow, BitVec.msb_eq_getLsbD_last]
  cases (l.lf_res w).getLsbD (w.bits - 1) with
  | false => simp
  | true => cases w <;> rfl

theorem mem_parityRow {p q x : BitVec 32} (h : x ∈ parityRow p q) : x = p ∨ x = q := by
  simp only [parityRow, List.mem_cons, List.not_mem_nil, or_false] at h
  tauto

theorem parity_lookup_eq (v : BitVec 8) : parity_lookup v = CpuFlag.PF.mask ∨ parity_lookup v = 0 := by
  have hall : ∀ x ∈ parityTable, x = CpuFlag.PF.mask ∨ x = 0 := by
    intro x hx
    have heven := mem_parityRow (p := CpuFlag.PF.mask) (q := 0) (x := x)
    have hodd := mem_parityRow (p := 0) (q := CpuFlag.PF.mask) (x := x)
    simp only [parityTable, List.mem_append] at hx
    tauto
  by_cases hv : v.toNat < parityTable.length
  · rw [parity_lookup, List.getD_eq_getElem _ _ hv]
    exact hall _ (List.getElem_mem _)
  · right
    rw [parity_lookup, List.getD_eq_default _ _ (by omega)]

theorem DOFLAG_PF_eq : DOFLAG_PF l reg_flags =
    SETFLAGBIT .PF (truth (parity_lookup (l.lf_res .byte))) reg_flags := by
  refine clear_or_eq ?_
  rcases parity_lookup_eq (l.lf_res .byte) with h | h <;> rw [h] <;> rfl

end Operands

/-! ## CpuFlag by flag -/

/-- The kinds that the macros record. -/
def FlagType.Recorded : FlagType → Prop
  | t_UNKNOWN | t_ROL _ | t_ROR _ | t_RCL _ | t_RCR _ | t_MUL | t_DIV | t_NOTDONE => False
  | _ => True

/-- The kinds of the double shifts. -/
def FlagType.DoubleShift : FlagType → Prop
  | t_DSHLw | t_DSHLd | t_DSHRw | t_DSHRd => True
  | _ => False

section Flags

variable {c : Cpu}

theorem CF_agrees (h : c.lflags.type.Recorded) :
    truth (get_CF c) = isSet (FillFlags c).2.reg_flags .CF := by
  rcases c with ⟨r, l⟩
  cases ht : l.type <;> simp only [ht, FlagType.Recorded] at h <;>
    simp only [get_CF, FillFlags, ht, DOFLAG_AF_eq .dword, DOFLAG_SF_eq, DOFLAG_PF_eq, DOFLAG_ZF,
      isSet_SETFLAGBIT, truth_GETFLAG, truth_ofCond, truth_setWidth, truth_zero, truth_ne, reduceCtorEq, if_true,
      if_false]

theorem ZF_agrees (h : c.lflags.type.Recorded) :
    truth (get_ZF c) = isSet (FillFlags c).2.reg_flags .ZF := by
  rcases c with ⟨r, l⟩
  cases ht : l.type <;> simp only [ht, FlagType.Recorded] at h <;>
    simp only [get_ZF, FillFlags, ht, DOFLAG_SF_eq, DOFLAG_PF_eq, DOFLAG_ZF, isSet_SETFLAGBIT,
      truth_ofCond, reduceCtorEq, if_true, if_false]

theorem SF_agrees (h : c.lflags.type.Recorded) :
    truth (get_SF c) = isSet (FillFlags c).2.reg_flags .SF := by
  rcases c with ⟨r, l⟩
  cases ht : l.type <;> simp only [ht, FlagType.Recorded] at h <;>
    simp only [get_SF, FillFlags, ht, DOFLAG_SF_eq, DOFLAG_PF_eq, isSet_SETFLAGBIT,
      truth_setWidth, truth_and_sign, reduceCtorEq, if_true, if_false]

theorem PF_agrees (h : c.lflags.type.Recorded) :
    truth (get_PF c) = isSet (FillFlags c).2.reg_flags .PF := by
  rcases c with ⟨r, l⟩
  cases ht : l.type <;> simp only [ht, FlagType.Recorded] at h <;>
    simp only [get_PF, FillFlags, ht, DOFLAG_PF_eq, isSet_SETFLAGBIT, reduceCtorEq, if_true, if_false]

/-- The low four bits of a number and of its negation are 0 together. -/
theorem neg_low_bits {w : Width} (x : BitVec w.bits) :
    (-x).setWidth 32 &&& 0x0f#32 = 0 ↔ x.setWidth 32 &&& 0x0f#32 = 0 := by
  have hlow : ∀ y : BitVec w.bits, y.setWidth 32 &&& 0x0f#32 = 0 ↔ y.toNat % 16 = 0 := by
    intro y
    have hy : y.toNat < 2 ^ 32 :=
      y.isLt.trans_le (Nat.pow_le_pow_right (by decide) (by cases w <;> decide))
    rw [← BitVec.toNat_inj, BitVec.toNat_and, BitVec.toNat_setWidth, Nat.mod_eq_of_lt hy,
      show (0x0f#32).toNat = 2 ^ 4 - 1 from rfl, Nat.and_two_pow_sub_one_eq_mod]
    rfl
  rw [hlow, hlow, BitVec.toNat_neg]
  have hx := x.isLt
  cases w <;> simp only [Width.bits] at hx ⊢ <;> omega

/-- The masked shift count is the same whichever part of `var2` it is read from. -/
theorem masked_count {w : Width} (l : LazyFlags) :
    (l.lf_var2 w).setWidth 32 &&& 0x1f#32 = 1#32 ↔ l.lf_var2b &&& 0x1f = 1 := by
  have hmask : ∀ n : ℕ, n &&& 31 = n % 2 ^ 5 := fun n => Nat.and_two_pow_sub_one_eq_mod n 5
  have h8 : (l.lf_var2b &&& 0x1f).toNat = l.var2.toNat % 32 := by
    have hv : l.lf_var2b.toNat = l.var2.toNat % 2 ^ 8 := BitVec.toNat_setWidth ..
    rw [BitVec.toNat_and, hv, show BitVec.toNat (0x1f : BitVec 8) = 31 from rfl, hmask]
    exact Nat.mod_mod_of_dvd _ (by decide)
  have hw : ((l.lf_var2 w).setWidth 32 &&& 0x1f#32).toNat = l.var2.toNat % 32 := by
    rw [BitVec.toNat_and, lf_var2, BitVec.toNat_setWidth, BitVec.toNat_setWidth,
      show BitVec.toNat 0x1f#32 = 31 from rfl, hmask]
    rw [Nat.mod_mod_of_dvd _ (by decide), Nat.mod_mod_of_dvd _ (by cases w <;> decide)]
    rfl
  rw [← BitVec.toNat_inj, ← BitVec.toNat_inj, h8, hw]
  rfl

theorem AF_agrees (h : c.lflags.type.Recorded) (hd : ¬ c.lflags.type.DoubleShift)
    (hneg : ∀ w, c.lflags.type = t_NEG w → c.lflags.lf_res w = -c.lflags.lf_var1 w) :
    truth (get_AF c) = isSet (FillFlags c).2.reg_flags .AF := by
  rcases c with ⟨r, l⟩
  cases ht : l.type <;> simp only [ht, FlagType.Recorded] at h <;>
    simp only [ht, FlagType.DoubleShift, not_true, not_false_eq_true] at hd <;>
    simp only [get_AF, FillFlags, ht, DOFLAG_SF_eq, DOFLAG_PF_eq, DOFLAG_ZF, isSet_SETFLAGBIT,
      truth_ofCond, truth_zero, truth_adjust, isSet_DOFLAG_AF, reduceCtorEq, if_true, if_false]
  case t_NEG w =>
    rw [show l.lf_res w = -l.lf_var1 w from hneg w ht, decide_not, truth, bne, beq_eq_decide]
    simp only [neg_low_bits]
    rfl

/-- The operand of a `SHR` by one is the sign bit alone. -/
def LazyFlags.SignShift (l : LazyFlags) : Prop :=
  ∃ w, l.type = t_SHR w ∧ l.lf_var2b &&& 0x1f = 1 ∧ l.lf_var1 w = w.sign

/-- With operands of one sign it does not matter which of them the result is
compared with. -/
theorem overflow_swap (a b r : Bool) :
    ((a ^^ b ^^ true) && (r ^^ b)) = ((a ^^ b ^^ true) && (r ^^ a)) := by
  revert a b r
  decide

/-- The two comparisons of the source differ on the sign bit alone. -/
theorem SHR_agrees_iff {w : Width} (l : LazyFlags) :
    truth (if l.lf_var2b &&& 0x1f = 1 then ofCond (w.sign < l.lf_var1 w) else 0) =
      decide ((l.lf_var2 w).setWidth 32 &&& 0x1f#32 = 1#32 ∧ w.sign ≤ l.lf_var1 w) ↔
    ¬ (l.lf_var2b &&& 0x1f = 1 ∧ l.lf_var1 w = w.sign) := by
  simp only [masked_count]
  by_cases hc : l.lf_var2b &&& 0x1f = 1
  · simp only [hc, if_true, true_and, truth_ofCond, decide_eq_decide, BitVec.lt_def, BitVec.le_def,
      ← BitVec.toNat_inj]
    omega
  · simp only [hc, if_false, false_and, truth_zero, decide_false, not_false_eq_true]

theorem OF_agrees_iff (h : c.lflags.type.Recorded) :
    truth (get_OF c) = isSet (FillFlags c).2.reg_flags .OF ↔ ¬ c.lflags.SignShift := by
  rcases c with ⟨r, l⟩
  cases ht : l.type <;> simp only [ht, FlagType.Recorded] at h <;>
    simp only [get_OF, FillFlags, ht, DOFLAG_PF_eq, LazyFlags.SignShift, isSet_SETFLAGBIT,
      truth_ofCond, truth_zero, truth_setWidth, truth_and_sign, BitVec.msb_and, BitVec.msb_xor,
      msb_sign, reduceCtorEq, if_true, if_false, false_and, exists_false, not_false_eq_true]
  case t_ADD w => exact iff_true_intro (overflow_swap ..)
  case t_ADC w => exact iff_true_intro (overflow_swap ..)
  case t_SHR w =>
    rw [SHR_agrees_iff]
    refine not_congr ⟨fun hs => ⟨w, rfl, hs⟩, ?_⟩
    rintro ⟨w', hw, hs⟩
    cases hw
    exact hs

/-- `FillFlagsNoCFOF` sets what `FillFlags` sets. -/
theorem NoCFOF_agrees (h : c.lflags.type.Recorded) {f : CpuFlag} (hf : f ≠ .CF ∧ f ≠ .OF) :
    isSet (FillFlagsNoCFOF c).reg_flags f = isSet (FillFlags c).2.reg_flags f := by
  rcases c with ⟨r, l⟩
  obtain ⟨hcf, hof⟩ := hf
  cases ht : l.type <;> simp only [ht, FlagType.Recorded] at h <;>
    simp only [FillFlagsNoCFOF, FillFlags, ht, DOFLAG_AF_eq .dword, DOFLAG_SF_eq, DOFLAG_PF_eq,
      DOFLAG_ZF, isSet_SETFLAGBIT, hcf, hof, if_false]

end Flags

/-! ## Every instruction -/

/-- The getters, `FillFlags` and `FillFlagsNoCFOF` give the same flags; the double
shifts leave AF out. -/
structure Agrees (c : Cpu) : Prop where
  CF : truth (get_CF c) = isSet (FillFlags c).2.reg_flags .CF
  ZF : truth (get_ZF c) = isSet (FillFlags c).2.reg_flags .ZF
  SF : truth (get_SF c) = isSet (FillFlags c).2.reg_flags .SF
  OF : truth (get_OF c) = isSet (FillFlags c).2.reg_flags .OF
  PF : truth (get_PF c) = isSet (FillFlags c).2.reg_flags .PF
  AF : ¬ c.lflags.type.DoubleShift → truth (get_AF c) = isSet (FillFlags c).2.reg_flags .AF
  noCFOF : ∀ f, f ≠ .CF ∧ f ≠ .OF →
    isSet (FillFlagsNoCFOF c).reg_flags f = isSet (FillFlags c).2.reg_flags f

/-- The state after a `NEG` has the negated operand as its result. -/
theorem agrees_iff {c : Cpu} (h : c.lflags.type.Recorded)
    (hneg : ∀ w, c.lflags.type = t_NEG w → c.lflags.lf_res w = -c.lflags.lf_var1 w) :
    Agrees c ↔ ¬ c.lflags.SignShift :=
  ⟨fun ha => (OF_agrees_iff h).1 ha.OF, fun hs => ⟨CF_agrees h, ZF_agrees h, SF_agrees h,
    (OF_agrees_iff h).2 hs, PF_agrees h, fun hd => AF_agrees h hd hneg,
    fun _ hf => NoCFOF_agrees h hf⟩⟩

theorem setWidth_store {w : Width} (reg : BitVec 32) (v : BitVec w.bits) :
    (store reg v).setWidth w.bits = v := by
  have hle : w.bits ≤ 32 := by cases w <;> decide
  ext i hi
  simp [store, hi, BitVec.getLsbD_setWidth]
  omega

namespace Instr

/-- The shift count, if there is one, is not 0 once masked. -/
def Counts (i : Instr) : Prop := ∀ v, i.val = some v → v ≠ 0

/-- A `SHR` by one of the sign bit alone. -/
def SignShift : Instr → Prop
  | @SHR w op1 count => count &&& 0x1f = 1 ∧ op1 = w.sign
  | _ => False

/-- The kind that an instruction records. -/
def type : Instr → FlagType
  | @ADD w _ _ => t_ADD w
  | @ADC w _ _ => t_ADC w
  | @SBB w _ _ => t_SBB w
  | @SUB w _ _ => t_SUB w
  | @OR w _ _ => t_OR w
  | @XOR w _ _ => t_XOR w
  | @AND w _ _ => t_AND w
  | @CMP w _ _ => t_CMP w
  | @TEST w _ _ => t_TEST w
  | @INC w _ => t_INC w
  | @DEC w _ => t_DEC w
  | @NEG w _ => t_NEG w
  | @SHL w _ _ => t_SHL w
  | @SHR w _ _ => t_SHR w
  | @SAR w _ _ => t_SAR w
  | DSHLW _ _ _ => t_DSHLw
  | DSHLD _ _ _ => t_DSHLd
  | DSHRW _ _ _ => t_DSHRw
  | DSHRD _ _ _ => t_DSHRd

variable {i : Instr}

theorem type_record (hi : i.Counts) (c : Cpu) :
    (i.record c).lflags.type = i.type := by
  cases i <;>
    simp only [Counts, val, Option.some.injEq, forall_eq', ne_eq, reduceCtorEq, false_implies,
      implies_true] at hi <;>
    simp only [record, hi, if_false, record1, record2, recordShift, type]

theorem recorded_record (hi : i.Counts) (c : Cpu) :
    (i.record c).lflags.type.Recorded := by
  rw [type_record hi]
  cases i <;> exact trivial

theorem neg_record (hi : i.Counts) (c : Cpu) (w : Width) (ht : (i.record c).lflags.type = t_NEG w) :
    (i.record c).lflags.lf_res w = -(i.record c).lflags.lf_var1 w := by
  rw [type_record hi] at ht
  cases i <;> cases ht
  simp only [record, record1, lf_res, lf_var1, setWidth_store]
  exact BitVec.zero_sub _

theorem record_SHR {w : Width} {op1 : BitVec w.bits} {count : BitVec 8}
    (hi : (SHR op1 count).Counts) (c : Cpu) :
    ((SHR op1 count).record c).lflags.lf_var2b &&& 0x1f = count &&& 0x1f ∧
      ((SHR op1 count).record c).lflags.lf_var1 w = op1 := by
  have hne : ¬ count &&& 0x1f = 0 := hi _ rfl
  constructor
  · have hv : ((SHR op1 count).record c).lflags.lf_var2b = count &&& 0x1f := by
      simp only [record, hne, if_false, recordShift]
      exact setWidth_store (w := .byte) _ _
    rw [hv, BitVec.and_assoc]
    rfl
  · simp only [record, hne, if_false, recordShift, lf_var1, setWidth_store]

theorem signShift_record (hi : i.Counts) (c : Cpu) :
    (i.record c).lflags.SignShift ↔ i.SignShift := by
  constructor
  · rintro ⟨w, ht, hc, hs⟩
    rw [type_record hi] at ht
    cases i <;> cases ht
    obtain ⟨h1, h2⟩ := record_SHR hi c
    rw [h1] at hc
    rw [h2] at hs
    exact ⟨hc, hs⟩
  · intro hs
    cases i <;> first | exact hs.elim | skip
    obtain ⟨h1, h2⟩ := record_SHR hi c
    exact ⟨_, type_record hi c, h1.trans hs.1, h2.trans hs.2⟩

/-- **The flags agree exactly when the instruction is not a `SHR` by one of the
sign bit alone.** -/
theorem agrees_record_iff {i : Instr} (hi : i.Counts) (c : Cpu) :
    Agrees (i.record c) ↔ ¬ i.SignShift := by
  rw [agrees_iff (recorded_record hi c) (neg_record hi c), signShift_record hi]

/-- An `ADD` of two bytes with signed overflow. -/
theorem agrees_record_add :
    Agrees ((ADD (w := .byte) 0x7f#8 0x01#8).record ⟨0, {}⟩) ∧
      isSet (FillFlags ((ADD (w := .byte) 0x7f#8 0x01#8).record ⟨0, {}⟩)).2.reg_flags .OF = true :=
  ⟨(agrees_record_iff (fun _ h => by cases h) _).2 id, by decide⟩

/-- **A `SHR` on which the flags differ**: for `SHR AL,1` with `AL = 0x80` a
conditional jump sees OF clear, and `PUSHF` stores it set. -/
theorem shr_overflow_differs :
    (SHR (w := .byte) 0x80#8 1).Counts ∧ ¬ Agrees ((SHR (w := .byte) 0x80#8 1).record ⟨0, {}⟩) := by
  refine ⟨fun v h => ?_, fun ha => ?_⟩
  · cases h
    decide
  · have := ha.OF
    revert this
    decide

end Instr

end AugraDosbox
