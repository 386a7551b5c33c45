import AugraDosbox.Cpu.DynrecAgree

/-!
# Divisions by the guest

The macros `DIVB`, `DIVW`, `DIVD`, `IDIVB`, `IDIVW` and `IDIVD` of `src/cpu/instructions.h`.

* `DivMacro.Right` — the exception is raised exactly when there is no quotient for the
  destination, the registers are then as before, and otherwise quotient and remainder are those
  of a truncating division, none of it undefined on the host;
* **`DivMacro.right_iff`** — that is so but for the lowest dividend of `IDIVW` and `IDIVD` and
  the divisor -1.
-/

namespace AugraDosbox.Dynrec

variable {m : Machine} {w : Width}

/-! ## What a division leaves -/

/-- `reg_al`, `reg_ax` or `reg_eax`. -/
def Machine.quotient (w : Width) (m : Machine) : BitVec w.bits := m.eax.setWidth w.bits

/-- `reg_ah`, `reg_dx` or `reg_edx`. -/
def Machine.remainder (w : Width) (m : Machine) : BitVec w.bits :=
  match w with
  | .byte => m.eax.extractLsb' 8 8
  | .word => m.edx.setWidth 16
  | .dword => m.edx

theorem setWidth_store_byte (reg : BitVec 32) (v : BitVec 16) :
    (store (w := .word) reg v).setWidth 8 = v.setWidth 8 := by
  have hword : (store (w := .word) reg v).setWidth 16 = v := setWidth_store (w := .word) reg v
  calc (store (w := .word) reg v).setWidth 8
      = ((store (w := .word) reg v).setWidth 16).setWidth 8 :=
        (BitVec.setWidth_setWidth_of_le _ (by decide)).symm
    _ = v.setWidth 8 := by rw [hword]

theorem high_store_byte (reg : BitVec 32) (v : BitVec 16) :
    (store (w := .word) reg v).extractLsb' 8 8 = v.extractLsb' 8 8 := by
  have hword : (store (w := .word) reg v).setWidth 16 = v := setWidth_store (w := .word) reg v
  generalize store (w := .word) reg v = x at hword
  rw [← hword]
  ext i hi
  simp [show 8 + i < 16 by omega]

theorem low_of_halves (lo hi : BitVec 8) :
    ((hi.setWidth 16 <<< 8) ||| lo.setWidth 16).setWidth 8 = lo := by
  ext i hi
  simp

theorem high_of_halves (lo hi : BitVec 8) :
    ((hi.setWidth 16 <<< 8) ||| lo.setWidth 16).extractLsb' 8 8 = hi := by
  ext i h
  simp [h, show 8 + i < 16 by omega]

theorem quotient_setPair (lo hi : BitVec w.bits) (cpu : Cpu) :
    Machine.quotient w { m.setPair w lo hi with cpu } = lo := by
  cases w with
  | byte => exact (setWidth_store_byte ..).trans (low_of_halves lo hi)
  | word => exact setWidth_store (w := .word) m.eax lo
  | dword => exact BitVec.setWidth_eq lo

theorem remainder_setPair (lo hi : BitVec w.bits) (cpu : Cpu) :
    Machine.remainder w { m.setPair w lo hi with cpu } = hi := by
  cases w with
  | byte => exact (high_store_byte ..).trans (high_of_halves lo hi)
  | word => exact setWidth_store (w := .word) m.edx hi
  | dword => rfl

/-! ## Numbers of the destination -/

variable {n : ℕ}

theorem toNat_ofNat_eq_iff {quo : ℕ} : (BitVec.ofNat n quo).toNat = quo ↔ quo < 2 ^ n := by
  rw [BitVec.toNat_ofNat]
  exact ⟨fun h => h ▸ Nat.mod_lt _ (Nat.two_pow_pos n), Nat.mod_eq_of_lt⟩

theorem toInt_ofInt_eq_iff (hn : 0 < n) {quo : ℤ} :
    (BitVec.ofInt n quo).toInt = quo ↔ -2 ^ (n - 1) ≤ quo ∧ quo < 2 ^ (n - 1) := by
  constructor
  · intro h
    rw [← h]
    exact ⟨BitVec.le_toInt _, BitVec.toInt_lt⟩
  · rintro ⟨hlo, hhi⟩
    exact BitVec.toInt_ofInt_eq_self hn hlo hhi

/-- The remainder of a truncating division is smaller than the divisor. -/
theorem tmod_lt (num : ℤ) {val : ℤ} (hval : val ≠ 0) : |num.tmod val| < |val| := by
  rw [Int.abs_eq_natAbs, Int.abs_eq_natAbs, Int.natAbs_tmod]
  exact_mod_cast Nat.mod_lt _ (Int.natAbs_pos.mpr hval)

theorem tmod_sign (num val : ℤ) : num.tmod val = 0 ∨ (num.tmod val).sign = num.sign := by
  rw [Int.sign_tmod, ← Int.sign_eq_zero_iff_zero, Int.sign_tmod]
  split
  · exact .inl rfl
  · exact .inr rfl

theorem tmod_fits {num : ℤ} {val : BitVec n} (hval : val.toInt ≠ 0) :
    -2 ^ (n - 1) ≤ num.tmod val.toInt ∧ num.tmod val.toInt < 2 ^ (n - 1) := by
  have hlo : -2 ^ (n - 1) ≤ val.toInt := BitVec.le_toInt _
  have hhi : val.toInt < 2 ^ (n - 1) := BitVec.toInt_lt
  have hrem : |num.tmod val.toInt| < 2 ^ (n - 1) :=
    (tmod_lt num hval).trans_le (abs_le.mpr ⟨hlo, hhi.le⟩)
  exact ⟨(abs_lt.mp hrem).1.le, (abs_lt.mp hrem).2⟩

/-! ## The six macros -/

/-- `DIVB`, `DIVW`, `DIVD`, `IDIVB`, `IDIVW` or `IDIVD`. -/
structure DivMacro where
  signed : Bool
  w : Width
deriving DecidableEq

namespace DivMacro

variable (d : DivMacro)

def run (op1 : BitVec d.w.bits) (m : Machine) : Division :=
  if d.signed then NormalCore.IDIV d.w op1 m else NormalCore.DIV d.w op1 m

/-- The number that a register or a pair of registers stands for. -/
def value {n : ℕ} (x : BitVec n) : ℤ := if d.signed then x.toInt else x.toNat

/-- The destination holds the quotient. -/
def Fits (quo : ℤ) : Prop :=
  if d.signed then -2 ^ (d.w.bits - 1) ≤ quo ∧ quo < 2 ^ (d.w.bits - 1)
  else 0 ≤ quo ∧ quo < 2 ^ d.w.bits

/-- The division by `val` that has taken `m` to `m'` is one of the numbers. -/
structure Divided (val : BitVec d.w.bits) (m m' : Machine) : Prop where
  equation : d.value (m.pair d.w) =
    d.value (m'.quotient d.w) * d.value val + d.value (m'.remainder d.w)
  smaller : |d.value (m'.remainder d.w)| < |d.value val|
  sign : d.value (m'.remainder d.w) = 0 ∨
    (d.value (m'.remainder d.w)).sign = (d.value (m.pair d.w)).sign

/-- What the guest is promised: the exception, with no register changed, exactly when there is
no quotient for the destination; else quotient and remainder.  The host's divisions are all
defined. -/
def Right (val : BitVec d.w.bits) (m : Machine) : Prop :=
  ∃ m' done, d.run val m = some (m', done) ∧
    (done = false ↔ d.value val = 0 ∨
      ¬ d.Fits ((d.value (m.pair d.w)).tdiv (d.value val))) ∧
    (done = false → m' = m) ∧ (done = true → d.Divided val m m')

end DivMacro

/-- Quotient and remainder in the registers are a division when they are those of the numbers. -/
theorem DivMacro.Divided.of_tdiv {d : DivMacro} {val : BitVec d.w.bits} {m' : Machine}
    (hval : d.value val ≠ 0)
    (hquo : d.value (m'.quotient d.w) = (d.value (m.pair d.w)).tdiv (d.value val))
    (hrem : d.value (m'.remainder d.w) = (d.value (m.pair d.w)).tmod (d.value val)) :
    d.Divided val m m' := by
  refine ⟨?_, ?_, ?_⟩
  · rw [hquo, hrem]
    exact (Int.tdiv_mul_add_tmod _ _).symm
  · rw [hrem]
    exact tmod_lt _ hval
  · rw [hrem]
    exact tmod_sign _ _

theorem value_unsigned (x : BitVec n) : DivMacro.value ⟨false, w⟩ x = x.toNat := rfl

theorem value_signed (x : BitVec n) : DivMacro.value ⟨true, w⟩ x = x.toInt := rfl

/-! ## Unsigned -/

theorem div_right (op : BitVec w.bits) (m : Machine) : DivMacro.Right ⟨false, w⟩ op m := by
  have hquo : ((m.pair w).toNat : ℤ).tdiv op.toNat = ((m.pair w).toNat / op.toNat : ℕ) :=
    (Int.ofNat_tdiv _ _).symm
  simp only [DivMacro.Right, DivMacro.run, value_unsigned, DivMacro.Fits, NormalCore.DIV,
    divide, Bool.false_eq_true, if_false]
  by_cases hval : op.toNat = 0
  · rw [if_pos hval]
    exact ⟨m, false, rfl, by simp [hval], fun _ => rfl, fun h => absurd h (by decide)⟩
  · rw [if_neg hval]
    by_cases hfits : (m.pair w).toNat / op.toNat < 2 ^ w.bits
    · have hquo' := toNat_ofNat_eq_iff.mpr hfits
      rw [if_neg (not_not_intro hquo'.symm)]
      refine ⟨_, true, rfl, ?_, fun h => absurd h (by decide), fun _ => .of_tdiv ?_ ?_ ?_⟩
      · rw [hquo]
        norm_cast
        simp [hval, hfits]
      · rw [value_unsigned]
        exact_mod_cast hval
      · rw [quotient_setPair, value_unsigned, value_unsigned, value_unsigned, hquo', hquo]
      · have hrem : (m.pair w).toNat % op.toNat < 2 ^ w.bits :=
          (Nat.mod_lt _ (Nat.pos_of_ne_zero hval)).trans op.isLt
        rw [remainder_setPair, value_unsigned, value_unsigned, value_unsigned,
          toNat_ofNat_eq_iff.mpr hrem]
        exact (Int.ofNat_tmod _ _).symm
    · rw [if_pos fun h => hfits (toNat_ofNat_eq_iff.mp h.symm)]
      refine ⟨m, false, rfl, ?_, fun _ => rfl, fun h => absurd h (by decide)⟩
      rw [hquo]
      norm_cast
      simp [hfits]

/-! ## Signed -/

/-- A signed division that is defined on the host is right. -/
theorem idivide_right {hostBits : ℕ} {op : BitVec w.bits} (h : idivide hostBits w op m ≠ none)
    (hrun : DivMacro.run ⟨true, w⟩ op m = idivide hostBits w op m) :
    DivMacro.Right ⟨true, w⟩ op m := by
  have hbits : 0 < w.bits := by cases w <;> decide
  simp only [DivMacro.Right, hrun, value_signed, DivMacro.Fits, if_true]
  rw [Ne, idivide_eq_none_iff, not_and] at h
  unfold idivide
  by_cases hval : op.toInt = 0
  · simp only [if_pos hval]
    exact ⟨m, false, rfl, by simp [hval], fun _ => rfl, nofun⟩
  · simp only [if_neg hval, if_neg (h hval)]
    by_cases hfits : (BitVec.ofInt w.bits ((m.pair w).toInt.tdiv op.toInt)).toInt =
        (m.pair w).toInt.tdiv op.toInt
    · rw [if_neg (not_not_intro hfits.symm)]
      refine ⟨_, true, rfl, ?_, nofun, fun _ => .of_tdiv hval ?_ ?_⟩
      · simp [hval, (toInt_ofInt_eq_iff hbits).mp hfits]
      · rw [quotient_setPair, value_signed, value_signed, value_signed, hfits]
      · rw [remainder_setPair, value_signed, value_signed, value_signed]
        exact (toInt_ofInt_eq_iff hbits).mpr (tmod_fits hval)
    · rw [if_pos fun h => hfits h.symm]
      exact ⟨m, false, rfl, iff_of_true rfl (.inr fun h => hfits ((toInt_ofInt_eq_iff hbits).mpr h)),
        fun _ => rfl, nofun⟩

theorem not_right_of_none {d : DivMacro} {op : BitVec d.w.bits} (h : d.run op m = none) :
    ¬ d.Right op m := by
  rintro ⟨m', done, hrun, -⟩
  rw [h] at hrun
  cases hrun

theorem idivide_right_iff {hostBits : ℕ} {op : BitVec w.bits}
    (hrun : DivMacro.run ⟨true, w⟩ op m = idivide hostBits w op m) :
    DivMacro.Right ⟨true, w⟩ op m ↔ idivide hostBits w op m ≠ none :=
  ⟨fun hright hnone => not_right_of_none (hrun.trans hnone) hright, fun h => idivide_right h hrun⟩

/-- **A guest's division is right on the host** exactly when it is not the division of the lowest
dividend by -1 in `IDIVW` or `IDIVD`. -/
theorem DivMacro.right_iff (d : DivMacro) (op : BitVec d.w.bits) (m : Machine) :
    d.Right op m ↔ ¬ (d.signed = true ∧ d.w ≠ .byte ∧
      (m.pair d.w).toInt = -2 ^ (2 * d.w.bits - 1) ∧ op.toInt = -1) := by
  obtain ⟨signed, w⟩ := d
  cases signed with
  | false => exact iff_of_true (div_right op m) (by simp)
  | true =>
    cases w with
    | byte =>
      have hrun : DivMacro.run ⟨true, .byte⟩ op m = idivide 64 .byte op m := rfl
      have hdefined : idivide 64 .byte op m ≠ none := idivide_ne_none (by decide)
      exact iff_of_true ((idivide_right_iff hrun).mpr hdefined) (by simp)
    | word =>
      have hrun : DivMacro.run ⟨true, .word⟩ op m = idivide (2 * Width.word.bits) .word op m := rfl
      rw [idivide_right_iff hrun, Ne, idivide_eq_none_iff_of_width]
      simp
    | dword =>
      have hrun : DivMacro.run ⟨true, .dword⟩ op m =
          idivide (2 * Width.dword.bits) .dword op m := rfl
      rw [idivide_right_iff hrun, Ne, idivide_eq_none_iff_of_width]
      simp

/-- **The lowest dividend divided by -1**, in `IDIVW`, where the host divides an `int`, and in
`IDIVD`: the host's division overflows. -/
theorem idiv_overflows :
    ¬ DivMacro.Right ⟨true, .word⟩ (-1) ⟨0, 0x8000, ⟨2, {}⟩⟩ ∧
      ¬ DivMacro.Right ⟨true, .dword⟩ (-1) ⟨0, 0x80000000, ⟨2, {}⟩⟩ :=
  ⟨not_right_of_none (by decide), not_right_of_none (by decide)⟩

end AugraDosbox.Dynrec
