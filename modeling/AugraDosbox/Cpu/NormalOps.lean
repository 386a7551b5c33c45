import AugraDosbox.Cpu.DynrecOps

/-!
# The macros of the normal core

The macros of `src/cpu/instructions.h` that the normal core uses where the dynamic core calls
a helper, and the two beside each other.

* `NormalCore.ROL`, `NormalCore.IMULW`, `NormalCore.DIMULW` and so on — the macros;
* `Helper` — an instruction with its operands; `Helper.dynrec`, `Helper.simple` and
  `Helper.normal` — what the helper, its variant without flags and the macro make of it;
* `Helper.Defined` — the flags that the instruction defines.
-/

namespace AugraDosbox.Dynrec

open FlagType DualOps SingleOps ShiftOps

namespace NormalCore

section

variable {w : Width} (op1 : BitVec w.bits) (op2 : BitVec 8) (c : Cpu)

/-- `ROLB`, `ROLW` and `ROLD`, of which the first two mask the count once more. -/
def ROL : BitVec w.bits × Cpu :=
  match w with
  | .byte => rolBy op1 (op2 &&& 0x07) c
  | .word => rolBy op1 (op2 &&& 0xf) c
  | .dword => rolBy op1 op2 c

def ROR : BitVec w.bits × Cpu :=
  match w with
  | .byte => rorBy op1 (op2 &&& 0x07) c
  | .word => rorBy op1 (op2 &&& 0xf) c
  | .dword => rorBy op1 op2 c

def RCL : BitVec w.bits × Cpu :=
  match w with
  | .byte => if op2 % 9 = 0 then (op1, c) else rclBy op1 (op2 % 9) c
  | .word => if op2 % 17 = 0 then (op1, c) else rclBy op1 (op2 % 17) c
  | .dword => if op2 = 0 then (op1, c) else rclBy op1 op2 c

def RCR : BitVec w.bits × Cpu :=
  match w with
  | .byte => if op2 % 9 ≠ 0 then rcrBy op1 (op2 % 9) c else (op1, c)
  | .word => if op2 % 17 ≠ 0 then rcrBy op1 (op2 % 17) c else (op1, c)
  | .dword => if op2 ≠ 0 then rcrBy op1 op2 c else (op1, c)

end

/-- `MULB`, `MULW` and `MULD`. -/
def MUL (w : Width) (op1 : BitVec w.bits) (m : Machine) : Machine :=
  let res := (m.acc w).setWidth (2 * w.bits) * op1.setWidth (2 * w.bits)
  let m := m.setPair w (low w res) (high w res)
  let c := FillFlagsNoCFOF m.cpu
  let c := { c with reg_flags := SETFLAGBIT .ZF (low w res = 0) c.reg_flags }
  { m with cpu := setCFOF (truth (high w res)) c }

/-- `SETFLAGBIT(ZF,...)` and `SETFLAGBIT(SF,...)` of a lower half. -/
def setZFSF {w : Width} (value : BitVec w.bits) (c : Cpu) : Cpu :=
  { c with reg_flags := c.reg_flags
      |> SETFLAGBIT .ZF (value = 0) |> SETFLAGBIT .SF (truth (value &&& w.sign)) }

def IMULB (op1 : BitVec 8) (m : Machine) : Machine :=
  let res := (m.eax.setWidth 8).signExtend 16 * op1.signExtend 16
  let c := setZFSF (low .byte res) (FillFlagsNoCFOF m.cpu)
  { m.setPair .byte (low .byte res) (high .byte res) with
    cpu := setCFOF (!imulFitsByte res) c }

/-- The product is an `int`. -/
def IMULW (op1 : BitVec 16) (m : Machine) : Machine :=
  let res := (m.eax.setWidth 16).signExtend 32 * op1.signExtend 32
  let c := setZFSF (low .word res) (FillFlagsNoCFOF m.cpu)
  { m.setPair .word (low .word res) (high .word res) with
    cpu := setCFOF (!decide (res &&& 0xffff8000 = 0xffff8000 ∨ res &&& 0xffff8000 = 0)) c }

def IMULD (op1 : BitVec 32) (m : Machine) : Machine :=
  let temps := m.eax.signExtend 64 * op1.signExtend 64
  let c := setZFSF (low .dword temps) (FillFlagsNoCFOF m.cpu)
  { m.setPair .dword (low .dword temps) (high .dword temps) with
    cpu := setCFOF (!imulFitsDword temps) c }

/-- `DIMULW`, with `op2` a `uint16_t` and `op3` a register of the same type or a signed
immediate.  The product is an `int`, which may not hold it. -/
def DIMULW (immediate : Bool) (op2 op3 : BitVec 16) (c : Cpu) : Option (BitVec 16 × Cpu) :=
  let res := op2.toNat * if immediate then op3.toInt else op3.toNat
  if 2 ^ 31 ≤ res then none
  else some (BitVec.ofInt 16 res,
    setCFOF (!decide (res ≥ -32768 ∧ res ≤ 32767)) (FillFlagsNoCFOF c))

def DIMULD (op2 op3 : BitVec 32) (c : Cpu) : BitVec 32 × Cpu :=
  let result_i64 := op2.toInt * op3.toInt
  let result_i32 := BitVec.ofInt 32 result_i64
  (result_i32, setCFOF (result_i32.toInt ≠ result_i64) (FillFlagsNoCFOF c))

def DIV (w : Width) (op1 : BitVec w.bits) (m : Machine) : Division := divide w op1 m

/-- `IDIVW` divides an `int`. -/
def IDIV (w : Width) (op1 : BitVec w.bits) (m : Machine) : Division :=
  match w with
  | .byte => idivide 64 .byte op1 m
  | .word => idivide 32 .word op1 m
  | .dword => idivide 64 .dword op1 m

end NormalCore

/-! ## The two cores -/

/-- An instruction for which the dynamic core calls a helper.  The counts of the shifts are
those of the instruction, before they are masked. -/
inductive Helper where
  | dual (op : DualOps) (w : Width) (op1 op2 : BitVec w.bits)
  | single (op : SingleOps) (w : Width) (op1 : BitVec w.bits)
  | shift (op : ShiftOps) (w : Width) (op1 : BitVec w.bits) (count : BitVec 8)
  | dpshift_word (left : Bool) (op1 op2 : BitVec 16) (op3 : BitVec 8)
  | dpshift_dword (left : Bool) (op1 op2 : BitVec 32) (op3 : BitVec 8)
  | mul (w : Width) (op : BitVec w.bits)
  | imul_byte (op : BitVec 8)
  | imul_word (op : BitVec 16)
  | imul_dword (op : BitVec 32)
  | dimul_word (immediate : Bool) (op1 op2 : BitVec 16)
  | dimul_dword (op1 op2 : BitVec 32)
  | div (w : Width) (op : BitVec w.bits)
  | idiv (w : Width) (op : BitVec w.bits)

/-- What is left after an instruction: what is written back, the registers and flags, and
whether a division by zero is raised. -/
structure Outcome where
  result : Option (BitVec 32)
  machine : Machine
  exception : Bool

namespace Outcome

/-- A helper that returns a value. -/
def value {n : ℕ} (m : Machine) (r : BitVec n × Cpu) : Outcome :=
  ⟨some (r.1.setWidth 32), { m with cpu := r.2 }, false⟩

/-- A helper that returns nothing. -/
def flags (m : Machine) (c : Cpu) : Outcome := ⟨none, { m with cpu := c }, false⟩

/-- A helper that writes to the registers itself. -/
def registers (m : Machine) : Outcome := ⟨none, m, false⟩

def division (r : Machine × Bool) : Outcome := ⟨none, r.1, !r.2⟩

end Outcome

namespace Helper

variable (m : Machine)

open Outcome

/-- The helper of the dynamic core. -/
def dynrec : Helper → Option Outcome
  | dual DOP_ADD w op1 op2 => value m (dynrec_add w op1 op2 m.cpu)
  | dual DOP_ADC w op1 op2 => value m (dynrec_adc w op1 op2 m.cpu)
  | dual DOP_SUB w op1 op2 => value m (dynrec_sub w op1 op2 m.cpu)
  | dual DOP_SBB w op1 op2 => value m (dynrec_sbb w op1 op2 m.cpu)
  | dual DOP_CMP w op1 op2 => flags m (dynrec_cmp w op1 op2 m.cpu)
  | dual DOP_XOR w op1 op2 => value m (dynrec_xor w op1 op2 m.cpu)
  | dual DOP_AND w op1 op2 => value m (dynrec_and w op1 op2 m.cpu)
  | dual DOP_OR w op1 op2 => value m (dynrec_or w op1 op2 m.cpu)
  | dual DOP_TEST w op1 op2 => flags m (dynrec_test w op1 op2 m.cpu)
  | single SOP_INC w op => value m (dynrec_inc w op m.cpu)
  | single SOP_DEC w op => value m (dynrec_dec w op m.cpu)
  | single SOP_NEG w op => value m (dynrec_neg w op m.cpu)
  | shift SHIFT_ROL w op1 count => value m (dynrec_rol w op1 (count &&& 0x1f) m.cpu)
  | shift SHIFT_ROR w op1 count => value m (dynrec_ror w op1 (count &&& 0x1f) m.cpu)
  | shift SHIFT_RCL w op1 count => value m (dynrec_rcl w op1 (count &&& 0x1f) m.cpu)
  | shift SHIFT_RCR w op1 count => value m (dynrec_rcr w op1 (count &&& 0x1f) m.cpu)
  | shift SHIFT_SHL w op1 count => value m (dynrec_shl w op1 (count &&& 0x1f) m.cpu)
  | shift SHIFT_SHR w op1 count => value m (dynrec_shr w op1 (count &&& 0x1f) m.cpu)
  | shift SHIFT_SAR w op1 count => value m (dynrec_sar w op1 (count &&& 0x1f) m.cpu)
  | dpshift_word true op1 op2 op3 => value m (dynrec_dshl_word op1 op2 op3 m.cpu)
  | dpshift_word false op1 op2 op3 => value m (dynrec_dshr_word op1 op2 op3 m.cpu)
  | dpshift_dword true op1 op2 op3 => value m (dynrec_dshl_dword op1 op2 op3 m.cpu)
  | dpshift_dword false op1 op2 op3 => value m (dynrec_dshr_dword op1 op2 op3 m.cpu)
  | mul w op => registers (dynrec_mul w op m)
  | imul_byte op => registers (dynrec_imul_byte op m)
  | imul_word op => registers (dynrec_imul_word op m)
  | imul_dword op => registers (dynrec_imul_dword op m)
  | dimul_word _ op1 op2 => value m (dynrec_dimul_word op1 op2 m.cpu)
  | dimul_dword op1 op2 => value m (dynrec_dimul_dword op1 op2 m.cpu)
  | div w op => (dynrec_div w op m).map division
  | idiv w op => (dynrec_idiv w op m).map division

/-- What the variant without flags returns, for the helpers that have one. -/
def simple : Helper → Option (Option (BitVec 32))
  | dual DOP_ADD _ op1 op2 => some (some ((op1 + op2).setWidth 32))
  | dual DOP_ADC w op1 op2 => some (some ((dynrec_adc_simple w op1 op2 m.cpu).setWidth 32))
  | dual DOP_SUB _ op1 op2 => some (some ((op1 - op2).setWidth 32))
  | dual DOP_SBB w op1 op2 => some (some ((dynrec_sbb_simple w op1 op2 m.cpu).setWidth 32))
  | dual DOP_CMP _ _ _ => some none
  | dual DOP_XOR _ op1 op2 => some (some ((op1 ^^^ op2).setWidth 32))
  | dual DOP_AND _ op1 op2 => some (some ((op1 &&& op2).setWidth 32))
  | dual DOP_OR _ op1 op2 => some (some ((op1 ||| op2).setWidth 32))
  | dual DOP_TEST _ _ _ => some none
  | single SOP_INC _ op => some (some ((op + 1).setWidth 32))
  | single SOP_DEC _ op => some (some ((op - 1).setWidth 32))
  | single SOP_NEG _ op => some (some ((0 - op).setWidth 32))
  | shift SHIFT_ROL w op1 count =>
    some (some ((dynrec_rol_simple w op1 (count &&& 0x1f)).setWidth 32))
  | shift SHIFT_ROR w op1 count =>
    some (some ((dynrec_ror_simple w op1 (count &&& 0x1f)).setWidth 32))
  | shift SHIFT_SHL w op1 count =>
    some (some ((dynrec_shl_simple w op1 (count &&& 0x1f)).setWidth 32))
  | shift SHIFT_SHR w op1 count =>
    some (some ((dynrec_shr_simple w op1 (count &&& 0x1f)).setWidth 32))
  | shift SHIFT_SAR w op1 count =>
    some (some ((dynrec_sar_simple w op1 (count &&& 0x1f)).setWidth 32))
  | dpshift_word true op1 op2 op3 => some (some ((dynrec_dshl_word_simple op1 op2 op3).setWidth 32))
  | dpshift_word false op1 op2 op3 => some (some ((dynrec_dshr_word_simple op1 op2 op3).setWidth 32))
  | dpshift_dword true op1 op2 op3 => some (some (dynrec_dshl_dword_simple op1 op2 op3))
  | dpshift_dword false op1 op2 op3 => some (some (dynrec_dshr_dword_simple op1 op2 op3))
  | _ => none

/-- What `GRP2B`, `GRP2W` and `GRP2D` do with a count: nothing when it is 0. -/
def grp2 {w : Width} (op1 : BitVec w.bits) (count : BitVec 8)
    (body : BitVec w.bits → BitVec 8 → Cpu → BitVec w.bits × Cpu) : Outcome :=
  let val := count &&& 0x1f
  if val = 0 then value m (op1, m.cpu) else value m (body op1 val m.cpu)

/-- A macro whose lazy flags are those of `Instr.record`. -/
def recorded {n : ℕ} (i : Instr) (result : BitVec n) : Outcome := value m (result, i.record m.cpu)

/-- The macro of the normal core. -/
def normal : Helper → Option Outcome
  | dual DOP_ADD _ op1 op2 => recorded m (.ADD op1 op2) (op1 + op2)
  | dual DOP_ADC w op1 op2 =>
    recorded m (.ADC op1 op2) (op1 + op2 + carryIn w (truth (get_CF m.cpu)))
  | dual DOP_SUB _ op1 op2 => recorded m (.SUB op1 op2) (op1 - op2)
  | dual DOP_SBB w op1 op2 =>
    recorded m (.SBB op1 op2) (op1 - (op2 + carryIn w (truth (get_CF m.cpu))))
  | dual DOP_CMP _ op1 op2 => flags m ((Instr.CMP op1 op2).record m.cpu)
  | dual DOP_XOR _ op1 op2 => recorded m (.XOR op1 op2) (op1 ^^^ op2)
  | dual DOP_AND _ op1 op2 => recorded m (.AND op1 op2) (op1 &&& op2)
  | dual DOP_OR _ op1 op2 => recorded m (.OR op1 op2) (op1 ||| op2)
  | dual DOP_TEST _ op1 op2 => flags m ((Instr.TEST op1 op2).record m.cpu)
  | single SOP_INC _ op => recorded m (.INC op) (op + 1)
  | single SOP_DEC _ op => recorded m (.DEC op) (op - 1)
  | single SOP_NEG _ op => recorded m (.NEG op) (0 - op)
  | shift SHIFT_ROL _ op1 count => grp2 m op1 count NormalCore.ROL
  | shift SHIFT_ROR _ op1 count => grp2 m op1 count NormalCore.ROR
  | shift SHIFT_RCL _ op1 count => grp2 m op1 count NormalCore.RCL
  | shift SHIFT_RCR _ op1 count => grp2 m op1 count NormalCore.RCR
  | shift SHIFT_SHL _ op1 count =>
    grp2 m op1 count fun op1 val c => (op1 <<< val.toNat, (Instr.SHL op1 val).record c)
  | shift SHIFT_SHR _ op1 count =>
    grp2 m op1 count fun op1 val c => (op1 >>> val.toNat, (Instr.SHR op1 val).record c)
  | shift SHIFT_SAR w op1 count =>
    grp2 m op1 count fun op1 val c =>
      (sarResult op1 (sarCount w val).toNat, (Instr.SAR op1 val).record c)
  | dpshift_word true op1 op2 op3 =>
    recorded m (.DSHLW op1 op2 op3)
      (if op3 &&& 0x1f = 0 then op1 else dshlResult op1 op2 (op3 &&& 0x1f))
  | dpshift_word false op1 op2 op3 =>
    recorded m (.DSHRW op1 op2 op3)
      (if op3 &&& 0x1f = 0 then op1 else dshrResult op1 op2 (op3 &&& 0x1f))
  | dpshift_dword true op1 op2 op3 =>
    recorded m (.DSHLD op1 op2 op3)
      (if op3 &&& 0x1f = 0 then op1
        else (op1 <<< (op3 &&& 0x1f).toNat) ||| (op2 >>> (32 - (op3 &&& 0x1f).toNat)))
  | dpshift_dword false op1 op2 op3 =>
    recorded m (.DSHRD op1 op2 op3)
      (if op3 &&& 0x1f = 0 then op1
        else (op1 >>> (op3 &&& 0x1f).toNat) ||| (op2 <<< (32 - (op3 &&& 0x1f).toNat)))
  | mul w op => registers (NormalCore.MUL w op m)
  | imul_byte op => registers (NormalCore.IMULB op m)
  | imul_word op => registers (NormalCore.IMULW op m)
  | imul_dword op => registers (NormalCore.IMULD op m)
  | dimul_word immediate op1 op2 => (NormalCore.DIMULW immediate op1 op2 m.cpu).map (value m)
  | dimul_dword op1 op2 => value m (NormalCore.DIMULD op1 op2 m.cpu)
  | div w op => (NormalCore.DIV w op m).map division
  | idiv w op => (NormalCore.IDIV w op m).map division

/-! ## Agreement -/

/-- The flags that an instruction defines; those that it leaves alone are among them. -/
def Defined : Helper → CpuFlag → Bool
  | dual DOP_XOR .., f | dual DOP_AND .., f | dual DOP_OR .., f | dual DOP_TEST .., f => f ≠ .AF
  | dual .., _ | single .., _ => true
  | shift op w _ count, f =>
    let val := (count &&& 0x1f).toNat
    match op, f with
    | _, .OF => val ≤ 1
    | SHIFT_ROL, _ | SHIFT_ROR, _ | SHIFT_RCL, _ | SHIFT_RCR, _ => true
    | SHIFT_SHL, .CF | SHIFT_SHR, .CF => val ≤ w.bits
    | _, .AF => val = 0
    | _, _ => true
  | dpshift_word _ _ _ op3, f =>
    let val := (op3 &&& 0x1f).toNat
    val = 0 ∨ val ≤ 16 ∧ (f = .OF → val = 1) ∧ f ≠ .AF
  | dpshift_dword _ _ _ op3, f =>
    let val := (op3 &&& 0x1f).toNat
    val = 0 ∨ (f = .OF → val = 1) ∧ f ≠ .AF
  | mul .., f | imul_byte .., f | imul_word .., f | imul_dword .., f
  | dimul_word .., f | dimul_dword .., f => f = .CF ∨ f = .OF
  | div .., _ | idiv .., _ => false

end Helper

/-- The two outcomes are the same, up to flags that are not defined. -/
structure Outcome.Agrees (defined : CpuFlag → Bool) (o o' : Outcome) : Prop where
  result : o.result = o'.result
  eax : o.machine.eax = o'.machine.eax
  edx : o.machine.edx = o'.machine.edx
  exception : o.exception = o'.exception
  flags : ∀ f, defined f = true →
    isSet (FillFlags o.machine.cpu).1 f = isSet (FillFlags o'.machine.cpu).1 f

/-- Both cores have an outcome, and it is the same. -/
def Helper.SameAsNormal (h : Helper) (m : Machine) : Prop :=
  ∃ o o', h.dynrec m = some o ∧ h.normal m = some o' ∧ o.Agrees h.Defined o'

/-- The variant without flags returns what the helper returns. -/
def Helper.SimpleSame (h : Helper) (m : Machine) : Prop :=
  ∀ r, h.simple m = some r → ∀ o, h.dynrec m = some o → o.result = r

end AugraDosbox.Dynrec
