import Mathlib.Data.BitVec
import Mathlib.Tactic.Common

/-!
# Lazy flags of `cpu/lazyflags.h` and `cpu/flags.cpp`

An arithmetic instruction does not compute the CPU flags.  It records its kind,
operands and result in `LazyFlags`, and the flags are worked out when something
asks for them: a conditional jump through `get_CF` and the other getters, `PUSHF`
through `FillFlags`, a rotate through `FillFlagsNoCFOF`.

The names `lf_var1b`, `lf_var1w` and `lf_var1d` of the source are
`lf_var1 .byte`, `lf_var1 .word` and `lf_var1 .dword` here, and likewise for the kinds
`t_ADDb`, `t_ADDw`, `t_ADDd` and the macros `ADDB`, `ADDW`, `ADDD`.
-/

namespace AugraDosbox

/-! ## Operand widths and flags -/

/-- The operand widths: byte, word and dword. -/
inductive Width where
  | byte
  | word
  | dword
  deriving DecidableEq, Repr

namespace Width

/-- The number of bits of an operand. -/
def bits : Width → ℕ
  | byte => 8
  | word => 16
  | dword => 32

/-- The sign bit of an operand. -/
def sign : (w : Width) → BitVec w.bits
  | byte => 0x80#8
  | word => 0x8000#16
  | dword => 0x80000000#32

end Width

/-- The flags that instructions change. -/
inductive CpuFlag where
  | CF
  | PF
  | AF
  | ZF
  | SF
  | OF
  deriving DecidableEq, Repr

namespace CpuFlag

/-- The position of a flag in `reg_flags`. -/
def bit : CpuFlag → ℕ
  | CF => 0
  | PF => 2
  | AF => 4
  | ZF => 6
  | SF => 7
  | OF => 11

/-- `FLAG_CF` and so on. -/
def mask (f : CpuFlag) : BitVec 32 := 1#32 <<< f.bit

end CpuFlag

/-- The value of an expression as a C condition. -/
def truth {n : ℕ} (x : BitVec n) : Bool := x != 0

/-- The value of a C comparison. -/
def ofCond (p : Prop) [Decidable p] : BitVec 32 := if p then 1 else 0

def GETFLAG (reg_flags : BitVec 32) (f : CpuFlag) : BitVec 32 := reg_flags &&& f.mask

def SETFLAGBIT (f : CpuFlag) (test : Bool) (reg_flags : BitVec 32) : BitVec 32 :=
  if test then reg_flags ||| f.mask else reg_flags &&& ~~~f.mask

/-- The flag is set in the register. -/
def isSet (reg_flags : BitVec 32) (f : CpuFlag) : Bool := reg_flags.getLsbD f.bit

/-! ## What an instruction records -/

/-- The types of flag changing instructions. -/
inductive FlagType where
  | t_UNKNOWN
  | t_ADD (w : Width)
  | t_OR (w : Width)
  | t_ADC (w : Width)
  | t_SBB (w : Width)
  | t_AND (w : Width)
  | t_SUB (w : Width)
  | t_XOR (w : Width)
  | t_CMP (w : Width)
  | t_INC (w : Width)
  | t_DEC (w : Width)
  | t_TEST (w : Width)
  | t_SHL (w : Width)
  | t_SHR (w : Width)
  | t_SAR (w : Width)
  | t_ROL (w : Width)
  | t_ROR (w : Width)
  | t_RCL (w : Width)
  | t_RCR (w : Width)
  | t_NEG (w : Width)
  | t_DSHLw
  | t_DSHLd
  | t_DSHRw
  | t_DSHRd
  | t_MUL
  | t_DIV
  | t_NOTDONE
  deriving DecidableEq, Repr

structure LazyFlags where
  var1 : BitVec 32 := 0
  var2 : BitVec 32 := 0
  res : BitVec 32 := 0
  type : FlagType := .t_UNKNOWN
  oldcf : Bool := false
  deriving DecidableEq, Repr

namespace LazyFlags

/-- `lf_var1b`, `lf_var1w` and `lf_var1d`: parts of one register. -/
def lf_var1 (w : Width) (l : LazyFlags) : BitVec w.bits := l.var1.setWidth w.bits

/-- `lf_var2b`, `lf_var2w` and `lf_var2d`. -/
def lf_var2 (w : Width) (l : LazyFlags) : BitVec w.bits := l.var2.setWidth w.bits

/-- `lf_resb`, `lf_resw` and `lf_resd`. -/
def lf_res (w : Width) (l : LazyFlags) : BitVec w.bits := l.res.setWidth w.bits

/-- `lf_var2b`, where a shift keeps its count. -/
def lf_var2b (l : LazyFlags) : BitVec 8 := l.lf_var2 .byte

def lf_var2b_minus_one (l : LazyFlags) : BitVec 8 := l.lf_var2b - 1

end LazyFlags

/-- The flags register and the recorded instruction. -/
structure Cpu where
  reg_flags : BitVec 32
  lflags : LazyFlags
  deriving DecidableEq, Repr

open FlagType LazyFlags

/-! ## Reading one flag -/

/-- The bit shifted out last by a shift to the left. -/
def shiftedOutLeft (w : Width) (l : LazyFlags) : BitVec 32 :=
  ((l.lf_var1 w).setWidth 32 >>> (w.bits - l.lf_var2b.toNat)) &&& 1

/-- The carry of `SHLB`, `SHLW` and `SHLD`; the last has no count above 32. -/
def shlCarry (w : Width) (l : LazyFlags) : BitVec 32 :=
  match w with
  | .byte => if 8 < l.lf_var2b.toNat then 0 else shiftedOutLeft .byte l
  | .word => if 16 < l.lf_var2b.toNat then 0 else shiftedOutLeft .word l
  | .dword => shiftedOutLeft .dword l

/-- The bit shifted out last by a shift to the right. -/
def shiftedOutRight (w : Width) (l : LazyFlags) : BitVec 32 :=
  ((l.lf_var1 w).setWidth 32 >>> l.lf_var2b_minus_one.toNat) &&& 1

/-- The bit shifted out last by an arithmetic shift to the right. -/
def shiftedOutSigned (w : Width) (l : LazyFlags) : BitVec 32 :=
  ((l.lf_var1 w).signExtend 32).sshiftRight l.lf_var2b_minus_one.toNat &&& 1

def get_CF (c : Cpu) : BitVec 32 :=
  let l := c.lflags
  match l.type with
  | t_UNKNOWN | t_INC _ | t_DEC _ | t_MUL => GETFLAG c.reg_flags .CF
  | t_ADD w => ofCond (l.lf_res w < l.lf_var1 w)
  | t_ADC w => ofCond (l.lf_res w < l.lf_var1 w ∨ l.oldcf = true ∧ l.lf_res w = l.lf_var1 w)
  | t_SBB w => ofCond (l.lf_var1 w < l.lf_res w ∨
      l.oldcf = true ∧ l.lf_var2 w = BitVec.allOnes w.bits)
  | t_SUB w | t_CMP w => ofCond (l.lf_var1 w < l.lf_var2 w)
  | t_SHL w => shlCarry w l
  | t_DSHLw | t_DSHLd => shiftedOutLeft .dword l
  | t_RCR w | t_SHR w => shiftedOutRight w l
  | t_DSHRw | t_DSHRd => shiftedOutRight .dword l
  | t_SAR w => shiftedOutSigned w l
  | t_NEG w => (l.lf_var1 w).setWidth 32
  | t_OR _ | t_AND _ | t_XOR _ | t_TEST _ | t_DIV => 0
  | t_ROL _ | t_ROR _ | t_RCL _ | t_NOTDONE => 0

def get_AF (c : Cpu) : BitVec 32 :=
  let l := c.lflags
  match l.type with
  | t_UNKNOWN => GETFLAG c.reg_flags .AF
  | t_ADD w | t_ADC w | t_SBB w | t_SUB w | t_CMP w =>
      ((l.lf_var1 w ^^^ l.lf_var2 w) ^^^ l.lf_res w).setWidth 32 &&& 0x10
  | t_INC w => ofCond ((l.lf_res w).setWidth 32 &&& 0x0f#32 = 0)
  | t_DEC w => ofCond ((l.lf_res w).setWidth 32 &&& 0x0f#32 = 0x0f)
  | t_NEG w => (l.lf_var1 w).setWidth 32 &&& 0x0f
  | t_SHL w | t_SHR w | t_SAR w => (l.lf_var2 w).setWidth 32 &&& 0x1f
  | t_OR _ | t_AND _ | t_XOR _ | t_TEST _ => 0
  | t_DSHLw | t_DSHLd | t_DSHRw | t_DSHRd | t_DIV | t_MUL => 0
  | t_ROL _ | t_ROR _ | t_RCL _ | t_RCR _ | t_NOTDONE => 0

def get_ZF (c : Cpu) : BitVec 32 :=
  let l := c.lflags
  match l.type with
  | t_UNKNOWN => GETFLAG c.reg_flags .ZF
  | t_ADD w | t_OR w | t_ADC w | t_SBB w | t_AND w | t_XOR w | t_SUB w | t_CMP w | t_INC w
  | t_DEC w | t_TEST w | t_SHL w | t_SHR w | t_SAR w | t_NEG w => ofCond (l.lf_res w = 0)
  | t_DSHLw | t_DSHRw => ofCond (l.lf_res .word = 0)
  | t_DSHLd | t_DSHRd => ofCond (l.lf_res .dword = 0)
  | t_DIV | t_MUL => 0
  | t_ROL _ | t_ROR _ | t_RCL _ | t_RCR _ | t_NOTDONE => 0

def get_SF (c : Cpu) : BitVec 32 :=
  let l := c.lflags
  match l.type with
  | t_UNKNOWN => GETFLAG c.reg_flags .SF
  | t_ADD w | t_OR w | t_ADC w | t_SBB w | t_AND w | t_XOR w | t_SUB w | t_CMP w | t_INC w
  | t_DEC w | t_TEST w | t_SHL w | t_SHR w | t_SAR w | t_NEG w =>
      (l.lf_res w &&& w.sign).setWidth 32
  | t_DSHLw | t_DSHRw => (l.lf_res .word &&& Width.sign .word).setWidth 32
  | t_DSHLd | t_DSHRd => (l.lf_res .dword &&& Width.sign .dword).setWidth 32
  | t_DIV | t_MUL => 0
  | t_ROL _ | t_ROR _ | t_RCL _ | t_RCR _ | t_NOTDONE => 0

def get_OF (c : Cpu) : BitVec 32 :=
  let l := c.lflags
  match l.type with
  | t_UNKNOWN | t_MUL => GETFLAG c.reg_flags .OF
  | t_ADD w | t_ADC w =>
      (((l.lf_var1 w ^^^ l.lf_var2 w ^^^ w.sign) &&& (l.lf_res w ^^^ l.lf_var2 w)) &&&
        w.sign).setWidth 32
  | t_SBB w | t_SUB w | t_CMP w =>
      (((l.lf_var1 w ^^^ l.lf_var2 w) &&& (l.lf_var1 w ^^^ l.lf_res w)) &&& w.sign).setWidth 32
  | t_INC w => ofCond (l.lf_res w = w.sign)
  | t_DEC w => ofCond (l.lf_res w = w.sign - 1)
  | t_NEG w => ofCond (l.lf_var1 w = w.sign)
  | t_SHL w => ((l.lf_res w ^^^ l.lf_var1 w) &&& w.sign).setWidth 32
  | t_DSHRw | t_DSHLw => ((l.lf_res .word ^^^ l.lf_var1 .word) &&& Width.sign .word).setWidth 32
  | t_DSHRd | t_DSHLd => ((l.lf_res .dword ^^^ l.lf_var1 .dword) &&& Width.sign .dword).setWidth 32
  | t_SHR w =>
      if l.lf_var2b &&& 0x1f = 1 then ofCond (w.sign < l.lf_var1 w) else 0
  | t_OR _ | t_AND _ | t_XOR _ | t_TEST _ | t_SAR _ => 0
  | t_DIV => 0
  | t_ROL _ | t_ROR _ | t_RCL _ | t_RCR _ | t_NOTDONE => 0

/-- The two kinds of rows of `parity_lookup`. -/
def parityRow (p q : BitVec 32) : List (BitVec 32) :=
  [p, q, q, p, q, p, p, q, q, p, p, q, p, q, q, p]

/-- `parity_lookup`. -/
def parityTable : List (BitVec 32) :=
  let even := parityRow CpuFlag.PF.mask 0
  let odd := parityRow 0 CpuFlag.PF.mask
  even ++ odd ++ odd ++ even ++ odd ++ even ++ even ++ odd ++
    odd ++ even ++ even ++ odd ++ even ++ odd ++ odd ++ even

/-- An entry of `parity_lookup`. -/
def parity_lookup (v : BitVec 8) : BitVec 32 := parityTable.getD v.toNat 0

def get_PF (c : Cpu) : BitVec 32 :=
  match c.lflags.type with
  | t_UNKNOWN => GETFLAG c.reg_flags .PF
  | _ => parity_lookup (c.lflags.lf_res .byte)

/-! ## Filling the flags register -/

def DOFLAG_PF (l : LazyFlags) (reg_flags : BitVec 32) : BitVec 32 :=
  (reg_flags &&& ~~~CpuFlag.PF.mask) ||| parity_lookup (l.lf_res .byte)

/-- `DOFLAG_AF`: always from the low bytes. -/
def DOFLAG_AF (l : LazyFlags) (reg_flags : BitVec 32) : BitVec 32 :=
  (reg_flags &&& ~~~CpuFlag.AF.mask) |||
    (((l.lf_var1 .byte ^^^ l.lf_var2 .byte) ^^^ l.lf_res .byte).setWidth 32 &&& 0x10)

/-- `DOFLAG_ZFb`, `DOFLAG_ZFw` and `DOFLAG_ZFd`. -/
def DOFLAG_ZF (w : Width) (l : LazyFlags) (reg_flags : BitVec 32) : BitVec 32 :=
  SETFLAGBIT .ZF (l.lf_res w = 0) reg_flags

/-- `DOFLAG_SFb`, `DOFLAG_SFw` and `DOFLAG_SFd`. -/
def DOFLAG_SF (w : Width) (l : LazyFlags) (reg_flags : BitVec 32) : BitVec 32 :=
  (reg_flags &&& ~~~CpuFlag.SF.mask) ||| ((l.lf_res w &&& w.sign).setWidth 32 >>> (w.bits - 8))

/-- `FillFlags`: the value returned and the state afterwards. -/
def FillFlags (c : Cpu) : BitVec 32 × Cpu :=
  let l := c.lflags
  let done (reg_flags : BitVec 32) : BitVec 32 × Cpu :=
    (reg_flags, { reg_flags := reg_flags, lflags := { l with type := t_UNKNOWN } })
  match l.type with
  | t_UNKNOWN => done c.reg_flags
  | t_ADD w => done <| c.reg_flags
      |> SETFLAGBIT .CF (l.lf_res w < l.lf_var1 w)
      |> DOFLAG_AF l |> DOFLAG_ZF w l |> DOFLAG_SF w l
      |> SETFLAGBIT .OF (truth (((l.lf_var1 w ^^^ l.lf_var2 w ^^^ w.sign) &&&
          (l.lf_res w ^^^ l.lf_var1 w)) &&& w.sign))
      |> DOFLAG_PF l
  | t_ADC w => done <| c.reg_flags
      |> SETFLAGBIT .CF (l.lf_res w < l.lf_var1 w ∨ l.oldcf = true ∧ l.lf_res w = l.lf_var1 w)
      |> DOFLAG_AF l |> DOFLAG_ZF w l |> DOFLAG_SF w l
      |> SETFLAGBIT .OF (truth (((l.lf_var1 w ^^^ l.lf_var2 w ^^^ w.sign) &&&
          (l.lf_res w ^^^ l.lf_var1 w)) &&& w.sign))
      |> DOFLAG_PF l
  | t_SBB w => done <| c.reg_flags
      |> SETFLAGBIT .CF (l.lf_var1 w < l.lf_res w ∨
          l.oldcf = true ∧ l.lf_var2 w = BitVec.allOnes w.bits)
      |> DOFLAG_AF l |> DOFLAG_ZF w l |> DOFLAG_SF w l
      |> SETFLAGBIT .OF (truth ((l.lf_var1 w ^^^ l.lf_var2 w) &&&
          (l.lf_var1 w ^^^ l.lf_res w) &&& w.sign))
      |> DOFLAG_PF l
  | t_SUB w | t_CMP w => done <| c.reg_flags
      |> SETFLAGBIT .CF (l.lf_var1 w < l.lf_var2 w)
      |> DOFLAG_AF l |> DOFLAG_ZF w l |> DOFLAG_SF w l
      |> SETFLAGBIT .OF (truth ((l.lf_var1 w ^^^ l.lf_var2 w) &&&
          (l.lf_var1 w ^^^ l.lf_res w) &&& w.sign))
      |> DOFLAG_PF l
  | t_OR w | t_TEST w | t_AND w | t_XOR w => done <| c.reg_flags
      |> SETFLAGBIT .CF false |> SETFLAGBIT .AF false
      |> DOFLAG_ZF w l |> DOFLAG_SF w l
      |> SETFLAGBIT .OF false
      |> DOFLAG_PF l
  | t_SHL w => done <| c.reg_flags
      |> SETFLAGBIT .CF (truth (shlCarry w l))
      |> DOFLAG_ZF w l |> DOFLAG_SF w l
      |> SETFLAGBIT .OF (truth ((l.lf_res w ^^^ l.lf_var1 w) &&& w.sign))
      |> DOFLAG_PF l
      |> SETFLAGBIT .AF (truth ((l.lf_var2 w).setWidth 32 &&& 0x1f))
  | t_DSHLw => done <| c.reg_flags
      |> SETFLAGBIT .CF (truth (shiftedOutLeft .dword l))
      |> DOFLAG_ZF .word l |> DOFLAG_SF .word l
      |> SETFLAGBIT .OF (truth ((l.lf_res .word ^^^ l.lf_var1 .word) &&& Width.sign .word))
      |> DOFLAG_PF l
  | t_DSHLd => done <| c.reg_flags
      |> SETFLAGBIT .CF (truth (shiftedOutLeft .dword l))
      |> DOFLAG_ZF .dword l |> DOFLAG_SF .dword l
      |> SETFLAGBIT .OF (truth ((l.lf_res .dword ^^^ l.lf_var1 .dword) &&& Width.sign .dword))
      |> DOFLAG_PF l
  | t_SHR w => done <| c.reg_flags
      |> SETFLAGBIT .CF (truth (shiftedOutRight w l))
      |> DOFLAG_ZF w l |> DOFLAG_SF w l
      |> SETFLAGBIT .OF ((l.lf_var2 w).setWidth 32 &&& 0x1f#32 = 1#32 ∧ w.sign ≤ l.lf_var1 w)
      |> DOFLAG_PF l
      |> SETFLAGBIT .AF (truth ((l.lf_var2 w).setWidth 32 &&& 0x1f))
  | t_DSHRw => done <| c.reg_flags
      |> SETFLAGBIT .CF (truth (shiftedOutRight .dword l))
      |> DOFLAG_ZF .word l |> DOFLAG_SF .word l
      |> SETFLAGBIT .OF (truth ((l.lf_res .word ^^^ l.lf_var1 .word) &&& Width.sign .word))
      |> DOFLAG_PF l
  | t_DSHRd => done <| c.reg_flags
      |> SETFLAGBIT .CF (truth (shiftedOutRight .dword l))
      |> DOFLAG_ZF .dword l |> DOFLAG_SF .dword l
      |> SETFLAGBIT .OF (truth ((l.lf_res .dword ^^^ l.lf_var1 .dword) &&& Width.sign .dword))
      |> DOFLAG_PF l
  | t_SAR w => done <| c.reg_flags
      |> SETFLAGBIT .CF (truth (shiftedOutSigned w l))
      |> DOFLAG_ZF w l |> DOFLAG_SF w l
      |> SETFLAGBIT .OF false
      |> DOFLAG_PF l
      |> SETFLAGBIT .AF (truth ((l.lf_var2 w).setWidth 32 &&& 0x1f))
  | t_INC w => done <| c.reg_flags
      |> SETFLAGBIT .AF ((l.lf_res w).setWidth 32 &&& 0x0f#32 = 0)
      |> DOFLAG_ZF w l |> DOFLAG_SF w l
      |> SETFLAGBIT .OF (l.lf_res w = w.sign)
      |> DOFLAG_PF l
  | t_DEC w => done <| c.reg_flags
      |> SETFLAGBIT .AF ((l.lf_res w).setWidth 32 &&& 0x0f#32 = 0x0f)
      |> DOFLAG_ZF w l |> DOFLAG_SF w l
      |> SETFLAGBIT .OF (l.lf_res w = w.sign - 1)
      |> DOFLAG_PF l
  | t_NEG w => done <| c.reg_flags
      |> SETFLAGBIT .CF (l.lf_var1 w ≠ 0)
      |> SETFLAGBIT .AF ((l.lf_res w).setWidth 32 &&& 0x0f#32 ≠ 0)
      |> DOFLAG_ZF w l |> DOFLAG_SF w l
      |> SETFLAGBIT .OF (l.lf_var1 w = w.sign)
      |> DOFLAG_PF l
  | t_DIV | t_MUL => done c.reg_flags
  | t_ROL _ | t_ROR _ | t_RCL _ | t_RCR _ | t_NOTDONE => (0, c)

def FillFlagsNoCFOF (c : Cpu) : Cpu :=
  let l := c.lflags
  let done (reg_flags : BitVec 32) : Cpu :=
    { reg_flags := reg_flags, lflags := { l with type := t_UNKNOWN } }
  match l.type with
  | t_UNKNOWN => c
  | t_ADD w | t_ADC w | t_SBB w | t_SUB w | t_CMP w => done <| c.reg_flags
      |> DOFLAG_AF l |> DOFLAG_ZF w l |> DOFLAG_SF w l |> DOFLAG_PF l
  | t_OR w | t_TEST w | t_AND w | t_XOR w => done <| c.reg_flags
      |> SETFLAGBIT .AF false |> DOFLAG_ZF w l |> DOFLAG_SF w l |> DOFLAG_PF l
  | t_DSHLw | t_DSHRw => done <| c.reg_flags
      |> DOFLAG_ZF .word l |> DOFLAG_SF .word l |> DOFLAG_PF l
  | t_DSHLd | t_DSHRd => done <| c.reg_flags
      |> DOFLAG_ZF .dword l |> DOFLAG_SF .dword l |> DOFLAG_PF l
  | t_SHL w | t_SHR w | t_SAR w => done <| c.reg_flags
      |> DOFLAG_ZF w l |> DOFLAG_SF w l |> DOFLAG_PF l
      |> SETFLAGBIT .AF (truth ((l.lf_var2 w).setWidth 32 &&& 0x1f))
  | t_INC w => done <| c.reg_flags
      |> SETFLAGBIT .AF ((l.lf_res w).setWidth 32 &&& 0x0f#32 = 0)
      |> DOFLAG_ZF w l |> DOFLAG_SF w l |> DOFLAG_PF l
  | t_DEC w => done <| c.reg_flags
      |> SETFLAGBIT .AF ((l.lf_res w).setWidth 32 &&& 0x0f#32 = 0x0f)
      |> DOFLAG_ZF w l |> DOFLAG_SF w l |> DOFLAG_PF l
  | t_NEG w => done <| c.reg_flags
      |> SETFLAGBIT .AF ((l.lf_res w).setWidth 32 &&& 0x0f#32 ≠ 0)
      |> DOFLAG_ZF w l |> DOFLAG_SF w l |> DOFLAG_PF l
  | t_DIV | t_MUL => done c.reg_flags
  | t_ROL _ | t_ROR _ | t_RCL _ | t_RCR _ | t_NOTDONE => done c.reg_flags

/-! ## The recording macros of `cpu/instructions.h` -/

/-- Writing a byte, word or dword into a register; the other bytes stay. -/
def store {w : Width} (reg : BitVec 32) (v : BitVec w.bits) : BitVec 32 :=
  ((reg >>> w.bits) <<< w.bits) ||| v.setWidth 32

/-- What the two-operand macros record. -/
def record2 {w : Width} (type : FlagType) (op1 op2 res : BitVec w.bits) (l : LazyFlags) :
    LazyFlags :=
  { l with var1 := store l.var1 op1, var2 := store l.var2 op2, res := store l.res res, type := type }

/-- What the one-operand macros record. -/
def record1 {w : Width} (type : FlagType) (op1 res : BitVec w.bits) (l : LazyFlags) : LazyFlags :=
  { l with var1 := store l.var1 op1, res := store l.res res, type := type }

/-- What the shift macros record: the count goes into the low byte of `var2`. -/
def recordShift {w : Width} (type : FlagType) (op1 : BitVec w.bits) (val : BitVec 8)
    (res : BitVec w.bits) (l : LazyFlags) : LazyFlags :=
  { l with
    var1 := store l.var1 op1, var2 := store (w := .byte) l.var2 val, res := store l.res res,
    type := type }

/-- The instructions that the macros record, with their operands.  The counts
are those of the instruction, before they are masked. -/
inductive Instr where
  | ADD {w : Width} (op1 op2 : BitVec w.bits)
  | ADC {w : Width} (op1 op2 : BitVec w.bits)
  | SBB {w : Width} (op1 op2 : BitVec w.bits)
  | SUB {w : Width} (op1 op2 : BitVec w.bits)
  | OR {w : Width} (op1 op2 : BitVec w.bits)
  | XOR {w : Width} (op1 op2 : BitVec w.bits)
  | AND {w : Width} (op1 op2 : BitVec w.bits)
  | CMP {w : Width} (op1 op2 : BitVec w.bits)
  | TEST {w : Width} (op1 op2 : BitVec w.bits)
  | INC {w : Width} (op1 : BitVec w.bits)
  | DEC {w : Width} (op1 : BitVec w.bits)
  | NEG {w : Width} (op1 : BitVec w.bits)
  | SHL {w : Width} (op1 : BitVec w.bits) (count : BitVec 8)
  | SHR {w : Width} (op1 : BitVec w.bits) (count : BitVec 8)
  | SAR {w : Width} (op1 : BitVec w.bits) (count : BitVec 8)
  | DSHLW (op1 op2 : BitVec 16) (count : BitVec 8)
  | DSHLD (op1 op2 : BitVec 32) (count : BitVec 8)
  | DSHRW (op1 op2 : BitVec 16) (count : BitVec 8)
  | DSHRD (op1 op2 : BitVec 32) (count : BitVec 8)
  deriving DecidableEq, Repr

/-- The result of `SARB`, `SARW` and `SARD`. -/
def sarResult {w : Width} (op1 : BitVec w.bits) (val : ℕ) : BitVec w.bits :=
  if op1 &&& w.sign ≠ 0 then (op1 >>> val) ||| (BitVec.allOnes w.bits <<< (w.bits - val))
  else op1 >>> val

/-- The count that `SARB` and `SARW` record is at most the width. -/
def sarCount (w : Width) (val : BitVec 8) : BitVec 8 :=
  match w with
  | .byte => if val > 8 then 8 else val
  | .word => if val > 16 then 16 else val
  | .dword => val

namespace Instr

/-- The masked count of a shift; `GRP2B`, `DSHLW` and the others do nothing when
it is 0. -/
def val : Instr → Option (BitVec 8)
  | SHL _ count | SHR _ count | SAR _ count => some (count &&& 0x1f)
  | DSHLW _ _ count | DSHLD _ _ count | DSHRW _ _ count | DSHRD _ _ count => some (count &&& 0x1f)
  | _ => none

/-- What the instruction does to the flags register and the recorded flags. -/
def record (c : Cpu) : Instr → Cpu
  | @ADD w op1 op2 => { c with lflags := record2 (t_ADD w) op1 op2 (op1 + op2) c.lflags }
  | @ADC w op1 op2 =>
      let oldcf := truth (get_CF c)
      { c with
        lflags := { record2 (t_ADC w) op1 op2
          (op1 + op2 + (BitVec.ofBool oldcf).setWidth w.bits) c.lflags with oldcf := oldcf } }
  | @SBB w op1 op2 =>
      let oldcf := truth (get_CF c)
      { c with
        lflags := { record2 (t_SBB w) op1 op2
          (op1 - (op2 + (BitVec.ofBool oldcf).setWidth w.bits)) c.lflags with oldcf := oldcf } }
  | @SUB w op1 op2 => { c with lflags := record2 (t_SUB w) op1 op2 (op1 - op2) c.lflags }
  | @OR w op1 op2 => { c with lflags := record2 (t_OR w) op1 op2 (op1 ||| op2) c.lflags }
  | @XOR w op1 op2 => { c with lflags := record2 (t_XOR w) op1 op2 (op1 ^^^ op2) c.lflags }
  | @AND w op1 op2 => { c with lflags := record2 (t_AND w) op1 op2 (op1 &&& op2) c.lflags }
  | @CMP w op1 op2 => { c with lflags := record2 (t_CMP w) op1 op2 (op1 - op2) c.lflags }
  | @TEST w op1 op2 => { c with lflags := record2 (t_TEST w) op1 op2 (op1 &&& op2) c.lflags }
  | @INC w op1 =>
      { reg_flags := SETFLAGBIT .CF (truth (get_CF c)) c.reg_flags,
        lflags := record1 (t_INC w) op1 (op1 + 1) c.lflags }
  | @DEC w op1 =>
      { reg_flags := SETFLAGBIT .CF (truth (get_CF c)) c.reg_flags,
        lflags := record1 (t_DEC w) op1 (op1 - 1) c.lflags }
  | @NEG w op1 => { c with lflags := record1 (t_NEG w) op1 (0 - op1) c.lflags }
  | @SHL w op1 count =>
      let val := count &&& 0x1f
      if val = 0 then c
      else { c with lflags := recordShift (t_SHL w) op1 val (op1 <<< val.toNat) c.lflags }
  | @SHR w op1 count =>
      let val := count &&& 0x1f
      if val = 0 then c
      else { c with lflags := recordShift (t_SHR w) op1 val (op1 >>> val.toNat) c.lflags }
  | @SAR w op1 count =>
      let val := count &&& 0x1f
      if val = 0 then c
      else
        let val := sarCount w val
        { c with lflags := recordShift (t_SAR w) op1 val (sarResult op1 val.toNat) c.lflags }
  | DSHLW op1 op2 count =>
      let val := count &&& 0x1f
      if val = 0 then c
      else
        let var1 := (op1.setWidth 32 <<< 16) ||| op2.setWidth 32
        let tempd := var1 <<< val.toNat
        let tempd := if val > 16 then tempd ||| (op2.setWidth 32 <<< (val.toNat - 16)) else tempd
        { c with
          lflags := { c.lflags with
            var1 := var1, var2 := store (w := .byte) c.lflags.var2 val,
            res := store (w := .word) c.lflags.res ((tempd >>> 16).setWidth 16),
            type := t_DSHLw } }
  | DSHLD op1 op2 count =>
      let val := count &&& 0x1f
      if val = 0 then c
      else
        { c with
          lflags := recordShift (w := .dword) t_DSHLd op1 val
            ((op1 <<< val.toNat) ||| (op2 >>> (32 - val.toNat))) c.lflags }
  | DSHRW op1 op2 count =>
      let val := count &&& 0x1f
      if val = 0 then c
      else
        let var1 := (op2.setWidth 32 <<< 16) ||| op1.setWidth 32
        let tempd := var1 >>> val.toNat
        let tempd := if val > 16 then tempd ||| (op2.setWidth 32 <<< (32 - val.toNat)) else tempd
        { c with
          lflags := { c.lflags with
            var1 := var1, var2 := store (w := .byte) c.lflags.var2 val,
            res := store (w := .word) c.lflags.res (tempd.setWidth 16),
            type := t_DSHRw } }
  | DSHRD op1 op2 count =>
      let val := count &&& 0x1f
      if val = 0 then c
      else
        { c with
          lflags := recordShift (w := .dword) t_DSHRd op1 val
            ((op1 >>> val.toNat) ||| (op2 <<< (32 - val.toNat))) c.lflags }

end Instr

end AugraDosbox
