import AugraDosbox.Cpu.LazyFlags

/-!
# The helpers of the dynamic core

The functions of `src/cpu/core_dynrec/operators.h` that translated code calls, and the macros
of `src/cpu/instructions.h` that the normal core uses for the same instructions.

* `dynrec_add`, `dynrec_rol`, `dynrec_dshl_word`, `dynrec_idiv` and so on — the helpers;
  `dynrec_add_byte` is `dynrec_add .byte` here;
* `dynrec_add_simple` and so on — the helpers that leave the flags alone;
* `Helper` — the helpers with their operands, `Helper.dynrec`, `Helper.simple` and
  `Helper.normal`.

The normal core records its lazy flags as in `Instr.record`.
-/

namespace AugraDosbox.Dynrec

open FlagType

inductive DualOps where
  | DOP_ADD | DOP_ADC | DOP_SUB | DOP_SBB | DOP_CMP | DOP_XOR | DOP_AND | DOP_OR | DOP_TEST
deriving DecidableEq

inductive SingleOps where
  | SOP_INC | SOP_DEC | SOP_NEG
deriving DecidableEq

inductive ShiftOps where
  | SHIFT_ROL | SHIFT_ROR | SHIFT_RCL | SHIFT_RCR | SHIFT_SHL | SHIFT_SHR | SHIFT_SAR
deriving DecidableEq

/-- The registers that the helpers read and write, and the flags. -/
structure Machine where
  eax : BitVec 32
  edx : BitVec 32
  cpu : Cpu
deriving DecidableEq

/-- A carry as a number. -/
def carryIn (w : Width) (cf : Bool) : BitVec w.bits := (BitVec.ofBool cf).setWidth w.bits

section

variable (w : Width) (op1 op2 op : BitVec w.bits) (c : Cpu)

/-! ## Two operands -/

def dynrec_add : BitVec w.bits × Cpu :=
  let res := op1 + op2
  (res, { c with lflags := record2 (t_ADD w) op1 op2 res c.lflags })

def dynrec_adc : BitVec w.bits × Cpu :=
  let oldcf := truth (get_CF c)
  let res := op1 + op2 + carryIn w oldcf
  (res, { c with lflags := { record2 (t_ADC w) op1 op2 res c.lflags with oldcf := oldcf } })

def dynrec_sub : BitVec w.bits × Cpu :=
  let res := op1 - op2
  (res, { c with lflags := record2 (t_SUB w) op1 op2 res c.lflags })

def dynrec_sbb : BitVec w.bits × Cpu :=
  let oldcf := truth (get_CF c)
  let res := op1 - (op2 + carryIn w oldcf)
  (res, { c with lflags := { record2 (t_SBB w) op1 op2 res c.lflags with oldcf := oldcf } })

def dynrec_cmp : Cpu :=
  { c with lflags := record2 (t_CMP w) op1 op2 (op1 - op2) c.lflags }

def dynrec_xor : BitVec w.bits × Cpu :=
  let res := op1 ^^^ op2
  (res, { c with lflags := record2 (t_XOR w) op1 op2 res c.lflags })

def dynrec_and : BitVec w.bits × Cpu :=
  let res := op1 &&& op2
  (res, { c with lflags := record2 (t_AND w) op1 op2 res c.lflags })

def dynrec_or : BitVec w.bits × Cpu :=
  let res := op1 ||| op2
  (res, { c with lflags := record2 (t_OR w) op1 op2 res c.lflags })

def dynrec_test : Cpu :=
  { c with lflags := record2 (t_TEST w) op1 op2 (op1 &&& op2) c.lflags }

def dynrec_adc_simple : BitVec w.bits := op1 + op2 + carryIn w (truth (get_CF c))

def dynrec_sbb_simple : BitVec w.bits := op1 - (op2 + carryIn w (truth (get_CF c)))

/-! ## One operand -/

def LoadCF : Cpu := { c with reg_flags := SETFLAGBIT .CF (truth (get_CF c)) c.reg_flags }

def dynrec_inc : BitVec w.bits × Cpu :=
  let c := LoadCF c
  let res := op + 1
  (res, { c with lflags := record1 (t_INC w) op res c.lflags })

def dynrec_dec : BitVec w.bits × Cpu :=
  let c := LoadCF c
  let res := op - 1
  (res, { c with lflags := record1 (t_DEC w) op res c.lflags })

def dynrec_neg : BitVec w.bits × Cpu :=
  let res := 0 - op
  (res, { c with lflags := record1 (t_NEG w) op res c.lflags })

end

/-! ## Rotates and shifts -/

/-- What a rotate leaves in the lazy flags, and the two flags that it sets. -/
def rotated {w : Width} (op1 : BitVec w.bits) (count : BitVec 8) (res : BitVec w.bits)
    (carry overflow : Bool) (c : Cpu) : Cpu where
  reg_flags := c.reg_flags |> SETFLAGBIT .CF carry |> SETFLAGBIT .OF overflow
  lflags := { c.lflags with
    var1 := store c.lflags.var1 op1
    var2 := store (w := .byte) c.lflags.var2 count
    res := store c.lflags.res res }

section

variable {w : Width} (op1 : BitVec w.bits) (count : BitVec 8) (c : Cpu)

def rolResult : BitVec w.bits :=
  (op1 <<< count.toNat) ||| (op1 >>> (w.bits - count.toNat))

def rorResult : BitVec w.bits :=
  (op1 >>> count.toNat) ||| (op1 <<< (w.bits - count.toNat))

/-- A rotation to the left by a count that has been masked. -/
def rolBy : BitVec w.bits × Cpu :=
  let res := rolResult op1 count
  (res, rotated op1 count res (truth (res &&& 1))
    (truth ((res &&& 1) ^^^ (res >>> (w.bits - 1)))) (FillFlagsNoCFOF c))

def rorBy : BitVec w.bits × Cpu :=
  let res := rorResult op1 count
  (res, rotated op1 count res (truth (res &&& w.sign))
    (truth ((res ^^^ (res <<< 1)) &&& w.sign)) (FillFlagsNoCFOF c))

def rclResult (cf : Bool) : BitVec w.bits :=
  (op1 <<< count.toNat) ||| (carryIn w cf <<< (count.toNat - 1)) |||
    (op1 >>> (w.bits + 1 - count.toNat))

def rcrResult (cf : Bool) : BitVec w.bits :=
  (op1 >>> count.toNat) ||| (carryIn w cf <<< (w.bits - count.toNat)) |||
    (op1 <<< (w.bits + 1 - count.toNat))

/-- A rotation through the carry by a count that has been reduced. -/
def rclBy : BitVec w.bits × Cpu :=
  let filled := FillFlags c
  let res := rclResult op1 count (filled.1.getLsbD 0)
  let carry := truth ((op1 >>> (w.bits - count.toNat)) &&& 1)
  (res, rotated op1 count res carry
    (truth (carryIn w carry ^^^ (res >>> (w.bits - 1)))) filled.2)

def rcrBy : BitVec w.bits × Cpu :=
  let filled := FillFlags c
  let res := rcrResult op1 count (filled.1.getLsbD 0)
  (res, rotated op1 count res (truth ((op1 >>> (count - 1).toNat) &&& 1))
    (truth ((res ^^^ (res <<< 1)) &&& w.sign)) filled.2)

end

/-- The flags of a rotation by a multiple of the width. -/
def wholeTurn (carry overflow : Bool) (c : Cpu) : Cpu :=
  let c := FillFlagsNoCFOF c
  { c with reg_flags := c.reg_flags |> SETFLAGBIT .CF carry |> SETFLAGBIT .OF overflow }

def rolWhole {w : Width} (op1 : BitVec w.bits) (c : Cpu) : BitVec w.bits × Cpu :=
  (op1, wholeTurn (truth (op1 &&& 1)) (truth ((op1 &&& 1) ^^^ (op1 >>> (w.bits - 1)))) c)

def rorWhole {w : Width} (op1 : BitVec w.bits) (c : Cpu) : BitVec w.bits × Cpu :=
  (op1, wholeTurn (truth (op1 >>> (w.bits - 1)))
    (truth ((op1 >>> (w.bits - 1)) ^^^ ((op1 >>> (w.bits - 2)) &&& 1))) c)

def dynrec_rol (w : Width) (op1 : BitVec w.bits) (op2 : BitVec 8) (c : Cpu) : BitVec w.bits × Cpu :=
  match w with
  | .byte =>
    if op2 &&& 0x7 = 0 then if op2 &&& 0x18 ≠ 0 then rolWhole op1 c else (op1, c)
    else rolBy op1 (op2 &&& 0x07) c
  | .word =>
    if op2 &&& 0xf = 0 then if op2 &&& 0x10 ≠ 0 then rolWhole op1 c else (op1, c)
    else rolBy op1 (op2 &&& 0xf) c
  | .dword => if op2 = 0 then (op1, c) else rolBy op1 op2 c

def dynrec_ror (w : Width) (op1 : BitVec w.bits) (op2 : BitVec 8) (c : Cpu) : BitVec w.bits × Cpu :=
  match w with
  | .byte =>
    if op2 &&& 0x7 = 0 then if op2 &&& 0x18 ≠ 0 then rorWhole op1 c else (op1, c)
    else rorBy op1 (op2 &&& 0x07) c
  | .word =>
    if op2 &&& 0xf = 0 then if op2 &&& 0x10 ≠ 0 then rorWhole op1 c else (op1, c)
    else rorBy op1 (op2 &&& 0xf) c
  | .dword => if op2 = 0 then (op1, c) else rorBy op1 op2 c

def dynrec_rcl (w : Width) (op1 : BitVec w.bits) (op2 : BitVec 8) (c : Cpu) : BitVec w.bits × Cpu :=
  match w with
  | .byte => if op2 % 9 ≠ 0 then rclBy op1 (op2 % 9) c else (op1, c)
  | .word => if op2 % 17 ≠ 0 then rclBy op1 (op2 % 17) c else (op1, c)
  | .dword => if op2 = 0 then (op1, c) else rclBy op1 op2 c

def dynrec_rcr (w : Width) (op1 : BitVec w.bits) (op2 : BitVec 8) (c : Cpu) : BitVec w.bits × Cpu :=
  match w with
  | .byte => if op2 % 9 ≠ 0 then rcrBy op1 (op2 % 9) c else (op1, c)
  | .word => if op2 % 17 ≠ 0 then rcrBy op1 (op2 % 17) c else (op1, c)
  | .dword => if op2 ≠ 0 then rcrBy op1 op2 c else (op1, c)

section

variable (w : Width) (op1 : BitVec w.bits) (op2 : BitVec 8) (c : Cpu)

def dynrec_shl : BitVec w.bits × Cpu :=
  if op2 = 0 then (op1, c)
  else
    let res := op1 <<< op2.toNat
    (res, { c with lflags := recordShift (t_SHL w) op1 op2 res c.lflags })

def dynrec_shr : BitVec w.bits × Cpu :=
  if op2 = 0 then (op1, c)
  else
    let res := op1 >>> op2.toNat
    (res, { c with lflags := recordShift (t_SHR w) op1 op2 res c.lflags })

/-- The count, which is at most the width. -/
def sarLimit (w : Width) (op2 : BitVec 8) : BitVec 8 :=
  match w with
  | .byte => if 8 < op2 then 8 else op2
  | .word => if 16 < op2 then 16 else op2
  | .dword => op2

/-- An arithmetic shift, with ones coming in for a negative operand. -/
def sarBy (op1 : BitVec w.bits) (count : BitVec 8) : BitVec w.bits :=
  if truth (op1 &&& w.sign) then
    (op1 >>> count.toNat) ||| (BitVec.allOnes w.bits <<< (w.bits - count.toNat))
  else op1 >>> count.toNat

def dynrec_sar : BitVec w.bits × Cpu :=
  if op2 = 0 then (op1, c)
  else
    let count := sarLimit w op2
    let res := sarBy w op1 count
    (res, { c with lflags := recordShift (t_SAR w) op1 count res c.lflags })

def dynrec_shl_simple : BitVec w.bits := if op2 = 0 then op1 else op1 <<< op2.toNat

def dynrec_shr_simple : BitVec w.bits := if op2 = 0 then op1 else op1 >>> op2.toNat

def dynrec_sar_simple : BitVec w.bits := if op2 = 0 then op1 else sarBy w op1 (sarLimit w op2)

end

def dynrec_rol_simple (w : Width) (op1 : BitVec w.bits) (op2 : BitVec 8) : BitVec w.bits :=
  match w with
  | .byte => if op2 &&& 0x7 = 0 then op1 else rolResult op1 (op2 &&& 0x07)
  | .word => if op2 &&& 0xf = 0 then op1 else rolResult op1 (op2 &&& 0xf)
  | .dword => if op2 = 0 then op1 else rolResult op1 op2

def dynrec_ror_simple (w : Width) (op1 : BitVec w.bits) (op2 : BitVec 8) : BitVec w.bits :=
  match w with
  | .byte => if op2 &&& 0x7 = 0 then op1 else rorResult op1 (op2 &&& 0x07)
  | .word => if op2 &&& 0xf = 0 then op1 else rorResult op1 (op2 &&& 0xf)
  | .dword => if op2 = 0 then op1 else rorResult op1 op2

/-! ## Double shifts -/

def dshlResult (op1 op2 : BitVec 16) (val : BitVec 8) : BitVec 16 :=
  let tempd := ((op1.setWidth 32 <<< 16) ||| op2.setWidth 32) <<< val.toNat
  let tempd := if val > 16 then tempd ||| (op2.setWidth 32 <<< (val.toNat - 16)) else tempd
  (tempd >>> 16).setWidth 16

def dshrResult (op1 op2 : BitVec 16) (val : BitVec 8) : BitVec 16 :=
  let tempd := ((op2.setWidth 32 <<< 16) ||| op1.setWidth 32) >>> val.toNat
  let tempd := if val > 16 then tempd ||| (op2.setWidth 32 <<< (32 - val.toNat)) else tempd
  tempd.setWidth 16

/-- What the double shifts of words record. -/
def recordDouble (type : FlagType) (var1 : BitVec 32) (val : BitVec 8) (res : BitVec 16)
    (c : Cpu) : Cpu :=
  { c with
    lflags := { c.lflags with
      var1 := var1, var2 := store (w := .byte) c.lflags.var2 val
      res := store (w := .word) c.lflags.res res, type := type } }

def dynrec_dshl_word (op1 op2 : BitVec 16) (op3 : BitVec 8) (c : Cpu) : BitVec 16 × Cpu :=
  let val := op3 &&& 0x1f
  if val = 0 then (op1, c)
  else (dshlResult op1 op2 val, recordDouble t_DSHLw
    ((op1.setWidth 32 <<< 16) ||| op2.setWidth 32) val (dshlResult op1 op2 val) c)

def dynrec_dshl_word_simple (op1 op2 : BitVec 16) (op3 : BitVec 8) : BitVec 16 :=
  let val := op3 &&& 0x1f
  if val = 0 then op1 else dshlResult op1 op2 val

def dynrec_dshl_dword (op1 op2 : BitVec 32) (op3 : BitVec 8) (c : Cpu) : BitVec 32 × Cpu :=
  let val := op3 &&& 0x1f
  if val = 0 then (op1, c)
  else
    let res := (op1 <<< val.toNat) ||| (op2 >>> (32 - val.toNat))
    (res, { c with lflags := recordShift (w := .dword) t_DSHLd op1 val res c.lflags })

def dynrec_dshl_dword_simple (op1 op2 : BitVec 32) (op3 : BitVec 8) : BitVec 32 :=
  let val := op3 &&& 0x1f
  if val = 0 then op1 else (op1 <<< val.toNat) ||| (op2 >>> (32 - val.toNat))

def dynrec_dshr_word (op1 op2 : BitVec 16) (op3 : BitVec 8) (c : Cpu) : BitVec 16 × Cpu :=
  let val := op3 &&& 0x1f
  if val = 0 then (op1, c)
  else (dshrResult op1 op2 val, recordDouble t_DSHRw
    ((op2.setWidth 32 <<< 16) ||| op1.setWidth 32) val (dshrResult op1 op2 val) c)

def dynrec_dshr_word_simple (op1 op2 : BitVec 16) (op3 : BitVec 8) : BitVec 16 :=
  let val := op3 &&& 0x1f
  if val = 0 then op1 else dshrResult op1 op2 val

def dynrec_dshr_dword (op1 op2 : BitVec 32) (op3 : BitVec 8) (c : Cpu) : BitVec 32 × Cpu :=
  let val := op3 &&& 0x1f
  if val = 0 then (op1, c)
  else
    let res := (op1 >>> val.toNat) ||| (op2 <<< (32 - val.toNat))
    (res, { c with lflags := recordShift (w := .dword) t_DSHRd op1 val res c.lflags })

def dynrec_dshr_dword_simple (op1 op2 : BitVec 32) (op3 : BitVec 8) : BitVec 32 :=
  let val := op3 &&& 0x1f
  if val = 0 then op1 else (op1 >>> val.toNat) ||| (op2 <<< (32 - val.toNat))

/-! ## Multiplications -/

/-- `AL`, `AX` or `EAX`. -/
def Machine.acc (w : Width) (m : Machine) : BitVec w.bits := m.eax.setWidth w.bits

/-- `AX`, `DX:AX` or `EDX:EAX`. -/
def Machine.pair (w : Width) (m : Machine) : BitVec (2 * w.bits) :=
  match w with
  | .byte => m.eax.setWidth 16
  | .word => m.edx.setWidth 16 ++ m.eax.setWidth 16
  | .dword => m.edx ++ m.eax

/-- Writing `AL` and `AH`, `AX` and `DX`, or `EAX` and `EDX`. -/
def Machine.setPair (w : Width) (low high : BitVec w.bits) (m : Machine) : Machine :=
  match w with
  | .byte =>
    { m with eax := store (w := .word) m.eax ((high.setWidth 16 <<< 8) ||| low.setWidth 16) }
  | .word => { m with eax := store (w := .word) m.eax low, edx := store (w := .word) m.edx high }
  | .dword => { m with eax := low, edx := high }

/-- `SETFLAGBIT(CF,...)` and `SETFLAGBIT(OF,...)` with one value. -/
def setCFOF (value : Bool) (c : Cpu) : Cpu :=
  { c with reg_flags := c.reg_flags |> SETFLAGBIT .CF value |> SETFLAGBIT .OF value }

/-- The lower half of a product. -/
def low (w : Width) {n : ℕ} (product : BitVec n) : BitVec w.bits := product.setWidth w.bits

/-- The upper half. -/
def high (w : Width) {n : ℕ} (product : BitVec n) : BitVec w.bits :=
  (product >>> w.bits).setWidth w.bits

def dynrec_mul (w : Width) (op : BitVec w.bits) (m : Machine) : Machine :=
  let c := FillFlagsNoCFOF m.cpu
  let product := (m.acc w).setWidth (2 * w.bits) * op.setWidth (2 * w.bits)
  let c := { c with reg_flags := SETFLAGBIT .ZF (low w product = 0) c.reg_flags }
  { m.setPair w (low w product) (high w product) with
    cpu := setCFOF (truth (high w product)) c }

/-- A product that fits into a byte. -/
def imulFitsByte (product : BitVec 16) : Bool :=
  product &&& 0xff80 = 0xff80 ∨ product &&& 0xff80 = 0

/-- A product that fits into a dword, by its two halves. -/
def imulFitsDword (product : BitVec 64) : Bool :=
  let edx : BitVec 32 := high .dword product
  let eax : BitVec 32 := low .dword product
  edx = 0xffffffff ∧ truth (eax &&& 0x80000000) ∨ edx = 0 ∧ eax < 0x80000000

def dynrec_imul_byte (op : BitVec 8) (m : Machine) : Machine :=
  let c := FillFlagsNoCFOF m.cpu
  let product := (m.eax.setWidth 8).signExtend 16 * op.signExtend 16
  { m.setPair .byte (low .byte product) (high .byte product) with
    cpu := setCFOF (!imulFitsByte product) c }

/-- The product is a `Bits` of 64 bits. -/
def dynrec_imul_word (op : BitVec 16) (m : Machine) : Machine :=
  let c := FillFlagsNoCFOF m.cpu
  let temps := (m.eax.setWidth 16).signExtend 64 * op.signExtend 64
  { m.setPair .word (low .word temps) (high .word temps) with
    cpu := setCFOF
      (!decide (temps &&& 0xffff8000 = 0xffff8000 ∨ temps &&& 0xffff8000 = 0)) c }

def dynrec_imul_dword (op : BitVec 32) (m : Machine) : Machine :=
  let c := FillFlagsNoCFOF m.cpu
  let temps := m.eax.signExtend 64 * op.signExtend 64
  { m.setPair .dword (low .dword temps) (high .dword temps) with
    cpu := setCFOF (!imulFitsDword temps) c }

def dynrec_dimul_word (op1 op2 : BitVec 16) (c : Cpu) : BitVec 16 × Cpu :=
  let c := FillFlagsNoCFOF c
  let res := op1.toInt * op2.toInt
  (BitVec.ofInt 16 res, setCFOF (!decide (res > -32768 ∧ res < 32767)) c)

def dynrec_dimul_dword (op1 op2 : BitVec 32) (c : Cpu) : BitVec 32 × Cpu :=
  let c := FillFlagsNoCFOF c
  let res := op1.toInt * op2.toInt
  (BitVec.ofInt 32 res, setCFOF (!decide (res > -(2147483647 + 1) ∧ res < 2147483647)) c)

/-! ## Divisions -/

/-- `set_cpu_test_flags_for_division` of `cpu/flags.cpp`. -/
def set_cpu_test_flags_for_division {w : Width} (signed : Bool) (quotient : BitVec w.bits)
    (c : Cpu) : Cpu where
  reg_flags := c.reg_flags
    |> SETFLAGBIT .CF false
    |> SETFLAGBIT .OF false
    |> SETFLAGBIT .PF (truth (parity_lookup (quotient.setWidth 8)))
    |> SETFLAGBIT .SF (signed && quotient.msb)
    |> SETFLAGBIT .ZF (quotient = 0)
  lflags := { c.lflags with type := t_UNKNOWN }

/-- What a division does: `none` is what C++ leaves undefined, and `false` an exception. -/
abbrev Division := Option (Machine × Bool)

/-- `DIVB`, `DIVW` and `DIVD`, which both cores write in the same way. -/
def divide (w : Width) (op : BitVec w.bits) (m : Machine) : Division :=
  let val := op.toNat
  if val = 0 then some (m, false)
  else
    let num := (m.pair w).toNat
    let quo := num / val
    let rem := num % val
    let quo' := BitVec.ofNat w.bits quo
    if quo ≠ quo'.toNat then some (m, false)
    else some ({ m.setPair w quo' (BitVec.ofNat w.bits rem) with
      cpu := set_cpu_test_flags_for_division false quo' m.cpu }, true)

/-- `IDIVB`, `IDIVW` and `IDIVD` with a type of the host for the quotient. -/
def idivide (hostBits : ℕ) (w : Width) (op : BitVec w.bits) (m : Machine) : Division :=
  let val := op.toInt
  if val = 0 then some (m, false)
  else
    let num := (m.pair w).toInt
    let quo := num.tdiv val
    -- the quotient of the lowest number and -1 has no value in the type
    if quo = 2 ^ (hostBits - 1) then none
    else
      let rem := num.tmod val
      let quo' := BitVec.ofInt w.bits quo
      if quo ≠ quo'.toInt then some (m, false)
      else some ({ m.setPair w quo' (BitVec.ofInt w.bits rem) with
        cpu := set_cpu_test_flags_for_division true quo' m.cpu }, true)

def dynrec_div (w : Width) (op : BitVec w.bits) (m : Machine) : Division := divide w op m

/-- All three divide a `Bits` or an `int64_t`. -/
def dynrec_idiv (w : Width) (op : BitVec w.bits) (m : Machine) : Division := idivide 64 w op m

end AugraDosbox.Dynrec
