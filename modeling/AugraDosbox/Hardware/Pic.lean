import AugraDosbox.Lib.BitRegister
import Mathlib

/-!
# The two interrupt controllers

`PIC_Controller` and its ports, as `src/hardware/pic.cpp` has them.

* `Controller` — the registers of one 8259.  A method that may signal the CPU or
  the other controller does so at most once, as its last act, so it returns the
  registers and the signal it ends with;
* `Pics` — the pair.  The primary's signal goes to `PIC_IRQCheck`, the
  secondary's to request bit 2 of the primary;
* `write_command`, `write_data`, `PIC_ActivateIRQ`, `PIC_DeActivateIRQ`,
  `PIC_SetIRQMask` and `PIC_runIRQs` — what the guest, the devices and the CPU
  core do to it.

What an `activate` takes from `CPU_Cycles` is left out: it moves the moment of the
next `PIC_runIRQs`, and here these are called at any moment.
-/

namespace AugraDosbox

open BitRegister

/-- A byte register of the controller. -/
abbrev Reg := BitVec 8

/-! ## One controller -/

/-- `activate()` and `deactivate()`: what a controller tells whoever it is wired to. -/
inductive Signal where
  | activate
  | deactivate
deriving DecidableEq, Repr

/-- `struct PIC_Controller`. -/
structure Controller where
  icw_words : Nat
  icw_index : Nat
  special : Bool
  auto_eoi : Bool
  rotate_on_auto_eoi : Bool
  single : Bool
  request_issr : Bool
  vector_base : Reg
  /-- The request register. -/
  irr : Reg
  /-- The mask register. -/
  imr : Reg
  /-- The mask register reversed. -/
  imrr : Reg
  /-- The in-service register. -/
  isr : Reg
  /-- The in-service register reversed. -/
  isrr : Reg
  /-- The currently active IRQ, `8` for none. -/
  active_irq : Nat
deriving DecidableEq, Repr

namespace Controller

/-- `(irr & imrr) & isrr`. -/
def possible_irq (c : Controller) : Reg := c.irr &&& c.imrr &&& c.isrr

/-- The limit of the scan for a ready IRQ: `special ? 8 : active_irq`. -/
def a_irq (c : Controller) : Nat := if c.special then 8 else c.active_irq

def update_active_irq (c : Controller) : Controller :=
  if c.isr = 0 then { c with active_irq := 8 }
  else match firstSet c.isr 8 with
    | some i => { c with active_irq := i }
    | none => c

/-- The signal that `check_for_irq` ends with. -/
def check_for_irq (c : Controller) : Signal :=
  if c.possible_irq ≠ 0 then
    match firstSet c.possible_irq c.a_irq with
    | some _ => .activate
    | none => .deactivate
  else .deactivate

def check_after_EOI (c : Controller) : Controller × Option Signal :=
  let c := c.update_active_irq
  if c.possible_irq ≠ 0 then (c, some c.check_for_irq) else (c, none)

def raise_irq (c : Controller) (val : Nat) : Controller × Option Signal :=
  if c.irr &&& bit 8 val = 0 then
    let c := { c with irr := c.irr ||| bit 8 val }
    if bit 8 val &&& c.imrr &&& c.isrr ≠ 0 ∧ (c.special = true ∨ val < c.active_irq) then
      (c, some .activate)
    else (c, none)
  else (c, none)

def lower_irq (c : Controller) (val : Nat) : Controller × Option Signal :=
  if c.irr &&& bit 8 val ≠ 0 then
    let c := { c with irr := c.irr &&& ~~~bit 8 val }
    -- other requests may still be up, so the signal is worked out anew
    if bit 8 val &&& c.imrr &&& c.isrr ≠ 0 ∧ (c.special = true ∨ val < c.active_irq) then
      (c, some c.check_for_irq)
    else (c, none)
  else (c, none)

/-- `start_irq`: the request becomes the IRQ in service. -/
def start_irq (c : Controller) (val : Nat) : Controller :=
  let c := { c with irr := c.irr &&& ~~~bit 8 val }
  if c.auto_eoi then c
  else
    let isr := c.isr ||| bit 8 val
    { c with active_irq := val, isr := isr, isrr := ~~~isr }

/-- `set_imr` of a controller; `val` has gone through `Pics.maskValue`. -/
def set_imr (c : Controller) (val : Reg) : Controller × Option Signal :=
  let change := c.imr ^^^ val
  let c := { c with imr := val, imrr := ~~~val }
  if c.irr &&& change &&& c.isrr ≠ 0 then (c, some c.check_for_irq) else (c, none)

/-- The specific EOI of `write_command`. -/
def specificEoi (c : Controller) (irq : Nat) : Controller × Option Signal :=
  let isr := c.isr &&& ~~~bit 8 irq
  check_after_EOI { c with isr := isr, isrr := ~~~isr }

/-- The non-specific EOI of `write_command`: ignored when nothing is in service. -/
def nonspecificEoi (c : Controller) : Controller × Option Signal :=
  if c.active_irq ≠ 8 then c.specificEoi c.active_irq else (c, none)

end Controller

/-! ## The pair -/

/-- Which of the two controllers. -/
inductive Which where
  | primary
  | secondary
deriving DecidableEq, Repr

/-- `pics`, `PIC_IRQCheck` and `is_machine_pcjr()`. -/
structure Pics where
  primary : Controller
  secondary : Controller
  PIC_IRQCheck : Nat
  pcjr : Bool
deriving DecidableEq, Repr

/-- What a call of `PIC_runIRQs` did to the CPU. -/
inductive Started where
  /-- No interrupt was started. -/
  | nothing
  /-- `CPU_HW_Interrupt(vector)` for this IRQ. -/
  | irq (irq vector : Nat)
  /-- "IRQ 2 is active, but IRQ is not active on the secondary controller." -/
  | notActive
deriving DecidableEq, Repr

namespace Pics

def ctrl (s : Pics) : Which → Controller
  | .primary => s.primary
  | .secondary => s.secondary

/-- The signal of the primary: `PIC_IRQCheck`. -/
def checkAfter (check : Nat) : Option Signal → Nat
  | none => check
  | some .activate => 1
  | some .deactivate => 0

/-- The primary after one of its own methods. -/
def putPrimary (s : Pics) (r : Controller × Option Signal) : Pics :=
  { s with primary := r.1, PIC_IRQCheck := checkAfter s.PIC_IRQCheck r.2 }

/-- The pair after a method of one of them: the secondary's signal is a call of
`primary_controller.raise_irq(2)` or `lower_irq(2)`. -/
def put (s : Pics) (w : Which) (r : Controller × Option Signal) : Pics :=
  match w with
  | .primary => s.putPrimary r
  | .secondary =>
    let s := { s with secondary := r.1 }
    match r.2 with
    | none => s
    | some .activate => s.putPrimary (s.primary.raise_irq 2)
    | some .deactivate => s.putPrimary (s.primary.lower_irq 2)

/-- IRQ 6 is a NMI on the PCjr, so its primary never masks it. -/
def maskValue (s : Pics) (w : Which) (val : Reg) : Reg :=
  if s.pcjr = true ∧ w = .primary then val &&& ~~~bit 8 6 else val

def set_imr (s : Pics) (w : Which) (val : Reg) : Pics :=
  s.put w ((s.ctrl w).set_imr (s.maskValue w val))

/-! ## Ports -/

/-- `write_command`, the ports 20h and A0h. -/
def write_command (s : Pics) (w : Which) (val : Reg) : Pics :=
  if val &&& 0x10#8 ≠ 0 then
    let s := s.set_imr w 0
    let words := 2 + (val &&& 0x01#8).toNat
    s.put w ({ s.ctrl w with
      single := decide (val &&& 0x02#8 = 0x02#8), icw_index := 1, icw_words := words }, none)
  else if val &&& 0x08#8 ≠ 0 then
    let c := s.ctrl w
    let c := if val &&& 0x02#8 ≠ 0 then
      { c with request_issr := decide (val &&& 0x01#8 ≠ 0) } else c
    if val &&& 0x40#8 ≠ 0 then
      let c := { c with special := decide (val &&& 0x20#8 ≠ 0) }
      s.put w (c, some c.check_for_irq)
    else s.put w (c, none)
  else if val &&& 0x20#8 ≠ 0 then
    if val &&& 0x40#8 ≠ 0 then s.put w ((s.ctrl w).specificEoi (val.toNat - 0x60))
    else s.put w (s.ctrl w).nonspecificEoi
  else if val &&& 0x40#8 = 0 then
    s.put w ({ s.ctrl w with rotate_on_auto_eoi := decide (val &&& 0x80#8 ≠ 0) }, none)
  else s

/-- `icw_index++ >= icw_words`: the last initialisation word has been written. -/
def nextIcw (c : Controller) : Controller :=
  if c.icw_words ≤ c.icw_index then { c with icw_index := 0 }
  else { c with icw_index := c.icw_index + 1 }

/-- The second initialisation word: the vector base; a single controller skips the
third word. -/
def icw2 (c : Controller) (val : Reg) : Controller :=
  let c := { c with vector_base := val &&& 0xf8#8 }
  if c.icw_words ≤ c.icw_index then { c with icw_index := 0 }
  else if c.single then { c with icw_index := 3 }
  else { c with icw_index := c.icw_index + 1 }

/-- `write_data`, the ports 21h and A1h. -/
def write_data (s : Pics) (w : Which) (val : Reg) : Pics :=
  let c := s.ctrl w
  match c.icw_index with
  | 0 => s.set_imr w val
  | 1 => s.put w (icw2 c val, none)
  | 2 => s.put w (nextIcw c, none)
  | 3 => s.put w (nextIcw { c with auto_eoi := decide (val &&& 0x2#8 ≠ 0) }, none)
  | _ => s

def read_command (s : Pics) (w : Which) : Reg :=
  if (s.ctrl w).request_issr then (s.ctrl w).isr else (s.ctrl w).irr

def read_data (s : Pics) (w : Which) : Reg := (s.ctrl w).imr

/-! ## Devices and the CPU core -/

/-- The controller that serves an IRQ. -/
def serving (irq : Nat) : Which := if irq > 7 then .secondary else .primary

/-- The IRQ's number on its own controller. -/
def line (irq : Nat) : Nat := if irq > 7 then irq - 8 else irq

def PIC_ActivateIRQ (s : Pics) (irq : Nat) : Pics :=
  s.put (serving irq) ((s.ctrl (serving irq)).raise_irq (line irq))

def PIC_DeActivateIRQ (s : Pics) (irq : Nat) : Pics :=
  s.put (serving irq) ((s.ctrl (serving irq)).lower_irq (line irq))

def PIC_SetIRQMask (s : Pics) (irq : Nat) (masked : Bool) : Pics :=
  let newmask := (s.ctrl (serving irq)).imr &&& ~~~bit 8 (line irq)
  s.set_imr (serving irq) (if masked then newmask ||| bit 8 (line irq) else newmask)

def secondary_startIRQ (s : Pics) : Pics × Started :=
  match firstSet s.secondary.possible_irq s.secondary.a_irq with
  | none => (s, .notActive)
  | some i =>
    if i = 8 then (s, .notActive)
    else
      ({ s with secondary := s.secondary.start_irq i, primary := s.primary.start_irq 2 },
        .irq (8 + i) (s.secondary.vector_base.toNat + i))

def primary_startIRQ (s : Pics) (i : Nat) : Pics × Started :=
  ({ s with primary := s.primary.start_irq i }, .irq i (s.primary.vector_base.toNat + i))

/-- `PIC_runIRQs` with the interrupt flag and whether the trap core is running. -/
def PIC_runIRQs (s : Pics) (IF trap : Bool) : Pics × Started :=
  if IF = false then (s, .nothing)
  else if s.PIC_IRQCheck = 0 then (s, .nothing)
  else if trap then (s, .nothing)
  else
    let (s, started) :=
      match firstSet s.primary.possible_irq s.primary.a_irq with
      | none => (s, Started.nothing)
      | some i => if i = 2 then s.secondary_startIRQ else s.primary_startIRQ i
    ({ s with PIC_IRQCheck := 0 }, started)

/-! ## Start of the machine -/

/-- A controller as the constructor of `PIC_8259A` sets it up. -/
def freshController (vector_base : Reg) : Controller :=
  { icw_words := 0, icw_index := 0, special := false, auto_eoi := false
    rotate_on_auto_eoi := false, single := false, request_issr := false
    vector_base := vector_base, irr := 0, imr := 0xff, imrr := 0, isr := 0, isrr := 0xff
    active_irq := 8 }

/-- Both controllers before the constructor opens the first IRQs. -/
def fresh (pcjr : Bool) : Pics :=
  { primary := freshController 0x08, secondary := freshController 0x70
    PIC_IRQCheck := 0, pcjr := pcjr }

/-- The constructor of `PIC_8259A`. -/
def PIC_8259A (pcjr egaOrBetter : Bool) : Pics :=
  let s := (fresh pcjr).PIC_SetIRQMask 0 false
  let s := s.PIC_SetIRQMask 1 false
  let s := s.PIC_SetIRQMask 2 false
  let s := s.PIC_SetIRQMask 8 false
  let s := if egaOrBetter then (s.PIC_SetIRQMask 9 false).PIC_DeActivateIRQ 9 else s
  if pcjr then s.PIC_SetIRQMask 6 false else s

end Pics

end AugraDosbox
