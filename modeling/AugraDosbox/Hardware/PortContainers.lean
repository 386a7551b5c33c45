import Mathlib.Data.Nat.Notation
import Mathlib.Logic.Function.Basic

/-!
# The I/O port containers

The maps from ports to handlers: one map for each width an access can have, in each direction.

* `Maps` — the three maps of one direction;
* `IO_RegisterReadHandler`, `IO_RegisterWriteHandler`, `IO_FreeReadHandler`, `IO_FreeWriteHandler`;
* `read_byte_from_port`, … , `write_dword_to_port` — the accesses, with what the handlers do to the
  devices.
-/

namespace AugraDosbox.Port

abbrev io_port_t := BitVec 16

abbrev io_val_t := BitVec 32

inductive io_width_t where
  | byte | word | dword
deriving DecidableEq, Repr

namespace io_width_t

/-- The value of the enumerator. -/
def bytes : io_width_t → ℕ
  | byte => 1
  | word => 2
  | dword => 4

end io_width_t

/-- A handler in a map: the one that blocks, or one of a device. -/
inductive Handler (H : Type) where
  | blocked
  | device (handler : H)

/-- What the handlers of the devices do. -/
structure Devices (R W σ : Type) where
  read : R → io_port_t → io_width_t → σ → io_val_t × σ
  write : W → io_port_t → io_val_t → io_width_t → σ → σ

variable {H R W σ : Type}

/-- A call of a handler for reading; `blocked_read` is the first one. -/
def Handler.read (dev : Devices R W σ) : Handler R → io_port_t → io_width_t → σ → io_val_t × σ
  | .blocked, _, _, s => (0xff, s)
  | .device handler, port, width, s => dev.read handler port width s

/-- A call of a handler for writing; `blocked_write` is the first one. -/
def Handler.write (dev : Devices R W σ) :
    Handler W → io_port_t → io_val_t → io_width_t → σ → σ
  | .blocked, _, _, _, s => s
  | .device handler, port, val, width, s => dev.write handler port val width s

/-- The maps of one direction. -/
structure Maps (H : Type) where
  byte : io_port_t → Option (Handler H) := fun _ => none
  word : io_port_t → Option (Handler H) := fun _ => none
  dword : io_port_t → Option (Handler H) := fun _ => none

namespace Maps

/-- One round of the loops: the entries of a port are set, or erased, up to a width. -/
def assign (m : Maps H) (port : io_port_t) (entry : Option (Handler H)) (max_width : io_width_t) :
    Maps H :=
  let m := { m with byte := Function.update m.byte port entry }
  let m := if max_width = .word ∨ max_width = .dword then
      { m with word := Function.update m.word port entry } else m
  if max_width = .dword then { m with dword := Function.update m.dword port entry } else m

/-- `while (range--)`, with a port number that wraps around. -/
def assignRange (m : Maps H) (port : io_port_t) (entry : Option (Handler H))
    (max_width : io_width_t) : ℕ → Maps H
  | 0 => m
  | range + 1 => (m.assign port entry max_width).assignRange (port + 1) entry max_width range

/-- `try_emplace`: an entry that is not there is made. -/
def try_emplace (map : io_port_t → Option (Handler H)) (port : io_port_t) :
    Handler H × (io_port_t → Option (Handler H)) :=
  match map port with
  | some handler => (handler, map)
  | none => (.blocked, Function.update map port (some .blocked))

end Maps

/-- The globals `io_read_handlers` and `io_write_handlers`. -/
structure Containers (R W : Type) where
  io_read_handlers : Maps R := {}
  io_write_handlers : Maps W := {}

/-! ## Registering and releasing -/

def IO_RegisterReadHandler (c : Containers R W) (port : io_port_t) (handler : R)
    (max_width : io_width_t) (range : BitVec 16) : Containers R W :=
  { c with
    io_read_handlers :=
      c.io_read_handlers.assignRange port (some (.device handler)) max_width range.toNat }

def IO_RegisterWriteHandler (c : Containers R W) (port : io_port_t) (handler : W)
    (max_width : io_width_t) (range : BitVec 16) : Containers R W :=
  { c with
    io_write_handlers :=
      c.io_write_handlers.assignRange port (some (.device handler)) max_width range.toNat }

def IO_FreeReadHandler (c : Containers R W) (port : io_port_t) (max_width : io_width_t)
    (range : BitVec 16) : Containers R W :=
  { c with
    io_read_handlers := c.io_read_handlers.assignRange port none max_width range.toNat }

def IO_FreeWriteHandler (c : Containers R W) (port : io_port_t) (max_width : io_width_t)
    (range : BitVec 16) : Containers R W :=
  { c with
    io_write_handlers := c.io_write_handlers.assignRange port none max_width range.toNat }

/-! ## Accesses -/

section Accesses

variable (dev : Devices R W σ) (c : Containers R W) (port : io_port_t)

def read_byte_from_port (s : σ) : BitVec 8 × Containers R W × σ :=
  let it := Maps.try_emplace c.io_read_handlers.byte port
  let value := it.1.read dev port .byte s
  ((value.1 &&& 0xff).setWidth 8, { c with io_read_handlers.byte := it.2 }, value.2)

/-- The low half is read first: the operands of `|` from left to right. -/
def read_word_from_port (s : σ) : BitVec 16 × Containers R W × σ :=
  match c.io_read_handlers.word port with
  | some reader =>
      let value := reader.read dev port .word s
      ((value.1 &&& 0xffff).setWidth 16, c, value.2)
  | none =>
      let low := read_byte_from_port dev c port s
      let high := read_byte_from_port dev low.2.1 (port + 1) low.2.2
      (low.1.setWidth 16 ||| high.1.setWidth 16 <<< 8, high.2)

def read_dword_from_port (s : σ) : BitVec 32 × Containers R W × σ :=
  match c.io_read_handlers.dword port with
  | some reader =>
      let value := reader.read dev port .dword s
      (value.1, c, value.2)
  | none =>
      let low := read_word_from_port dev c port s
      let high := read_word_from_port dev low.2.1 (port + 2) low.2.2
      (low.1.setWidth 32 ||| high.1.setWidth 32 <<< 16, high.2)

def write_byte_to_port (val : BitVec 8) (s : σ) : Containers R W × σ :=
  let it := Maps.try_emplace c.io_write_handlers.byte port
  ({ c with io_write_handlers.byte := it.2 }, it.1.write dev port (val.setWidth 32) .byte s)

def write_word_to_port (val : BitVec 16) (s : σ) : Containers R W × σ :=
  match c.io_write_handlers.word port with
  | some writer => (c, writer.write dev port (val.setWidth 32) .word s)
  | none =>
      let low := write_byte_to_port dev c port ((val &&& 0xff).setWidth 8) s
      write_byte_to_port dev low.1 (port + 1) ((val >>> 8).setWidth 8) low.2

def write_dword_to_port (val : BitVec 32) (s : σ) : Containers R W × σ :=
  match c.io_write_handlers.dword port with
  | some writer => (c, writer.write dev port val .dword s)
  | none =>
      let low := write_word_to_port dev c port ((val &&& 0xffff).setWidth 16) s
      write_word_to_port dev low.1 (port + 2) ((val >>> 16).setWidth 16) low.2

end Accesses

end AugraDosbox.Port
