import AugraDosbox.Input.Keys

/-!
# The keyboard and its controller

The Intel 8042 of `src/hardware/input/intel8042.cpp` and the PS/2 keyboard of
`keyboard.cpp`, which call each other.

* `I8042`, `Keyboard`, `InputSystem` — the state of both.  The rings of both files are
  queues here.  The mouse is another file; `Mouse` holds what it will send when it is
  told that the controller is ready, and what it answers to its next command;
* `flushWith`, `flush_buffer` — the flush may tell the devices that the controller is
  ready, their frames may make the buffer full and flush it again; the number bounds how
  often, and `none` stands for more;
* `read_data_port`, `write_data_port`, `write_command_port`, `delay_handler`,
  `KEYBOARD_AddKey`, `typematic_tick`, `mouseFrame` — what the guest, the timers, the
  host's keyboard and the mouse do.

Left out: the interrupts raised when a byte reaches the output register, the VMware
interface, the LEDs and the parameters of the scancode sets that are not compiled in.
-/

namespace AugraDosbox

/-! ## State -/

/-- A byte in the controller's buffer. -/
structure Slot where
  data : KbdByte
  is_from_aux : Bool
  is_from_kbd : Bool
  skip_delay : Bool
deriving DecidableEq, Repr

/-- The configuration byte; its reserved bits are zero. -/
structure ConfigByte where
  is_irq_active_kbd : Bool
  is_irq_active_aux : Bool
  passed_self_test : Bool
  is_disabled_kbd : Bool
  is_disabled_aux : Bool
  uses_kbd_translation : Bool
deriving DecidableEq, Repr

/-- The value of a bit of a register. -/
def flag (b : Bool) (i : ℕ) : KbdByte := if b then 1#8 <<< i else 0#8

namespace ConfigByte

def data (c : ConfigByte) : KbdByte :=
  flag c.is_irq_active_kbd 0 ||| flag c.is_irq_active_aux 1 ||| flag c.passed_self_test 2 |||
    flag c.is_disabled_kbd 4 ||| flag c.is_disabled_aux 5 ||| flag c.uses_kbd_translation 6

/-- The byte written by the guest, after `sanitize_config_byte`. -/
def ofByte (b : KbdByte) : ConfigByte :=
  { is_irq_active_kbd := b.getLsbD 0, is_irq_active_aux := b.getLsbD 1, passed_self_test := true
    is_disabled_kbd := b.getLsbD 4, is_disabled_aux := b.getLsbD 5
    uses_kbd_translation := b.getLsbD 6 }

end ConfigByte

/-- The controller.  A command code of `0` is `Command::None`. -/
structure I8042 where
  config : ConfigByte
  is_diagnostic_dump : Bool
  data_byte : KbdByte
  is_data_new : Bool
  was_last_write_cmd : Bool
  is_data_from_aux : Bool
  is_data_from_kbd : Bool
  is_transmit_timeout : Bool
  buffer : List Slot
  waiting_bytes_from_aux : ℕ
  waiting_bytes_from_kbd : ℕ
  delay_running : Bool
  delay_expired : Bool
  should_skip_device_notify : Bool
  current_command : KbdByte
  /-- `MEM_A20_Enabled()`. -/
  a20 : Bool
deriving DecidableEq, Repr

/-- The key repetition data. -/
structure Typematic where
  key : Option KBD_KEYS
  wait : ℕ
  pause : ℕ
  rate : ℕ
deriving DecidableEq, Repr

/-- The keyboard: its buffer holds the bytes of one press or release in each place. -/
structure Keyboard where
  buffer : List (List KbdByte)
  buffer_overflowed : Bool
  typematic : Typematic
  is_scanning : Bool
  current_command : KbdByte
  /-- Whether keys are dropped until secure mode is on. -/
  waitsForSecureMode : Bool
deriving DecidableEq, Repr

/-- A frame of mouse data: three bytes, or four with a wheel. -/
structure MouseFrame where
  bytes : List KbdByte
  short : bytes.length ≤ 4
deriving DecidableEq, Repr

/-- What the mouse does next: the frames it has ready when it is told that the controller
is, and its answer to a command. -/
structure Mouse where
  frames : List MouseFrame
  /-- The answer to `MOUSEPS2_PortWrite`: single bytes, a frame for the poll command, and
  whether there is a mouse at all. -/
  replyBytes : List KbdByte
  replyFrame : MouseFrame
  present : Bool
deriving DecidableEq, Repr

structure InputSystem where
  ctl : I8042
  kbd : Keyboard
  mouse : Mouse
deriving DecidableEq, Repr

/-- What the machine's build decides: `FirmwareCopyright` and the input port's bit 6. -/
structure Board where
  copyright : List KbdByte
  lacks_cga : Bool

/-! ## The controller's buffer -/

/-- `BufferSize` of the controller. -/
def controllerBufferSize : ℕ := 64

/-- `buffer_size` of the keyboard. -/
def keyboardBufferSize : ℕ := 8

/-- `translation_table`: scancode set 2 to set 1. -/
def translationTable : List KbdByte :=
  [0xff, 0x43, 0x41, 0x3f, 0x3d, 0x3b, 0x3c, 0x58, 0x64, 0x44, 0x42, 0x40, 0x3e, 0x0f, 0x29, 0x59,
  0x65, 0x38, 0x2a, 0x70, 0x1d, 0x10, 0x02, 0x5a, 0x66, 0x71, 0x2c, 0x1f, 0x1e, 0x11, 0x03, 0x5b,
  0x67, 0x2e, 0x2d, 0x20, 0x12, 0x05, 0x04, 0x5c, 0x68, 0x39, 0x2f, 0x21, 0x14, 0x13, 0x06, 0x5d,
  0x69, 0x31, 0x30, 0x23, 0x22, 0x15, 0x07, 0x5e, 0x6a, 0x72, 0x32, 0x24, 0x16, 0x08, 0x09, 0x5f,
  0x6b, 0x33, 0x25, 0x17, 0x18, 0x0b, 0x0a, 0x60, 0x6c, 0x34, 0x35, 0x26, 0x27, 0x19, 0x0c, 0x61,
  0x6d, 0x73, 0x28, 0x74, 0x1a, 0x0d, 0x62, 0x6e, 0x3a, 0x36, 0x1c, 0x1b, 0x75, 0x2b, 0x63, 0x76,
  0x55, 0x56, 0x77, 0x78, 0x79, 0x7a, 0x0e, 0x7b, 0x7c, 0x4f, 0x7d, 0x4b, 0x47, 0x7e, 0x7f, 0x6f,
  0x52, 0x53, 0x50, 0x4c, 0x4d, 0x48, 0x01, 0x45, 0x57, 0x4e, 0x51, 0x4a, 0x37, 0x49, 0x46, 0x54,
  0x80, 0x81, 0x82, 0x41, 0x54, 0x85, 0x86, 0x87, 0x88, 0x89, 0x8a, 0x8b, 0x8c, 0x8d, 0x8e, 0x8f,
  0x90, 0x91, 0x92, 0x93, 0x94, 0x95, 0x96, 0x97, 0x98, 0x99, 0x9a, 0x9b, 0x9c, 0x9d, 0x9e, 0x9f,
  0xa0, 0xa1, 0xa2, 0xa3, 0xa4, 0xa5, 0xa6, 0xa7, 0xa8, 0xa9, 0xaa, 0xab, 0xac, 0xad, 0xae, 0xaf,
  0xb0, 0xb1, 0xb2, 0xb3, 0xb4, 0xb5, 0xb6, 0xb7, 0xb8, 0xb9, 0xba, 0xbb, 0xbc, 0xbd, 0xbe, 0xbf,
  0xc0, 0xc1, 0xc2, 0xc3, 0xc4, 0xc5, 0xc6, 0xc7, 0xc8, 0xc9, 0xca, 0xcb, 0xcc, 0xcd, 0xce, 0xcf,
  0xd0, 0xd1, 0xd2, 0xd3, 0xd4, 0xd5, 0xd6, 0xd7, 0xd8, 0xd9, 0xda, 0xdb, 0xdc, 0xdd, 0xde, 0xdf,
  0xe0, 0xe1, 0xe2, 0xe3, 0xe4, 0xe5, 0xe6, 0xe7, 0xe8, 0xe9, 0xea, 0xeb, 0xec, 0xed, 0xee, 0xef,
  0xf0, 0xf1, 0xf2, 0xf3, 0xf4, 0xf5, 0xf6, 0xf7, 0xf8, 0xf9, 0xfa, 0xfb, 0xfc, 0xfd, 0xfe, 0xff]

def get_translated (byte : KbdByte) : KbdByte := translationTable.getD byte.toNat 0

namespace I8042

variable (c : I8042)

def IsReadyForAuxFrame : Bool :=
  decide (c.waiting_bytes_from_aux = 0) && !c.config.is_disabled_aux && !c.is_diagnostic_dump

def IsReadyForKbdFrame : Bool :=
  decide (c.waiting_bytes_from_kbd = 0) && !c.config.is_disabled_kbd && !c.is_diagnostic_dump

def restart_delay_timer : I8042 := { c with delay_running := true, delay_expired := false }

/-- One byte from the buffer to the output register. -/
def maybe_transfer_buffer : I8042 :=
  if c.is_data_new then c
  else match c.buffer with
    | [] => c
    | slot :: rest =>
      if c.delay_expired = false ∧ slot.skip_delay = false then c
      else restart_delay_timer { c with
        buffer := rest, data_byte := slot.data, is_data_from_aux := slot.is_from_aux
        is_data_from_kbd := slot.is_from_kbd, is_data_new := true }

/-- The buffer with one more byte. -/
def append (byte : KbdByte) (is_from_aux is_from_kbd skip_delay : Bool) : I8042 :=
  let data := if is_from_kbd && c.config.uses_kbd_translation then get_translated byte else byte
  { c with
    buffer := c.buffer ++
      [⟨data, is_from_aux, is_from_kbd, skip_delay || (!is_from_aux && !is_from_kbd)⟩]
    waiting_bytes_from_aux := c.waiting_bytes_from_aux + if is_from_aux then 1 else 0
    waiting_bytes_from_kbd := c.waiting_bytes_from_kbd + if is_from_kbd then 1 else 0 }

/-- `status_byte.data`. -/
def statusByte : KbdByte :=
  flag c.is_data_new 0 ||| flag true 2 ||| flag c.was_last_write_cmd 3 ||| flag true 4 |||
    flag c.is_data_from_aux 5 ||| flag c.is_transmit_timeout 6

/-- `get_output_port`. -/
def outputPort : KbdByte :=
  flag true 0 ||| flag c.a20 1 ||| flag c.config.is_irq_active_kbd 4 |||
    flag c.config.is_irq_active_aux 5

end I8042

namespace InputSystem

section Flush

-- the flush that a full buffer causes
variable (flush : InputSystem → Option InputSystem) (s : InputSystem)

def buffer_add (byte : KbdByte) (is_from_aux is_from_kbd skip_delay : Bool) :
    Option InputSystem :=
  if (is_from_aux && s.ctl.config.is_disabled_aux) ||
      (is_from_kbd && s.ctl.config.is_disabled_kbd) then some s
  else if controllerBufferSize ≤ s.ctl.buffer.length then flush s
  else some { s with
    ctl := (s.ctl.append byte is_from_aux is_from_kbd skip_delay).maybe_transfer_buffer }

def enforce_buffer_space (num_bytes : ℕ) : Option InputSystem :=
  if controllerBufferSize < s.ctl.buffer.length + num_bytes then flush s else some s

/-- The loop over the bytes of a mouse frame: only the first one waits for the timer. -/
def addAuxBytes : List KbdByte → Bool → InputSystem → Option InputSystem
  | [], _, s => some s
  | byte :: bytes, skip_delay, s =>
    (s.buffer_add flush byte true false skip_delay).bind (addAuxBytes bytes true)

/-- The loop over the bytes of a keyboard frame. -/
def addKbdBytes : List KbdByte → InputSystem → Option InputSystem
  | [], s => some s
  | byte :: bytes, s => (s.buffer_add flush byte false true false).bind (addKbdBytes bytes)

def I8042_AddAuxByte (byte : KbdByte) : Option InputSystem :=
  if s.ctl.config.is_disabled_aux then some s
  else
    let s := { s with ctl := { s.ctl with is_transmit_timeout := false } }
    (s.enforce_buffer_space flush 1).bind fun s => s.buffer_add flush byte true false false

def I8042_AddAuxFrame (bytes : List KbdByte) : Option InputSystem :=
  if bytes = [] ∨ s.ctl.config.is_disabled_aux = true then some s
  else
    let s := { s with ctl := { s.ctl with is_transmit_timeout := false } }
    (s.enforce_buffer_space flush bytes.length).bind (addAuxBytes flush bytes false)

def I8042_AddKbdByte (byte : KbdByte) : Option InputSystem :=
  if s.ctl.config.is_disabled_kbd then some s
  else
    let s := { s with ctl := { s.ctl with is_transmit_timeout := false } }
    (s.enforce_buffer_space flush 1).bind fun s => s.buffer_add flush byte false true false

def I8042_AddKbdFrame (bytes : List KbdByte) : Option InputSystem :=
  if bytes = [] ∨ s.ctl.config.is_disabled_kbd = true then some s
  else
    let s := { s with ctl := { s.ctl with is_transmit_timeout := false } }
    (s.enforce_buffer_space flush bytes.length).bind (addKbdBytes flush bytes)

/-- `maybe_transfer_buffer` of the keyboard: the oldest press or release goes to the
controller when that is ready. -/
def kbdTransfer : Option InputSystem :=
  match s.kbd.buffer with
  | [] => some s
  | scan_code :: _ =>
    if s.ctl.IsReadyForKbdFrame then
      (s.I8042_AddKbdFrame flush scan_code).map fun s =>
        { s with kbd := { s.kbd with buffer := s.kbd.buffer.tail } }
    else some s

def KEYBOARD_NotifyReadyForFrame : Option InputSystem :=
  kbdTransfer flush { s with kbd := { s.kbd with buffer_overflowed := false } }

/-- `maybe_transfer_frame` of the mouse, when it has a frame. -/
def MOUSEPS2_NotifyReadyForFrame : Option InputSystem :=
  match s.mouse.frames with
  | [] => some s
  | frame :: rest =>
    if s.ctl.IsReadyForAuxFrame then
      I8042_AddAuxFrame flush { s with mouse := { s.mouse with frames := rest } } frame.bytes
    else some s

/-- `flush_buffer`, given the flush that the frames sent meanwhile may cause. -/
def flushWith : Option InputSystem :=
  let ctl := { s.ctl with
    is_data_new := false, is_data_from_aux := false, is_data_from_kbd := false, buffer := [] }
  let should_notify_aux := !ctl.should_skip_device_notify && !ctl.IsReadyForAuxFrame
  let should_notify_kbd := !ctl.should_skip_device_notify && !ctl.IsReadyForKbdFrame
  let s := { s with ctl := { ctl with waiting_bytes_from_aux := 0, waiting_bytes_from_kbd := 0 } }
  (if should_notify_aux && s.ctl.IsReadyForAuxFrame then s.MOUSEPS2_NotifyReadyForFrame flush
    else some s).bind fun s =>
  if should_notify_kbd && s.ctl.IsReadyForKbdFrame then s.KEYBOARD_NotifyReadyForFrame flush
  else some s

end Flush

/-- `flush_buffer`, at most `n` deep. -/
def flush_buffer : ℕ → InputSystem → Option InputSystem
  | 0, _ => none
  | n + 1, s => s.flushWith (flush_buffer n)

end InputSystem

end AugraDosbox
