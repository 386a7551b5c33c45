import AugraDosbox.Input.Intel8042

/-!
# Commands, ports and keys

The rest of `intel8042.cpp` and `keyboard.cpp`: the commands of the controller and of
the keyboard, the handlers of the ports 60h and 64h, the delay timer, and the keys.

* `execute_command`, `execute_command_param` — the controller's commands, which run
  while devices are not told about readiness;
* `KEYBOARD_PortWrite` — the keyboard's commands;
* `InputAction`, `step` — everything that happens to the system.
-/

namespace AugraDosbox

/-- How deep flushes may nest. -/
def flushDepth : ℕ := 4

namespace InputSystem

/-- `flush_buffer()` as the code calls it. -/
def flush (s : InputSystem) : Option InputSystem := flush_buffer flushDepth s

/-! ## Commands of the controller -/

/-- Bytes of the controller's own, one after another. -/
def addBytes : List KbdByte → InputSystem → Option InputSystem
  | [], s => some s
  | byte :: bytes, s => (s.buffer_add flush byte false false false).bind (addBytes bytes)

/-- The answer to a command: it replaces what was in the buffer. -/
def answer (bytes : List KbdByte) (s : InputSystem) : Option InputSystem :=
  s.flush.bind (addBytes bytes)

/-- The nibbles of a diagnostic dump, in codeset 1. -/
def nibbleTable : List KbdByte :=
  [0x0b, 0x02, 0x03, 0x04, 0x05, 0x06, 0x07, 0x08, 0x09, 0x0a, 0x1e, 0x30, 0x2e, 0x20, 0x12,
    0x21]

def diagDumpByte (byte : KbdByte) (s : InputSystem) : Option InputSystem :=
  addBytes [nibbleTable.getD (byte.toNat / 16) 0, nibbleTable.getD (byte.toNat % 16) 0, 0x39] s

/-- `get_input_port`. -/
def inputPort (board : Board) : KbdByte := 0xa0#8 ||| flag board.lacks_cga 6

/-- The dump of the configuration byte, of sixteen zero bytes, of both ports, of the test
inputs and of the status byte. -/
def diagnosticDump (board : Board) (s : InputSystem) : Option InputSystem := do
  let s ← s.flush
  let s := { s with ctl := { s.ctl with is_diagnostic_dump := true } }
  let s ← diagDumpByte s.ctl.config.data s
  let s ← (List.replicate 16 (0#8 : KbdByte)).foldlM (fun s byte => diagDumpByte byte s) s
  let s ← diagDumpByte (inputPort board) s
  let s ← diagDumpByte s.ctl.outputPort s
  let s ← diagDumpByte 0 s
  diagDumpByte s.ctl.statusByte s

/-- A change of the controller alone. -/
def withCtl (s : InputSystem) (f : I8042 → I8042) : InputSystem := { s with ctl := f s.ctl }

/-- `execute_command(command)`. -/
def execute_command (board : Board) (command : KbdByte) (s : InputSystem) :
    Option InputSystem :=
  match command.toNat with
  -- commands requiring a parameter
  | 0x60 | 0xd1 | 0xd2 | 0xd3 | 0xd4 | 0xcb =>
    some (s.withCtl fun c => { c with current_command := command })
  | 0x20 => s.answer [s.ctl.config.data]
  | 0xa0 => s.answer (board.copyright ++ [0])
  | 0xa1 => s.answer [0x00]
  | 0xa4 => s.answer [0xf1]
  | 0xa7 => some (s.withCtl fun c => { c with config := { c.config with is_disabled_aux := true } })
  | 0xa8 =>
    some (s.withCtl fun c => { c with config := { c.config with is_disabled_aux := false } })
  | 0xa9 =>
    answer [0x00] (s.withCtl fun c =>
      { c with config := { c.config with is_disabled_aux := true } })
  | 0xaa =>
    answer [0x55] (s.withCtl fun c => { c with
      a20 := true
      config := { c.config with
        is_disabled_aux := true, is_disabled_kbd := true, uses_kbd_translation := true
        passed_self_test := true } })
  | 0xab =>
    answer [0x00] (s.withCtl fun c =>
      { c with config := { c.config with is_disabled_kbd := true } })
  | 0xac => s.diagnosticDump board
  | 0xad => some (s.withCtl fun c => { c with config := { c.config with is_disabled_kbd := true } })
  | 0xae =>
    some (s.withCtl fun c => { c with config := { c.config with is_disabled_kbd := false } })
  | 0xaf => s.answer [0x00]
  | 0xc0 => s.answer [inputPort board]
  | 0xca => s.answer [0x01]
  | 0xd0 => s.answer [s.ctl.outputPort]
  | 0xdd => some (s.withCtl fun c => { c with a20 := false })
  | 0xdf => some (s.withCtl fun c => { c with a20 := true })
  | 0xe0 => s.answer [0x00]
  | code =>
    if 0x20 ≤ code ∧ code ≤ 0x3f then addBytes [0x00] s
    else if (0x60 ≤ code ∧ code ≤ 0x7f) ∨ 0xf0 ≤ code then
      some (s.withCtl fun c => { c with current_command := command })
    else some s

/-- `MOUSEPS2_PortWrite`: the bytes and the frame the mouse answers with. -/
def mousePortWrite (s : InputSystem) : Option InputSystem :=
  if s.mouse.present then
    (s.mouse.replyBytes.foldlM (fun (s : InputSystem) byte => s.I8042_AddAuxByte flush byte) s).bind fun s =>
      s.I8042_AddAuxFrame flush s.mouse.replyFrame.bytes
  else some s

/-- `execute_command(command, param)`.  A restart of the emulator is not followed. -/
def execute_command_param (command param : KbdByte) (s : InputSystem) : Option InputSystem :=
  match command.toNat with
  | 0x60 => some (s.withCtl fun c => { c with config := .ofByte param })
  | 0xd1 => some (s.withCtl fun c => { c with a20 := param.getLsbD 1 })
  | 0xd2 => s.flush.bind fun s => s.buffer_add flush param false true false
  | 0xd3 => s.flush.bind fun s => s.buffer_add flush param true false false
  | 0xd4 =>
    (s.withCtl I8042.restart_delay_timer).mousePortWrite.map fun s' =>
      s'.withCtl fun c => { c with is_transmit_timeout := !s.mouse.present }
  | _ => some s

/-! ## Keys -/

/-- `buffer_add` of the keyboard. -/
def kbdBufferAdd (scan_code : List KbdByte) (s : InputSystem) : Option InputSystem :=
  if scan_code = [] ∨ s.kbd.buffer_overflowed = true then some s
  else if s.kbd.buffer.length = keyboardBufferSize then
    some { s with kbd := { s.kbd with buffer := [], buffer_overflowed := true } }
  else kbdTransfer flush { s with kbd := { s.kbd with buffer := s.kbd.buffer ++ [scan_code] } }

end InputSystem

/-- `typematic_update`. -/
def Typematic.update (t : Typematic) (key_type : KBD_KEYS) (is_pressed : Bool) : Typematic :=
  if key_type = .KBD_pause ∨ key_type = .KBD_printscreen then t
  else if is_pressed then
    { t with key := some key_type, wait := if t.key = some key_type then t.rate else t.pause }
  else if t.key = some key_type then { t with key := none, wait := 0 }
  else t

namespace InputSystem

def KEYBOARD_AddKey (key_type : KBD_KEYS) (is_pressed : Bool) (s : InputSystem) :
    Option InputSystem :=
  if s.kbd.waitsForSecureMode then some s
  else if s.kbd.is_scanning = false then some s
  else
    kbdBufferAdd (KEYBOARD_GetScanCode1 key_type is_pressed)
      { s with kbd := { s.kbd with typematic := s.kbd.typematic.update key_type is_pressed } }

def typematic_tick (s : InputSystem) : Option InputSystem :=
  let wait := s.kbd.typematic.wait - 1
  let s := { s with kbd := { s.kbd with typematic := { s.kbd.typematic with wait := wait } } }
  if wait ≠ 0 then some s
  else match s.kbd.typematic.key with
    | none => some s
    | some key =>
      if s.kbd.buffer ≠ [] ∨ s.ctl.IsReadyForKbdFrame = false then
        some { s with kbd := { s.kbd with typematic := { s.kbd.typematic with wait := 1 } } }
      else s.KEYBOARD_AddKey key true

/-! ## Commands of the keyboard -/

def withKbd (s : InputSystem) (f : Keyboard → Keyboard) : InputSystem := { s with kbd := f s.kbd }

end InputSystem

namespace Keyboard

variable (k : Keyboard)

def clear_buffer : Keyboard :=
  { k with
    buffer := [], buffer_overflowed := false
    typematic := { k.typematic with key := none, wait := 0 } }

/-- `set_defaults`, which also selects scancode set 1. -/
def set_defaults : Keyboard :=
  clear_buffer { k with typematic := { key := none, wait := 0, pause := 500, rate := 33 } }

def keyboard_reset : Keyboard :=
  { k.set_defaults.clear_buffer with is_scanning := true }

/-- The delays before a key repeats, in milliseconds. -/
def pauseTable : List ℕ := [250, 500, 750, 1000]

/-- The times between repeats, in milliseconds. -/
def rateTable : List ℕ :=
  [33, 37, 42, 46, 50, 54, 58, 63, 67, 75, 83, 92, 100, 109, 118, 125, 133, 149, 167, 182, 200,
    217, 233, 250, 270, 303, 333, 370, 400, 435, 476, 500]

def set_type_rate (byte : KbdByte) : Keyboard :=
  { k with typematic := { k.typematic with
    pause := pauseTable.getD (byte.toNat / 32 % 4) 0, rate := rateTable.getD (byte.toNat % 32) 0 } }

end Keyboard

namespace InputSystem

/-- A reply of the keyboard, then a change of its state. -/
def reply (byte : KbdByte) (f : Keyboard → Keyboard) (s : InputSystem) : Option InputSystem :=
  (s.I8042_AddKbdByte flush byte).map (·.withKbd f)

/-- `execute_command(command)` of the keyboard. -/
def kbdCommand (command : KbdByte) (s : InputSystem) : Option InputSystem :=
  match command.toNat with
  | 0xed | 0xf3 => s.reply 0xfa fun k => { k with current_command := command }
  | 0xf0 | 0xfb | 0xfc | 0xfd =>
    s.reply 0xfa fun k => { k.clear_buffer with current_command := command }
  | 0xee => s.reply 0xee id
  | 0xf2 => ((s.reply 0xfa id).bind (reply 0xab id)).bind (reply 0x83 id)
  | 0xf4 => s.reply 0xfa fun k => { k.clear_buffer with is_scanning := true }
  | 0xf5 => s.reply 0xfa fun k => { k.clear_buffer.set_defaults with is_scanning := false }
  | 0xf6 => s.reply 0xfa fun k => { k.clear_buffer.set_defaults with is_scanning := true }
  | 0xf7 | 0xf8 | 0xf9 | 0xfa => s.reply 0xfa Keyboard.clear_buffer
  | 0xfe => s.reply 0xfa id
  | 0xff => (s.reply 0xfa Keyboard.keyboard_reset).bind (reply 0xaa id)
  | _ => s.reply 0xfe id

/-- `execute_command(command, param)` of the keyboard. -/
def kbdCommandParam (command param : KbdByte) (s : InputSystem) : Option InputSystem :=
  match command.toNat with
  | 0xed => s.reply 0xfa id
  | 0xf0 =>
    if param = 0x01 then reply 0xfa id (s.withKbd Keyboard.clear_buffer)
    else if param = 0x00 then (s.reply 0xfa id).bind (reply 0x01 id)
    else reply 0xfe id (s.withKbd fun k => { k with current_command := command })
  | 0xf3 => s.reply 0xfa fun k => k.set_type_rate param
  | 0xfb | 0xfc | 0xfd => s.reply 0xfa Keyboard.clear_buffer
  | _ => some s

/-- Whether the byte starts a new command: the highest bit does, unless it may be the
scancode that a set 3 command waits for. -/
def isKbdCommand (byte : KbdByte) (s : InputSystem) : Bool :=
  byte.getLsbD 7 && decide (s.kbd.current_command ∉ [0xfb#8, 0xfc#8, 0xfd#8])

def KEYBOARD_PortWrite (byte : KbdByte) (s : InputSystem) : Option InputSystem :=
  let is_command := s.isKbdCommand byte
  let command := if is_command then 0 else s.kbd.current_command
  if command ≠ 0 then
    kbdCommandParam command byte (s.withKbd fun k => { k with current_command := 0 })
  else if is_command then kbdCommand byte (s.withKbd fun k => { k with current_command := 0 })
  else some s

/-! ## Ports -/

/-- The notifications at the end of a command. -/
def notifyDevices (should_notify_aux should_notify_kbd : Bool) (s : InputSystem) :
    Option InputSystem :=
  (if should_notify_aux && s.ctl.IsReadyForAuxFrame then s.MOUSEPS2_NotifyReadyForFrame flush
    else some s).bind fun s =>
  if should_notify_kbd && s.ctl.IsReadyForKbdFrame then s.KEYBOARD_NotifyReadyForFrame flush
  else some s

def setSkip (s : InputSystem) (b : Bool) : InputSystem :=
  s.withCtl fun c => { c with should_skip_device_notify := b }

/-- A read of port 60h. -/
def read_data_port (s : InputSystem) : Option (InputSystem × KbdByte) :=
  if s.ctl.is_data_new = false then some (s, s.ctl.data_byte)
  else do
    let s ← (if s.ctl.is_diagnostic_dump = true ∧ s.ctl.buffer = [] then
        notifyDevices true true (s.withCtl fun c => { c with is_diagnostic_dump := false })
      else some s)
    let s ← (if s.ctl.is_data_from_aux then
        notifyDevices true false (s.withCtl fun c =>
          { c with waiting_bytes_from_aux := c.waiting_bytes_from_aux - 1 })
      else some s)
    let s ← (if s.ctl.is_data_from_kbd then
        notifyDevices false true (s.withCtl fun c =>
          { c with waiting_bytes_from_kbd := c.waiting_bytes_from_kbd - 1 })
      else some s)
    some (s.withCtl fun c => I8042.restart_delay_timer { c with
      is_data_new := false, is_data_from_aux := false, is_data_from_kbd := false },
      s.ctl.data_byte)

/-- A write to port 60h. -/
def write_data_port (byte : KbdByte) (s : InputSystem) : Option InputSystem :=
  let s := s.withCtl fun c => { c with was_last_write_cmd := false }
  if s.ctl.current_command ≠ 0 then do
    let command := s.ctl.current_command
    let s := s.withCtl fun c => { c with current_command := 0 }
    let should_notify_aux := !s.ctl.IsReadyForAuxFrame
    let should_notify_kbd := !s.ctl.IsReadyForKbdFrame
    let s ← (s.setSkip true).flush
    let s ← execute_command_param command byte s
    notifyDevices should_notify_aux should_notify_kbd (s.setSkip false)
  else do
    -- the keyboard port is enabled before the flush looks whether it was ready
    let s := s.withCtl fun c => { c with
      is_transmit_timeout := false, config := { c.config with is_disabled_kbd := false } }
    let s ← s.flush
    KEYBOARD_PortWrite byte (s.withCtl I8042.restart_delay_timer)

/-- A write to port 64h. -/
def write_command_port (board : Board) (byte : KbdByte) (s : InputSystem) :
    Option InputSystem := do
  let s := s.setSkip true
  let should_notify_aux := !s.ctl.IsReadyForAuxFrame
  let should_notify_kbd := !s.ctl.IsReadyForKbdFrame
  let s ← (if s.ctl.is_diagnostic_dump then
      flush (s.withCtl fun c => { c with is_diagnostic_dump := false })
    else some s)
  let s := s.withCtl fun c => { c with was_last_write_cmd := true, current_command := 0 }
  let s ← (if byte.toNat ≤ 0x1f ∨ (0x40 ≤ byte.toNat ∧ byte.toNat ≤ 0x5f) then
      execute_command board (byte + 0x20) s
    else execute_command board byte s)
  notifyDevices should_notify_aux should_notify_kbd (s.setSkip false)

/-! ## Everything that happens -/

/-- The expiry of the delay timer. -/
def delay_handler (s : InputSystem) : InputSystem :=
  s.withCtl fun c => { c with delay_running := false, delay_expired := true }.maybe_transfer_buffer

/-- The state after `KEYBOARD_Init`. -/
def reset (mouse : Mouse) (waitsForSecureMode : Bool) : InputSystem :=
  { ctl :=
      { config := ⟨true, true, true, false, false, false⟩, is_diagnostic_dump := false
        data_byte := 0, is_data_new := false, was_last_write_cmd := true
        is_data_from_aux := false, is_data_from_kbd := false, is_transmit_timeout := false
        buffer := [], waiting_bytes_from_aux := 0, waiting_bytes_from_kbd := 0
        delay_running := false, delay_expired := true, should_skip_device_notify := false
        current_command := 0, a20 := false }
    kbd := ⟨[], false, ⟨none, 0, 500, 33⟩, true, 0, waitsForSecureMode⟩, mouse := mouse }

end InputSystem

/-- What happens to the keyboard and its controller. -/
inductive InputAction where
  | addKey (key_type : KBD_KEYS) (is_pressed : Bool)
  | read60
  | write60 (byte : KbdByte)
  | write64 (byte : KbdByte)
  | delayExpires
  /-- The mouse moves: it has other frames and answers from now on. -/
  | mouseMoves (mouse : Mouse)
  /-- The mouse sends a frame if the controller is ready for it. -/
  | mouseFrame
  | typematicTick
deriving DecidableEq, Repr

namespace InputSystem

def step (board : Board) (s : InputSystem) : InputAction → Option InputSystem
  | .addKey key_type is_pressed => s.KEYBOARD_AddKey key_type is_pressed
  | .read60 => s.read_data_port.map Prod.fst
  | .write60 byte => s.write_data_port byte
  | .write64 byte => s.write_command_port board byte
  | .delayExpires => some (if s.ctl.delay_running then s.delay_handler else s)
  | .mouseMoves mouse => some { s with mouse := mouse }
  | .mouseFrame => s.MOUSEPS2_NotifyReadyForFrame flush
  | .typematicTick => s.typematic_tick

end InputSystem

end AugraDosbox
