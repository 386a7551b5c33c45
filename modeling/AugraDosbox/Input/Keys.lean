import Mathlib.Tactic.Common

/-!
# Keys and their scancodes

`KBD_KEYS` of `src/hardware/input/keyboard.h` and the first scancode set of
`keyboard_scancodes.cpp`, the one that is compiled in.  `KBD_NONE` stands for no key
and is `none` where a key is optional.

* `KEYBOARD_GetScanCode1` — the bytes of a press or a release;
* `length_scanCode1_le` — they are at most six, so they always fit into the
  controller's buffer after a flush.
-/

namespace AugraDosbox

/-- A byte on the way from the keyboard to the guest. -/
abbrev KbdByte := BitVec 8

/-- `enum KBD_KEYS` without `KBD_NONE`. -/
inductive KBD_KEYS where
  | KBD_1 | KBD_2 | KBD_3 | KBD_4 | KBD_5 | KBD_6 | KBD_7 | KBD_8 | KBD_9 | KBD_0 | KBD_q
  | KBD_w | KBD_e | KBD_r | KBD_t | KBD_y | KBD_u | KBD_i | KBD_o | KBD_p | KBD_a | KBD_s
  | KBD_d | KBD_f | KBD_g | KBD_h | KBD_j | KBD_k | KBD_l | KBD_z | KBD_x | KBD_c | KBD_v
  | KBD_b | KBD_n | KBD_m | KBD_f1 | KBD_f2 | KBD_f3 | KBD_f4 | KBD_f5 | KBD_f6 | KBD_f7
  | KBD_f8 | KBD_f9 | KBD_f10 | KBD_f11 | KBD_f12 | KBD_esc | KBD_tab | KBD_backspace
  | KBD_enter | KBD_space | KBD_leftalt | KBD_rightalt | KBD_leftctrl | KBD_rightctrl
  | KBD_leftgui | KBD_rightgui | KBD_leftshift | KBD_rightshift | KBD_capslock | KBD_scrolllock
  | KBD_numlock | KBD_grave | KBD_minus | KBD_equals | KBD_backslash | KBD_leftbracket
  | KBD_rightbracket | KBD_semicolon | KBD_quote | KBD_oem102 | KBD_period | KBD_comma
  | KBD_slash | KBD_abnt1 | KBD_printscreen | KBD_pause | KBD_insert | KBD_home | KBD_pageup
  | KBD_delete | KBD_end | KBD_pagedown | KBD_left | KBD_up | KBD_down | KBD_right | KBD_kp1
  | KBD_kp2 | KBD_kp3 | KBD_kp4 | KBD_kp5 | KBD_kp6 | KBD_kp7 | KBD_kp8 | KBD_kp9 | KBD_kp0
  | KBD_kpdivide | KBD_kpmultiply | KBD_kpminus | KBD_kpplus | KBD_kpenter | KBD_kpperiod
deriving DecidableEq, Repr

namespace KBD_KEYS

/-- The codes of the keys that send one byte. -/
def plainCode : KBD_KEYS → Option KbdByte
  | .KBD_esc => some 0x01#8
  | .KBD_1 => some 0x02#8
  | .KBD_2 => some 0x03#8
  | .KBD_3 => some 0x04#8
  | .KBD_4 => some 0x05#8
  | .KBD_5 => some 0x06#8
  | .KBD_6 => some 0x07#8
  | .KBD_7 => some 0x08#8
  | .KBD_8 => some 0x09#8
  | .KBD_9 => some 0x0a#8
  | .KBD_0 => some 0x0b#8
  | .KBD_minus => some 0x0c#8
  | .KBD_equals => some 0x0d#8
  | .KBD_backspace => some 0x0e#8
  | .KBD_tab => some 0x0f#8
  | .KBD_q => some 0x10#8
  | .KBD_w => some 0x11#8
  | .KBD_e => some 0x12#8
  | .KBD_r => some 0x13#8
  | .KBD_t => some 0x14#8
  | .KBD_y => some 0x15#8
  | .KBD_u => some 0x16#8
  | .KBD_i => some 0x17#8
  | .KBD_o => some 0x18#8
  | .KBD_p => some 0x19#8
  | .KBD_leftbracket => some 0x1a#8
  | .KBD_rightbracket => some 0x1b#8
  | .KBD_enter => some 0x1c#8
  | .KBD_leftctrl => some 0x1d#8
  | .KBD_a => some 0x1e#8
  | .KBD_s => some 0x1f#8
  | .KBD_d => some 0x20#8
  | .KBD_f => some 0x21#8
  | .KBD_g => some 0x22#8
  | .KBD_h => some 0x23#8
  | .KBD_j => some 0x24#8
  | .KBD_k => some 0x25#8
  | .KBD_l => some 0x26#8
  | .KBD_semicolon => some 0x27#8
  | .KBD_quote => some 0x28#8
  | .KBD_grave => some 0x29#8
  | .KBD_leftshift => some 0x2a#8
  | .KBD_backslash => some 0x2b#8
  | .KBD_z => some 0x2c#8
  | .KBD_x => some 0x2d#8
  | .KBD_c => some 0x2e#8
  | .KBD_v => some 0x2f#8
  | .KBD_b => some 0x30#8
  | .KBD_n => some 0x31#8
  | .KBD_m => some 0x32#8
  | .KBD_comma => some 0x33#8
  | .KBD_period => some 0x34#8
  | .KBD_slash => some 0x35#8
  | .KBD_rightshift => some 0x36#8
  | .KBD_kpmultiply => some 0x37#8
  | .KBD_leftalt => some 0x38#8
  | .KBD_space => some 0x39#8
  | .KBD_capslock => some 0x3a#8
  | .KBD_f1 => some 0x3b#8
  | .KBD_f2 => some 0x3c#8
  | .KBD_f3 => some 0x3d#8
  | .KBD_f4 => some 0x3e#8
  | .KBD_f5 => some 0x3f#8
  | .KBD_f6 => some 0x40#8
  | .KBD_f7 => some 0x41#8
  | .KBD_f8 => some 0x42#8
  | .KBD_f9 => some 0x43#8
  | .KBD_f10 => some 0x44#8
  | .KBD_numlock => some 0x45#8
  | .KBD_scrolllock => some 0x46#8
  | .KBD_kp7 => some 0x47#8
  | .KBD_kp8 => some 0x48#8
  | .KBD_kp9 => some 0x49#8
  | .KBD_kpminus => some 0x4a#8
  | .KBD_kp4 => some 0x4b#8
  | .KBD_kp5 => some 0x4c#8
  | .KBD_kp6 => some 0x4d#8
  | .KBD_kpplus => some 0x4e#8
  | .KBD_kp1 => some 0x4f#8
  | .KBD_kp2 => some 0x50#8
  | .KBD_kp3 => some 0x51#8
  | .KBD_kp0 => some 0x52#8
  | .KBD_kpperiod => some 0x53#8
  | .KBD_oem102 => some 0x56#8
  | .KBD_f11 => some 0x57#8
  | .KBD_f12 => some 0x58#8
  | .KBD_abnt1 => some 0x73#8
  | _ => none

/-- The codes of the extended keys, sent after `0xe0`. -/
def extendedCode : KBD_KEYS → Option KbdByte
  | .KBD_kpenter => some 0x1c#8
  | .KBD_rightctrl => some 0x1d#8
  | .KBD_kpdivide => some 0x35#8
  | .KBD_rightalt => some 0x38#8
  | .KBD_home => some 0x47#8
  | .KBD_up => some 0x48#8
  | .KBD_pageup => some 0x49#8
  | .KBD_left => some 0x4b#8
  | .KBD_right => some 0x4d#8
  | .KBD_end => some 0x4f#8
  | .KBD_down => some 0x50#8
  | .KBD_pagedown => some 0x51#8
  | .KBD_insert => some 0x52#8
  | .KBD_delete => some 0x53#8
  | .KBD_leftgui => some 0x5b#8
  | .KBD_rightgui => some 0x5c#8
  | _ => none

end KBD_KEYS

/-- `code | (is_pressed ? 0 : 0x80)`. -/
def releaseBit (code : KbdByte) (is_pressed : Bool) : KbdByte :=
  code ||| if is_pressed then 0#8 else 0x80#8

def KEYBOARD_GetScanCode1 (key_type : KBD_KEYS) (is_pressed : Bool) : List KbdByte :=
  match key_type with
  | .KBD_pause =>
    -- the pause key gets released as soon as it is pressed
    if is_pressed then [0xe1, 0x1d, 0x45, 0xe1, 0x1d ||| 0x80, 0x45 ||| 0x80] else []
  | .KBD_printscreen => [0xe0, releaseBit 0x2a is_pressed, 0xe0, releaseBit 0x37 is_pressed]
  | key =>
    match key.plainCode, key.extendedCode with
    | some code, _ => [releaseBit code is_pressed]
    | none, some code => [0xe0, releaseBit code is_pressed]
    | none, none => []

theorem length_scanCode1_le (key : KBD_KEYS) (is_pressed : Bool) :
    (KEYBOARD_GetScanCode1 key is_pressed).length ≤ 6 := by
  unfold KEYBOARD_GetScanCode1
  split
  · cases is_pressed <;> simp
  · simp
  · split <;> simp

end AugraDosbox
