import AugraDosbox.Input.KeyboardHeard

/-!
# The keyboard in every run

What the ports do to the keyboard, and what holds in every run from the reset on.

* `execute_command_silent`, `execute_command_param_silent` — a command of the controller
  leaves the keyboard as it is, since devices are not told about readiness meanwhile;
* `KEYBOARD_PortWrite_ends` — a command of the keyboard ends with a reply on its way;
* `Deafens` — the byte written to port 60h that enables the keyboard port and gets no
  reply, while the keyboard has something to send or has overflowed;
* **`run_heard`** — in every run without such a write the keyboard is heard in every
  state, and such a write is what ends that.
-/

namespace AugraDosbox

open Total

namespace InputSystem

variable {s t u : InputSystem} {byte : KbdByte}

/-! ## Commands of the controller -/

/-- Devices are still not told, and the keyboard is as before. -/
structure Silent (s t : InputSystem) : Prop where
  bounded : t.Bounded
  skip : t.ctl.should_skip_device_notify = true
  kbd : t.kbd = s.kbd

theorem Silent.trans (h : Silent s t) (h' : Silent t u) : Silent s u :=
  ⟨h'.bounded, h'.skip, h'.kbd.trans h.kbd⟩

theorem Keeps.silent (h : Keeps s t) (hb : s.Bounded)
    (hskip : s.ctl.should_skip_device_notify = true) : Silent s t :=
  ⟨h.bounded hb, h.same.should_skip.trans hskip, h.kbd hskip⟩

section Commands

variable (hb : s.Bounded) (hskip : s.ctl.should_skip_device_notify = true)

include hb hskip

theorem withCtl_silent {f : I8042 → I8042} (hbuffer : (f s.ctl).buffer = s.ctl.buffer)
    (hf : (f s.ctl).should_skip_device_notify = s.ctl.should_skip_device_notify) :
    Silent s (s.withCtl f) :=
  ⟨hb.congr hbuffer rfl, hf.trans hskip, rfl⟩

theorem answer_silent (bytes : List KbdByte) : Ends (s.answer bytes) (Silent s) :=
  (answer_keeps bytes hb).mono fun _ ht => ht.silent hb hskip

/-- An answer after a change of the configuration. -/
theorem answer_withCtl_silent {f : I8042 → I8042} (bytes : List KbdByte)
    (hbuffer : (f s.ctl).buffer = s.ctl.buffer)
    (hf : (f s.ctl).should_skip_device_notify = s.ctl.should_skip_device_notify) :
    Ends (answer bytes (s.withCtl f)) (Silent s) := by
  have hfirst := withCtl_silent hb hskip hbuffer hf
  exact (answer_silent hfirst.bounded hfirst.skip bytes).mono fun _ ht => hfirst.trans ht

theorem diagDumpByte_silent (byte : KbdByte) : Ends (diagDumpByte byte s) (Silent s) :=
  (addBytes_keeps _ hb).mono fun _ ht => ht.silent hb hskip

theorem diagnosticDump_silent (board : Board) : Ends (s.diagnosticDump board) (Silent s) := by
  -- one more byte of the dump
  have hbyte : ∀ (t : InputSystem) (byte : KbdByte), Silent s t →
      Ends (diagDumpByte byte t) (Silent s) := by
    intro t byte ht
    exact (diagDumpByte_silent ht.bounded ht.skip byte).mono fun _ hu => ht.trans hu
  unfold diagnosticDump
  refine (flush_ends hb).bind fun t ht => ?_
  have hflushed := ht.keeps.silent hb hskip
  have hmarked : Silent s { t with ctl := { t.ctl with is_diagnostic_dump := true } } :=
    ⟨hflushed.bounded.congr rfl rfl, hflushed.skip, hflushed.kbd⟩
  refine (hbyte _ _ hmarked).bind fun t ht => ?_
  refine (Ends.foldlM hbyte _ ht).bind fun t ht => ?_
  refine (hbyte _ _ ht).bind fun t ht => ?_
  refine (hbyte _ _ ht).bind fun t ht => ?_
  refine (hbyte _ _ ht).bind fun t ht => ?_
  exact hbyte _ _ ht

/-- A command of the controller leaves the keyboard alone. -/
theorem execute_command_silent (board : Board) (command : KbdByte) :
    Ends (execute_command board command s) (Silent s) := by
  unfold execute_command
  split
  all_goals first
    | exact ends_some (withCtl_silent hb hskip rfl rfl)
    | exact answer_silent hb hskip _
    | exact answer_withCtl_silent hb hskip _ rfl rfl
    | exact diagnosticDump_silent hb hskip board
    | skip
  apply Ends.ite
  · intro _
    exact (addBytes_keeps _ hb).mono fun _ ht => ht.silent hb hskip
  · intro _
    apply Ends.ite
    · intro _
      exact ends_some (withCtl_silent hb hskip rfl rfl)
    · intro _
      exact ends_some ⟨hb, hskip, rfl⟩

theorem mousePortWrite_silent : Ends s.mousePortWrite (Silent s) := by
  unfold mousePortWrite
  apply Ends.ite
  · intro _
    have hloop : Ends (s.mouse.replyBytes.foldlM
        (fun (s : InputSystem) byte => s.I8042_AddAuxByte flush byte) s) (Silent s) := by
      refine Ends.foldlM (fun t byte ht => ?_) _ ⟨hb, hskip, rfl⟩
      exact (I8042_AddAuxByte_keeps ht.bounded).mono fun u hu =>
        ht.trans (hu.silent ht.bounded ht.skip)
    refine hloop.bind fun t ht => ?_
    exact (I8042_AddAuxFrame_keeps ht.bounded t.mouse.replyFrame.short).mono fun u hu =>
      ht.trans (hu.silent ht.bounded ht.skip)
  · intro _
    exact ends_some ⟨hb, hskip, rfl⟩

/-- A byte that the controller takes for one of the keyboard or the mouse. -/
theorem simulateInput_silent (is_from_aux is_from_kbd : Bool) :
    Ends (s.flush.bind fun s => s.buffer_add flush byte is_from_aux is_from_kbd false)
      (Silent s) := by
  refine (flush_ends hb).bind fun t ht => ?_
  refine (buffer_add_keeps ht.bounded is_from_aux is_from_kbd false).mono fun u hu => ?_
  exact (ht.keeps.trans hu).silent hb hskip

theorem execute_command_param_silent (command param : KbdByte) :
    Ends (execute_command_param command param s) (Silent s) := by
  unfold execute_command_param
  split
  · exact ends_some (withCtl_silent hb hskip rfl rfl)
  · exact ends_some (withCtl_silent hb hskip rfl rfl)
  · exact simulateInput_silent hb hskip false true
  · exact simulateInput_silent hb hskip true false
  · have hrestart := withCtl_silent hb hskip (f := I8042.restart_delay_timer) rfl rfl
    refine (mousePortWrite_silent hrestart.bounded hrestart.skip).map fun t ht => ?_
    exact (hrestart.trans ht).trans ⟨ht.bounded.congr rfl rfl, ht.skip, rfl⟩
  · exact ends_some ⟨hb, hskip, rfl⟩

end Commands

/-! ## Commands of the keyboard -/

/-- The keyboard waits for the parameter of a command that has one, or for none. -/
def WaitsForKnown (k : Keyboard) : Prop :=
  k.current_command.toNat ∈ [0, 0xed, 0xf0, 0xf3, 0xfb, 0xfc, 0xfd]

/-- The keyboard port is enabled, so that the keyboard can reply. -/
structure Listening (s : InputSystem) : Prop where
  skip : s.ctl.should_skip_device_notify = false
  enabled : s.ctl.config.is_disabled_kbd = false
  bounded : s.Bounded
  known : WaitsForKnown s.kbd

/-- A reply of the keyboard is on its way. -/
structure Replied (s : InputSystem) : Prop extends Listening s where
  waiting : s.ctl.waiting_bytes_from_kbd ≠ 0

/-- A change of the keyboard that at most empties its buffer. -/
def Empties (f : Keyboard → Keyboard) : Prop :=
  ∀ k, ((f k).buffer = k.buffer ∨ (f k).buffer = []) ∧ (WaitsForKnown k → WaitsForKnown (f k))

variable {f : Keyboard → Keyboard}

theorem Bounded.empties (hb : s.Bounded) (hf : Empties f) :
    (s.withKbd f).Bounded := by
  rcases (hf s.kbd).1 with hbuffer | hbuffer
  · exact hb.congr rfl hbuffer
  · have hnone : ∀ code, code ∉ (s.withKbd f).kbd.buffer := by
      intro code
      rw [show (s.withKbd f).kbd.buffer = [] from hbuffer]
      exact List.not_mem_nil
    exact ⟨hb.ctl_le, fun code h => absurd h (hnone code), fun code h => absurd h (hnone code)⟩

theorem empties_id : Empties id := fun _ => ⟨.inl rfl, id⟩

theorem empties_clear_buffer : Empties Keyboard.clear_buffer := fun _ => ⟨.inr rfl, id⟩

theorem Listening.empties (h : s.Listening) (hf : Empties f) :
    (s.withKbd f).Listening :=
  ⟨h.skip, h.enabled, h.bounded.empties hf, (hf s.kbd).2 h.known⟩

theorem reply_ends (h : s.Listening) (hf : Empties f) :
    Ends (s.reply byte f) Replied := by
  refine (I8042_AddKbdByte_ends h.bounded h.enabled).map fun t ⟨hsame, hb, hwaiting⟩ => ?_
  have ht : t.Listening := by
    refine ⟨hsame.should_skip.trans h.skip, ?_, hb, ?_⟩
    · exact (congrArg ConfigByte.is_disabled_kbd hsame.config).trans h.enabled
    · unfold WaitsForKnown
      rw [hsame.kbd_command]
      exact h.known
  exact ⟨ht.empties hf, hwaiting⟩

theorem reply_again {r : Option InputSystem} (hr : Ends r Replied) :
    Ends (r.bind (reply byte id)) Replied :=
  hr.bind fun _ ht => reply_ends ht.toListening empties_id

theorem kbdCommand_ends (h : s.Listening) (command : KbdByte) :
    Ends (kbdCommand command s) Replied := by
  -- a command that waits for its parameter
  have hwait : ∀ k : Keyboard, command.toNat ∈ [0, 0xed, 0xf0, 0xf3, 0xfb, 0xfc, 0xfd] →
      WaitsForKnown { k with current_command := command } := fun _ h => h
  unfold kbdCommand
  split
  case h_1 hcode | h_2 hcode =>
    exact reply_ends h fun k => ⟨.inl rfl, fun _ => hwait k (by simp [hcode])⟩
  case h_3 hcode | h_4 hcode | h_5 hcode | h_6 hcode =>
    exact reply_ends h fun k => ⟨.inr rfl, fun _ => hwait k.clear_buffer (by simp [hcode])⟩
  case h_8 => exact reply_again (reply_again (reply_ends h empties_id))
  case h_17 => exact reply_again (reply_ends h fun k => ⟨.inr rfl, id⟩)
  all_goals first
    | exact reply_ends h empties_id
    | exact reply_ends h fun k => ⟨.inr rfl, id⟩

theorem kbdCommandParam_ends (h : s.Listening) {command : KbdByte} (param : KbdByte)
    (hcommand : command.toNat ∈ [0xed, 0xf0, 0xf3, 0xfb, 0xfc, 0xfd]) :
    Ends (kbdCommandParam command param s) Replied := by
  unfold kbdCommandParam
  split
  · exact reply_ends h empties_id
  · rename_i hcode
    apply Ends.ite
    · intro _
      exact reply_ends (h.empties empties_clear_buffer) empties_id
    · intro _
      apply Ends.ite
      · intro _
        exact reply_again (reply_ends h empties_id)
      · intro _
        have hset : Empties fun k => { k with current_command := command } := fun k =>
          ⟨.inl rfl, fun _ => by simp [WaitsForKnown, hcode]⟩
        exact reply_ends (h.empties hset) empties_id
  · exact reply_ends h fun k => ⟨.inl rfl, id⟩
  · exact reply_ends h empties_clear_buffer
  · exact reply_ends h empties_clear_buffer
  · exact reply_ends h empties_clear_buffer
  · simp_all

/-- **The keyboard answers** every byte but one that is neither a command nor expected. -/
theorem KEYBOARD_PortWrite_ends (h : s.Listening)
    (hbyte : s.kbd.current_command ≠ 0 ∨ byte.getLsbD 7 = true) :
    Ends (KEYBOARD_PortWrite byte s) Replied := by
  have hclear : Empties fun k => { k with current_command := 0 } := fun k =>
    ⟨.inl rfl, fun _ => by simp [WaitsForKnown]⟩
  unfold KEYBOARD_PortWrite
  apply Ends.ite
  · intro hcommand
    have hnot : s.isKbdCommand byte = false := by
      by_contra hcmd
      rw [Bool.not_eq_false] at hcmd
      rw [if_pos hcmd] at hcommand
      exact hcommand rfl
    rw [if_neg (by simp [hnot])] at hcommand ⊢
    have hmem : s.kbd.current_command.toNat ∈ [0xed, 0xf0, 0xf3, 0xfb, 0xfc, 0xfd] := by
      have hne : s.kbd.current_command.toNat ≠ 0 := fun h => hcommand (BitVec.eq_of_toNat_eq h)
      have hknown := h.known
      rw [WaitsForKnown, List.mem_cons] at hknown
      exact hknown.resolve_left hne
    exact kbdCommandParam_ends (h.empties hclear) byte hmem
  · intro hcommand
    apply Ends.ite
    · intro _
      exact kbdCommand_ends (h.empties hclear) byte
    · intro hnot
      -- neither a command nor a parameter
      rw [if_neg hnot, not_not] at hcommand
      refine absurd ?_ hnot
      have hbit := hbyte.resolve_left (not_not.mpr hcommand)
      simp [isKbdCommand, hbit, hcommand]

theorem KEYBOARD_PortWrite_ignored (hcommand : s.kbd.current_command = 0)
    (hbyte : byte.getLsbD 7 = false) : KEYBOARD_PortWrite byte s = some s := by
  have hnot : s.isKbdCommand byte = false := by rw [isKbdCommand, hbyte, Bool.false_and]
  unfold KEYBOARD_PortWrite
  simp only [hnot, hcommand, Bool.false_eq_true, if_false, ne_eq, not_true]

/-! ## The invariant -/

/-- What holds between any two events. -/
structure Sound (s : InputSystem) : Prop where
  bounded : s.Bounded
  skip : s.ctl.should_skip_device_notify = false
  heard : s.Heard
  known : WaitsForKnown s.kbd

theorem reset_sound (mouse : Mouse) (waitsForSecureMode : Bool) :
    (reset mouse waitsForSecureMode).Sound where
  bounded := ⟨Nat.zero_le _, fun _ h => absurd h List.not_mem_nil,
    fun _ h => absurd h List.not_mem_nil⟩
  skip := rfl
  heard _ := ⟨rfl, rfl⟩
  known := by simp [WaitsForKnown, reset]

/-- The same controller as far as the keyboard goes, and the same keyboard. -/
theorem Sound.of_same (h : s.Sound) (hsame : SameControl s t) (hb : t.Bounded) (hheard : t.Heard) :
    t.Sound :=
  ⟨hb, hsame.should_skip.trans h.skip, hheard, by
    unfold WaitsForKnown
    rw [hsame.kbd_command]
    exact h.known⟩

theorem Sound.keeps (h : s.Sound) (hk : Keeps s t) : t.Sound :=
  h.of_same hk.same (hk.bounded h.bounded) (hk.heard h.skip h.heard)

/-! ## Keys -/

theorem kbdBufferAdd_sound (h : s.Sound) (key : KBD_KEYS) (is_pressed : Bool) :
    Ends (kbdBufferAdd (KEYBOARD_GetScanCode1 key is_pressed) s) Sound := by
  unfold kbdBufferAdd
  apply Ends.ite
  · intro _
    exact ends_some h
  · intro hadd
    simp only [not_or, Bool.not_eq_true] at hadd
    apply Ends.ite
    · -- a full keyboard buffer: the controller is not ready
      intro hfull
      have hready : s.ctl.IsReadyForKbdFrame = false := by
        by_contra hready
        rw [(h.heard (by simpa using hready)).1] at hfull
        exact absurd hfull (by decide)
      refine ends_some ⟨⟨h.bounded.ctl_le, ?_, ?_⟩, h.skip, ?_, h.known⟩
      · exact fun _ hcode => absurd hcode List.not_mem_nil
      · exact fun _ hcode => absurd hcode List.not_mem_nil
      · intro hready'
        exact absurd (hready.symm.trans hready') (by decide)
    · intro _
      have hb : Bounded { s with kbd := { s.kbd with
          buffer := s.kbd.buffer ++ [KEYBOARD_GetScanCode1 key is_pressed] } } := by
        refine ⟨h.bounded.ctl_le, fun code hcode => ?_, fun code hcode => ?_⟩
        · rcases List.mem_append.mp hcode with hcode | hcode
          · exact h.bounded.code_ne code hcode
          · rw [List.mem_singleton.mp hcode]
            exact hadd.1
        · rcases List.mem_append.mp hcode with hcode | hcode
          · exact h.bounded.code_le code hcode
          · rw [List.mem_singleton.mp hcode]
            exact length_scanCode1_le key is_pressed
      refine (kbdTransfer_ends hb (room _ 6) hadd.2).mono fun t ⟨hsame, hbt, hheard, _⟩ => ?_
      exact h.of_same (SameControl.trans (by constructor <;> rfl) hsame) hbt hheard

/-- The key repetition data do not matter. -/
theorem Sound.withTypematic (h : s.Sound) (typematic : Typematic) :
    Sound { s with kbd := { s.kbd with typematic := typematic } } :=
  ⟨h.bounded.congr rfl rfl, h.skip, h.heard, h.known⟩

theorem KEYBOARD_AddKey_sound (h : s.Sound) (key : KBD_KEYS) (is_pressed : Bool) :
    Ends (s.KEYBOARD_AddKey key is_pressed) Sound := by
  unfold KEYBOARD_AddKey
  apply Ends.ite
  · intro _
    exact ends_some h
  · intro _
    apply Ends.ite
    · intro _
      exact ends_some h
    · intro _
      exact kbdBufferAdd_sound (h.withTypematic _) key is_pressed

theorem typematic_tick_sound (h : s.Sound) : Ends s.typematic_tick Sound := by
  unfold typematic_tick
  apply Ends.ite
  · intro _
    exact ends_some (h.withTypematic _)
  · intro _
    split
    · exact ends_some (h.withTypematic _)
    · apply Ends.ite
      · intro _
        exact ends_some ((h.withTypematic _).withTypematic _)
      · intro _
        exact KEYBOARD_AddKey_sound (h.withTypematic _) _ true

/-! ## Ports -/

/-- The notifications end every command and every read. -/
theorem notifyDevices_sound {should_notify_aux should_notify_kbd : Bool} (hb : s.Bounded)
    (hskip : s.ctl.should_skip_device_notify = false) (hknown : WaitsForKnown s.kbd)
    (hs : should_notify_kbd = false → s.Heard) :
    Ends (s.notifyDevices should_notify_aux should_notify_kbd) Sound := by
  refine (notifyDevices_ends hb hskip hs).mono fun t ⟨hsame, hbt, hheard⟩ => ?_
  refine ⟨hbt, hsame.should_skip.trans hskip, hheard, ?_⟩
  unfold WaitsForKnown
  rw [hsame.kbd_command]
  exact hknown

/-- The end of a command of the controller, which began with a keyboard that was heard. -/
theorem notify_after_silent {should_notify_aux should_notify_kbd : Bool} (h : s.Sound)
    (hnotify : should_notify_kbd = !s.ctl.IsReadyForKbdFrame) (ht : Silent s t) :
    Ends (notifyDevices should_notify_aux should_notify_kbd (t.setSkip false)) Sound := by
  refine notifyDevices_sound (ht.bounded.congr rfl rfl) rfl ?_ ?_
  · exact ht.kbd ▸ h.known
  · intro hready _
    have hkbd : (t.setSkip false).kbd = s.kbd := ht.kbd
    rw [hkbd]
    exact h.heard (by simpa [hready] using hnotify)

theorem write_command_port_sound (h : s.Sound) (board : Board) :
    Ends (s.write_command_port board byte) Sound := by
  unfold write_command_port
  have hstart : Silent s (s.setSkip true) := ⟨h.bounded.congr rfl rfl, rfl, rfl⟩
  have hdump : Ends (if (s.setSkip true).ctl.is_diagnostic_dump then
      flush ((s.setSkip true).withCtl fun c => { c with is_diagnostic_dump := false })
      else some (s.setSkip true)) (Silent s) := by
    apply Ends.ite
    · intro _
      have hcleared := withCtl_silent hstart.bounded hstart.skip
        (f := fun c => { c with is_diagnostic_dump := false }) rfl rfl
      refine (flush_ends hcleared.bounded).mono fun t ht => ?_
      exact (hstart.trans hcleared).trans (ht.keeps.silent hcleared.bounded hcleared.skip)
    · intro _
      exact ends_some hstart
  refine hdump.bind fun t ht => ?_
  have hwritten := ht.trans (withCtl_silent ht.bounded ht.skip
    (f := fun c => { c with was_last_write_cmd := true, current_command := 0 }) rfl rfl)
  refine Ends.bind (P := Silent s) (Ends.ite (fun _ => ?_) fun _ => ?_) fun u hu => ?_
  · exact (execute_command_silent hwritten.bounded hwritten.skip board _).mono fun _ hu =>
      hwritten.trans hu
  · exact (execute_command_silent hwritten.bounded hwritten.skip board _).mono fun _ hu =>
      hwritten.trans hu
  · exact notify_after_silent h rfl hu

/-- The second half of a write to port 60h that is a parameter of a command. -/
theorem write_param_sound (h : s.Sound) (hcommand : s.ctl.current_command ≠ 0) :
    Ends (s.write_data_port byte) Sound := by
  unfold write_data_port
  refine Ends.ite (fun _ => ?_) fun hno => absurd hcommand hno
  -- the state in which the command starts
  let s₁ : InputSystem := (s.withCtl fun c => { c with was_last_write_cmd := false }).withCtl
    fun c => { c with current_command := 0 }
  have hs₁ : s₁.Sound := ⟨h.bounded.congr rfl rfl, h.skip, h.heard, h.known⟩
  have hstart : Silent s₁ (s₁.setSkip true) := ⟨hs₁.bounded.congr rfl rfl, rfl, rfl⟩
  refine (flush_ends hstart.bounded).bind fun t ht => ?_
  have hflushed := hstart.trans (ht.keeps.silent hstart.bounded hstart.skip)
  refine (execute_command_param_silent hflushed.bounded hflushed.skip
    s.ctl.current_command byte).bind fun u hu => ?_
  exact notify_after_silent hs₁ rfl (hflushed.trans hu)

/-- The byte written to port 60h enables the keyboard port, gets no reply, and finds a
keyboard with something to send or one that has overflowed: the flush takes the
controller for one that was ready all the time. -/
def Deafens (s : InputSystem) : InputAction → Prop
  | .write60 byte =>
    s.ctl.current_command = 0 ∧ s.kbd.current_command = 0 ∧ byte.getLsbD 7 = false ∧
      s.ctl.config.is_disabled_kbd = true ∧ s.ctl.waiting_bytes_from_kbd = 0 ∧
      s.ctl.is_diagnostic_dump = false ∧
      (s.kbd.buffer ≠ [] ∨ s.kbd.buffer_overflowed = true)
  | _ => False

instance (a : InputAction) : Decidable (s.Deafens a) := by
  cases a <;> unfold Deafens <;> infer_instance

/-- The state in which the keyboard gets a byte, before the flush. -/
def autoEnabled (s : InputSystem) : InputSystem :=
  (s.withCtl fun c => { c with was_last_write_cmd := false }).withCtl fun c =>
    { c with is_transmit_timeout := false, config := { c.config with is_disabled_kbd := false } }

theorem write_data_port_eq (hcommand : s.ctl.current_command = 0) :
    s.write_data_port byte = s.autoEnabled.flush.bind fun s =>
      KEYBOARD_PortWrite byte (s.withCtl I8042.restart_delay_timer) := by
  unfold write_data_port
  exact if_neg (not_not.mpr hcommand)

/-- The keyboard port is enabled after the flush. -/
theorem flushed_listening (h : s.Sound) (ht : Flushed s.autoEnabled t) :
    (t.withCtl I8042.restart_delay_timer).Listening := by
  refine ⟨ht.same.should_skip.trans h.skip, ?_, ht.bounded.congr rfl rfl, ?_⟩
  · exact congrArg ConfigByte.is_disabled_kbd ht.same.config
  · have hkbd : t.kbd.current_command = s.kbd.current_command := ht.same.kbd_command
    change t.kbd.current_command.toNat ∈ _
    rw [hkbd]
    exact h.known

theorem autoEnabled_bounded (h : s.Sound) : s.autoEnabled.Bounded := h.bounded.congr rfl rfl

theorem autoEnabled_ready_iff :
    s.autoEnabled.ctl.IsReadyForKbdFrame = true ↔
      s.ctl.waiting_bytes_from_kbd = 0 ∧ s.ctl.is_diagnostic_dump = false := by
  rw [isReady_iff]
  exact ⟨fun h => ⟨h.1, h.2.2⟩, fun h => ⟨h.1, rfl, h.2⟩⟩

/-- Without a reply, the keyboard is heard after the flush unless it was already full and
its port disabled. -/
theorem heard_after_flush (h : s.Sound) (ht : Flushed s.autoEnabled t)
    (hdisabled : s.ctl.config.is_disabled_kbd = true → s.ctl.waiting_bytes_from_kbd = 0 →
      s.ctl.is_diagnostic_dump = false → s.kbd.buffer = [] ∧ s.kbd.buffer_overflowed = false) :
    t.Heard := by
  by_cases hready : s.autoEnabled.ctl.IsReadyForKbdFrame = true
  · intro _
    have hkbd : t.kbd = s.kbd := (ht.ready hready).1
    obtain ⟨hwaiting, hdump⟩ := autoEnabled_ready_iff.mp hready
    rw [hkbd]
    by_cases hdis : s.ctl.config.is_disabled_kbd = true
    · exact hdisabled hdis hwaiting hdump
    · exact h.heard ((isReady_iff _).mpr ⟨hwaiting, by simpa using hdis, hdump⟩)
  · exact ht.heard h.skip (by simpa using hready)

theorem write_data_port_sound (h : s.Sound) (hheed : ¬s.Deafens (.write60 byte)) :
    Ends (s.write_data_port byte) Sound := by
  by_cases hcommand : s.ctl.current_command = 0
  · rw [write_data_port_eq hcommand]
    refine (flush_ends (autoEnabled_bounded h)).bind fun t ht => ?_
    have hlisten := flushed_listening h ht
    by_cases hreply : t.kbd.current_command ≠ 0 ∨ byte.getLsbD 7 = true
    · refine (KEYBOARD_PortWrite_ends hlisten hreply).mono fun u hu => ?_
      exact ⟨hu.bounded, hu.skip, heard_of_waiting hu.waiting, hu.known⟩
    · push Not at hreply
      obtain ⟨hkbd, hbit⟩ := hreply
      rw [ne_eq, Bool.not_eq_true] at hbit
      rw [KEYBOARD_PortWrite_ignored (s := t.withCtl _) hkbd hbit]
      refine ends_some ⟨hlisten.bounded, hlisten.skip, ?_, hlisten.known⟩
      refine heard_after_flush (t := t) h ht fun hdis hwaiting hdump => ?_
      have hkbd' : s.kbd.current_command = 0 := ht.same.kbd_command.symm.trans hkbd
      by_contra hpending
      refine hheed ⟨hcommand, hkbd', hbit, hdis, hwaiting, hdump, ?_⟩
      by_cases hbuffer : s.kbd.buffer = []
      · exact .inr (by simpa using fun hlatch => hpending ⟨hbuffer, hlatch⟩)
      · exact .inl hbuffer
  · exact write_param_sound h hcommand

/-- The exception is a real one. -/
theorem not_heard_of_deafens (h : s.Sound) (hdeaf : s.Deafens (.write60 byte)) :
    Ends (s.write_data_port byte) fun t => ¬t.Heard := by
  obtain ⟨hcommand, hkbd, hbit, -, hwaiting, hdump, hpending⟩ := hdeaf
  rw [write_data_port_eq hcommand]
  refine (flush_ends (autoEnabled_bounded h)).bind fun t ht => ?_
  have hready := autoEnabled_ready_iff.mpr ⟨hwaiting, hdump⟩
  have hsame : t.kbd = s.kbd := (ht.ready hready).1
  rw [KEYBOARD_PortWrite_ignored (s := t.withCtl _) (hsame ▸ hkbd) hbit]
  refine ends_some fun hheard => ?_
  obtain ⟨hbuffer, hlatch⟩ := hheard (ht.ready hready).2
  change t.kbd.buffer = [] at hbuffer
  change t.kbd.buffer_overflowed = false at hlatch
  rw [hsame] at hbuffer hlatch
  rcases hpending with hne | hset
  · exact hne hbuffer
  · exact absurd (hlatch.symm.trans hset) (by decide)

theorem read_data_port_sound (h : s.Sound) :
    Ends (s.read_data_port.map Prod.fst) Sound := by
  unfold read_data_port
  split
  · exact ends_some h
  · -- the end of a diagnostic dump
    have hdump : Ends (if s.ctl.is_diagnostic_dump = true ∧ s.ctl.buffer = [] then
        notifyDevices true true (s.withCtl fun c => { c with is_diagnostic_dump := false })
        else some s) Sound := by
      apply Ends.ite
      · intro _
        exact notifyDevices_sound (h.bounded.congr rfl rfl) h.skip h.known
          fun hfalse => absurd hfalse (by decide)
      · intro _
        exact ends_some h
    -- one byte of the mouse less
    have haux : ∀ t : InputSystem, t.Sound → Ends (if t.ctl.is_data_from_aux then
        notifyDevices true false (t.withCtl fun c =>
          { c with waiting_bytes_from_aux := c.waiting_bytes_from_aux - 1 })
        else some t) Sound := by
      intro t ht
      apply Ends.ite
      · intro _
        exact notifyDevices_sound (ht.bounded.congr rfl rfl) ht.skip ht.known fun _ => ht.heard
      · intro _
        exact ends_some ht
    -- one byte of the keyboard less
    have hkbd : ∀ t : InputSystem, t.Sound → Ends (if t.ctl.is_data_from_kbd then
        notifyDevices false true (t.withCtl fun c =>
          { c with waiting_bytes_from_kbd := c.waiting_bytes_from_kbd - 1 })
        else some t) Sound := by
      intro t ht
      apply Ends.ite
      · intro _
        exact notifyDevices_sound (ht.bounded.congr rfl rfl) ht.skip ht.known
          fun hfalse => absurd hfalse (by decide)
      · intro _
        exact ends_some ht
    refine Ends.map (P := fun r => r.1.Sound) ?_ fun _ hr => hr
    refine hdump.bind fun t ht => ?_
    refine (haux t ht).bind fun u hu => ?_
    refine (hkbd u hu).bind fun v hv => ?_
    exact ends_some ⟨hv.bounded.congr rfl rfl, hv.skip, hv.heard, hv.known⟩

theorem delay_handler_sound (h : s.Sound) : s.delay_handler.Sound := by
  have hexpired : Sound (s.withCtl fun c =>
      { c with delay_running := false, delay_expired := true }) :=
    ⟨h.bounded.congr rfl rfl, h.skip, h.heard, h.known⟩
  have hgrew := maybe_transfer_buffer_grew
    (s.withCtl fun c => { c with delay_running := false, delay_expired := true })
  exact hexpired.keeps (hgrew.keeps h.bounded.ctl_le)

/-! ## Runs -/

/-- One event keeps the invariant, unless it deafens the keyboard. -/
theorem step_sound (board : Board) (h : s.Sound) {a : InputAction} (hheed : ¬s.Deafens a) :
    Ends (s.step board a) Sound := by
  cases a with
  | addKey key_type is_pressed => exact KEYBOARD_AddKey_sound h key_type is_pressed
  | read60 => exact read_data_port_sound h
  | write60 byte => exact write_data_port_sound h hheed
  | write64 byte => exact write_command_port_sound h board
  | delayExpires =>
    refine ends_some ?_
    split
    · exact delay_handler_sound h
    · exact h
  | mouseMoves mouse => exact ends_some ⟨h.bounded.congr rfl rfl, h.skip, h.heard, h.known⟩
  | mouseFrame =>
    exact (MOUSEPS2_NotifyReadyForFrame_keeps h.bounded).mono fun _ hk => h.keeps hk
  | typematicTick => exact typematic_tick_sound h

/-- The events one after another. -/
def run (board : Board) : List InputAction → InputSystem → Option InputSystem
  | [], s => some s
  | a :: actions, s => (s.step board a).bind (run board actions)

/-- None of the events deafens the keyboard when it happens. -/
def Heeds (board : Board) : List InputAction → InputSystem → Prop
  | [], _ => True
  | a :: actions, s => ¬s.Deafens a ∧ ∀ t, s.step board a = some t → Heeds board actions t

theorem run_sound (board : Board) (actions : List InputAction) (h : s.Sound)
    (hheed : Heeds board actions s) : Ends (run board actions s) Sound := by
  induction actions generalizing s with
  | nil => exact ends_some h
  | cons a actions ih =>
    obtain ⟨t, hstep, ht⟩ := step_sound board h hheed.1
    rw [run, hstep]
    exact ih ht (hheed.2 t hstep)

/-- **The keyboard never goes deaf**, except by a write to port 60h that gets no reply:
every run without such a write ends, as a run, in a state in which a ready controller has
a keyboard with nothing to send, and from there such a write, and no other event, leaves a
ready controller with a keyboard that it does not ask. -/
theorem run_heard (board : Board) (mouse : Mouse) (waitsForSecureMode : Bool)
    (actions : List InputAction) (hheed : Heeds board actions (reset mouse waitsForSecureMode)) :
    Ends (run board actions (reset mouse waitsForSecureMode)) fun s =>
      s.Heard ∧ ∀ a, Ends (s.step board a) fun t => t.Heard ↔ ¬s.Deafens a := by
  refine (run_sound board actions (reset_sound mouse waitsForSecureMode) hheed).mono fun s hs => ?_
  refine ⟨hs.heard, fun a => ?_⟩
  by_cases hdeaf : s.Deafens a
  · cases a with
    | write60 byte =>
      exact (not_heard_of_deafens hs hdeaf).mono fun t ht =>
        ⟨fun hheard => absurd hheard ht, fun hnot => absurd hdeaf hnot⟩
    | _ => exact absurd hdeaf id
  · exact (step_sound board hs hdeaf).mono fun t ht => ⟨fun _ => hdeaf, fun _ => ht.heard⟩

/-- A mouse that does not move and is not there. -/
def noMouse : Mouse := ⟨[], [], ⟨[], Nat.zero_le 4⟩, false⟩

/-- A key is pressed and read, and the guest sets the repetition rate. -/
theorem run_heard_typeRate :
    Ends (run ⟨[], true⟩ [.addKey .KBD_a true, .delayExpires, .read60, .write60 0xf3, .write60 0x20]
      (reset noMouse false)) fun s =>
      s.Heard ∧ ∀ a, Ends (s.step ⟨[], true⟩ a) fun t => t.Heard ↔ ¬s.Deafens a := by
  refine run_heard ⟨[], true⟩ noMouse false _ ?_
  refine ⟨id, fun t ht => ⟨id, fun u hu => ⟨id, fun v hv => ⟨?_, fun w hw => ⟨?_, fun _ _ => trivial⟩⟩⟩⟩⟩
  · obtain rfl := Option.some.inj ht
    obtain rfl := Option.some.inj hu
    obtain rfl := Option.some.inj hv
    decide
  · obtain rfl := Option.some.inj ht
    obtain rfl := Option.some.inj hu
    obtain rfl := Option.some.inj hv
    obtain rfl := Option.some.inj hw
    decide

/-- The guest disables the keyboard port, a key is pressed, and the guest writes `00h` to
port 60h: the port is enabled, the controller ready, and the key stays in the keyboard. -/
theorem run_not_heard : ¬∀ (board : Board) (mouse : Mouse) (waitsForSecureMode : Bool)
    (actions : List InputAction) (s : InputSystem),
    run board actions (reset mouse waitsForSecureMode) = some s → s.Heard := by
  intro h
  have hrun : (run ⟨[], true⟩ [.write64 0xad, .addKey .KBD_a true, .write60 0x00]
      (reset noMouse false)).map (fun s => decide s.Heard) = some false := by decide
  obtain ⟨s, hs, hheard⟩ := Option.map_eq_some_iff.mp hrun
  exact of_decide_eq_false hheard (h _ _ _ _ s hs)

end InputSystem

end AugraDosbox
