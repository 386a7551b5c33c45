import AugraDosbox.Input.Ports
import AugraDosbox.Lib.Ends

/-!
# Codes on their way to the guest

While the guest sends no commands and the mouse rests, the codes of the keyboard go
through three places: the keyboard's buffer, the controller's buffer and the output
register.

* `inTransit` — the bytes in these places, the next one to be read first;
* `I8042.Flows` — the controller holds bytes of the keyboard only, and its count of
  them is right;
* `Carries` — the whole of it between two events;
* **`KEYBOARD_AddKey_carries`**, **`read_data_port_carries`** — a key adds its code at
  the end, and a read takes the first byte.
-/

namespace AugraDosbox

open Total

/-! ## The controller -/

namespace I8042

variable {c : I8042} {r : ℕ}

/-- The byte in the output register that has not been read, and those in the buffer. -/
def bytes (c : I8042) : List KbdByte :=
  (if c.is_data_new then [c.data_byte] else []) ++ c.buffer.map Slot.data

/-- The controller has bytes of the keyboard only, and counts them; `r` of them are being
read, so that they are no longer counted. -/
structure Flows (r : ℕ) (c : I8042) : Prop where
  enabled : c.config.is_disabled_kbd = false
  plain : c.config.uses_kbd_translation = false
  no_dump : c.is_diagnostic_dump = false
  slots : ∀ slot ∈ c.buffer,
    slot.is_from_kbd = true ∧ slot.is_from_aux = false ∧ slot.skip_delay = false
  new : c.is_data_new = true → c.is_data_from_kbd = true ∧ c.is_data_from_aux = false
  waiting : c.waiting_bytes_from_kbd + r = c.buffer.length + c.is_data_new.toNat
  reading : r ≤ c.is_data_new.toNat
  timer : c.delay_running = true ∨ c.delay_expired = true

/-- A byte that could go on to the output register waits for the timer. -/
def Moves (c : I8042) : Prop :=
  c.is_data_new = false → c.buffer ≠ [] → c.delay_running = true

/-- A ready controller has an empty buffer. -/
theorem Flows.buffer_of_ready (h : c.Flows r) (hready : c.waiting_bytes_from_kbd = 0) :
    c.buffer = [] := by
  have hwaiting := h.waiting
  have hreading := h.reading
  exact List.eq_nil_of_length_eq_zero (by omega)

/-- What the controller has sent to the guest is done with. -/
theorem Flows.ready_iff (h : c.Flows r) :
    c.IsReadyForKbdFrame = true ↔ c.waiting_bytes_from_kbd = 0 := by
  unfold IsReadyForKbdFrame
  simp [h.enabled, h.no_dump]

theorem Flows.length_bytes (h : c.Flows r) : c.bytes.length = c.waiting_bytes_from_kbd + r := by
  have hwaiting := h.waiting
  cases hnew : c.is_data_new <;> simp [bytes, hnew] at hwaiting ⊢ <;> omega

theorem maybe_transfer_buffer_flows (h : c.Flows r) :
    c.maybe_transfer_buffer.Flows r ∧ c.maybe_transfer_buffer.Moves ∧
      c.maybe_transfer_buffer.bytes = c.bytes ∧
      c.maybe_transfer_buffer.buffer.length ≤ c.buffer.length ∧
      (c.is_data_new = true → c.maybe_transfer_buffer.is_data_new = true) := by
  unfold maybe_transfer_buffer
  cases hnew : c.is_data_new with
  | true =>
    refine ⟨h, fun hnot => ?_, rfl, Nat.le_refl _, fun _ => hnew⟩
    exact absurd (hnew.symm.trans hnot) (by decide)
  | false =>
    cases hbuffer : c.buffer with
    | nil =>
      refine ⟨h, fun _ hne => absurd hbuffer hne, rfl, ?_, fun hnot => absurd hnot (by decide)⟩
      exact Nat.le_of_eq (by simp [hbuffer])
    | cons slot rest =>
      obtain ⟨hkbd, haux, hskip⟩ := h.slots slot (by rw [hbuffer]; exact List.mem_cons_self)
      have hreading : r = 0 := by
        have := h.reading
        rw [hnew] at this
        exact Nat.le_zero.mp this
      simp only [Bool.false_eq_true, if_false]
      split
      · rename_i hwait
        refine ⟨h, fun _ _ => h.timer.resolve_right ?_, rfl, ?_, fun hnot => absurd hnot (by decide)⟩
        · rw [hwait.1]
          decide
        · exact Nat.le_of_eq (by simp [hbuffer])
      · have hwaiting := h.waiting
        rw [hbuffer, hnew, hreading] at hwaiting
        refine ⟨⟨h.enabled, h.plain, h.no_dump, ?_, fun _ => ⟨hkbd, haux⟩, ?_, ?_, .inl rfl⟩,
          fun _ _ => rfl, ?_, ?_, fun _ => rfl⟩
        · intro slot' hslot'
          exact h.slots slot' (by rw [hbuffer]; exact List.mem_cons_of_mem _ hslot')
        · rw [hreading]
          simpa [restart_delay_timer] using hwaiting
        · rw [hreading]
          exact Nat.zero_le _
        · simp [bytes, restart_delay_timer, hnew, hbuffer]
        · simp [restart_delay_timer]

theorem append_flows (h : c.Flows r) (byte : KbdByte) :
    (c.append byte false true false).Flows r ∧
      (c.append byte false true false).bytes = c.bytes ++ [byte] := by
  have hwaiting := h.waiting
  refine ⟨⟨h.enabled, h.plain, h.no_dump, ?_, h.new, ?_, h.reading, h.timer⟩, ?_⟩
  · intro slot hslot
    rcases List.mem_append.mp hslot with hslot | hslot
    · exact h.slots slot hslot
    · rw [List.mem_singleton.mp hslot]
      exact ⟨rfl, rfl, rfl⟩
  · simp only [append, List.length_append, List.length_singleton, if_true]
    omega
  · simp [bytes, append, h.plain]

end I8042

namespace InputSystem

variable {s t : InputSystem} {r : ℕ} {byte : KbdByte}

/-- The bytes between the keyboard and the guest. -/
def inTransit (s : InputSystem) : List KbdByte := s.ctl.bytes ++ s.kbd.buffer.flatten

section Flush

variable {flush : InputSystem → Option InputSystem}

theorem buffer_add_flows (h : s.ctl.Flows r) (hroom : s.ctl.buffer.length < controllerBufferSize) :
    Ends (s.buffer_add flush byte false true false) fun t =>
      (t.ctl.Flows r ∧ t.ctl.Moves) ∧ t.ctl.bytes = s.ctl.bytes ++ [byte] ∧
        t.ctl.buffer.length ≤ s.ctl.buffer.length + 1 ∧ t.kbd = s.kbd ∧
        (s.ctl.is_data_new = true → t.ctl.is_data_new = true) := by
  unfold buffer_add
  rw [if_neg (by simp [h.enabled]), if_neg (by omega)]
  obtain ⟨happend, hbytes⟩ := I8042.append_flows h byte
  obtain ⟨hflows, hmoves, hsame, hlength, hnew⟩ := I8042.maybe_transfer_buffer_flows happend
  refine ends_some ⟨⟨hflows, hmoves⟩, hsame.trans hbytes, ?_, rfl, hnew⟩
  refine Nat.le_trans hlength (Nat.le_of_eq ?_)
  simp [I8042.append]

theorem addKbdBytes_flows (bytes : List KbdByte) (h : s.ctl.Flows r) (hmoves : s.ctl.Moves)
    (hroom : s.ctl.buffer.length + bytes.length ≤ controllerBufferSize) :
    Ends (addKbdBytes flush bytes s) fun t =>
      (t.ctl.Flows r ∧ t.ctl.Moves) ∧ t.ctl.bytes = s.ctl.bytes ++ bytes ∧ t.kbd = s.kbd ∧
        (s.ctl.is_data_new = true → t.ctl.is_data_new = true) := by
  induction bytes generalizing s with
  | nil => exact ends_some ⟨⟨h, hmoves⟩, (List.append_nil _).symm, rfl, id⟩
  | cons byte bytes ih =>
    rw [List.length_cons] at hroom
    refine (buffer_add_flows h (by omega)).bind fun t ⟨⟨ht, htm⟩, hbytes, hlength, hkbd, hnew⟩ => ?_
    refine (ih ht htm (by omega)).mono fun u ⟨hu, hbytes', hkbd', hnew'⟩ => ?_
    refine ⟨hu, ?_, hkbd'.trans hkbd, fun h => hnew' (hnew h)⟩
    rw [hbytes', hbytes, List.append_assoc, List.singleton_append]

/-- The keyboard hands its oldest code to a ready controller; nothing is lost by that. -/
theorem kbdTransfer_flows (h : s.ctl.Flows r) (hmoves : s.ctl.Moves)
    (hcode : ∀ code ∈ s.kbd.buffer, code ≠ [] ∧ code.length ≤ 6) :
    Ends (s.kbdTransfer flush) fun t =>
      (t.ctl.Flows r ∧ t.ctl.Moves) ∧ t.inTransit = s.inTransit ∧
        (t.ctl.waiting_bytes_from_kbd = 0 → t.kbd.buffer = []) ∧
        t.kbd.buffer <:+ s.kbd.buffer ∧ t.kbd = { s.kbd with buffer := t.kbd.buffer } ∧
        (s.ctl.is_data_new = true → t.ctl.is_data_new = true) := by
  unfold kbdTransfer
  cases hbuffer : s.kbd.buffer with
  | nil =>
    refine ends_some ⟨⟨h, hmoves⟩, rfl, fun _ => hbuffer, ?_, rfl, id⟩
    exact hbuffer ▸ List.suffix_rfl
  | cons code rest =>
    obtain ⟨hne, hle⟩ := hcode code (by rw [hbuffer]; exact List.mem_cons_self)
    apply Ends.ite
    · intro hready
      have hwaiting := h.ready_iff.mp hready
      have hempty := h.buffer_of_ready hwaiting
      have hspace : s.ctl.buffer.length + code.length ≤ controllerBufferSize := by
        rw [hempty, List.length_nil, controllerBufferSize]
        omega
      have hsend : Ends (s.I8042_AddKbdFrame flush code) fun t =>
          (t.ctl.Flows r ∧ t.ctl.Moves) ∧ t.ctl.bytes = s.ctl.bytes ++ code ∧ t.kbd = s.kbd ∧
            (s.ctl.is_data_new = true → t.ctl.is_data_new = true) := by
        unfold I8042_AddKbdFrame
        rw [if_neg (by simp [hne, h.enabled])]
        refine Ends.bind (P := (· = _)) ⟨_, if_neg (Nat.not_lt.mpr hspace), rfl⟩ ?_
        rintro t rfl
        refine Ends.mono (addKbdBytes_flows (r := r) code ?_ hmoves hspace) fun u hu => hu
        exact ⟨h.enabled, h.plain, h.no_dump, h.slots, h.new, h.waiting, h.reading, h.timer⟩
      refine hsend.map fun t ⟨ht, hbytes, hkbd, hnew⟩ => ?_
      have htail : t.kbd.buffer.tail = rest := by rw [hkbd, hbuffer, List.tail_cons]
      refine ⟨ht, ?_, ?_, ?_, ?_, hnew⟩
      · simp only [inTransit, htail, hbytes, hbuffer, List.flatten_cons, List.append_assoc]
      · -- the code is on its way, so the controller is not ready
        intro hzero
        have hlength := ht.1.length_bytes
        rw [hbytes, List.length_append, h.length_bytes, hwaiting] at hlength
        change t.ctl.waiting_bytes_from_kbd = 0 at hzero
        have hpos : 0 < code.length := List.length_pos_iff.mpr hne
        omega
      · exact htail ▸ List.suffix_cons code rest
      · rw [hkbd]
    · intro hready
      refine ends_some ⟨⟨h, hmoves⟩, rfl, fun hzero => ?_, ?_, rfl, id⟩
      · exact absurd (h.ready_iff.mpr hzero) hready
      · exact hbuffer ▸ List.suffix_rfl

end Flush

/-! ## Between two events -/

/-- No command is going on, and everything in transit is the keyboard's. -/
structure Carries (s : InputSystem) : Prop where
  flows : s.ctl.Flows 0
  moves : s.ctl.Moves
  heard : s.ctl.waiting_bytes_from_kbd = 0 → s.kbd.buffer = []
  code : ∀ code ∈ s.kbd.buffer, code ≠ [] ∧ code.length ≤ 6
  no_latch : s.kbd.buffer_overflowed = false
  scanning : s.kbd.is_scanning = true
  secure : s.kbd.waitsForSecureMode = false

/-- A machine that has just been reset carries nothing. -/
theorem reset_carries (mouse : Mouse) : (reset mouse false).Carries where
  flows := ⟨rfl, rfl, rfl, fun _ h => absurd h List.not_mem_nil, fun h => Bool.noConfusion h, rfl,
    Nat.zero_le _, .inr rfl⟩
  moves := fun _ h => absurd rfl h
  heard := fun _ => rfl
  code := fun _ h => absurd h List.not_mem_nil
  no_latch := rfl
  scanning := rfl
  secure := rfl

/-- Nothing is in transit only when both buffers are empty. -/
theorem Carries.buffer_of_idle (h : s.Carries) (hidle : s.inTransit = []) : s.kbd.buffer = [] := by
  have hbytes : s.ctl.bytes = [] := (List.append_eq_nil_iff.mp hidle).1
  refine h.heard ?_
  have hlength := h.flows.length_bytes
  rw [hbytes] at hlength
  exact hlength.symm

/-- **A key adds its code at the end**, when the keyboard has room for it. -/
theorem KEYBOARD_AddKey_carries (h : s.Carries) (key : KBD_KEYS) (is_pressed : Bool)
    (hroom : s.kbd.buffer.length < keyboardBufferSize) :
    Ends (s.KEYBOARD_AddKey key is_pressed) fun t =>
      t.Carries ∧ t.inTransit = s.inTransit ++ KEYBOARD_GetScanCode1 key is_pressed ∧
        t.kbd.buffer.length ≤ s.kbd.buffer.length + 1 ∧
        t.kbd.typematic = s.kbd.typematic.update key is_pressed := by
  unfold KEYBOARD_AddKey
  rw [if_neg (by simp [h.secure]), if_neg (by simp [h.scanning])]
  unfold kbdBufferAdd
  apply Ends.ite
  · -- the release of the pause key has no code
    rintro (hnone | hlatch)
    · refine ends_some ⟨⟨h.flows, h.moves, h.heard, h.code, h.no_latch, h.scanning, h.secure⟩, ?_,
        Nat.le_succ _, rfl⟩
      rw [hnone, List.append_nil]
      rfl
    · exact absurd (h.no_latch.symm.trans hlatch) (by decide)
  · intro hadd
    push Not at hadd
    rw [if_neg (Nat.ne_of_lt hroom)]
    refine Ends.mono (kbdTransfer_flows (r := 0) h.flows h.moves ?_)
      fun t ⟨⟨hflows, hmoves⟩, hbytes, hheard, hsuffix, hkbd, _⟩ => ?_
    · intro code hcode
      rcases List.mem_append.mp hcode with hcode | hcode
      · exact h.code code hcode
      · rw [List.mem_singleton.mp hcode]
        exact ⟨hadd.1, length_scanCode1_le key is_pressed⟩
    · have hsuffix' : t.kbd.buffer <:+ s.kbd.buffer ++ [KEYBOARD_GetScanCode1 key is_pressed] :=
        hsuffix
      refine ⟨⟨hflows, hmoves, hheard, ?_, ?_, ?_, ?_⟩, ?_, ?_, ?_⟩
      · intro code hcode
        rcases List.mem_append.mp (hsuffix'.subset hcode) with hcode | hcode
        · exact h.code code hcode
        · rw [List.mem_singleton.mp hcode]
          exact ⟨hadd.1, length_scanCode1_le key is_pressed⟩
      · rw [hkbd]
        exact h.no_latch
      · rw [hkbd]
        exact h.scanning
      · rw [hkbd]
        exact h.secure
      · rw [hbytes]
        simp [inTransit]
      · have hlength := hsuffix'.length_le
        rw [List.length_append, List.length_singleton] at hlength
        exact hlength
      · rw [hkbd]

/-- A tick without a key held changes nothing. -/
theorem typematic_tick_carries (h : s.Carries) (hkey : s.kbd.typematic.key = none) :
    Ends s.typematic_tick fun t =>
      t.Carries ∧ t.inTransit = s.inTransit ∧ t.kbd.buffer = s.kbd.buffer ∧
        t.kbd.typematic.key = none := by
  unfold typematic_tick
  have hticked : ∀ typematic, Carries { s with kbd := { s.kbd with typematic := typematic } } :=
    fun _ => ⟨h.flows, h.moves, h.heard, h.code, h.no_latch, h.scanning, h.secure⟩
  apply Ends.ite
  · intro _
    exact ends_some ⟨hticked _, rfl, rfl, hkey⟩
  · intro _
    simp only [hkey]
    exact ends_some ⟨hticked _, rfl, rfl, rfl⟩

theorem delay_handler_carries (h : s.Carries) :
    s.delay_handler.Carries ∧ s.delay_handler.inTransit = s.inTransit ∧
      s.delay_handler.kbd = s.kbd := by
  have hexpired : I8042.Flows 0 { s.ctl with delay_running := false, delay_expired := true } :=
    ⟨h.flows.enabled, h.flows.plain, h.flows.no_dump, h.flows.slots, h.flows.new, h.flows.waiting,
      h.flows.reading, .inr rfl⟩
  obtain ⟨hflows, hmoves, hbytes, -⟩ := I8042.maybe_transfer_buffer_flows hexpired
  refine ⟨⟨hflows, hmoves, ?_, h.code, h.no_latch, h.scanning, h.secure⟩, ?_, rfl⟩
  · intro hzero
    refine h.heard ?_
    have hlength := hflows.length_bytes
    rw [hbytes] at hlength
    exact (h.flows.length_bytes.symm.trans hlength).trans hzero
  · exact congrArg (· ++ s.kbd.buffer.flatten) hbytes

/-- **A read takes the first byte in transit**, if the output register has one. -/
theorem read_data_port_carries (h : s.Carries) (hnew : s.ctl.is_data_new = true) :
    Ends s.read_data_port fun p =>
      p.1.Carries ∧ s.inTransit = p.2 :: p.1.inTransit ∧ p.1.kbd.buffer <:+ s.kbd.buffer ∧
        p.1.kbd.typematic = s.kbd.typematic := by
  obtain ⟨hfromkbd, hfromaux⟩ := h.flows.new hnew
  unfold read_data_port
  rw [if_neg (by simp [hnew])]
  refine Ends.bind (P := (· = s)) ⟨s, if_neg (by simp [h.flows.no_dump]), rfl⟩ ?_
  rintro s' rfl
  refine Ends.bind (P := (· = s')) ⟨s', if_neg (by simp [hfromaux]), rfl⟩ ?_
  rintro s rfl
  -- the byte in the register is no longer counted when the keyboard is told
  let s₁ : InputSystem := s.withCtl fun c =>
    { c with waiting_bytes_from_kbd := c.waiting_bytes_from_kbd - 1 }
  have hflows₁ : s₁.ctl.Flows 1 := by
    have hwaiting := h.flows.waiting
    rw [hnew] at hwaiting
    refine ⟨h.flows.enabled, h.flows.plain, h.flows.no_dump, h.flows.slots, h.flows.new, ?_, ?_,
      h.flows.timer⟩
    · change s.ctl.waiting_bytes_from_kbd - 1 + 1 = s.ctl.buffer.length + s.ctl.is_data_new.toNat
      rw [hnew]
      change _ = s.ctl.buffer.length + 1 at hwaiting
      change _ = s.ctl.buffer.length + 1
      omega
    · change 1 ≤ s.ctl.is_data_new.toNat
      rw [hnew]
      decide
  have hnotify : Ends (if s.ctl.is_data_from_kbd then notifyDevices false true s₁ else some s)
      fun t => (t.ctl.Flows 1 ∧ t.ctl.Moves) ∧ t.inTransit = s.inTransit ∧
        (t.ctl.waiting_bytes_from_kbd = 0 → t.kbd.buffer = []) ∧
        t.kbd.buffer <:+ s.kbd.buffer ∧ t.kbd = { s.kbd with buffer := t.kbd.buffer } ∧
        t.ctl.is_data_new = true := by
    rw [if_pos hfromkbd]
    unfold notifyDevices
    refine Ends.bind (P := (· = s₁)) ⟨s₁, rfl, rfl⟩ ?_
    rintro t rfl
    apply Ends.ite
    · intro _
      refine Ends.mono (kbdTransfer_flows (r := 1) hflows₁ h.moves h.code)
        fun t ⟨ht, hbytes, hheard, hsuffix, hkbd, hnew'⟩ => ?_
      refine ⟨ht, hbytes, hheard, hsuffix, ?_, hnew' hnew⟩
      rw [hkbd]
      change _ = { s.kbd with buffer := t.kbd.buffer }
      rw [← h.no_latch]
      rfl
    · intro hready
      refine ends_some ⟨⟨hflows₁, h.moves⟩, rfl, fun hzero => ?_, List.suffix_rfl, rfl, hnew⟩
      refine absurd ?_ hready
      rw [Bool.true_and]
      exact hflows₁.ready_iff.mpr hzero
  refine hnotify.bind fun t ⟨⟨hflows, hmoves⟩, hbytes, hheard, hsuffix, hkbd, hnew'⟩ => ?_
  have hwaiting := hflows.waiting
  rw [hnew'] at hwaiting
  refine ends_some ⟨⟨⟨hflows.enabled, hflows.plain, hflows.no_dump, hflows.slots, ?_, ?_, ?_, ?_⟩,
    ?_, hheard, ?_, ?_, ?_, ?_⟩, ?_, hsuffix, ?_⟩
  · exact fun hnot => Bool.noConfusion hnot
  · change t.ctl.waiting_bytes_from_kbd + 0 = t.ctl.buffer.length + 0
    change _ = t.ctl.buffer.length + 1 at hwaiting
    omega
  · exact Nat.zero_le _
  · exact .inl rfl
  · exact fun _ _ => rfl
  · exact fun code hcode => h.code code (hsuffix.subset hcode)
  · change t.kbd.buffer_overflowed = false
    rw [hkbd]
    exact h.no_latch
  · change t.kbd.is_scanning = true
    rw [hkbd]
    exact h.scanning
  · change t.kbd.waitsForSecureMode = false
    rw [hkbd]
    exact h.secure
  · rw [← hbytes]
    simp only [inTransit, I8042.bytes, hnew', if_true, List.cons_append, List.nil_append]
    rfl
  · change t.kbd.typematic = s.kbd.typematic
    rw [hkbd]

/-- Once the timer has expired, the first byte in transit can be read. -/
theorem new_of_delay (h : s.Carries) (htransit : s.inTransit ≠ []) :
    (if s.ctl.delay_running then s.delay_handler else s).ctl.is_data_new = true := by
  have hbytes : s.ctl.bytes ≠ [] := by
    intro hnil
    have hlength := h.flows.length_bytes
    rw [hnil] at hlength
    apply htransit
    unfold inTransit
    rw [hnil, h.heard hlength.symm]
    rfl
  cases hnew : s.ctl.is_data_new with
  | true =>
    split
    · simp [delay_handler, withCtl, I8042.maybe_transfer_buffer, hnew]
    · exact hnew
  | false =>
    have hbuffer : s.ctl.buffer ≠ [] := by
      intro hnil
      exact hbytes (by simp [I8042.bytes, hnew, hnil])
    rw [if_pos (h.moves hnew hbuffer)]
    obtain ⟨slot, rest, hcons⟩ := List.exists_cons_of_ne_nil hbuffer
    simp [delay_handler, withCtl, I8042.maybe_transfer_buffer, hnew, hcons,
      I8042.restart_delay_timer]

end InputSystem

end AugraDosbox
