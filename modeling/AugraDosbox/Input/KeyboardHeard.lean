import AugraDosbox.Input.Ports
import AugraDosbox.Lib.Ends

/-!
# Whether the keyboard is heard

The keyboard keeps a key until the controller tells it that it is ready, and forgets
all keys after an overflow until then, so the controller must tell it each time it
becomes ready.

* `Heard` — a controller that is ready has a keyboard with nothing to send;
* `Keeps` — what every operation of the controller does to the keyboard: with devices
  being told about readiness, a keyboard that is heard stays so; without, the keyboard
  does not change;
* `flushWith_ends` — a flush has a result, whatever the flush nested in it is: the
  frames sent meanwhile fit into the empty buffer;
* `notifyDevices_ends` — after the notifications at the end of a command the keyboard is
  heard.
-/

namespace AugraDosbox

open Total

namespace InputSystem

variable {s t u : InputSystem} {byte : KbdByte}

/-! ## What is kept -/

/-- A ready controller has nothing to ask the keyboard for. -/
def Heard (s : InputSystem) : Prop :=
  s.ctl.IsReadyForKbdFrame = true → s.kbd.buffer = [] ∧ s.kbd.buffer_overflowed = false

instance : Decidable s.Heard := inferInstanceAs (Decidable (_ → _))

/-- The buffer is not overfull, and the keyboard's codes are codes. -/
structure Bounded (s : InputSystem) : Prop where
  ctl_le : s.ctl.buffer.length ≤ controllerBufferSize
  code_ne : ∀ code ∈ s.kbd.buffer, code ≠ []
  code_le : ∀ code ∈ s.kbd.buffer, code.length ≤ 6

/-- Everything but the data on its way is the same. -/
structure SameControl (s t : InputSystem) : Prop where
  config : t.ctl.config = s.ctl.config
  is_diagnostic_dump : t.ctl.is_diagnostic_dump = s.ctl.is_diagnostic_dump
  should_skip : t.ctl.should_skip_device_notify = s.ctl.should_skip_device_notify
  ctl_command : t.ctl.current_command = s.ctl.current_command
  kbd_command : t.kbd.current_command = s.kbd.current_command

theorem SameControl.refl (s : InputSystem) : SameControl s s := ⟨rfl, rfl, rfl, rfl, rfl⟩

theorem SameControl.trans (h : SameControl s t) (h' : SameControl t u) : SameControl s u :=
  ⟨h'.config.trans h.config, h'.is_diagnostic_dump.trans h.is_diagnostic_dump,
    h'.should_skip.trans h.should_skip, h'.ctl_command.trans h.ctl_command,
    h'.kbd_command.trans h.kbd_command⟩

/-- What an operation of the controller keeps. -/
structure Keeps (s t : InputSystem) : Prop where
  same : SameControl s t
  bounded : s.Bounded → t.Bounded
  heard : s.ctl.should_skip_device_notify = false → s.Heard → t.Heard
  kbd : s.ctl.should_skip_device_notify = true → t.kbd = s.kbd

theorem Keeps.refl (s : InputSystem) : Keeps s s := ⟨.refl s, id, fun _ => id, fun _ => rfl⟩

theorem Keeps.trans (h : Keeps s t) (h' : Keeps t u) : Keeps s u where
  same := h.same.trans h'.same
  bounded hb := h'.bounded (h.bounded hb)
  heard hskip hs := h'.heard (h.same.should_skip.trans hskip) (h.heard hskip hs)
  kbd hskip := (h'.kbd (h.same.should_skip.trans hskip)).trans (h.kbd hskip)

theorem isReady_iff (c : I8042) :
    c.IsReadyForKbdFrame = true ↔ c.waiting_bytes_from_kbd = 0 ∧
      c.config.is_disabled_kbd = false ∧ c.is_diagnostic_dump = false := by
  unfold I8042.IsReadyForKbdFrame
  simp [and_assoc]

theorem heard_of_waiting (h : s.ctl.waiting_bytes_from_kbd ≠ 0) : s.Heard := by
  intro hready
  exact absurd ((isReady_iff _).mp hready).1 h

/-! ## One byte into the buffer -/

/-- The bytes on their way grew by at most `n`, of which `k` are the keyboard's. -/
structure Grew (n k : ℕ) (s t : InputSystem) : Prop where
  same : SameControl s t
  kbd : t.kbd = s.kbd
  length : t.ctl.buffer.length ≤ s.ctl.buffer.length + n
  waiting : t.ctl.waiting_bytes_from_kbd = s.ctl.waiting_bytes_from_kbd + k

theorem Grew.trans {n k m l : ℕ} (h : Grew n k s t) (h' : Grew m l t u) :
    Grew (n + m) (k + l) s u where
  same := h.same.trans h'.same
  kbd := h'.kbd.trans h.kbd
  length := by have := h.length; have := h'.length; omega
  waiting := by rw [h'.waiting, h.waiting]; omega

theorem Grew.keeps {n k : ℕ} (h : Grew n k s t)
    (hroom : s.ctl.buffer.length + n ≤ controllerBufferSize) : Keeps s t where
  same := h.same
  bounded hb :=
    ⟨Nat.le_trans h.length hroom, by rw [h.kbd]; exact hb.code_ne, by rw [h.kbd]; exact hb.code_le⟩
  heard _ hs hready := by
    rw [h.kbd]
    rw [isReady_iff, h.waiting, h.same.config, h.same.is_diagnostic_dump] at hready
    exact hs ((isReady_iff _).mpr ⟨by omega, hready.2⟩)
  kbd _ := h.kbd

section Flush

variable {flush : InputSystem → Option InputSystem}

theorem maybe_transfer_buffer_grew (s : InputSystem) :
    Grew 0 0 s { s with ctl := s.ctl.maybe_transfer_buffer } := by
  unfold I8042.maybe_transfer_buffer
  split
  · exact ⟨.refl s, rfl, Nat.le_refl _, rfl⟩
  · split
    · exact ⟨.refl s, rfl, Nat.le_refl _, rfl⟩
    · rename_i slot rest hbuffer
      split
      · exact ⟨.refl s, rfl, Nat.le_refl _, rfl⟩
      · refine ⟨⟨rfl, rfl, rfl, rfl, rfl⟩, rfl, ?_, rfl⟩
        simp [I8042.restart_delay_timer, hbuffer]

/-- A byte of a device that is not disabled, with room for it. -/
theorem buffer_add_grew {is_from_aux is_from_kbd skip_delay : Bool}
    (hroom : s.ctl.buffer.length < controllerBufferSize)
    (haux : is_from_aux = true → s.ctl.config.is_disabled_aux = false)
    (hkbd : is_from_kbd = true → s.ctl.config.is_disabled_kbd = false) :
    Ends (s.buffer_add flush byte is_from_aux is_from_kbd skip_delay)
      (Grew 1 (if is_from_kbd then 1 else 0) s) := by
  have henabled : ((is_from_aux && s.ctl.config.is_disabled_aux) ||
      (is_from_kbd && s.ctl.config.is_disabled_kbd)) = false := by
    cases is_from_aux <;> cases is_from_kbd <;> simp_all
  unfold buffer_add
  rw [henabled, if_neg (by decide), if_neg (by omega)]
  apply ends_some
  have happend : Grew 1 (if is_from_kbd then 1 else 0) s
      { s with ctl := s.ctl.append byte is_from_aux is_from_kbd skip_delay } :=
    ⟨⟨rfl, rfl, rfl, rfl, rfl⟩, rfl, by simp [I8042.append], rfl⟩
  exact happend.trans (maybe_transfer_buffer_grew _)

theorem addAuxBytes_grew (bytes : List KbdByte) (skip_delay : Bool)
    (hroom : s.ctl.buffer.length + bytes.length ≤ controllerBufferSize)
    (haux : s.ctl.config.is_disabled_aux = false) :
    Ends (addAuxBytes flush bytes skip_delay s) (Grew bytes.length 0 s) := by
  induction bytes generalizing s skip_delay with
  | nil => exact ends_some ⟨.refl s, rfl, Nat.le_refl _, rfl⟩
  | cons byte bytes ih =>
    rw [List.length_cons] at hroom
    have hone : Ends (s.buffer_add flush byte true false skip_delay) (Grew 1 0 s) :=
      buffer_add_grew (by omega) (fun _ => haux) (fun h => absurd h (by decide))
    refine hone.bind fun t ht => ?_
    have hlength := ht.length
    refine (ih true (by omega) (ht.same.config ▸ haux)).mono fun u hu => ?_
    have hgrew := ht.trans hu
    rw [Nat.add_comm 1] at hgrew
    exact hgrew

theorem addKbdBytes_grew (bytes : List KbdByte)
    (hroom : s.ctl.buffer.length + bytes.length ≤ controllerBufferSize)
    (hkbd : s.ctl.config.is_disabled_kbd = false) :
    Ends (addKbdBytes flush bytes s) (Grew bytes.length bytes.length s) := by
  induction bytes generalizing s with
  | nil => exact ends_some ⟨.refl s, rfl, Nat.le_refl _, rfl⟩
  | cons byte bytes ih =>
    rw [List.length_cons] at hroom
    have hone : Ends (s.buffer_add flush byte false true false) (Grew 1 1 s) :=
      buffer_add_grew (by omega) (fun h => absurd h (by decide)) (fun _ => hkbd)
    refine hone.bind fun t ht => ?_
    have hlength := ht.length
    refine (ih (by omega) (ht.same.config ▸ hkbd)).mono fun u hu => ?_
    have hgrew := ht.trans hu
    rw [Nat.add_comm 1] at hgrew
    exact hgrew

/-! ## Flushes -/

theorem Bounded.congr (h : s.Bounded) (hctl : t.ctl.buffer = s.ctl.buffer)
    (hkbd : t.kbd.buffer = s.kbd.buffer) : t.Bounded :=
  ⟨by rw [hctl]; exact h.ctl_le, by rw [hkbd]; exact h.code_ne, by rw [hkbd]; exact h.code_le⟩

/-- What a flush does.  It tells the keyboard when the controller was not ready and
devices are told at all. -/
structure Flushed (s t : InputSystem) : Prop where
  same : SameControl s t
  length : t.ctl.buffer.length ≤ 10
  bounded : t.Bounded
  skipped : s.ctl.should_skip_device_notify = true → t.kbd = s.kbd
  ready : s.ctl.IsReadyForKbdFrame = true → t.kbd = s.kbd ∧ t.ctl.IsReadyForKbdFrame = true
  heard : s.ctl.should_skip_device_notify = false → s.ctl.IsReadyForKbdFrame = false → t.Heard

theorem Flushed.keeps (h : Flushed s t) : Keeps s t where
  same := h.same
  bounded _ := h.bounded
  heard hskip hs := by
    by_cases hready : s.ctl.IsReadyForKbdFrame = true
    · intro _
      rw [(h.ready hready).1]
      exact hs hready
    · exact h.heard hskip (by simpa using hready)
  kbd := h.skipped

/-- There is room for `n` bytes, or else the flush works. -/
def Room (flush : InputSystem → Option InputSystem) (s : InputSystem) (n : ℕ) : Prop :=
  s.ctl.buffer.length + n ≤ controllerBufferSize ∨
    ∀ s : InputSystem, s.Bounded → Ends (flush s) (Flushed s)

variable {n : ℕ}

theorem enforce_buffer_space_ends {m : ℕ} (hb : s.Bounded) (hroom : Room flush s n) (hm : m ≤ n) :
    Ends (s.enforce_buffer_space flush m) fun t =>
      (t = s ∧ s.ctl.buffer.length + m ≤ controllerBufferSize) ∨
        (controllerBufferSize < s.ctl.buffer.length + m ∧ Flushed s t) := by
  unfold enforce_buffer_space
  apply Ends.ite
  · intro hfull
    rcases hroom with hroom | hflush
    · omega
    · exact (hflush s hb).mono fun t ht => .inr ⟨hfull, ht⟩
  · intro hspace
    exact ends_some (.inl ⟨rfl, by omega⟩)

theorem enforce_buffer_space_of_le (h : s.ctl.buffer.length + n ≤ controllerBufferSize) :
    s.enforce_buffer_space flush n = some s :=
  if_neg (Nat.not_lt.mpr h)

/-- After `enforce_buffer_space` there is space. -/
theorem length_of_enforced (hn : n ≤ 6)
    (h : (t = s ∧ s.ctl.buffer.length + n ≤ controllerBufferSize) ∨
      (controllerBufferSize < s.ctl.buffer.length + n ∧ Flushed s t))
    :
    t.ctl.buffer.length + n ≤ controllerBufferSize := by
  rcases h with ⟨rfl, h⟩ | ⟨-, h⟩
  · exact h
  · have := h.length
    unfold controllerBufferSize
    omega

theorem keeps_of_enforced
    (h : (t = s ∧ s.ctl.buffer.length + n ≤ controllerBufferSize) ∨
      (controllerBufferSize < s.ctl.buffer.length + n ∧ Flushed s t)) : Keeps s t := by
  rcases h with ⟨rfl, -⟩ | ⟨-, h⟩
  · exact .refl t
  · exact h.keeps

/-- A frame of the keyboard, sent to a ready controller. -/
theorem addKbdFrame_ends {code : List KbdByte} (hready : s.ctl.IsReadyForKbdFrame = true)
    (hb : s.Bounded) (hroom : Room flush s 6) (hne : code ≠ []) (hle : code.length ≤ 6) :
    Ends (s.I8042_AddKbdFrame flush code) fun t =>
      SameControl s t ∧ t.kbd = s.kbd ∧ t.ctl.waiting_bytes_from_kbd ≠ 0 ∧
        t.ctl.buffer.length ≤ controllerBufferSize ∧
        (s.ctl.buffer.length + 6 ≤ controllerBufferSize →
          t.ctl.buffer.length ≤ s.ctl.buffer.length + 6) := by
  have henabled := ((isReady_iff _).mp hready).2.1
  have hpos : 0 < code.length := List.length_pos_iff.mpr hne
  unfold I8042_AddKbdFrame
  rw [if_neg (by simp [hne, henabled])]
  -- the state in which the frame is sent has the time-out bit cleared
  have hb' : Bounded { s with ctl := { s.ctl with is_transmit_timeout := false } } :=
    hb.congr rfl rfl
  refine (enforce_buffer_space_ends hb' hroom hle).bind fun t ht => ?_
  have hspace := length_of_enforced hle ht
  have hsame : SameControl s t :=
    SameControl.trans (by constructor <;> rfl) (keeps_of_enforced ht).same
  have hkbd : t.kbd = s.kbd := by
    rcases ht with ⟨rfl, -⟩ | ⟨-, ht⟩
    · rfl
    · exact (ht.ready hready).1
  refine (addKbdBytes_grew code hspace (hsame.config ▸ henabled)).mono fun u hu => ?_
  refine ⟨hsame.trans hu.same, hu.kbd.trans hkbd, ?_, Nat.le_trans hu.length hspace, fun hsix => ?_⟩
  · rw [hu.waiting]
    omega
  · have hlength := hu.length
    rcases ht with ⟨rfl, -⟩ | ⟨hfull, -⟩
    · change u.ctl.buffer.length ≤ s.ctl.buffer.length + code.length at hlength
      omega
    · change controllerBufferSize < s.ctl.buffer.length + code.length at hfull
      omega

/-- The keyboard sends its oldest code if the controller is ready; either way it is heard
afterwards. -/
theorem kbdTransfer_ends (hb : s.Bounded) (hroom : Room flush s 6)
    (hlatch : s.kbd.buffer_overflowed = false) :
    Ends (s.kbdTransfer flush) fun t =>
      SameControl s t ∧ t.Bounded ∧ t.Heard ∧
        (s.ctl.buffer.length + 6 ≤ controllerBufferSize →
          t.ctl.buffer.length ≤ s.ctl.buffer.length + 6) := by
  unfold kbdTransfer
  cases hbuffer : s.kbd.buffer with
  | nil => exact ends_some ⟨.refl s, hb, fun _ => ⟨hbuffer, hlatch⟩, fun _ => by omega⟩
  | cons code rest =>
    have hmem : code ∈ s.kbd.buffer := by rw [hbuffer]; exact List.mem_cons_self
    apply Ends.ite
    · intro hready
      refine (addKbdFrame_ends hready hb hroom (hb.code_ne code hmem) (hb.code_le code hmem)).map
        fun t ⟨hsame, hkbd, hwaiting, hle, hlength⟩ => ?_
      refine ⟨hsame.trans ⟨rfl, rfl, rfl, rfl, rfl⟩, ⟨hle, ?_, ?_⟩, heard_of_waiting hwaiting,
        hlength⟩
      · intro code' hcode'
        exact hb.code_ne code' (hkbd ▸ List.mem_of_mem_tail hcode')
      · intro code' hcode'
        exact hb.code_le code' (hkbd ▸ List.mem_of_mem_tail hcode')
    · intro hready
      exact ends_some ⟨.refl s, hb, fun h => absurd h hready, fun _ => by omega⟩

theorem KEYBOARD_NotifyReadyForFrame_ends (hb : s.Bounded) (hroom : Room flush s 6) :
    Ends (s.KEYBOARD_NotifyReadyForFrame flush) fun t =>
      SameControl s t ∧ t.Bounded ∧ t.Heard ∧
        (s.ctl.buffer.length + 6 ≤ controllerBufferSize →
          t.ctl.buffer.length ≤ s.ctl.buffer.length + 6) := by
  have hb' : Bounded { s with kbd := { s.kbd with buffer_overflowed := false } } :=
    hb.congr rfl rfl
  refine (kbdTransfer_ends hb' hroom rfl).mono fun t ⟨hsame, hrest⟩ => ?_
  exact ⟨SameControl.trans (by constructor <;> rfl) hsame, hrest⟩

/-- A frame of the mouse finds room in an empty buffer. -/
theorem MOUSEPS2_NotifyReadyForFrame_grew (hempty : s.ctl.buffer = []) :
    Ends (s.MOUSEPS2_NotifyReadyForFrame flush) (Grew 4 0 s) := by
  unfold MOUSEPS2_NotifyReadyForFrame
  split
  · exact ends_some ⟨.refl s, rfl, by omega, rfl⟩
  · rename_i frame rest hframes
    have hshort := frame.short
    apply Ends.ite
    · intro _
      unfold I8042_AddAuxFrame
      apply Ends.ite
      · intro _
        exact ends_some ⟨⟨rfl, rfl, rfl, rfl, rfl⟩, rfl, by simp, rfl⟩
      · intro hsend
        push Not at hsend
        have hspace : s.ctl.buffer.length + frame.bytes.length ≤ controllerBufferSize := by
          rw [hempty, List.length_nil, controllerBufferSize]
          omega
        refine Ends.bind (P := (· = _)) ⟨_, enforce_buffer_space_of_le hspace, rfl⟩ ?_
        rintro t rfl
        refine Ends.mono (addAuxBytes_grew frame.bytes false ?_ ?_) fun u hu => ?_
        · exact hspace
        · exact Bool.not_eq_true _ ▸ hsend.2
        have hlength : u.ctl.buffer.length ≤ s.ctl.buffer.length + frame.bytes.length := hu.length
        exact ⟨SameControl.trans (by constructor <;> rfl) hu.same, hu.kbd, by omega, hu.waiting⟩
    · intro _
      exact ends_some ⟨.refl s, rfl, by omega, rfl⟩

/-- **A flush has a result**, whatever the flush nested in it is. -/
theorem flushWith_ends (hb : s.Bounded) : Ends (s.flushWith flush) (Flushed s) := by
  unfold flushWith
  -- what is left when the buffer has been emptied
  let s₁ : InputSystem := { s with ctl := { s.ctl with
    is_data_new := false, is_data_from_aux := false, is_data_from_kbd := false, buffer := []
    waiting_bytes_from_aux := 0, waiting_bytes_from_kbd := 0 } }
  have hmouse : ∀ b : Bool, Ends (if b && s₁.ctl.IsReadyForAuxFrame
      then s₁.MOUSEPS2_NotifyReadyForFrame flush else some s₁) (Grew 4 0 s₁) := by
    intro b
    apply Ends.ite
    · intro _
      exact MOUSEPS2_NotifyReadyForFrame_grew rfl
    · intro _
      exact ends_some ⟨.refl s₁, rfl, by omega, rfl⟩
  refine (hmouse _).bind fun t ht => ?_
  have hsame : SameControl s t := SameControl.trans (by constructor <;> rfl) ht.same
  have hkbd : t.kbd = s.kbd := ht.kbd
  have hlength : t.ctl.buffer.length ≤ 4 := ht.length
  have hwaiting : t.ctl.waiting_bytes_from_kbd = 0 := ht.waiting
  have hbt : t.Bounded := ⟨by unfold controllerBufferSize; omega, by rw [hkbd]; exact hb.code_ne,
    by rw [hkbd]; exact hb.code_le⟩
  apply Ends.ite
  · intro hnotify
    change (!s.ctl.should_skip_device_notify && !s.ctl.IsReadyForKbdFrame &&
      t.ctl.IsReadyForKbdFrame) = true at hnotify
    simp only [Bool.and_eq_true, Bool.not_eq_true'] at hnotify
    obtain ⟨⟨hskip, hready⟩, -⟩ := hnotify
    have hroom : Room flush t 6 := .inl (by unfold controllerBufferSize; omega)
    refine (KEYBOARD_NotifyReadyForFrame_ends hbt hroom).mono fun u ⟨hsu, hbu, hheard, hlu⟩ => ?_
    have hlu' := hlu (by unfold controllerBufferSize; omega)
    exact ⟨hsame.trans hsu, by omega, hbu, fun h => by simp [hskip] at h,
      fun h => by simp [hready] at h, fun _ _ => hheard⟩
  · intro hnotify
    refine ends_some ⟨hsame, by omega, hbt, fun _ => hkbd, fun hready => ⟨hkbd, ?_⟩, ?_⟩
    · rw [isReady_iff] at hready ⊢
      rw [hsame.config, hsame.is_diagnostic_dump]
      exact ⟨hwaiting, hready.2⟩
    · intro hskip hready hready'
      refine absurd ?_ hnotify
      change (!s.ctl.should_skip_device_notify && !s.ctl.IsReadyForKbdFrame &&
        t.ctl.IsReadyForKbdFrame) = true
      rw [hskip, hready, hready']
      rfl

end Flush

theorem flush_ends (hb : s.Bounded) : Ends s.flush (Flushed s) := flushWith_ends hb

theorem room (s : InputSystem) (n : ℕ) : Room flush s n := .inr fun _ => flush_ends

/-! ## Operations of the controller -/

theorem Keeps.ends_trans {r : Option InputSystem} (h : Keeps s t) (hr : Ends r (Keeps t)) :
    Ends r (Keeps s) :=
  hr.mono fun _ hu => h.trans hu

theorem buffer_add_keeps (hb : s.Bounded) (is_from_aux is_from_kbd skip_delay : Bool) :
    Ends (s.buffer_add flush byte is_from_aux is_from_kbd skip_delay) (Keeps s) := by
  by_cases henabled : ((is_from_aux && s.ctl.config.is_disabled_aux) ||
      (is_from_kbd && s.ctl.config.is_disabled_kbd)) = true
  · unfold buffer_add
    rw [if_pos henabled]
    exact ends_some (.refl s)
  by_cases hfull : controllerBufferSize ≤ s.ctl.buffer.length
  · unfold buffer_add
    rw [if_neg henabled, if_pos hfull]
    exact (flush_ends hb).mono fun t ht => ht.keeps
  · simp only [Bool.or_eq_true, Bool.and_eq_true, not_or, not_and, Bool.not_eq_true] at henabled
    have hroom : s.ctl.buffer.length + 1 ≤ controllerBufferSize := by omega
    refine (buffer_add_grew (by omega) henabled.1 henabled.2).mono fun t ht => ht.keeps hroom

theorem addBytes_keeps (bytes : List KbdByte) (hb : s.Bounded) :
    Ends (addBytes bytes s) (Keeps s) := by
  induction bytes generalizing s with
  | nil => exact ends_some (.refl s)
  | cons byte bytes ih =>
    refine (buffer_add_keeps hb false false false).bind fun t ht => ?_
    exact ht.ends_trans (ih (ht.bounded hb))

theorem answer_keeps (bytes : List KbdByte) (hb : s.Bounded) :
    Ends (s.answer bytes) (Keeps s) := by
  refine (flush_ends hb).bind fun t ht => ?_
  exact ht.keeps.ends_trans (addBytes_keeps bytes ht.bounded)

theorem keeps_timeout (s : InputSystem) :
    Keeps s { s with ctl := { s.ctl with is_transmit_timeout := false } } :=
  ⟨by constructor <;> rfl, fun hb => hb.congr rfl rfl, fun _ hs => hs, fun _ => rfl⟩

theorem I8042_AddAuxByte_keeps (hb : s.Bounded) :
    Ends (s.I8042_AddAuxByte flush byte) (Keeps s) := by
  unfold I8042_AddAuxByte
  apply Ends.ite
  · intro _
    exact ends_some (.refl s)
  · intro _
    have hb' := (keeps_timeout s).bounded hb
    refine (enforce_buffer_space_ends hb' (room _ 1) (Nat.le_refl 1)).bind fun t ht => ?_
    have hkeeps := (keeps_timeout s).trans (keeps_of_enforced ht)
    exact hkeeps.ends_trans (buffer_add_keeps (hkeeps.bounded hb) true false false)

theorem I8042_AddAuxFrame_keeps {bytes : List KbdByte} (hb : s.Bounded) (hle : bytes.length ≤ 4) :
    Ends (s.I8042_AddAuxFrame flush bytes) (Keeps s) := by
  unfold I8042_AddAuxFrame
  apply Ends.ite
  · intro _
    exact ends_some (.refl s)
  · intro hsend
    have henabled : s.ctl.config.is_disabled_aux = false := by
      simp only [not_or, Bool.not_eq_true] at hsend
      exact hsend.2
    have hb' := (keeps_timeout s).bounded hb
    refine (enforce_buffer_space_ends hb' (room _ 4) hle).bind fun t ht => ?_
    have hspace := length_of_enforced (by omega) ht
    have hkeeps := (keeps_timeout s).trans (keeps_of_enforced ht)
    refine hkeeps.ends_trans ?_
    refine (addAuxBytes_grew bytes false hspace (hkeeps.same.config ▸ henabled)).mono fun u hu => ?_
    exact hu.keeps hspace

theorem MOUSEPS2_NotifyReadyForFrame_keeps (hb : s.Bounded) :
    Ends (s.MOUSEPS2_NotifyReadyForFrame flush) (Keeps s) := by
  unfold MOUSEPS2_NotifyReadyForFrame
  split
  · exact ends_some (.refl s)
  · rename_i frame rest hframes
    apply Ends.ite
    · intro _
      have hkeeps : Keeps s { s with mouse := { s.mouse with frames := rest } } :=
        ⟨by constructor <;> rfl, fun hb => hb.congr rfl rfl, fun _ hs => hs, fun _ => rfl⟩
      exact hkeeps.ends_trans (I8042_AddAuxFrame_keeps (hkeeps.bounded hb) frame.short)
    · intro _
      exact ends_some (.refl s)

/-- A byte of the keyboard, with its port enabled: the controller is not ready
afterwards. -/
theorem I8042_AddKbdByte_ends (hb : s.Bounded) (henabled : s.ctl.config.is_disabled_kbd = false) :
    Ends (s.I8042_AddKbdByte flush byte) fun t =>
      SameControl s t ∧ t.Bounded ∧ t.ctl.waiting_bytes_from_kbd ≠ 0 := by
  unfold I8042_AddKbdByte
  rw [if_neg (by simp [henabled])]
  have hb' := (keeps_timeout s).bounded hb
  refine (enforce_buffer_space_ends hb' (room _ 1) (Nat.le_refl 1)).bind fun t ht => ?_
  have hspace := length_of_enforced (by omega) ht
  have hkeeps := (keeps_timeout s).trans (keeps_of_enforced ht)
  have hadd : Ends (t.buffer_add flush byte false true false) (Grew 1 1 t) :=
    buffer_add_grew (by omega) (fun h => absurd h (by decide))
      (fun _ => hkeeps.same.config ▸ henabled)
  refine hadd.mono fun u hu => ?_
  refine ⟨hkeeps.same.trans hu.same, (hu.keeps hspace).bounded (hkeeps.bounded hb), ?_⟩
  rw [hu.waiting]
  omega

/-! ## The notifications -/

/-- After the notifications the keyboard is heard, if it is told or was heard before. -/
theorem notifyDevices_ends {should_notify_aux should_notify_kbd : Bool} (hb : s.Bounded)
    (hskip : s.ctl.should_skip_device_notify = false)
    (hs : should_notify_kbd = false → s.Heard) :
    Ends (s.notifyDevices should_notify_aux should_notify_kbd) fun t =>
      SameControl s t ∧ t.Bounded ∧ t.Heard := by
  have hmouse : Ends (if should_notify_aux && s.ctl.IsReadyForAuxFrame
      then s.MOUSEPS2_NotifyReadyForFrame flush else some s) (Keeps s) := by
    apply Ends.ite
    · intro _
      exact MOUSEPS2_NotifyReadyForFrame_keeps hb
    · intro _
      exact ends_some (.refl s)
  refine hmouse.bind fun t ht => ?_
  apply Ends.ite
  · intro _
    refine (KEYBOARD_NotifyReadyForFrame_ends (ht.bounded hb) (room t 6)).mono
      fun u ⟨hsame, hbu, hheard, _⟩ => ?_
    exact ⟨ht.same.trans hsame, hbu, hheard⟩
  · intro hnotify
    refine ends_some ⟨ht.same, ht.bounded hb, ?_⟩
    cases hkbd : should_notify_kbd with
    | false => exact ht.heard hskip (hs hkbd)
    | true =>
      intro hready
      rw [hkbd, hready] at hnotify
      exact absurd rfl hnotify

end InputSystem

end AugraDosbox
