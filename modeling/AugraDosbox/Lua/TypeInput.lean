import AugraDosbox.Input.Transit

/-!
# Typing from a script

`dosbox.type` of a Lua script: `LuaCoroutine` of `src/lua/lua_coroutine.cpp` feeds the
keystrokes to the keyboard, a few in each frame, and resumes the script when the
keyboard has handed all of them on.

* `DrainPendingKeys`, `DispatchFrame`, `ReapStalledWaits` — the coroutine.  The clock, the
  screen and the script are not modelled: whether a deadline has passed, whether the text
  waited for is there, and what the script does when it is resumed are arguments;
* `Typing` — the coroutine, the keyboard, what the guest has read, and how often the
  script was resumed;
* `Typing.Inv` — what was read, what is in transit and what is still pending are
  together the codes of all strokes;
* **`Typing.run_types_all`** — every run keeps the order and loses nothing, and the script
  is resumed once.
-/

namespace AugraDosbox

open Total

/-! ## The coroutine -/

structure KeyStroke where
  key : KBD_KEYS
  shift : Bool
deriving DecidableEq, Repr

inductive ScriptState where
  | Idle | Loaded | Running | Yielded | Completed | Error
deriving DecidableEq, Repr

/-- The part of `LuaCoroutine` that decides when the script runs. -/
structure LuaCoroutine where
  state : ScriptState
  current_frame : ℕ
  wait_until_frame : ℕ
  waiting_for_text : Bool
  injecting_type : Bool
  pending_keys : List KeyStroke
deriving DecidableEq, Repr

/-- What the script does when it is resumed: it ends, fails, or yields in a wait for a
frame or a text.  It does not type again. -/
structure Resumption where
  state : ScriptState
  waiting_for_text : Bool
  wait_until_frame : ℕ
deriving DecidableEq, Repr

namespace LuaCoroutine

variable (co : LuaCoroutine)

def QueueTypeInput (strokes : List KeyStroke) : LuaCoroutine :=
  { co with injecting_type := true, pending_keys := strokes }

/-- `lua_resume`, and what its status makes of the state. -/
def ResumeWith (script : Resumption) : LuaCoroutine :=
  { co with
    state := script.state, waiting_for_text := script.waiting_for_text
    wait_until_frame := script.wait_until_frame }

def FinishTypeInjection (script : Resumption) : LuaCoroutine :=
  ResumeWith { co with injecting_type := false, pending_keys := [] } script

end LuaCoroutine

namespace InputSystem

variable (s : InputSystem)

def KEYBOARD_GetBufferFreeSlots : ℕ :=
  if s.kbd.buffer_overflowed then 0 else keyboardBufferSize - s.kbd.buffer.length

def KEYBOARD_IsBufferEmpty : Bool := !s.kbd.buffer_overflowed && s.kbd.buffer.isEmpty

/-- A whole stroke: the shift key is down around the key's press and release. -/
def addStroke (stroke : KeyStroke) : Option InputSystem := do
  let s ← (if stroke.shift then s.KEYBOARD_AddKey .KBD_leftshift true else some s)
  let s ← s.KEYBOARD_AddKey stroke.key true
  let s ← s.KEYBOARD_AddKey stroke.key false
  if stroke.shift then s.KEYBOARD_AddKey .KBD_leftshift false else some s

end InputSystem

/-- `DrainPendingKeys`: strokes go to the keyboard as long as they fit as a whole. -/
def DrainPendingKeys : List KeyStroke → InputSystem → Option (List KeyStroke × InputSystem)
  | [], s => some ([], s)
  | stroke :: strokes, s =>
    if s.KEYBOARD_GetBufferFreeSlots < (if stroke.shift then 4 else 2) then
      some (stroke :: strokes, s)
    else (s.addStroke stroke).bind (DrainPendingKeys strokes)

/-- A script that types, and the machine it types into. -/
structure Typing where
  co : LuaCoroutine
  input : InputSystem
  /-- The bytes the guest has read from port 60h when the status said that there was one. -/
  delivered : List KbdByte
  /-- How often `FinishTypeInjection` has resumed the script. -/
  finished : ℕ
deriving DecidableEq, Repr

namespace Typing

variable (t : Typing)

def FinishTypeInjection (script : Resumption) : Typing :=
  { t with co := t.co.FinishTypeInjection script, finished := t.finished + 1 }

/-- The rest of a frame, with the strokes that fit handed to the keyboard: resume when all
is done or it takes too long. -/
def afterDrain (elapsed : Bool) (script : Resumption) : Typing :=
  let done := t.co.pending_keys.isEmpty && t.input.KEYBOARD_IsBufferEmpty
  if !done && !elapsed then t else t.FinishTypeInjection script

/-- `DispatchFrame`.  `textDone` is what `CheckWaitForText` returns, and `elapsed` whether
the wall-clock ceiling of `type` has been reached. -/
def DispatchFrame (frame_number : ℕ) (textDone elapsed : Bool) (script : Resumption) :
    Option Typing :=
  if t.co.state ≠ .Running ∧ t.co.state ≠ .Yielded then some t
  else
    let t := { t with co := { t.co with current_frame := frame_number } }
    if t.co.state = .Yielded then
      if t.co.waiting_for_text then
        some (if textDone then { t with co := t.co.ResumeWith script } else t)
      else if t.co.injecting_type then
        (DrainPendingKeys t.co.pending_keys t.input).map fun p =>
          afterDrain { t with co := { t.co with pending_keys := p.1 }, input := p.2 } elapsed script
      else if t.co.current_frame < t.co.wait_until_frame then some t
      else some { t with co := t.co.ResumeWith script }
    else some { t with co := t.co.ResumeWith script }

def ReapStalledWaits (textElapsed elapsed : Bool) (script : Resumption) : Typing :=
  if t.co.state ≠ .Yielded then t
  else if t.co.waiting_for_text = false ∧ t.co.injecting_type = false then t
  else if t.co.waiting_for_text then
    if textElapsed then { t with co := t.co.ResumeWith script } else t
  else if elapsed then t.FinishTypeInjection script
  else t

end Typing

/-- What happens while the script types: the ceiling is not reached. -/
inductive TypeEvent where
  | dispatchFrame (frame_number : ℕ) (textDone : Bool) (script : Resumption)
  | reapStalledWaits (textElapsed : Bool) (script : Resumption)
  | read60
  | delayExpires
  | typematicTick
deriving DecidableEq, Repr

namespace Typing

/-- A read without a new byte in the output register gets the previous one again. -/
def step (t : Typing) : TypeEvent → Option Typing
  | .dispatchFrame frame_number textDone script =>
    t.DispatchFrame frame_number textDone false script
  | .reapStalledWaits textElapsed script => some (t.ReapStalledWaits textElapsed false script)
  | .read60 => t.input.read_data_port.map fun p =>
    { t with
      input := p.1
      delivered := if t.input.ctl.is_data_new then t.delivered ++ [p.2] else t.delivered }
  | .delayExpires =>
    some { t with input := if t.input.ctl.delay_running then t.input.delay_handler else t.input }
  | .typematicTick => t.input.typematic_tick.map fun input => { t with input := input }

def run : List TypeEvent → Typing → Option Typing
  | [], t => some t
  | event :: events, t => (t.step event).bind (run events)

/-- The script has called `type` and yielded; while it ran it waited for no text. -/
def start (strokes : List KeyStroke) (co : LuaCoroutine) (input : InputSystem) : Typing :=
  { co := { co.QueueTypeInput strokes with state := .Yielded, waiting_for_text := false }
    input := input, delivered := [], finished := 0 }

end Typing

/-! ## One stroke -/

/-- The set 1 codes of a stroke. -/
def KeyStroke.codes (stroke : KeyStroke) : List KbdByte :=
  (if stroke.shift then KEYBOARD_GetScanCode1 .KBD_leftshift true else []) ++
    KEYBOARD_GetScanCode1 stroke.key true ++ KEYBOARD_GetScanCode1 stroke.key false ++
    if stroke.shift then KEYBOARD_GetScanCode1 .KBD_leftshift false else []

def strokeCodes (strokes : List KeyStroke) : List KbdByte := strokes.flatMap KeyStroke.codes

/-- A key that is pressed and released in a row is not held; another one may still be. -/
theorem Typematic.update_release (t : Typematic) (key : KBD_KEYS) :
    ((t.update key true).update key false).key = none ∨
      ((t.update key true).update key false).key = t.key := by
  unfold Typematic.update
  by_cases hexcluded : key = .KBD_pause ∨ key = .KBD_printscreen
  · simp [hexcluded]
  · simp [hexcluded]

theorem Typematic.update_shift_release {t : Typematic}
    (h : t.key = none ∨ t.key = some .KBD_leftshift) :
    (t.update .KBD_leftshift false).key = none := by
  rcases h with h | h <;> simp [Typematic.update, h]

namespace InputSystem

variable {s : InputSystem}

/-- A press and a release, for which there are two places left. -/
theorem addKey_pair_carries (h : s.Carries) (key : KBD_KEYS)
    (hfits : s.kbd.buffer.length + 2 ≤ keyboardBufferSize) :
    Ends ((s.KEYBOARD_AddKey key true).bind fun s => s.KEYBOARD_AddKey key false) fun t =>
      t.Carries ∧
        t.inTransit = s.inTransit ++ KEYBOARD_GetScanCode1 key true ++
          KEYBOARD_GetScanCode1 key false ∧
        t.kbd.buffer.length ≤ s.kbd.buffer.length + 2 ∧
        t.kbd.typematic = (s.kbd.typematic.update key true).update key false := by
  refine (KEYBOARD_AddKey_carries h key true (by omega)).bind
    fun t ⟨ht, htransit, hlength, htype⟩ => ?_
  refine (KEYBOARD_AddKey_carries ht key false (by omega)).mono
    fun u ⟨hu, hutransit, hulength, hutype⟩ => ?_
  refine ⟨hu, ?_, by omega, ?_⟩
  · rw [hutransit, htransit]
  · rw [hutype, htype]

/-- A stroke that fits adds its codes at the end, and no key is held after it. -/
theorem addStroke_carries (h : s.Carries) (hkey : s.kbd.typematic.key = none) (stroke : KeyStroke)
    (hfits : s.kbd.buffer.length + (if stroke.shift then 4 else 2) ≤ keyboardBufferSize) :
    Ends (s.addStroke stroke) fun t =>
      t.Carries ∧ t.kbd.typematic.key = none ∧ t.inTransit = s.inTransit ++ stroke.codes := by
  unfold addStroke
  cases hshift : stroke.shift with
  | false =>
    rw [hshift] at hfits
    refine Ends.bind (P := (· = s)) ⟨s, rfl, rfl⟩ ?_
    rintro s rfl
    -- the release of the shift key at the end is left out
    have hpair := addKey_pair_carries h stroke.key hfits
    obtain ⟨t, hrun, ht, htransit, -, htype⟩ := hpair
    refine ⟨t, ?_, ht, ?_, ?_⟩
    · simpa [Option.bind_eq_some_iff] using hrun
    · rw [htype]
      rcases s.kbd.typematic.update_release stroke.key with hnone | hsame
      · exact hnone
      · exact hsame.trans hkey
    · rw [htransit, KeyStroke.codes, hshift]
      simp
  | true =>
    rw [hshift] at hfits
    simp only [if_true] at hfits ⊢
    refine (KEYBOARD_AddKey_carries h .KBD_leftshift true (by omega)).bind
      fun t ⟨ht, htransit, hlength, htype⟩ => ?_
    have hheld : t.kbd.typematic.key = some .KBD_leftshift := by
      rw [htype]
      simp [Typematic.update]
    obtain ⟨u, hrun, hu, hutransit, hulength, hutype⟩ :=
      addKey_pair_carries ht stroke.key (by omega)
    have hmaybe : u.kbd.typematic.key = none ∨ u.kbd.typematic.key = some .KBD_leftshift := by
      rw [hutype]
      rcases t.kbd.typematic.update_release stroke.key with hnone | hsame
      · exact .inl hnone
      · exact .inr (hsame.trans hheld)
    obtain ⟨v, hlast, hv, hvtransit, -, hvtype⟩ :=
      KEYBOARD_AddKey_carries hu .KBD_leftshift false (by omega)
    refine ⟨v, ?_, hv, ?_, ?_⟩
    · obtain ⟨w, hw, hwu⟩ := Option.bind_eq_some_iff.mp hrun
      exact Option.bind_eq_some_iff.mpr ⟨w, hw, Option.bind_eq_some_iff.mpr ⟨u, hwu, hlast⟩⟩
    · rw [hvtype]
      exact Typematic.update_shift_release hmaybe
    · rw [hvtransit, hutransit, htransit, KeyStroke.codes, hshift]
      simp only [if_true, List.append_assoc]

end InputSystem

/-- Draining moves strokes from the pending ones into transit, in order; it stops early only
when the keyboard has something to send. -/
theorem DrainPendingKeys_carries (strokes : List KeyStroke) {s : InputSystem} (h : s.Carries)
    (hkey : s.kbd.typematic.key = none) :
    Ends (DrainPendingKeys strokes s) fun p =>
      p.2.Carries ∧ p.2.kbd.typematic.key = none ∧
        p.2.inTransit ++ strokeCodes p.1 = s.inTransit ++ strokeCodes strokes ∧
        (p.1 ≠ [] → p.2.kbd.buffer ≠ []) := by
  induction strokes generalizing s with
  | nil => exact ends_some ⟨h, hkey, rfl, fun hne => absurd rfl hne⟩
  | cons stroke strokes ih =>
    have hfree : s.KEYBOARD_GetBufferFreeSlots = keyboardBufferSize - s.kbd.buffer.length := by
      rw [InputSystem.KEYBOARD_GetBufferFreeSlots, if_neg (by simp [h.no_latch])]
    rw [DrainPendingKeys, hfree]
    apply Ends.ite
    · intro hfull
      refine ends_some ⟨h, hkey, rfl, fun _ hempty => ?_⟩
      have hempty' : s.kbd.buffer = [] := hempty
      rw [hempty', List.length_nil, keyboardBufferSize] at hfull
      split at hfull <;> omega
    · intro hfits
      have hfits' : s.kbd.buffer.length + (if stroke.shift then 4 else 2) ≤ keyboardBufferSize := by
        by_cases hshift : stroke.shift = true
        · rw [if_pos hshift] at hfits ⊢
          omega
        · rw [if_neg hshift] at hfits ⊢
          omega
      refine (InputSystem.addStroke_carries h hkey stroke hfits').bind
        fun t ⟨ht, htkey, htransit⟩ => ?_
      refine (ih ht htkey).mono fun p ⟨hp, hpkey, hptransit, hpempty⟩ => ⟨hp, hpkey, ?_, hpempty⟩
      rw [hptransit, htransit, List.append_assoc, strokeCodes, strokeCodes, List.flatMap_cons]

/-! ## Runs -/

namespace Typing

variable {t : Typing} {strokes : List KeyStroke} {before : List KbdByte}

/-- The script waits for its keys to be typed, or has been resumed once, with all of them
gone from the keyboard. -/
def Waits (t : Typing) : Prop :=
  (t.co.injecting_type = true ∧ t.co.state = .Yielded ∧ t.co.waiting_for_text = false ∧
      t.finished = 0) ∨
    (t.co.injecting_type = false ∧ t.co.pending_keys = [] ∧ t.input.kbd.buffer = [] ∧
      t.finished = 1)

/-- What holds in every state: `before` was in transit when the typing began. -/
structure Inv (before : List KbdByte) (strokes : List KeyStroke) (t : Typing) : Prop where
  carries : t.input.Carries
  unheld : t.input.kbd.typematic.key = none
  conserved : t.delivered ++ t.input.inTransit ++ strokeCodes t.co.pending_keys =
    before ++ strokeCodes strokes
  waits : t.Waits

theorem inv_start (co : LuaCoroutine) {input : InputSystem} (h : input.Carries)
    (hkey : input.kbd.typematic.key = none) :
    Inv input.inTransit strokes (start strokes co input) :=
  ⟨h, hkey, rfl, .inl ⟨rfl, rfl, rfl, rfl⟩⟩

/-- A change of the machine that keeps what is in transit. -/
theorem Inv.withInput (h : Inv before strokes t) {input : InputSystem} (hcarries : input.Carries)
    (hkey : input.kbd.typematic.key = none) (htransit : input.inTransit = t.input.inTransit)
    (hbuffer : input.kbd.buffer = t.input.kbd.buffer) :
    Inv before strokes { t with input := input } := by
  refine ⟨hcarries, hkey, ?_, ?_⟩
  · change t.delivered ++ input.inTransit ++ strokeCodes t.co.pending_keys = _
    rw [htransit]
    exact h.conserved
  · rcases h.waits with hwaits | ⟨hinject, hpending, hempty, hfinished⟩
    · exact .inl hwaits
    · exact .inr ⟨hinject, hpending, hbuffer.trans hempty, hfinished⟩

/-- Other waits of the script do not concern the keys. -/
theorem Inv.resume (h : Inv before strokes t) (hinject : t.co.injecting_type = false)
    (frame_number : ℕ) (script : Resumption) :
    Inv before strokes { t with
      co := LuaCoroutine.ResumeWith { t.co with current_frame := frame_number } script } := by
  refine ⟨h.carries, h.unheld, h.conserved, ?_⟩
  rcases h.waits with ⟨hinject', -⟩ | hwaits
  · exact absurd (hinject.symm.trans hinject') (by decide)
  · exact .inr hwaits

theorem Inv.withFrame (h : Inv before strokes t) (frame_number : ℕ) :
    Inv before strokes { t with co := { t.co with current_frame := frame_number } } :=
  ⟨h.carries, h.unheld, h.conserved, h.waits⟩

/-- The script is resumed exactly when no stroke is pending and the keyboard has nothing
left to send. -/
theorem afterDrain_inv (h : Inv before strokes t) (hwait : t.finished = 0) (script : Resumption)
    (hpending : t.co.pending_keys ≠ [] → t.input.kbd.buffer ≠ []) :
    Inv before strokes (t.afterDrain false script) ∧
      (t.afterDrain false script).delivered = t.delivered ∧
      ((t.afterDrain false script).finished = 1 ∨
        ((t.afterDrain false script).finished = 0 ∧
          (t.afterDrain false script).input.kbd.buffer ≠ [])) := by
  unfold afterDrain
  cases hdone : t.co.pending_keys.isEmpty && t.input.KEYBOARD_IsBufferEmpty with
  | false =>
    refine ⟨h, rfl, .inr ⟨hwait, fun hempty => ?_⟩⟩
    have hnone : t.co.pending_keys = [] := by
      by_contra hne
      exact hpending hne hempty
    have hempty' : t.input.kbd.buffer = [] := hempty
    simp [hnone, InputSystem.KEYBOARD_IsBufferEmpty, h.carries.no_latch, hempty'] at hdone
  | true =>
    rw [Bool.and_eq_true, InputSystem.KEYBOARD_IsBufferEmpty, Bool.and_eq_true,
      List.isEmpty_iff, List.isEmpty_iff] at hdone
    have hone : t.finished + 1 = 1 := by omega
    refine ⟨⟨h.carries, h.unheld, ?_, .inr ⟨rfl, rfl, hdone.2.2, hone⟩⟩, rfl, .inl hone⟩
    have hconserved := h.conserved
    rw [hdone.1] at hconserved
    exact hconserved

/-- A frame while the script waits for its keys. -/
theorem DispatchFrame_injecting (h : Inv before strokes t) (hwait : t.finished = 0)
    (frame_number : ℕ) (textDone : Bool) (script : Resumption) :
    Ends (t.DispatchFrame frame_number textDone false script) fun u =>
      Inv before strokes u ∧ u.delivered = t.delivered ∧
        (u.finished = 1 ∨ (u.finished = 0 ∧ u.input.kbd.buffer ≠ [])) := by
  obtain ⟨hinject, hstate, htext, -⟩ : t.co.injecting_type = true ∧ t.co.state = .Yielded ∧
      t.co.waiting_for_text = false ∧ t.finished = 0 := by
    rcases h.waits with hwaits | ⟨-, -, -, hfinished⟩
    · exact hwaits
    · omega
  unfold DispatchFrame
  refine Ends.ite (fun hno => absurd hstate hno.2) fun _ => ?_
  refine Ends.ite (fun _ => ?_) fun hno => absurd hstate hno
  refine Ends.ite (fun hno => absurd (htext.symm.trans hno) (by decide)) fun _ => ?_
  refine Ends.ite (fun _ => ?_) fun hno => absurd hinject hno
  refine (DrainPendingKeys_carries t.co.pending_keys h.carries h.unheld).map
    fun p ⟨hp, hpkey, hptransit, hpempty⟩ => ?_
  have hconserved : t.delivered ++ p.2.inTransit ++ strokeCodes p.1 =
      before ++ strokeCodes strokes := by
    rw [List.append_assoc, hptransit, ← List.append_assoc]
    exact h.conserved
  refine afterDrain_inv ?_ ?_ script ?_
  · exact ⟨hp, hpkey, hconserved, .inl ⟨hinject, hstate, htext, hwait⟩⟩
  · exact hwait
  · exact hpempty

theorem DispatchFrame_inv (h : Inv before strokes t) (frame_number : ℕ) (textDone : Bool)
    (script : Resumption) :
    Ends (t.DispatchFrame frame_number textDone false script) (Inv before strokes) := by
  rcases h.waits with ⟨-, -, -, hwait⟩ | ⟨hinject, -, -, -⟩
  · exact (DispatchFrame_injecting h hwait frame_number textDone script).mono fun u hu => hu.1
  · have hframe := h.withFrame frame_number
    have hresume := h.resume hinject frame_number script
    unfold DispatchFrame
    refine Ends.ite (fun _ => ends_some h) fun _ => ?_
    refine Ends.ite (fun _ => ?_) fun _ => ends_some hresume
    refine Ends.ite (fun _ => ?_) fun _ => ?_
    · cases textDone with
      | false => exact ends_some hframe
      | true => exact ends_some hresume
    · refine Ends.ite (fun hno => absurd (hinject.symm.trans hno) (by decide)) fun _ => ?_
      exact Ends.ite (fun _ => ends_some hframe) fun _ => ends_some hresume

theorem ReapStalledWaits_inv (h : Inv before strokes t) (textElapsed : Bool)
    (script : Resumption) : Inv before strokes (t.ReapStalledWaits textElapsed false script) := by
  unfold ReapStalledWaits
  split
  · exact h
  · split
    · exact h
    · split
      · rename_i htext
        split
        · refine h.resume ?_ t.co.current_frame script
          rcases h.waits with ⟨-, -, hnot, -⟩ | ⟨hinject, -⟩
          · exact absurd (hnot.symm.trans htext) (by decide)
          · exact hinject
        · exact h
      · exact h

/-- A read: the first byte in transit, if the output register has it. -/
theorem read60_inv (h : Inv before strokes t) :
    Ends (t.step .read60) fun u => Inv before strokes u ∧ u.finished = t.finished ∧
      (t.input.ctl.is_data_new = true → u.delivered.length = t.delivered.length + 1) := by
  unfold step
  cases hnew : t.input.ctl.is_data_new with
  | false =>
    refine Ends.map (P := (· = (t.input, t.input.ctl.data_byte))) ⟨_, if_pos hnew, rfl⟩ ?_
    rintro p rfl
    exact ⟨h, rfl, fun hnot => absurd hnot (by decide)⟩
  | true =>
    refine (InputSystem.read_data_port_carries h.carries hnew).map
      fun p ⟨hp, htransit, hsuffix, htype⟩ => ?_
    refine ⟨⟨hp, ?_, ?_, ?_⟩, rfl, fun _ => ?_⟩
    · exact (congrArg Typematic.key htype).trans h.unheld
    · have hconserved := h.conserved
      rw [htransit] at hconserved
      simpa using hconserved
    · rcases h.waits with hwaits | ⟨hinject, hpending, hempty, hfinished⟩
      · exact .inl hwaits
      · refine .inr ⟨hinject, hpending, ?_, hfinished⟩
        rw [hempty] at hsuffix
        exact List.suffix_nil.mp hsuffix
    · exact List.length_append

theorem delayExpires_inv (h : Inv before strokes t) :
    Ends (t.step .delayExpires) fun u => Inv before strokes u ∧ u.finished = t.finished ∧
      u.delivered = t.delivered ∧
      (t.input.inTransit ≠ [] → u.input.ctl.is_data_new = true) := by
  refine ends_some ⟨?_, rfl, rfl, InputSystem.new_of_delay h.carries⟩
  split
  · obtain ⟨hcarries, htransit, hkbd⟩ := InputSystem.delay_handler_carries h.carries
    refine h.withInput hcarries ?_ htransit (congrArg Keyboard.buffer hkbd)
    rw [hkbd]
    exact h.unheld
  · exact h

theorem step_inv (h : Inv before strokes t) (event : TypeEvent) :
    Ends (t.step event) (Inv before strokes) := by
  cases event with
  | dispatchFrame frame_number textDone script =>
    exact DispatchFrame_inv h frame_number textDone script
  | reapStalledWaits textElapsed script =>
    exact ends_some (ReapStalledWaits_inv h textElapsed script)
  | read60 => exact (read60_inv h).mono fun _ hu => hu.1
  | delayExpires => exact (delayExpires_inv h).mono fun _ hu => hu.1
  | typematicTick =>
    refine (InputSystem.typematic_tick_carries h.carries h.unheld).map
      fun input ⟨hcarries, htransit, hbuffer, hkey⟩ => ?_
    exact h.withInput hcarries hkey htransit hbuffer

theorem run_inv (events : List TypeEvent) (h : Inv before strokes t) :
    Ends (run events t) (Inv before strokes) := by
  induction events generalizing t with
  | nil => exact ends_some h
  | cons event events ih => exact (step_inv h event).bind fun u hu => ih hu

/-- A guest that keeps reading gets the script resumed.  The induction is on the number of
bytes that are still to be read. -/
theorem exists_resume (h : Inv before strokes t) (hwait : t.finished = 0) (script : Resumption) :
    ∃ events, Ends (run events t) fun u => u.finished = 1 := by
  induction hn : (before ++ strokeCodes strokes).length - t.delivered.length using
    Nat.strongRecOn generalizing t with
  | _ n ih =>
    obtain ⟨u, hu, huinv, hudelivered, hcases⟩ :=
      DispatchFrame_injecting h hwait t.co.current_frame false script
    rcases hcases with hdone | ⟨hwait', hbuffer⟩
    · refine ⟨[.dispatchFrame t.co.current_frame false script], u, ?_, hdone⟩
      rw [run, step, hu]
      rfl
    · have htransit : u.input.inTransit ≠ [] := fun hidle =>
        hbuffer (huinv.carries.buffer_of_idle hidle)
      obtain ⟨v, hv, hvinv, hvfinished, hvdelivered, hvnew⟩ := delayExpires_inv huinv
      obtain ⟨w, hw, hwinv, hwfinished, hwlength⟩ := read60_inv hvinv
      have hlonger := hwlength (hvnew htransit)
      -- a byte more has been read, and there are no more than all of them
      have hbound : w.delivered.length ≤ (before ++ strokeCodes strokes).length := by
        rw [← hwinv.conserved, List.length_append, List.length_append]
        omega
      have hzero : w.finished = 0 := (hwfinished.trans hvfinished).trans hwait'
      rw [hvdelivered, hudelivered] at hlonger
      obtain ⟨events, hevents⟩ := ih _ (by omega) hwinv hzero rfl
      refine ⟨.dispatchFrame t.co.current_frame false script :: .delayExpires :: .read60 :: events,
        ?_⟩
      rw [run, step, hu, Option.bind_some, run, hv, Option.bind_some, run, hw]
      exact hevents

/-- **`type` loses no key.**  In every run, what the guest has read is the beginning of
what was in transit before, followed by the codes of the strokes in order; no key is held
at any time a tick could repeat it, the keyboard does not overflow, and the script is
resumed at most once, when every stroke has left the keyboard, at the first frame for which
that holds, and a guest that reads on makes it hold. -/
theorem run_types_all (strokes : List KeyStroke) (co : LuaCoroutine) (input : InputSystem)
    (hcarries : input.Carries) (hkey : input.kbd.typematic.key = none) (events : List TypeEvent) :
    Ends (run events (start strokes co input)) fun t =>
      t.delivered <+: input.inTransit ++ strokeCodes strokes ∧
        t.delivered ++ t.input.inTransit ++ strokeCodes t.co.pending_keys =
          input.inTransit ++ strokeCodes strokes ∧
        t.input.kbd.typematic.key = none ∧ t.input.kbd.buffer_overflowed = false ∧
        t.finished ≤ 1 ∧
        (t.finished = 1 → t.co.pending_keys = [] ∧ t.input.kbd.buffer = []) ∧
        (t.finished = 0 → ∀ frame_number textDone script,
          Ends (t.step (.dispatchFrame frame_number textDone script)) fun u =>
            u.finished = 1 ∨ u.input.kbd.buffer ≠ []) ∧
        (t.finished = 0 → ∃ more, Ends (run more t) fun u => u.finished = 1) := by
  refine (run_inv events (inv_start co hcarries hkey)).mono fun t h => ?_
  have hbegins : t.delivered <+: input.inTransit ++ strokeCodes strokes := by
    rw [← h.conserved, List.append_assoc]
    exact List.prefix_append _ _
  refine ⟨hbegins, h.conserved, h.unheld, h.carries.no_latch, ?_, ?_, ?_, ?_⟩
  · rcases h.waits with ⟨-, -, -, hzero⟩ | ⟨-, -, -, hone⟩ <;> omega
  · intro hone
    rcases h.waits with ⟨-, -, -, hzero⟩ | ⟨-, hpending, hempty, -⟩
    · omega
    · exact ⟨hpending, hempty⟩
  · intro hzero frame_number textDone script
    refine (DispatchFrame_injecting h hzero frame_number textDone script).mono fun u hu => ?_
    exact hu.2.2.imp id And.right
  · intro hzero
    exact exists_resume h hzero ⟨.Completed, false, 0⟩

/-- A capital letter, typed into a machine that has just been reset. -/
theorem run_types_all_capital :
    Ends (run [.dispatchFrame 1 false ⟨.Completed, false, 0⟩, .delayExpires, .read60]
      (start [⟨.KBD_a, true⟩] ⟨.Running, 0, 0, false, false, []⟩
        (.reset ⟨[], [], ⟨[], Nat.zero_le 4⟩, false⟩ false))) fun t =>
      t.delivered <+: [0x2a#8, 0x1e, 0x9e, 0xaa] ∧ t.input.kbd.buffer_overflowed = false ∧
        t.finished ≤ 1 := by
  refine (run_types_all [⟨.KBD_a, true⟩] ⟨.Running, 0, 0, false, false, []⟩ _
    (InputSystem.reset_carries _) rfl _).mono fun t ⟨hbegins, _, _, hlatch, hone, _⟩ => ?_
  exact ⟨hbegins, hlatch, hone⟩

end Typing

end AugraDosbox
