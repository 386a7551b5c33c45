import AugraDosbox.Lib.Ends

/-!
# The line editor of the shell

`DOS_Shell::ReadCommand`: one round of its loop for each key.  The assertions of the loop, and the
positions that the strings and vectors are accessed at, are checked: a round whose result is `none`
fails one of them.

* `Editor`, `Input` — the local variables, and what a round is told by the system;
* `ReadCommand.round` — one round of the loop;
* `Editor.Ok` — the invariant; **`round_ok`** — each round succeeds and keeps it;
* `Follows` — what a round does to the history: `Follows.kept` — an entry stays as it was left;
* **`line_editor_sound`** — no round fails, and an entry of the history comes back as it was left.
-/

namespace AugraDosbox

namespace Shell

namespace ReadCommand

/-! ## Strings -/

/-- `std::string`. -/
abbrev Str := List UInt8

namespace Str

variable (s : Str)

/-- `s.erase(pos)`. -/
def erase (pos : ℕ) : Option Str := if pos ≤ s.length then some (s.take pos) else none

/-- `s.erase(pos, 1)`. -/
def eraseOne (pos : ℕ) : Option Str :=
  if pos ≤ s.length then some (s.take pos ++ s.drop (pos + 1)) else none

/-- `s.insert(pos, text)`. -/
def insert (pos : ℕ) (text : Str) : Option Str :=
  if pos ≤ s.length then some (s.take pos ++ text ++ s.drop pos) else none

/-- `s.substr(pos)`. -/
def substr (pos : ℕ) : Option Str := if pos ≤ s.length then some (s.drop pos) else none

end Str

/-- An element of a vector, and the vector with another one in its place. -/
def store (v : List Str) (i : ℕ) (text : Str) : Option (List Str) :=
  if i < v.length then some (v.set i text) else none

/-- The position behind the last of the characters `" \\/"`. -/
def behindDelimiter (command : Str) : ℕ :=
  (command.reverse.dropWhile fun c => decide (c ≠ 0x20 ∧ c ≠ 0x5c ∧ c ≠ 0x2f)).length

def is_control_ascii (c : UInt8) : Bool := decide (c ≤ 0x1f) || c == 0x7f

/-- What is taken from the clipboard: its first line that is not empty, up to a control
character. -/
def pasteText (clipboard : Str) : Str :=
  (((clipboard.splitOnP fun c => c == 0x0a || c == 0x0d).find? (· ≠ [])).getD []).takeWhile fun c =>
    !is_control_ascii c

/-! ## The state of the loop -/

def ExtendedKey : UInt8 := 0x00

def ControlV : UInt8 := 0x16

def Escape : UInt8 := 0x1b

/-- The scan codes that are looked at. -/
inductive ScanCode where
  | ShiftTab
  | F3
  | Home
  | Up
  | Left
  | Right
  | End
  | Down
  | Delete
  | other
deriving DecidableEq, Repr

def scanCode (data : UInt8) : ScanCode :=
  if data = 0x0f then .ShiftTab
  else if data = 0x3d then .F3
  else if data = 0x47 then .Home
  else if data = 0x48 then .Up
  else if data = 0x4b then .Left
  else if data = 0x4d then .Right
  else if data = 0x4f then .End
  else if data = 0x50 then .Down
  else if data = 0x53 then .Delete
  else .other

/-- The local variables of the loop. -/
structure Editor where
  history_clone : List Str
  history_index : ℕ
  completion : List Str
  completion_index : ℕ
  command : Str
  cursor_position : ℕ
  completion_start : ℕ
deriving DecidableEq, Repr

/-- What a round is told: whether a shutdown is requested, what the first successful read of the
input handle returns and the second one behind an extended key, the files that complete the
command, what is on the clipboard, and how long a command may get. -/
structure Input where
  shutdown : Bool
  data : UInt8
  byte_count : UInt16
  extended : UInt8
  completions : List Str
  clipboard : Option Str
  maxCommandSize : ℕ
deriving DecidableEq, Repr

/-- How the switch is left: with or without the completions on view, or with a result. -/
inductive Left where
  | editing (s : Editor) (viewing_tab_completions : Bool)
  | returns (command : Str)
deriving DecidableEq, Repr

/-! ## Keys -/

variable (last_command : Str) (s : Editor)

def keyF3 : Option Editor :=
  if last_command.length ≤ s.command.length then some s
  else
    (Str.substr last_command s.command.length).map fun suffix =>
      { s with
        command := s.command ++ suffix
        cursor_position := (s.command ++ suffix).length }

def keyLeft : Editor :=
  if s.cursor_position > 0 then { s with cursor_position := s.cursor_position - 1 } else s

def keyRight : Editor :=
  if s.cursor_position < s.command.length then { s with cursor_position := s.cursor_position + 1 }
  else s

/-- The command is kept in the history, and another entry of it is shown. -/
def visit (index : ℕ) : Option Editor := do
  let history_clone ← store s.history_clone s.history_index s.command
  let command ← history_clone[index]?
  some { s with
    history_clone := history_clone
    history_index := index
    command := command
    cursor_position := command.length }

def keyUp : Option Editor :=
  if s.history_index > 0 then visit s (s.history_index - 1) else some s

def keyDown : Option Editor :=
  if s.history_index + 1 < s.history_clone.length then visit s (s.history_index + 1) else some s

def keyDelete : Option Editor :=
  (Str.eraseOne s.command s.cursor_position).map fun command => { s with command := command }

/-- The completion that is on view takes the place of what it completes. -/
def showCompletion : Option Left := do
  let command ← Str.erase s.command s.completion_start
  let name ← s.completion[s.completion_index]?
  some (.editing
    { s with command := command ++ name, cursor_position := (command ++ name).length } true)

def keyShiftTab : Option Left :=
  if s.completion = [] then some (.editing s false)
  else
    let index := if s.completion_index = 0 then s.completion.length else s.completion_index
    showCompletion { s with completion_index := index - 1 }

def keyTab (completions : List Str) : Option Left :=
  if s.completion ≠ [] then
    let index := s.completion_index + 1
    showCompletion { s with completion_index := if index = s.completion.length then 0 else index }
  else if completions = [] then some (.editing { s with completion := completions } false)
  else
    showCompletion { s with
      completion := completions
      completion_index := 0
      completion_start := behindDelimiter s.command }

def keyBackspace : Option Editor :=
  if s.cursor_position > 0 then
    (Str.eraseOne s.command (s.cursor_position - 1)).map fun command =>
      { s with command := command, cursor_position := s.cursor_position - 1 }
  else some s

/-- A text of the clipboard that fits is put in at the cursor. -/
def paste (clipboard : Option Str) (maxCommandSize : ℕ) : Option Editor :=
  match clipboard with
  | none => some s
  | some clipboard =>
    let text := pasteText clipboard
    if text = [] then some s
    else if s.command.length + text.length > maxCommandSize then some s
    else
      (Str.insert s.command s.cursor_position text).map fun command =>
        { s with command := command, cursor_position := s.cursor_position + text.length }

/-- Escape leaves the line on the screen and starts a new one. -/
def keyEscape : Editor := { s with command := [], cursor_position := 0 }

def keyOther (data : UInt8) (maxCommandSize : ℕ) : Option Editor :=
  if maxCommandSize < s.command.length then some s
  else
    (Str.insert s.command s.cursor_position [data]).map fun command =>
      { s with command := command, cursor_position := s.cursor_position + 1 }

/-! ## Rounds -/

/-- The completions are off view. -/
def edited (s : Option Editor) : Option Left := s.map fun s => .editing s false

def extendedKey (data : UInt8) : Option Left :=
  match scanCode data with
  | .F3 => edited (keyF3 last_command s)
  | .Left => edited (some (keyLeft s))
  | .Right => edited (some (keyRight s))
  | .Up => edited (keyUp s)
  | .Down => edited (keyDown s)
  | .Home => edited (some { s with cursor_position := 0 })
  | .End => edited (some { s with cursor_position := s.command.length })
  | .Delete => edited (keyDelete s)
  | .ShiftTab => keyShiftTab s
  | .other => edited (some s)

/-- The switch over the key. -/
def key (input : Input) : Option Left :=
  if input.data = ExtendedKey then extendedKey last_command s input.extended
  else if input.data = 0x09 then keyTab s input.completions
  else if input.data = 0x08 then edited (keyBackspace s)
  else if input.data = 0x0a then edited (some s)
  else if input.data = 0x0d then some (.returns s.command)
  else if input.data = ControlV then edited (paste s input.clipboard input.maxCommandSize)
  else if input.data = Escape then edited (some (keyEscape s))
  else edited (keyOther s input.data input.maxCommandSize)

/-- The assertions at the top of the loop. -/
def Asserts : Prop :=
  s.history_index < s.history_clone.length ∧
  (s.completion = [] ∨ s.completion_index < s.completion.length) ∧
  (s.command = [] ∨ s.cursor_position ≤ s.command.length) ∧
  (s.completion = [] ∨ s.completion_start ≤ s.command.length)

instance : Decidable (Asserts s) := inferInstanceAs (Decidable (_ ∧ _ ∧ _ ∧ _))

/-- What is on view between two rounds, or the command. -/
inductive Outcome where
  | goes (s : Editor)
  | returns (command : Str)
deriving DecidableEq, Repr

/-- One round of the loop. -/
def round (input : Input) : Option Outcome :=
  if input.shutdown then some (.returns [])
  else if ¬ Asserts s then none
  else if input.byte_count = 0 then some (.returns [])
  else
    (key last_command s input).map fun
      | .editing s viewing_tab_completions =>
          .goes (if viewing_tab_completions then s else { s with completion := [] })
      | .returns command => .returns command

/-- The command that F3 repeats. -/
def lastCommand (history : List Str) : Str := history.getLast?.getD []

/-- The variables before the loop. -/
def start (history : List Str) : Editor where
  history_clone := history ++ [[]]
  history_index := (history ++ [[]]).length - 1
  completion := []
  completion_index := 0
  command := []
  cursor_position := 0
  completion_start := 0

/-- Some rounds, until one of them returns. -/
def rounds : Editor → List Input → Option Outcome
  | s, [] => some (.goes s)
  | s, input :: inputs =>
    (round last_command s input).bind fun
      | .goes s => rounds s inputs
      | .returns command => some (.returns command)

/-! ## The invariant -/

open Total

variable {last_command : Str} {s s' s'' : Editor} {input : Input}

/-- What holds between two rounds. -/
structure Editor.Ok (s : Editor) : Prop where
  index_lt : s.history_index < s.history_clone.length
  cursor_le : s.cursor_position ≤ s.command.length
  completion_lt : s.completion ≠ [] → s.completion_index < s.completion.length
  start_le : s.completion ≠ [] → s.completion_start ≤ s.command.length

/-- What a round does to the history: nothing, or the command goes into the entry that was on view
and another entry comes on view. -/
def Follows (s s' : Editor) : Prop :=
  s'.history_clone = s.history_clone ∧ s'.history_index = s.history_index ∨
    s'.history_index ≠ s.history_index ∧
      s'.history_clone = s.history_clone.set s.history_index s.command ∧
      s'.history_clone[s'.history_index]? = some s'.command

/-- What every key keeps, whatever it does to the completions. -/
structure Edits (s s' : Editor) : Prop where
  index_lt : s'.history_index < s'.history_clone.length
  cursor_le : s'.cursor_position ≤ s'.command.length
  follows : Follows s s'

/-- What is left after a key. -/
def Left.Good (s : Editor) : Left → Prop
  | .editing s' viewing => Edits s s' ∧ (viewing = true → s'.Ok)
  | .returns _ => True

theorem Asserts.of_ok (h : s.Ok) : Asserts s := by
  refine ⟨h.index_lt, ?_, .inr h.cursor_le, ?_⟩
  · by_cases hnone : s.completion = []
    · exact .inl hnone
    · exact .inr (h.completion_lt hnone)
  · by_cases hnone : s.completion = []
    · exact .inl hnone
    · exact .inr (h.start_le hnone)

theorem Edits.of_same (h : s.Ok) (hclone : s'.history_clone = s.history_clone)
    (hindex : s'.history_index = s.history_index)
    (hcursor : s'.cursor_position ≤ s'.command.length) : Edits s s' := by
  refine ⟨?_, hcursor, .inl ⟨hclone, hindex⟩⟩
  rw [hclone, hindex]
  exact h.index_lt

theorem ends_edited {r : Option Editor} (h : Ends r (Edits s)) :
    Ends (edited r) (Left.Good s) :=
  h.map fun _ hs' => ⟨hs', fun hview => absurd hview Bool.false_ne_true⟩

theorem ends_same (h : s.Ok) : Ends (some s) (Edits s) :=
  ends_some (.of_same h rfl rfl h.cursor_le)

/-! ### Each key -/

theorem keyF3_ends (h : s.Ok) : Ends (keyF3 last_command s) (Edits s) := by
  unfold keyF3 Str.substr
  refine .ite (fun _ => ends_same h) fun hlt => ?_
  rw [if_pos (by omega)]
  exact ends_some (.of_same h rfl rfl (Nat.le_refl _))

theorem keyLeft_edits (h : s.Ok) : Edits s (keyLeft s) := by
  have hcursor := h.cursor_le
  unfold keyLeft
  split
  · exact .of_same h rfl rfl (by change s.cursor_position - 1 ≤ s.command.length; omega)
  · exact .of_same h rfl rfl hcursor

theorem keyRight_edits (h : s.Ok) : Edits s (keyRight s) := by
  unfold keyRight
  split
  · rename_i hlt
    exact .of_same h rfl rfl hlt
  · exact .of_same h rfl rfl h.cursor_le

/-- **The entry that is left keeps the command**, the other one is shown as it is. -/
theorem visit_ends (h : s.Ok) {index : ℕ} (hindex : index < s.history_clone.length)
    (hne : index ≠ s.history_index) : Ends (visit s index) (Edits s) := by
  have hset : index < (s.history_clone.set s.history_index s.command).length := by
    rwa [List.length_set]
  unfold visit store
  rw [if_pos h.index_lt, Option.bind_eq_bind, Option.bind_some, List.getElem?_eq_getElem hset]
  exact ends_some ⟨hset, Nat.le_refl _, .inr ⟨hne, rfl, List.getElem?_eq_getElem hset⟩⟩

theorem keyUp_ends (h : s.Ok) : Ends (keyUp s) (Edits s) := by
  have hindex := h.index_lt
  exact .ite (fun hpos => visit_ends h (by omega) (by omega)) fun _ => ends_same h

theorem keyDown_ends (h : s.Ok) : Ends (keyDown s) (Edits s) :=
  .ite (fun hlt => visit_ends h hlt (Nat.succ_ne_self _)) fun _ => ends_same h

theorem keyDelete_ends (h : s.Ok) : Ends (keyDelete s) (Edits s) := by
  have hcursor := h.cursor_le
  unfold keyDelete Str.eraseOne
  rw [if_pos hcursor]
  refine ends_some (.of_same h rfl rfl ?_)
  change s.cursor_position ≤ (_ ++ _ : Str).length
  rw [List.length_append, List.length_take]
  omega

theorem showCompletion_ends (h : s.Ok) (hs' : s'.history_clone = s.history_clone)
    (hindex : s'.history_index = s.history_index)
    (hcompletion : s'.completion_index < s'.completion.length)
    (hstart : s'.completion_start ≤ s'.command.length) :
    Ends (showCompletion s') (Left.Good s) := by
  have hlt : s'.history_index < s'.history_clone.length := by
    rw [hs', hindex]
    exact h.index_lt
  unfold showCompletion Str.erase
  rw [if_pos hstart, List.getElem?_eq_getElem hcompletion]
  refine ends_some ⟨.of_same h hs' hindex (Nat.le_refl _), fun _ => ?_⟩
  refine ⟨hlt, Nat.le_refl _, fun _ => hcompletion, fun _ => ?_⟩
  change s'.completion_start ≤ (_ ++ _ : Str).length
  rw [List.length_append, List.length_take]
  omega

theorem keyShiftTab_ends (h : s.Ok) : Ends (keyShiftTab s) (Left.Good s) := by
  unfold keyShiftTab
  refine .ite (fun _ => ends_edited (ends_same h)) fun hsome => ?_
  have hpos : 0 < s.completion.length := List.length_pos_iff.2 hsome
  have hlt := h.completion_lt hsome
  refine showCompletion_ends h rfl rfl ?_ (h.start_le hsome)
  change (if s.completion_index = 0 then s.completion.length else s.completion_index) - 1 <
    s.completion.length
  split <;> omega

theorem behindDelimiter_le (command : Str) : behindDelimiter command ≤ command.length := by
  unfold behindDelimiter
  have hle := (List.dropWhile_sublist (l := command.reverse)
    fun c => decide (c ≠ 0x20 ∧ c ≠ 0x5c ∧ c ≠ 0x2f)).length_le
  rwa [List.length_reverse] at hle

theorem keyTab_ends (h : s.Ok) (completions : List Str) :
    Ends (keyTab s completions) (Left.Good s) := by
  unfold keyTab
  refine .ite (fun hsome => ?_) fun _ => .ite (fun _ => ?_) fun hsome => ?_
  · have hpos : 0 < s.completion.length := List.length_pos_iff.2 hsome
    have hlt := h.completion_lt hsome
    refine showCompletion_ends h rfl rfl ?_ (h.start_le hsome)
    change (if s.completion_index + 1 = s.completion.length then 0 else s.completion_index + 1) <
      s.completion.length
    split <;> omega
  · refine ends_edited (ends_some ?_)
    exact .of_same h rfl rfl h.cursor_le
  · exact showCompletion_ends h rfl rfl (List.length_pos_iff.2 hsome) (behindDelimiter_le _)

theorem keyBackspace_ends (h : s.Ok) : Ends (keyBackspace s) (Edits s) := by
  have hcursor := h.cursor_le
  unfold keyBackspace Str.eraseOne
  refine .ite (fun hpos => ?_) fun _ => ends_same h
  rw [if_pos (by omega)]
  refine ends_some (.of_same h rfl rfl ?_)
  change s.cursor_position - 1 ≤ (_ ++ _ : Str).length
  rw [List.length_append, List.length_take]
  omega

theorem insert_ends (h : s.Ok) (text : Str) :
    Ends ((Str.insert s.command s.cursor_position text).map fun command =>
      { s with command := command, cursor_position := s.cursor_position + text.length })
      (Edits s) := by
  have hcursor := h.cursor_le
  unfold Str.insert
  rw [if_pos hcursor]
  refine ends_some (.of_same h rfl rfl ?_)
  change s.cursor_position + text.length ≤ (_ ++ _ ++ _ : Str).length
  rw [List.length_append, List.length_append, List.length_take]
  omega

theorem paste_ends (h : s.Ok) (clipboard : Option Str) (maxCommandSize : ℕ) :
    Ends (paste s clipboard maxCommandSize) (Edits s) := by
  cases clipboard with
  | none => exact ends_same h
  | some clipboard =>
    exact .ite (fun _ => ends_same h) fun _ => .ite (fun _ => ends_same h) fun _ => insert_ends h _

theorem keyOther_ends (h : s.Ok) (data : UInt8) (maxCommandSize : ℕ) :
    Ends (keyOther s data maxCommandSize) (Edits s) :=
  .ite (fun _ => ends_same h) fun _ => insert_ends h [data]

theorem extendedKey_ends (h : s.Ok) (data : UInt8) :
    Ends (extendedKey last_command s data) (Left.Good s) := by
  unfold extendedKey
  cases scanCode data with
  | F3 => exact ends_edited (keyF3_ends h)
  | Left => exact ends_edited (ends_some (keyLeft_edits h))
  | Right => exact ends_edited (ends_some (keyRight_edits h))
  | Up => exact ends_edited (keyUp_ends h)
  | Down => exact ends_edited (keyDown_ends h)
  | Home => exact ends_edited (ends_some (.of_same h rfl rfl (Nat.zero_le _)))
  | End => exact ends_edited (ends_some (.of_same h rfl rfl (Nat.le_refl _)))
  | Delete => exact ends_edited (keyDelete_ends h)
  | ShiftTab => exact keyShiftTab_ends h
  | other => exact ends_edited (ends_same h)

theorem key_ends (h : s.Ok) (input : Input) :
    Ends (key last_command s input) (Left.Good s) := by
  unfold key
  refine .ite (fun _ => extendedKey_ends h _) fun _ => ?_
  refine .ite (fun _ => keyTab_ends h _) fun _ => ?_
  refine .ite (fun _ => ends_edited (keyBackspace_ends h)) fun _ => ?_
  refine .ite (fun _ => ends_edited (ends_same h)) fun _ => ?_
  refine .ite (fun _ => ends_some trivial) fun _ => ?_
  refine .ite (fun _ => ends_edited (paste_ends h _ _)) fun _ => ?_
  refine .ite (fun _ => ends_edited (ends_some (.of_same h rfl rfl (Nat.zero_le _)))) fun _ => ?_
  exact ends_edited (keyOther_ends h _ _)

/-! ### Rounds -/

/-- The state after a round. -/
def Outcome.Good (s : Editor) : Outcome → Prop
  | .goes s' => s'.Ok ∧ Follows s s'
  | .returns _ => True

/-- **One round** succeeds and keeps the invariant. -/
theorem round_ok (h : s.Ok) (input : Input) :
    Ends (round last_command s input) (Outcome.Good s) := by
  unfold round
  refine .ite (fun _ => ends_some trivial) fun _ => ?_
  refine .ite (fun hno => absurd (Asserts.of_ok h) hno) fun _ => ?_
  refine .ite (fun _ => ends_some trivial) fun _ => ?_
  refine (key_ends h input).map fun left hleft => ?_
  cases left with
  | returns command => trivial
  | editing s' viewing =>
    obtain ⟨hedits, hview⟩ := hleft
    cases viewing with
    | true => exact ⟨hview rfl, hedits.follows⟩
    | false =>
      exact ⟨⟨hedits.index_lt, hedits.cursor_le, fun hne => absurd rfl hne,
        fun hne => absurd rfl hne⟩, hedits.follows⟩

theorem rounds_ok (h : s.Ok) (inputs : List Input) :
    Ends (rounds last_command s inputs) fun outcome => ∀ s', outcome = .goes s' → s'.Ok := by
  induction inputs generalizing s with
  | nil => exact ends_some fun s' hs' => by cases hs'; exact h
  | cons input inputs ih =>
    refine (round_ok h input).bind fun outcome houtcome => ?_
    cases outcome with
    | goes s' => exact ih houtcome.1
    | returns command => exact ends_some nofun

theorem start_ok (history : List Str) : (start history).Ok := by
  refine ⟨?_, Nat.le_refl _, fun hne => absurd rfl hne, fun hne => absurd rfl hne⟩
  change (history ++ [[]]).length - 1 < (history ++ [[]]).length
  rw [List.length_append]
  exact Nat.lt_succ_self _

/-! ### The history -/

variable {j : ℕ} {text : Str}

/-- An entry that is not on view stays, and is shown as it is when it comes on view. -/
theorem Follows.kept (h : Follows s s') (hne : s.history_index ≠ j)
    (hkept : s.history_clone[j]? = some text) :
    s'.history_clone[j]? = some text ∧ (s'.history_index = j → s'.command = text) := by
  rcases h with ⟨hclone, hindex⟩ | ⟨-, hclone, hcommand⟩
  · rw [hclone, hindex]
    exact ⟨hkept, fun heq => absurd heq hne⟩
  · have hstill : s'.history_clone[j]? = some text := by
      rw [hclone, List.getElem?_set_ne hne]
      exact hkept
    refine ⟨hstill, fun heq => ?_⟩
    rw [heq, hstill] at hcommand
    exact (Option.some.inj hcommand).symm

/-- The entry that is left keeps the command. -/
theorem Follows.left (h : Follows s s') (hs : s.history_index < s.history_clone.length)
    (hne : s'.history_index ≠ s.history_index) :
    s'.history_clone[s.history_index]? = some s.command := by
  rcases h with ⟨-, hindex⟩ | ⟨-, hclone, -⟩
  · exact absurd hindex hne
  · rw [hclone, List.getElem?_set_self hs]

/-- The rounds lead to the history entry `j`, which is not on view before. -/
def LeadsTo (last_command : Str) (j : ℕ) (s : Editor) (inputs : List Input) (s' : Editor) : Prop :=
  rounds last_command s inputs = some (.goes s') ∧ s'.history_index = j ∧
    ∀ done, done <+: inputs → done ≠ inputs → ∀ t, rounds last_command s done = some (.goes t) →
      t.history_index ≠ j

theorem LeadsTo.command_eq {inputs : List Input} (h : LeadsTo last_command j s inputs s')
    (hs : s.Ok) (hne : s.history_index ≠ j) (hkept : s.history_clone[j]? = some text) :
    s'.command = text := by
  induction inputs generalizing s with
  | nil =>
    obtain ⟨hrounds, hindex, -⟩ := h
    cases hrounds
    exact absurd hindex hne
  | cons input inputs ih =>
    obtain ⟨hrounds, hindex, hbefore⟩ := h
    obtain ⟨outcome, hround, hgood⟩ : Ends (round last_command s input) _ := round_ok hs input
    rw [rounds, hround, Option.bind_some] at hrounds
    cases outcome with
    | returns command => cases hrounds
    | goes t =>
      obtain ⟨ht, hfollows⟩ := hgood
      obtain ⟨hstill, hshown⟩ := hfollows.kept hne hkept
      cases inputs with
      | nil =>
        cases hrounds
        exact hshown hindex
      | cons next inputs =>
        have hnot : t.history_index ≠ j := by
          refine hbefore [input] (List.prefix_append [input] _) (by simp) t ?_
          rw [rounds, hround]
          rfl
        refine ih ⟨hrounds, hindex, fun done hdone hproper u hu => ?_⟩ ht hnot hstill
        refine hbefore (input :: done) (List.cons_prefix_cons.2 ⟨rfl, hdone⟩) ?_ u ?_
        · exact fun heq => hproper (List.cons.inj heq).2
        · rw [rounds, hround]
          exact hu

/-- **The line editor**: whatever is typed, no assertion fails and nothing is accessed out of range,
and an entry of the history that is left comes back as it was left. -/
theorem line_editor_sound (history : List Str) :
    (∀ inputs, ∃ outcome,
      rounds (lastCommand history) (start history) inputs = some outcome ∧
        ∀ s, outcome = .goes s → s.Ok) ∧
    ∀ before s input s' more s'',
      rounds (lastCommand history) (start history) before = some (.goes s) →
      round (lastCommand history) s input = some (.goes s') →
      s'.history_index ≠ s.history_index →
      LeadsTo (lastCommand history) s.history_index s' more s'' → s''.command = s.command := by
  have hall : ∀ inputs, Ends (rounds (lastCommand history) (start history) inputs)
      fun outcome => ∀ s, outcome = .goes s → s.Ok := rounds_ok (start_ok history)
  refine ⟨hall, fun before s input s' more s'' hs hround hne hleads => ?_⟩
  obtain ⟨outcome, houtcome, hok⟩ := hall before
  have hs' : s.Ok := hok s (Option.some.inj (houtcome.symm.trans hs))
  obtain ⟨outcome, hgood, hfollows⟩ : Ends (round (lastCommand history) s input) _ :=
    round_ok hs' input
  rw [hround] at hgood
  cases hgood
  exact hleads.command_eq hfollows.1 hne (hfollows.2.left hs'.index_lt hne)

end ReadCommand

end Shell

end AugraDosbox
