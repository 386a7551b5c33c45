import Mathlib.Data.List.DropRight
import AugraDosbox.Shell.RedirectionResults

/-!
# Running a command line

`DOS_Shell::ParseLine` opens the files that a line redirects to, runs the command that is left of
it, and hands the target of a pipe to itself. The DOS calls it makes, and the command itself, are
those of a structure `Dos` over the state of the machine.

* `Dos`, `get_output_redirection`, `openRedirections`, `runCommand`, `openPipe` — the steps;
* `ParseLine` — the commands that a line runs, and the state it leaves;
* **`length_commands_le`** — a line never runs more than two commands.
-/

namespace AugraDosbox

namespace Shell

/-! ## Strings -/

/-- The size of a command line's buffer. -/
def CMD_MAXLINE : ℕ := 4096

/-- The size of `pipe_tempfile`. -/
def PipeTempfileSize : ℕ := 270

/-- What `safe_strcpy` and `safe_sprintf` leave in a buffer. -/
def truncate (size : ℕ) (s : List Char) : List Char := s.take (size - 1)

def ltrim (s : List Char) : List Char := s.dropWhile isspace

def rtrim (s : List Char) : List Char := s.rdropWhile isspace

def trim (s : List Char) : List Char := ltrim (rtrim s)

/-- A leading `@` becomes a space. -/
def blankAt : List Char → List Char
  | [] => []
  | c :: s => if c = '@' then ' ' :: s else c :: s

/-! ## The calls to DOS -/

/-- The standard handles that are redirected. -/
inductive Entry where
  | STDIN
  | STDOUT
  deriving DecidableEq, Repr

inductive OpenMode where
  | OPEN_READ
  | OPEN_READWRITE
  deriving DecidableEq, Repr

/-- The attributes that are looked at. -/
structure FatAttributeFlags where
  read_only : Bool
  directory : Bool
  deriving DecidableEq, Repr

/-- The texts that are written. -/
inductive Message where
  | SHELL_SYNTAX_ERROR
  | SHELL_ACCESS_DENIED (file : List Char)
  | SHELL_FILE_OPEN_ERROR (file : List Char)
  | SHELL_FILE_CREATE_ERROR (file : List Char)
  | SHELL_CMD_DUPLICATE_REDIRECTION (file : List Char)
  | SHELL_CMD_FAILED_PIPE
  deriving DecidableEq, Repr

/-- The calls of the shell, over the machine's state. -/
structure Dos (σ : Type*) where
  GetFileHandle : Entry → σ → ℕ
  SetFileHandle : Entry → ℕ → σ → σ
  /-- `DOS_GetFileAttr`, with the attributes when it succeeds. -/
  GetFileAttr : List Char → σ → Option FatAttributeFlags × σ
  /-- `DOS_OpenFile`, with the handle when it succeeds. -/
  OpenFile : List Char → OpenMode → σ → Option ℕ × σ
  /-- `DOS_CreateFile` with the archive attribute. -/
  CreateFile : List Char → σ → Option ℕ × σ
  /-- `DOS_SeekFile` to the end. -/
  SeekEnd : ℕ → σ → σ
  CloseFile : ℕ → σ → σ
  FindFirst : List Char → σ → Bool × σ
  UnlinkFile : List Char → σ → Bool × σ
  /-- Whether `dos.errorcode` is `DOSERR_ACCESS_DENIED`. -/
  accessDenied : σ → Bool
  /-- `DOS_SetError(DOSERR_ACCESS_DENIED)`. -/
  setAccessDenied : σ → σ
  /-- Whether an element of `Drives` is there. -/
  drive : ℕ → σ → Bool
  GetEnvironmentValue : List Char → σ → Option (List Char)
  /-- `get_tick_random_number`. -/
  tickRandomNumber : σ → ℕ
  WriteOut : Message → σ → σ
  DoCommand : List Char → σ → σ

variable {σ : Type*} (dos : Dos σ)

/-! ## Redirecting the output -/

/-- `DOS_FindFirst` and then, when the file is there, `DOS_UnlinkFile`: whether a file is left
that cannot be deleted. -/
def Dos.cannotDelete (file : List Char) (s : σ) : Bool × σ :=
  let found := dos.FindFirst file s
  if found.1 then
    let unlinked := dos.UnlinkFile file found.2
    (!unlinked.1, unlinked.2)
  else (false, found.2)

/-- What `get_output_redirection` returns and what it changes in its arguments. -/
structure OutputRedirection (σ : Type*) where
  handle : Option ℕ
  pipe_tempfile : List Char
  failed_pipe : Bool
  state : σ

/-- Appends to a file, or creates it. -/
def appendTo (file : List Char) (s : σ) : Option ℕ × σ :=
  let attr := dos.GetFileAttr file s
  if attr.1.any (·.read_only) then (none, dos.setAccessDenied attr.2)
  else
    let opened := dos.OpenFile file .OPEN_READWRITE attr.2
    match opened.1 with
    | some handle => (some handle, dos.SeekEnd handle opened.2)
    | none => dos.CreateFile file opened.2

/-- Overwrites a file. -/
def overwrite (file : List Char) (s : σ) : Option ℕ × σ :=
  let attr := dos.GetFileAttr file s
  if attr.1.any (·.read_only) then (none, dos.setAccessDenied attr.2)
  else dos.CreateFile file attr.2

/-- The file behind a pipe: in the directory of its name, and when that fails for a name without
a directory, in the root of a drive. -/
def createPipe (out_file pipe_tempfile : List Char) (s : σ) : OutputRedirection σ :=
  let deleted := dos.cannotDelete pipe_tempfile s
  let created := dos.CreateFile (if deleted.1 then out_file else pipe_tempfile) deleted.2
  if (deleted.1 ∨ created.1 = none) ∧
      (dos.drive 0 created.2 ∨ dos.drive 2 created.2 ∨ dos.drive 24 created.2) ∧
      '\\' ∉ pipe_tempfile then
    let drive_prefix : List Char :=
      if dos.drive 2 created.2 then ['c', ':', '\\']
      else if dos.drive 0 created.2 then ['a', ':', '\\']
      else ['y', ':', '\\']
    let pipe_full_path := truncate PipeTempfileSize ( drive_prefix ++ pipe_tempfile)
    let again := dos.cannotDelete pipe_full_path created.2
    if again.1 then ⟨created.1, pipe_full_path, true, again.2⟩
    else
      let closed := match created.1 with
        | some handle => dos.CloseFile handle again.2
        | none => again.2
      let created := dos.CreateFile pipe_full_path closed
      ⟨created.1, pipe_full_path, false, created.2⟩
  else ⟨created.1, pipe_tempfile, deleted.1, created.2⟩

/-- `get_output_redirection`, where `pipe` says that there is a pipe. -/
def get_output_redirection (out_file : List Char) (pipe : Bool) (pipe_tempfile : List Char)
    (append : Bool) (s : σ) : OutputRedirection σ :=
  if pipe then createPipe dos out_file pipe_tempfile s
  else
    let opened := if append then appendTo dos out_file s else overwrite dos out_file s
    ⟨opened.1, pipe_tempfile, false, opened.2⟩

/-! ## The steps of a line -/

/-- `"pipe%d.tmp"`. -/
def Dos.pipeName (s : σ) : List Char :=
  "pipe".toList ++ (toString (dos.tickRandomNumber s)).toList ++ ".tmp".toList

/-- The name of the pipe's temporary file, in the directory of `TEMP` or `TMP` if that is one. -/
def pipeTempfile (s : σ) : List Char × σ :=
  match (dos.GetEnvironmentValue "TEMP".toList s).or (dos.GetEnvironmentValue "TMP".toList s) with
  | none => (truncate PipeTempfileSize (dos.pipeName s), s)
  | some path =>
      let attr := dos.GetFileAttr path s
      if attr.1.any (·.directory) then
        (truncate PipeTempfileSize (path ++ '\\' :: dos.pipeName attr.2), attr.2)
      else (truncate PipeTempfileSize (dos.pipeName attr.2), attr.2)

/-- Opens the input: the handle if there is one, or nothing when it cannot be opened. -/
def openInput (in_file : List Char) (s : σ) : Option (Option ℕ) × σ :=
  if in_file = [] then (some none, s)
  else
    let opened := dos.OpenFile in_file .OPEN_READ s
    match opened.1 with
    | some handle => (some (some handle), opened.2)
    | none =>
        let message := if dos.accessDenied opened.2 then Message.SHELL_ACCESS_DENIED in_file
          else .SHELL_FILE_OPEN_ERROR in_file
        (none, dos.WriteOut message opened.2)

/-- Opens the output: a file, the pipe's file, or neither. -/
def openOutput (r : RedirectionResults) (pipe_tempfile : List Char) (s : σ) :
    OutputRedirection σ :=
  if r.out_file = [] ∧ r.pipe_target = [] then ⟨none, pipe_tempfile, false, s⟩
  else
    let s := if r.out_file ≠ [] ∧ r.pipe_target ≠ [] then
      dos.WriteOut (.SHELL_CMD_DUPLICATE_REDIRECTION r.out_file) s else s
    let output := get_output_redirection dos r.out_file (decide (r.pipe_target ≠ []))
      pipe_tempfile r.is_appending s
    if output.handle = none ∧ r.pipe_target = [] then
      let file := if r.out_file ≠ [] then r.out_file else "(unnamed)".toList
      let message := if dos.accessDenied output.state then Message.SHELL_ACCESS_DENIED file
        else .SHELL_FILE_CREATE_ERROR file
      let opened := dos.OpenFile "nul".toList .OPEN_READWRITE (dos.WriteOut message output.state)
      { output with handle := opened.1, state := opened.2 }
    else output

/-- Sets a standard handle if there is one to set. -/
def Dos.redirect (entry : Entry) (handle : Option ℕ) (s : σ) : σ :=
  match handle with
  | some handle => dos.SetFileHandle entry handle s
  | none => s

/-- Puts the old handle back, and closes the one that had replaced it. -/
def Dos.restore (entry : Entry) (old : ℕ) (handle : Option ℕ) (s : σ) : σ :=
  match handle with
  | some handle => dos.CloseFile handle (dos.SetFileHandle entry old s)
  | none => s

/-- Runs the command with its standard handles replaced. -/
def runCommand (old_stdin old_stdout : ℕ) (input output : Option ℕ) (command : List Char)
    (s : σ) : σ :=
  let s := dos.redirect .STDOUT output (dos.redirect .STDIN input s)
  let s := dos.DoCommand command s
  dos.restore .STDOUT old_stdout output (dos.restore .STDIN old_stdin input s)

/-- A line up to the end of its command: whether the command ran, the name of the pipe's file,
whether that has failed, and the state. -/
structure CommandRun (σ : Type*) where
  ran : Bool
  pipe_tempfile : List Char
  failed_pipe : Bool
  state : σ

/-- Opens what the line redirects and runs the command, unless the input cannot be opened. -/
def runFirst (r : RedirectionResults) (s : σ) : CommandRun σ :=
  let old_stdin := dos.GetFileHandle .STDIN s
  let old_stdout := dos.GetFileHandle .STDOUT s
  let input := openInput dos r.in_file s
  match input.1 with
  | none => ⟨false, [], false, input.2⟩
  | some handle =>
      let temp := if r.pipe_target ≠ [] then pipeTempfile dos input.2 else ([], input.2)
      let output := openOutput dos r temp.1 temp.2
      ⟨true, output.pipe_tempfile, output.failed_pipe,
        runCommand dos old_stdin old_stdout handle output.handle r.processed_line output.state⟩

/-- Opens the pipe's file for the next command. -/
def openPipe (run : CommandRun σ) : Option ℕ × σ :=
  if run.failed_pipe then (none, run.state)
  else dos.OpenFile run.pipe_tempfile .OPEN_READ run.state

/-- Deletes the pipe's file. -/
def removePipe (pipe_tempfile : List Char) (s : σ) : σ := (dos.cannotDelete pipe_tempfile s).2

theorem length_trim_le (s : List Char) : (trim s).length ≤ s.length := by
  have hright : (rtrim s).length ≤ s.length := (List.rdropWhile_prefix isspace s).length_le
  exact (List.dropWhile_suffix isspace).length_le.trans hright

theorem length_blankAt (s : List Char) : (blankAt s).length = s.length := by
  cases s with
  | nil => rfl
  | cons c s =>
    rw [blankAt]
    split <;> rfl

/-- `DOS_Shell::ParseLine`: the commands that are run, each the argument of a `DoCommand`, and
the state that is left. -/
def ParseLine (line : List Char) (s : σ) : List (List Char) × σ :=
  match hr : GetRedirection (trim (blankAt line)) with
  | none => ([], dos.WriteOut .SHELL_SYNTAX_ERROR s)
  | some r =>
      let run := runFirst dos r s
      if !run.ran then ([], run.state)
      else if hne : r.pipe_target = [] then ([r.processed_line], run.state)
      else
        have := length_pipe_target hr hne
        let opened := openPipe dos run
        match opened.1 with
        | some pipe_handle =>
            let next := ParseLine (truncate CMD_MAXLINE r.pipe_target)
              (dos.SetFileHandle .STDIN pipe_handle opened.2)
            let old := dos.SetFileHandle .STDIN (dos.GetFileHandle .STDIN s) next.2
            (r.processed_line :: next.1,
              removePipe dos run.pipe_tempfile (dos.CloseFile pipe_handle old))
        | none =>
            ([r.processed_line],
              removePipe dos run.pipe_tempfile (dos.WriteOut .SHELL_CMD_FAILED_PIPE opened.2))
termination_by line.length
decreasing_by
  have htrim := length_trim_le (blankAt line)
  rw [length_blankAt] at htrim
  have htruncate : (truncate CMD_MAXLINE r.pipe_target).length ≤ r.pipe_target.length :=
    List.length_take_le' ..
  omega

/-! ## The commands of a line -/

section Commands

variable {dos : Dos σ} {line : List Char} {r : RedirectionResults} {s : σ}

/-- The commands that a line runs. -/
def commands (dos : Dos σ) (line : List Char) (s : σ) : List (List Char) := (ParseLine dos line s).1

theorem ParseLine_of_none (h : GetRedirection (trim (blankAt line)) = none) :
    ParseLine dos line s = ([], dos.WriteOut .SHELL_SYNTAX_ERROR s) := by
  rw [ParseLine]
  split
  · rfl
  · next r hr => exact absurd (h.symm.trans hr).symm (Option.some_ne_none r)

theorem ParseLine_of_not_ran (h : GetRedirection (trim (blankAt line)) = some r)
    (hran : (runFirst dos r s).ran = false) :
    ParseLine dos line s = ([], (runFirst dos r s).state) := by
  rw [ParseLine]
  split
  · next hr => exact absurd (h.symm.trans hr) (Option.some_ne_none r)
  · next r' hr =>
    obtain rfl := Option.some.inj (h.symm.trans hr)
    dsimp only
    rw [if_pos (by rw [hran]; rfl)]

theorem ParseLine_of_ran (h : GetRedirection (trim (blankAt line)) = some r)
    (hran : (runFirst dos r s).ran = true) (hpipe : r.pipe_target = []) :
    ParseLine dos line s = ([r.processed_line], (runFirst dos r s).state) := by
  rw [ParseLine]
  split
  · next hr => exact absurd (h.symm.trans hr) (Option.some_ne_none r)
  · next r' hr =>
    obtain rfl := Option.some.inj (h.symm.trans hr)
    dsimp only
    rw [if_neg (by rw [hran]; decide), dif_pos hpipe]

/-- The target of a pipe: its commands, and the state in which the pipe's file is deleted. -/
def runPipe (dos : Dos σ) (r : RedirectionResults) (s : σ) : List (List Char) × σ :=
  let opened := openPipe dos (runFirst dos r s)
  match opened.1 with
  | some pipe_handle =>
      let next := ParseLine dos (truncate CMD_MAXLINE r.pipe_target)
        (dos.SetFileHandle .STDIN pipe_handle opened.2)
      let old := dos.SetFileHandle .STDIN (dos.GetFileHandle .STDIN s) next.2
      (next.1, dos.CloseFile pipe_handle old)
  | none => ([], dos.WriteOut .SHELL_CMD_FAILED_PIPE opened.2)

theorem ParseLine_of_pipe (h : GetRedirection (trim (blankAt line)) = some r)
    (hran : (runFirst dos r s).ran = true) (hpipe : r.pipe_target ≠ []) :
    ParseLine dos line s = (r.processed_line :: (runPipe dos r s).1,
      removePipe dos (runFirst dos r s).pipe_tempfile (runPipe dos r s).2) := by
  rw [ParseLine, runPipe]
  split
  · next hr => exact absurd (h.symm.trans hr) (Option.some_ne_none r)
  · next r' hr =>
    obtain rfl := Option.some.inj (h.symm.trans hr)
    dsimp only
    rw [if_neg (by rw [hran]; decide), dif_neg hpipe]
    cases (openPipe dos (runFirst dos r s)).1 <;> rfl

theorem commands_of_none (h : GetRedirection (trim (blankAt line)) = none) :
    commands dos line s = [] := by
  rw [commands, ParseLine_of_none h]

theorem commands_of_not_ran (h : GetRedirection (trim (blankAt line)) = some r)
    (hran : (runFirst dos r s).ran = false) : commands dos line s = [] := by
  rw [commands, ParseLine_of_not_ran h hran]

theorem commands_of_ran (h : GetRedirection (trim (blankAt line)) = some r)
    (hran : (runFirst dos r s).ran = true) (hpipe : r.pipe_target = []) :
    commands dos line s = [r.processed_line] := by
  rw [commands, ParseLine_of_ran h hran hpipe]

/-- The state in which the target of a pipe is run. -/
def pipeState (dos : Dos σ) (r : RedirectionResults) (s : σ) : Option σ :=
  let opened := openPipe dos (runFirst dos r s)
  opened.1.map fun pipe_handle => dos.SetFileHandle .STDIN pipe_handle opened.2

theorem commands_of_pipe (h : GetRedirection (trim (blankAt line)) = some r)
    (hran : (runFirst dos r s).ran = true) (hpipe : r.pipe_target ≠ []) :
    commands dos line s = r.processed_line ::
      (pipeState dos r s).elim [] (commands dos (truncate CMD_MAXLINE r.pipe_target)) := by
  rw [commands, ParseLine_of_pipe h hran hpipe, runPipe, pipeState]
  cases (openPipe dos (runFirst dos r s)).1 <;> rfl

theorem runFirst_ran_of_in_file (h : r.in_file = []) : (runFirst dos r s).ran = true := by
  rw [runFirst, openInput, if_pos h]

theorem mem_trim {c : Char} {l : List Char} (h : c ∈ trim l) : c ∈ l :=
  (List.rdropWhile_prefix isspace l).subset ((List.dropWhile_suffix isspace).subset h)

theorem mem_blankAt {c : Char} {l : List Char} (h : c ∈ blankAt l) : c = ' ' ∨ c ∈ l := by
  cases l with
  | nil => exact .inr h
  | cons a l =>
    rw [blankAt] at h
    split at h
    · exact (List.mem_cons.1 h).imp id (List.mem_cons_of_mem a)
    · exact .inr h

/-- A line without redirection characters has no redirections. -/
theorem Reads.operator_eq_none {ps : List Piece} (h : Reads line ps)
    (hline : ∀ c ∈ line, ¬ isRedirection c) {p : Piece} (hp : p ∈ ps) : p.operator = none := by
  induction h with
  | nil => exact absurd hp List.not_mem_nil
  | text hquote htoken h ih =>
    rcases List.mem_cons.1 hp with rfl | hp
    · rfl
    · exact ih (fun c hc => hline c (List.mem_cons_of_mem _ hc)) hp
  | quoted hbody hws hrest h ih =>
    rcases List.mem_cons.1 hp with rfl | hp
    · rfl
    · exact ih (fun c hc => hline c (by simp [hc])) hp
  | @redirection token s ws target tail rest ps htoken hop h ih =>
    have hall : tokens.all fun token => token.any isRedirection := by decide
    obtain ⟨c, hc, hredir⟩ := List.any_eq_true.1 (List.all_eq_true.1 hall token htoken)
    exact absurd hredir (hline c (List.mem_append_left s hc))

/-- A line without redirection characters runs as one command at most. -/
theorem length_commands_le_one (hline : ∀ c ∈ line, ¬ isRedirection c) :
    (commands dos line s).length ≤ 1 := by
  have hclean : ∀ c ∈ trim (blankAt line), ¬ isRedirection c := by
    intro c hc
    rcases mem_blankAt (mem_trim hc) with rfl | hc
    · decide
    · exact hline c hc
  cases hr : GetRedirection (trim (blankAt line)) with
  | none =>
    rw [commands_of_none hr]
    exact Nat.zero_le 1
  | some r =>
    have hpipe : r.pipe_target = [] := by
      have hreads := reads_pieces (trim (blankAt line))
      rw [hreads.eq_foldl hr, pipe_target_foldl]
      have hlast : lastOf Piece.isPipe (pieces (trim (blankAt line))) = none := by
        rw [lastOf, List.getLast?_eq_none_iff, List.filter_eq_nil_iff]
        intro p hp
        rw [Piece.isPipe, hreads.operator_eq_none hclean hp]
        decide
      rw [hlast]
      rfl
    cases hran : (runFirst dos r s).ran with
    | false =>
      rw [commands_of_not_ran hr hran]
      exact Nat.zero_le 1
    | true =>
      rw [commands_of_ran hr hran hpipe]
      exact Nat.le_refl 1

/-- **No third stage.** The target of a pipe is free of redirections, so that whatever a line
says, two commands at most are run. -/
theorem length_commands_le : (commands dos line s).length ≤ 2 := by
  cases hr : GetRedirection (trim (blankAt line)) with
  | none =>
    rw [commands_of_none hr]
    exact Nat.zero_le 2
  | some r =>
    cases hran : (runFirst dos r s).ran with
    | false =>
      rw [commands_of_not_ran hr hran]
      exact Nat.zero_le 2
    | true =>
      by_cases hpipe : r.pipe_target = []
      · rw [commands_of_ran hr hran hpipe]
        exact Nat.le_succ 1
      · rw [commands_of_pipe hr hran hpipe, List.length_cons]
        refine Nat.succ_le_succ ?_
        cases pipeState dos r s with
        | none => exact Nat.zero_le 1
        | some s =>
          refine length_commands_le_one fun c hc hredir => ?_
          have htarget := isTarget_pipe_target hr hpipe c (List.mem_of_mem_take hc)
          rw [isTarget, hredir] at htarget
          exact absurd htarget Bool.false_ne_true

end Commands

end Shell

end AugraDosbox
