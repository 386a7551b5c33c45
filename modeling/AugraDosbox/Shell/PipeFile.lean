import AugraDosbox.Shell.StandardHandles

/-!
# The file behind a pipe

The output of the first command of a pipe goes to a temporary file, which the second command reads
and `ParseLine` deletes.

* `Dos.watched` — a machine that notes when a file is opened or created without a name;
* `ParseLine_watched` — it does what the machine does, and notes the pipes of `NullName`;
* `Strands` — the commands that leave for a directory where the file's name stands for another
  file;
* **`line_restores_iff`** — when a line leaves the handles as they were, names every file that it
  opens or creates, and deletes the file behind its pipe.
-/

namespace AugraDosbox

namespace Shell

variable {σ ν : Type*} {dos : Dos σ} {slots : σ → ℕ → Option ℕ} {full : List Char → σ → ν}
  {present : ν → σ → Prop} {line file : List Char} {r : RedirectionResults}

/-! ## Files without a name -/

/-- The machine together with a note: whether a file has been opened or created without a name.
The calls that a command makes are not those of the shell. -/
def Dos.watched (dos : Dos σ) : Dos (σ × Bool) where
  GetFileHandle e s := dos.GetFileHandle e s.1
  SetFileHandle e handle s := (dos.SetFileHandle e handle s.1, s.2)
  GetFileAttr file s := ((dos.GetFileAttr file s.1).1, (dos.GetFileAttr file s.1).2, s.2)
  OpenFile file mode s :=
    ((dos.OpenFile file mode s.1).1, (dos.OpenFile file mode s.1).2, s.2 || file.isEmpty)
  CreateFile file s :=
    ((dos.CreateFile file s.1).1, (dos.CreateFile file s.1).2, s.2 || file.isEmpty)
  SeekEnd handle s := (dos.SeekEnd handle s.1, s.2)
  CloseFile handle s := (dos.CloseFile handle s.1, s.2)
  FindFirst file s := ((dos.FindFirst file s.1).1, (dos.FindFirst file s.1).2, s.2)
  UnlinkFile file s := ((dos.UnlinkFile file s.1).1, (dos.UnlinkFile file s.1).2, s.2)
  accessDenied s := dos.accessDenied s.1
  setAccessDenied s := (dos.setAccessDenied s.1, s.2)
  drive n s := dos.drive n s.1
  GetEnvironmentValue name s := dos.GetEnvironmentValue name s.1
  tickRandomNumber s := dos.tickRandomNumber s.1
  WriteOut message s := (dos.WriteOut message s.1, s.2)
  DoCommand command s := (dos.DoCommand command s.1, s.2)

variable {s : σ × Bool}

theorem OpenFile_watched {mode : OpenMode} (h : file ≠ []) :
    dos.watched.OpenFile file mode s =
      ((dos.OpenFile file mode s.1).1, (dos.OpenFile file mode s.1).2, s.2) := by
  rw [Dos.watched]
  dsimp only
  rw [List.isEmpty_eq_false_iff.2 h, Bool.or_false]

theorem CreateFile_watched (h : file ≠ []) :
    dos.watched.CreateFile file s =
      ((dos.CreateFile file s.1).1, (dos.CreateFile file s.1).2, s.2) := by
  rw [Dos.watched]
  dsimp only
  rw [List.isEmpty_eq_false_iff.2 h, Bool.or_false]

theorem cannotDelete_watched :
    dos.watched.cannotDelete file s =
      ((dos.cannotDelete file s.1).1, (dos.cannotDelete file s.1).2, s.2) := by
  cases hfound : (dos.FindFirst file s.1).1 <;> simp [Dos.cannotDelete, Dos.watched, hfound]

theorem openInput_watched :
    openInput dos.watched file s =
      ((openInput dos file s.1).1, (openInput dos file s.1).2, s.2) := by
  rw [openInput, openInput]
  split
  · rfl
  next hne =>
  dsimp only
  rw [OpenFile_watched hne]
  cases (dos.OpenFile file .OPEN_READ s.1).1 <;> rfl

theorem appendTo_watched (h : file ≠ []) :
    appendTo dos.watched file s =
      ((appendTo dos file s.1).1, (appendTo dos file s.1).2, s.2) := by
  rw [appendTo, appendTo]
  dsimp only
  rw [show dos.watched.GetFileAttr file s =
    ((dos.GetFileAttr file s.1).1, (dos.GetFileAttr file s.1).2, s.2) from rfl]
  dsimp only
  split
  · rfl
  · rw [OpenFile_watched h]
    cases (dos.OpenFile file .OPEN_READWRITE (dos.GetFileAttr file s.1).2).1 with
    | some handle => rfl
    | none => exact CreateFile_watched h

theorem overwrite_watched (h : file ≠ []) :
    overwrite dos.watched file s =
      ((overwrite dos file s.1).1, (overwrite dos file s.1).2, s.2) := by
  rw [overwrite, overwrite]
  rw [show dos.watched.GetFileAttr file s =
    ((dos.GetFileAttr file s.1).1, (dos.GetFileAttr file s.1).2, s.2) from rfl]
  dsimp only
  split
  · rfl
  · exact CreateFile_watched h

theorem pipeTempfile_watched :
    pipeTempfile dos.watched s = ((pipeTempfile dos s.1).1, (pipeTempfile dos s.1).2, s.2) := by
  have hname {s : σ × Bool} : dos.watched.pipeName s = dos.pipeName s.1 := rfl
  rw [pipeTempfile, pipeTempfile]
  dsimp only [Dos.watched]
  cases (dos.GetEnvironmentValue "TEMP".toList s.1).or
    (dos.GetEnvironmentValue "TMP".toList s.1) with
  | none => rfl
  | some path =>
    dsimp only
    split <;> rfl

/-- The output of a machine, with a note. -/
def OutputRedirection.noted (o : OutputRedirection σ) (unnamed : Bool) :
    OutputRedirection (σ × Bool) :=
  ⟨o.handle, o.pipe_tempfile, o.failed_pipe, o.state, unnamed⟩

variable {pipe_tempfile : List Char}

theorem createPipe_watched {out_file : List Char} (h : pipe_tempfile ≠ []) :
    createPipe dos.watched out_file pipe_tempfile s =
      (createPipe dos out_file pipe_tempfile s.1).noted
        (s.2 || (dos.cannotDelete pipe_tempfile s.1).1 && out_file.isEmpty) := by
  have hname (deleted : Bool) : (if deleted then out_file else pipe_tempfile).isEmpty =
      (deleted && out_file.isEmpty) := by
    cases deleted with
    | true => rfl
    | false => exact List.isEmpty_eq_false_iff.2 h
  rw [createPipe, createPipe, cannotDelete_watched]
  dsimp only
  generalize dos.cannotDelete pipe_tempfile s.1 = deleted
  rw [show dos.watched.CreateFile (if deleted.1 then out_file else pipe_tempfile)
    (deleted.2, s.2) = ((dos.CreateFile (if deleted.1 then out_file else pipe_tempfile)
      deleted.2).1, (dos.CreateFile (if deleted.1 then out_file else pipe_tempfile) deleted.2).2,
      s.2 || (if deleted.1 then out_file else pipe_tempfile).isEmpty) from rfl, hname]
  generalize dos.CreateFile (if deleted.1 then out_file else pipe_tempfile) deleted.2 = created
  generalize (s.2 || deleted.1 && out_file.isEmpty) = unnamed
  dsimp only
  have hdrive (n : ℕ) : dos.watched.drive n (created.2, unnamed) = dos.drive n created.2 := rfl
  rw [hdrive, hdrive, hdrive]
  split
  · generalize (if dos.drive 2 created.2 then _ else _) = drive_name
    have hpath : truncate PipeTempfileSize (drive_name ++ pipe_tempfile) ≠ [] :=
      truncate_ne_nil (List.append_ne_nil_of_right_ne_nil _ h)
    rw [cannotDelete_watched]
    dsimp only
    generalize dos.cannotDelete _ created.2 = again
    split
    · rfl
    · rw [CreateFile_watched hpath]
      cases created.1 <;> rfl
  · rfl

/-- Without a pipe, the output is a file, or `nul`. -/
theorem openOutput_of_file {s : σ} (hpipe : r.pipe_target = []) (hout : r.out_file ≠ []) :
    openOutput dos r pipe_tempfile s =
      let opened := if r.is_appending then appendTo dos r.out_file s
        else overwrite dos r.out_file s
      if opened.1 = none then
        let message := if dos.accessDenied opened.2 then Message.SHELL_ACCESS_DENIED r.out_file
          else .SHELL_FILE_CREATE_ERROR r.out_file
        let nul := dos.OpenFile "nul".toList .OPEN_READWRITE (dos.WriteOut message opened.2)
        ⟨nul.1, pipe_tempfile, false, nul.2⟩
      else ⟨opened.1, pipe_tempfile, false, opened.2⟩ := by
  simp [openOutput, get_output_redirection, hpipe, hout]

theorem openOutput_watched (htemp : r.pipe_target ≠ [] → pipe_tempfile ≠ []) :
    openOutput dos.watched r pipe_tempfile s =
      (openOutput dos r pipe_tempfile s.1).noted (s.2 || decide (r.pipe_target ≠ [] ∧
        r.out_file = [] ∧ (dos.cannotDelete pipe_tempfile s.1).1 = true)) := by
  by_cases hpipe : r.pipe_target = []
  · rw [decide_eq_false fun h => h.1 hpipe, Bool.or_false]
    by_cases hout : r.out_file = []
    · rw [openOutput, openOutput, if_pos ⟨hout, hpipe⟩, if_pos ⟨hout, hpipe⟩]
      rfl
    · rw [openOutput_of_file hpipe hout, openOutput_of_file hpipe hout, appendTo_watched hout,
        overwrite_watched hout]
      generalize hopened : (if r.is_appending then appendTo dos r.out_file s.1
        else overwrite dos r.out_file s.1) = opened
      have hboth : (if r.is_appending then
          ((appendTo dos r.out_file s.1).1, (appendTo dos r.out_file s.1).2, s.2)
          else ((overwrite dos r.out_file s.1).1, (overwrite dos r.out_file s.1).2, s.2)) =
          (opened.1, opened.2, s.2) := by
        rw [← hopened]
        split <;> rfl
      dsimp only
      rw [hboth]
      split
      · rw [OpenFile_watched (by decide)]
        rfl
      · rfl
  · rw [openOutput_of_pipe hpipe, openOutput_of_pipe hpipe, createPipe_watched (htemp hpipe)]
    by_cases hout : r.out_file = []
    · rw [if_neg fun h => h hout, if_neg fun h => h hout]
      simp [hpipe, hout]
    · rw [if_pos hout, if_pos hout, decide_eq_false fun h => hout h.2.1,
        List.isEmpty_eq_false_iff.2 hout, Bool.and_false]
      rfl

theorem openPipe_watched {run : CommandRun σ} {unnamed : Bool} (h : run.pipe_tempfile ≠ []) :
    openPipe dos.watched ⟨run.ran, run.pipe_tempfile, run.failed_pipe, run.state, unnamed⟩ =
      ((openPipe dos run).1, (openPipe dos run).2, unnamed) := by
  rw [openPipe, openPipe]
  dsimp only
  split
  · rfl
  · exact OpenFile_watched h

instance {s : σ} : Decidable (NullName dos r s) := inferInstanceAs (Decidable (_ ∧ _ ∧ _ ∧ _))

theorem tempfile_watched :
    tempfile dos.watched r s = ((tempfile dos r s.1).1, (tempfile dos r s.1).2, s.2) := by
  rw [tempfile, tempfile, openInput_watched]
  dsimp only
  split
  · rw [pipeTempfile_watched]
  · rfl

theorem runCommand_watched {old_stdin old_stdout : ℕ} {i o : Option ℕ} {command : List Char} :
    runCommand dos.watched old_stdin old_stdout i o command s =
      (runCommand dos old_stdin old_stdout i o command s.1, s.2) := by
  cases i <;> cases o <;> rfl

theorem runFirst_watched :
    runFirst dos.watched r s = ⟨(runFirst dos r s.1).ran, (runFirst dos r s.1).pipe_tempfile,
      (runFirst dos r s.1).failed_pipe, (runFirst dos r s.1).state,
      s.2 || decide (NullName dos r s.1)⟩ := by
  have hinput : (openInput dos.watched r.in_file s).1 = (openInput dos r.in_file s.1).1 := by
    rw [openInput_watched]
  cases hopen : (openInput dos r.in_file s.1).1 with
  | none =>
    rw [runFirst_of_none (hinput.trans hopen), runFirst_of_none hopen, openInput_watched,
      decide_eq_false fun h => h.1 hopen, Bool.or_false]
  | some handle =>
    have hnull : decide (NullName dos r s.1) = decide (r.pipe_target ≠ [] ∧ r.out_file = [] ∧
        (dos.cannotDelete (tempfile dos r s.1).1 (tempfile dos r s.1).2).1 = true) :=
      decide_eq_decide.2 (and_iff_right (by rw [hopen]; exact Option.some_ne_none handle))
    rw [runFirst_of_input (hinput.trans hopen), runFirst_of_input hopen, output, output,
      tempfile_watched, openOutput_watched tempfile_ne_nil, hnull]
    rw [OutputRedirection.noted, runCommand_watched]
    rfl

/-- The target of a pipe names every file. -/
theorem runPipe_watched (hr : GetRedirection line = some r) (hpipe : r.pipe_target ≠ [])
    (hran : (runFirst dos r s.1).ran = true) :
    (runPipe dos.watched r s).2 =
      ((runPipe dos r s.1).2, s.2 || decide (NullName dos r s.1)) := by
  have hname : (runFirst dos r s.1).pipe_tempfile ≠ [] := by
    rw [runFirst_pipe_tempfile hran]
    exact output_ne_nil hpipe
  have htext := not_isRedirection_target hr hpipe
  rw [runPipe, runPipe, runFirst_watched, openPipe_watched hname]
  cases (openPipe dos (runFirst dos r s.1)).1 with
  | none => rfl
  | some pipe_handle =>
    dsimp only
    rw [ParseLine_of_text htext, ParseLine_of_text htext]
    cases GetRedirection (trim (blankAt (truncate CMD_MAXLINE r.pipe_target))) <;> rfl

/-- A line does on the watched machine what it does on the machine. -/
theorem ParseLine_watched : (ParseLine dos.watched line s).2 = ((ParseLine dos line s.1).2,
    s.2 || (GetRedirection (trim (blankAt line))).any fun r => decide (NullName dos r s.1)) := by
  cases hr : GetRedirection (trim (blankAt line)) with
  | none =>
    rw [ParseLine_of_none hr, ParseLine_of_none hr, Option.any_none, Bool.or_false]
    rfl
  | some r =>
    rw [Option.any_some]
    have hran : (runFirst dos.watched r s).ran = (runFirst dos r s.1).ran := by
      rw [runFirst_watched]
    cases hfirst : (runFirst dos r s.1).ran with
    | false =>
      rw [ParseLine_of_not_ran hr (hran.trans hfirst), ParseLine_of_not_ran hr hfirst,
        runFirst_watched]
    | true =>
      by_cases hpipe : r.pipe_target = []
      · rw [ParseLine_of_ran hr (hran.trans hfirst) hpipe, ParseLine_of_ran hr hfirst hpipe,
          runFirst_watched]
      · rw [ParseLine_of_pipe hr (hran.trans hfirst) hpipe, ParseLine_of_pipe hr hfirst hpipe,
          removePipe, removePipe, runPipe_watched hr hpipe hfirst, cannotDelete_watched,
          runFirst_watched]

/-! ## A machine with a few files -/

/-- A machine whose files are their names. -/
structure Machine where
  entries : Entry → Fin 256
  slots : ℕ → Option ℕ
  files : List (List Char)
  read_only : List (List Char)

namespace Machine

/-- The first free slot of `Files`. -/
def free (m : Machine) : Option ℕ := (List.range 255).find? fun handle => m.slots handle = none

/-- Opens a file in the first free slot. -/
def opened (m : Machine) : Option ℕ × Machine :=
  match m.free with
  | some handle => (some handle, { m with slots := Function.update m.slots handle (some 1) })
  | none => (none, m)

/-- The calls of the shell on such a machine, with `C:` mounted and another drive in use. -/
def calls : Dos Machine where
  GetFileHandle e m := m.entries e
  SetFileHandle e handle m :=
    { m with entries := Function.update m.entries e (Fin.ofNat 256 handle) }
  GetFileAttr file m :=
    (if m.files.contains file then some ⟨m.read_only.contains file, false⟩ else none, m)
  OpenFile file _ m := if m.files.contains file ∨ file = "nul".toList then m.opened else (none, m)
  CreateFile file m :=
    if m.read_only.contains file then (none, m) else { m with files := file :: m.files }.opened
  SeekEnd _ m := m
  CloseFile handle m :=
    { m with slots := Function.update m.slots handle ((m.slots handle).bind fun n =>
        if n ≤ 1 then none else some (n - 1)) }
  FindFirst file m := (m.files.contains file, m)
  UnlinkFile file m :=
    if m.files.contains file ∧ ¬ m.read_only.contains file then
      (true, { m with files := m.files.filter (· ≠ file) })
    else (false, m)
  accessDenied _ := false
  setAccessDenied m := m
  drive n _ := n == 2 || n == 3
  GetEnvironmentValue _ _ := none
  tickRandomNumber _ := 0
  WriteOut _ m := m
  DoCommand _ m := m

theorem handles_opened (m : Machine) :
    Opens (calls.handles Machine.slots m) m.opened.1 (calls.handles Machine.slots m.opened.2) := by
  rw [opened]
  cases hfree : m.free with
  | none => exact rfl
  | some handle =>
    have hslot := List.find?_some hfree
    have hmem := List.mem_range.1 (List.mem_of_find?_eq_some hfree)
    exact ⟨hmem, of_decide_eq_true hslot, rfl⟩

theorem handles_set {e : Entry} {handle : ℕ} {m : Machine} (h : handle < 256) :
    calls.handles Machine.slots (calls.SetFileHandle e handle m) =
      (calls.handles Machine.slots m).set e handle := by
  refine Handles.ext (funext fun e' => ?_) rfl
  simp only [Dos.handles, calls, Handles.set, Function.update_apply]
  split
  · exact Nat.mod_eq_of_lt h
  · rfl

theorem lawful : Lawful calls Machine.slots (fun file _ => file) fun file m => file ∈ m.files where
  SetFileHandle := handles_set
  GetFileHandle_lt {e m} := (m.entries e).isLt
  OpenFile {file mode m} _ := by
    dsimp only [calls]
    split
    · exact m.handles_opened
    · exact rfl
  CreateFile {file m} _ := by
    dsimp only [calls]
    split
    · exact rfl
    · exact handles_opened { m with files := file :: m.files }
  CloseFile {handle m} hone := by
    refine Handles.ext rfl ?_
    simp only [Dos.handles, calls, Handles.release, hone]
    rfl
  GetFileAttr := rfl
  SeekEnd := rfl
  FindFirst := rfl
  UnlinkFile {file m} := by
    dsimp only [calls]
    split <;> rfl
  setAccessDenied := rfl
  WriteOut := rfl
  FindFirst_full := rfl
  FindFirst_present := Iff.rfl
  present_of_FindFirst h := List.contains_iff_mem.2 h
  UnlinkFile_self {file m} h := by
    dsimp only [calls] at h ⊢
    split at h
    · next hdelete =>
      rw [if_pos hdelete]
      simp
    · exact absurd h Bool.false_ne_true
  UnlinkFile_other {file N m} h := by
    dsimp only [calls]
    split
    · simp [h]
    · rfl

/-- The shell has just started, with the files of the current directory. -/
def start (files read_only : List (List Char)) : Machine where
  entries e := if e = .STDIN then 0 else 1
  slots handle := if handle < 5 then some 1 else none
  files := files
  read_only := read_only

end Machine

/-! ## The file that is deleted -/

section Deletion

variable (dos full present) (r) (s : σ)

/-- The file behind the pipe. -/
def pipeFile : ν := full (output dos r s).pipe_tempfile (output dos r s).state

/-- The commands have gone where the name of the pipe's file stands for another file, and the
file is still there. -/
def Strands : Prop :=
  (openInput dos r.in_file s).1 ≠ none ∧ r.pipe_target ≠ [] ∧
    (output dos r s).failed_pipe = false ∧
    full (output dos r s).pipe_tempfile (runPipe dos r s).2 ≠ pipeFile dos full r s ∧
    present (pipeFile dos full r s) (runPipe dos r s).2

/-- The file behind the pipe is gone, or could not be deleted: the one that was there before it,
or it itself. -/
def Deleted (after : σ) : Prop :=
  (output dos r s).failed_pipe = true ∨ ¬ present (pipeFile dos full r s) after ∨
    full (output dos r s).pipe_tempfile (runPipe dos r s).2 = pipeFile dos full r s ∧
      (dos.cannotDelete (output dos r s).pipe_tempfile (runPipe dos r s).2).1 = true

/-- What is expected of a line. -/
structure Restores (slots : σ → ℕ → Option ℕ) (line : List Char) : Prop where
  handles : dos.handles slots (ParseLine dos line s).2 = dos.handles slots s
  named : (ParseLine dos.watched line (s, false)).2.2 = false
  deleted {r : RedirectionResults} : GetRedirection (trim (blankAt line)) = some r →
    (openInput dos r.in_file s).1 ≠ none → r.pipe_target ≠ [] →
    Deleted dos full present r s (ParseLine dos line s).2

variable {dos full present r s}

theorem Lawful.cannotDelete_other (hlaw : Lawful dos slots full present) {N : ν}
    (hN : N ≠ full file s) : present N (dos.cannotDelete file s).2 ↔ present N s := by
  rw [Dos.cannotDelete]
  split
  · have hfull : full file (dos.FindFirst file s).2 = full file s := hlaw.FindFirst_full
    rw [← hfull] at hN
    exact (hlaw.UnlinkFile_other hN).trans hlaw.FindFirst_present
  · exact hlaw.FindFirst_present

theorem Lawful.not_present (hlaw : Lawful dos slots full present)
    (h : (dos.cannotDelete file s).1 = false) :
    ¬ present (full file s) (dos.cannotDelete file s).2 := by
  rw [Dos.cannotDelete] at h ⊢
  dsimp only at h ⊢
  split at h
  · next hfound =>
    have hfull : full file (dos.FindFirst file s).2 = full file s := hlaw.FindFirst_full
    rw [if_pos hfound, ← hfull]
    exact hlaw.UnlinkFile_self (by simpa using h)
  · next hfound =>
    rw [if_neg hfound]
    exact fun hpresent => hfound (hlaw.present_of_FindFirst (hlaw.FindFirst_present.1 hpresent))

theorem deleted_iff (hlaw : Lawful dos slots full present)
    (hinput : (openInput dos r.in_file s).1 ≠ none) (hpipe : r.pipe_target ≠ []) :
    Deleted dos full present r s
      (removePipe dos (output dos r s).pipe_tempfile (runPipe dos r s).2) ↔
    ¬ Strands dos full present r s := by
  rw [removePipe]
  constructor
  · rintro hdeleted ⟨-, -, hfailed, hother, hpresent⟩
    rcases hdeleted with hfailed' | hgone | ⟨hsame, -⟩
    · exact Bool.false_ne_true (hfailed.symm.trans hfailed')
    · exact hgone ((hlaw.cannotDelete_other hother.symm).2 hpresent)
    · exact hother hsame
  · intro hstrands
    by_cases hfailed : (output dos r s).failed_pipe = true
    · exact .inl hfailed
    by_cases hsame : full (output dos r s).pipe_tempfile (runPipe dos r s).2 =
        pipeFile dos full r s
    · cases hdelete : (dos.cannotDelete (output dos r s).pipe_tempfile (runPipe dos r s).2).1 with
      | true => exact .inr (.inr ⟨hsame, hdelete⟩)
      | false =>
        have hgone := hlaw.not_present hdelete
        rw [hsame] at hgone
        exact .inr (.inl hgone)
    · refine .inr (.inl fun hpresent => hstrands ⟨hinput, hpipe, ?_, hsame, ?_⟩)
      · exact Bool.eq_false_iff.2 hfailed
      · exact (hlaw.cannotDelete_other (Ne.symm hsame)).1 hpresent

/-- **A line cleans up behind itself** exactly when it does not have to create a file without a
name, and its commands do not lead the name of the pipe's file astray. -/
theorem line_restores_iff (hlaw : Lawful dos slots full present)
    (hcommands : ∀ command s, dos.handles slots (dos.DoCommand command s) = dos.handles slots s)
    (line : List Char) (s : σ) :
    Restores dos full present s slots line ↔
      ∀ r, GetRedirection (trim (blankAt line)) = some r →
        ¬ NullName dos r s ∧ ¬ Strands dos full present r s := by
  have hwatched : (ParseLine dos.watched line (s, false)).2.2 =
      (GetRedirection (trim (blankAt line))).any fun r => decide (NullName dos r s) := by
    rw [ParseLine_watched, Bool.false_or]
  have hafter {r : RedirectionResults} (hr : GetRedirection (trim (blankAt line)) = some r)
      (hinput : (openInput dos r.in_file s).1 ≠ none) (hpipe : r.pipe_target ≠ []) :
      (ParseLine dos line s).2 =
        removePipe dos (output dos r s).pipe_tempfile (runPipe dos r s).2 := by
    have hran := runFirst_ran_iff.2 hinput
    rw [ParseLine_of_pipe hr hran hpipe, runFirst_pipe_tempfile hran]
  constructor
  · intro h r hr
    have hnamed := hwatched.symm.trans h.named
    rw [hr, Option.any_some] at hnamed
    refine ⟨of_decide_eq_false hnamed, fun hstrands => ?_⟩
    obtain ⟨hinput, hpipe, -⟩ := id hstrands
    have hdeleted := h.deleted hr hinput hpipe
    rw [hafter hr hinput hpipe, deleted_iff hlaw hinput hpipe] at hdeleted
    exact hdeleted hstrands
  · intro h
    refine ⟨hlaw.handles_ParseLine hcommands fun r hr => (h r hr).1, ?_, ?_⟩
    · rw [hwatched]
      cases hr : GetRedirection (trim (blankAt line)) with
      | none => rfl
      | some r => exact decide_eq_false (h r hr).1
    · intro r hr hinput hpipe
      rw [hafter hr hinput hpipe, deleted_iff hlaw hinput hpipe]
      exact (h r hr).2

/-- A pipe whose temporary file is new. -/
theorem line_restores_of_newFile : Restores Machine.calls (fun file _ => file)
    (fun file m => file ∈ m.files) (Machine.start [] []) Machine.slots "a|b".toList := by
  refine (line_restores_iff Machine.lawful (fun _ _ => rfl) _ _).2 fun r hr => ⟨?_, ?_⟩
  · have hredirection : GetRedirection (trim (blankAt "a|b".toList)) =
        some ⟨"a".toList, [], [], "b".toList, false⟩ := by decide
    obtain rfl := Option.some.inj (hredirection.symm.trans hr)
    decide
  · exact fun hstrands => hstrands.2.2.2.1 rfl

/-- A pipe whose temporary file is there and read-only. -/
theorem readOnlyPipe_not_restores :
    Lawful Machine.calls Machine.slots (fun file _ => file) (fun file m => file ∈ m.files) ∧
    (∀ command m, Machine.calls.handles Machine.slots (Machine.calls.DoCommand command m) =
      Machine.calls.handles Machine.slots m) ∧
    ¬ Restores Machine.calls (fun file _ => file) (fun file m => file ∈ m.files)
      (Machine.start ["pipe0.tmp".toList] ["pipe0.tmp".toList]) Machine.slots "a|b".toList := by
  refine ⟨Machine.lawful, fun _ _ => rfl, fun h => ?_⟩
  have hredirection : GetRedirection (trim (blankAt "a|b".toList)) =
      some ⟨"a".toList, [], [], "b".toList, false⟩ := by decide
  have hnamed := h.named
  rw [ParseLine_watched, Bool.false_or, hredirection, Option.any_some] at hnamed
  exact absurd hnamed (by decide)

end Deletion

end Shell

end AugraDosbox
