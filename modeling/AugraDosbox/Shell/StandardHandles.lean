import Mathlib.Logic.Function.Basic
import AugraDosbox.Shell.ParseLine

/-!
# The standard handles around a command line

`ParseLine` opens files, puts them in the place of the standard handles, and puts everything back
when the commands have run.

* `Handles`, `Opens` — the standard handles with the occupied slots of `Files`, and what opening
  a file does to them;
* `Lawful` — what the calls to DOS do to the handles and to the files;
* `NullName` — the pipes for which a file is created without a name;
* **`handles_ParseLine`** — without one, a line leaves the handles as they were.
-/

namespace AugraDosbox

namespace Shell

/-! ## Handles -/

/-- The standard handles of the shell's PSP, and the reference counts of the occupied slots of
`Files`. -/
@[ext]
structure Handles where
  entries : Entry → ℕ
  slots : ℕ → Option ℕ

namespace Handles

variable (H : Handles) (e : Entry) (handle : ℕ)

/-- `SetFileHandle`. -/
def set : Handles := { H with entries := Function.update H.entries e handle }

/-- A slot that a file is opened in. -/
def take : Handles := { H with slots := Function.update H.slots handle (some 1) }

/-- A slot whose file has been closed. -/
def release : Handles := { H with slots := Function.update H.slots handle none }

/-- Replaces a standard handle if there is something to replace it with. -/
def redirect (handle : Option ℕ) : Handles := handle.elim H (H.set e)

/-- Puts the old handle back if it has been replaced. -/
def restore (old : ℕ) (handle : Option ℕ) : Handles := handle.elim H (H.set e old).release

@[simp] theorem set_slots : (H.set e handle).slots = H.slots := rfl

@[simp] theorem take_entries : (H.take handle).entries = H.entries := rfl

@[simp] theorem release_entries : (H.release handle).entries = H.entries := rfl

variable {H e handle}

theorem redirect_slots {handle : Option ℕ} : (H.redirect e handle).slots = H.slots := by
  cases handle <;> rfl

@[simp] theorem take_slots_self : (H.take handle).slots handle = some 1 :=
  Function.update_self ..

theorem take_slots_ne {other : ℕ} (h : other ≠ handle) :
    (H.take handle).slots other = H.slots other :=
  Function.update_of_ne h ..

theorem restore_slots_ne {old other : ℕ} {handle : Option ℕ} (h : ∀ i ∈ handle, i ≠ other) :
    (H.restore e old handle).slots other = H.slots other := by
  cases handle with
  | none => rfl
  | some i => exact Function.update_of_ne (h i rfl).symm ..

/-- Closing the file that has been opened last. -/
theorem release_take (h : H.slots handle = none) : (H.take handle).release handle = H := by
  rw [take, release]
  dsimp only
  rw [Function.update_idem, ← h, Function.update_eq_self]

end Handles

/-- What a call that opens a file does to the handles. -/
def Opens (before : Handles) (handle : Option ℕ) (after : Handles) : Prop :=
  match handle with
  | some handle => handle < 255 ∧ before.slots handle = none ∧ after = before.take handle
  | none => after = before

variable {σ ν : Type*} {dos : Dos σ} {slots : σ → ℕ → Option ℕ}

/-- The handles of a state. -/
def Dos.handles (dos : Dos σ) (slots : σ → ℕ → Option ℕ) (s : σ) : Handles :=
  ⟨fun e => dos.GetFileHandle e s, slots s⟩

/-- What the calls to DOS do to the handles and to the files. `full` is the file that a name
stands for, which may depend on the current directory, and `present` says that there is such a
file. An empty name is that of no file. -/
structure Lawful (dos : Dos σ) (slots : σ → ℕ → Option ℕ) (full : List Char → σ → ν)
    (present : ν → σ → Prop) : Prop where
  /-- The shell's table has the standard handles. -/
  SetFileHandle {e : Entry} {handle : ℕ} {s : σ} : handle < 256 →
    dos.handles slots (dos.SetFileHandle e handle s) = (dos.handles slots s).set e handle
  GetFileHandle_lt {e : Entry} {s : σ} : dos.GetFileHandle e s < 256
  OpenFile {file : List Char} {mode : OpenMode} {s : σ} : file ≠ [] →
    Opens (dos.handles slots s) (dos.OpenFile file mode s).1
      (dos.handles slots (dos.OpenFile file mode s).2)
  CreateFile {file : List Char} {s : σ} : file ≠ [] →
    Opens (dos.handles slots s) (dos.CreateFile file s).1
      (dos.handles slots (dos.CreateFile file s).2)
  /-- A reference count that reaches zero frees the slot. -/
  CloseFile {handle : ℕ} {s : σ} : slots s handle = some 1 →
    dos.handles slots (dos.CloseFile handle s) = (dos.handles slots s).release handle
  GetFileAttr {file : List Char} {s : σ} :
    dos.handles slots (dos.GetFileAttr file s).2 = dos.handles slots s
  SeekEnd {handle : ℕ} {s : σ} : dos.handles slots (dos.SeekEnd handle s) = dos.handles slots s
  FindFirst {file : List Char} {s : σ} :
    dos.handles slots (dos.FindFirst file s).2 = dos.handles slots s
  UnlinkFile {file : List Char} {s : σ} :
    dos.handles slots (dos.UnlinkFile file s).2 = dos.handles slots s
  setAccessDenied {s : σ} : dos.handles slots (dos.setAccessDenied s) = dos.handles slots s
  WriteOut {message : Message} {s : σ} :
    dos.handles slots (dos.WriteOut message s) = dos.handles slots s
  /-- A search changes no file, and finds one that is there. -/
  FindFirst_full {file file' : List Char} {s : σ} :
    full file' (dos.FindFirst file s).2 = full file' s
  FindFirst_present {file : List Char} {N : ν} {s : σ} :
    present N (dos.FindFirst file s).2 ↔ present N s
  present_of_FindFirst {file : List Char} {s : σ} : present (full file s) s →
    (dos.FindFirst file s).1
  /-- A file that has been deleted is gone; every other file is as before. -/
  UnlinkFile_self {file : List Char} {s : σ} : (dos.UnlinkFile file s).1 →
    ¬ present (full file s) (dos.UnlinkFile file s).2
  UnlinkFile_other {file : List Char} {N : ν} {s : σ} : N ≠ full file s →
    (present N (dos.UnlinkFile file s).2 ↔ present N s)

/-! ## The steps of a line -/

variable {full : List Char → σ → ν} {present : ν → σ → Prop} {s : σ} {file : List Char}
  {r : RedirectionResults} {line : List Char}

theorem truncate_ne_nil (h : file ≠ []) : truncate PipeTempfileSize file ≠ [] := by
  cases file with
  | nil => exact absurd rfl h
  | cons c file => exact List.cons_ne_nil c _

namespace Lawful

variable (hlaw : Lawful dos slots full present)
include hlaw

theorem cannotDelete :
    dos.handles slots (dos.cannotDelete file s).2 = dos.handles slots s := by
  rw [Dos.cannotDelete]
  split
  · exact hlaw.UnlinkFile.trans hlaw.FindFirst
  · exact hlaw.FindFirst

theorem openInput {in_file : List Char} :
    Opens (dos.handles slots s) ((openInput dos in_file s).1.getD none)
      (dos.handles slots (openInput dos in_file s).2) := by
  rw [Shell.openInput]
  split
  · exact rfl
  · next hne =>
    have hopen : Opens (dos.handles slots s) (dos.OpenFile in_file .OPEN_READ s).1
        (dos.handles slots (dos.OpenFile in_file .OPEN_READ s).2) := hlaw.OpenFile hne
    dsimp only
    cases hresult : (dos.OpenFile in_file .OPEN_READ s).1 with
    | some handle =>
      rw [hresult] at hopen
      exact hopen
    | none =>
      rw [hresult] at hopen
      exact hlaw.WriteOut.trans hopen

theorem appendTo (hne : file ≠ []) :
    Opens (dos.handles slots s) (Shell.appendTo dos file s).1
      (dos.handles slots (Shell.appendTo dos file s).2) := by
  have hattr : dos.handles slots (dos.GetFileAttr file s).2 = dos.handles slots s :=
    hlaw.GetFileAttr
  rw [Shell.appendTo, ← hattr]
  dsimp only
  split
  · exact hlaw.setAccessDenied
  · generalize (dos.GetFileAttr file s).2 = s
    have hopen : Opens (dos.handles slots s) (dos.OpenFile file .OPEN_READWRITE s).1
        (dos.handles slots (dos.OpenFile file .OPEN_READWRITE s).2) := hlaw.OpenFile hne
    cases hresult : (dos.OpenFile file .OPEN_READWRITE s).1 with
    | some handle =>
      rw [hresult] at hopen
      obtain ⟨hlt, hfree, hafter⟩ := hopen
      exact ⟨hlt, hfree, hlaw.SeekEnd.trans hafter⟩
    | none =>
      rw [hresult] at hopen
      have hsame : dos.handles slots _ = _ := hopen
      rw [← hsame]
      exact hlaw.CreateFile hne

theorem overwrite (hne : file ≠ []) :
    Opens (dos.handles slots s) (Shell.overwrite dos file s).1
      (dos.handles slots (Shell.overwrite dos file s).2) := by
  have hattr : dos.handles slots (dos.GetFileAttr file s).2 = dos.handles slots s :=
    hlaw.GetFileAttr
  rw [Shell.overwrite, ← hattr]
  split
  · exact hlaw.setAccessDenied
  · exact hlaw.CreateFile hne

variable {pipe_tempfile : List Char}

/-- The first file behind a pipe is closed before the second one is created. -/
theorem createPipe {out_file : List Char} (htemp : pipe_tempfile ≠ [])
    (hout : (dos.cannotDelete pipe_tempfile s).1 → out_file ≠ []) :
    Opens (dos.handles slots s) (Shell.createPipe dos out_file pipe_tempfile s).handle
      (dos.handles slots (Shell.createPipe dos out_file pipe_tempfile s).state) := by
  have hdeleted : dos.handles slots (dos.cannotDelete pipe_tempfile s).2 = dos.handles slots s :=
    hlaw.cannotDelete
  rw [Shell.createPipe, ← hdeleted]
  generalize dos.cannotDelete pipe_tempfile s = deleted at hout ⊢
  have hname : (if deleted.1 then out_file else pipe_tempfile) ≠ [] := by
    split
    · next h => exact hout h
    · exact htemp
  have hcreated := hlaw.CreateFile (s := deleted.2) hname
  dsimp only
  generalize dos.CreateFile (if deleted.1 then out_file else pipe_tempfile) deleted.2 = created
    at hcreated ⊢
  split
  · generalize hpath : truncate PipeTempfileSize _ = pipe_full_path
    have hpath_ne : pipe_full_path ≠ [] := by
      rw [← hpath]
      exact truncate_ne_nil (List.append_ne_nil_of_right_ne_nil _ htemp)
    have hagain : dos.handles slots (dos.cannotDelete pipe_full_path created.2).2 =
        dos.handles slots created.2 := hlaw.cannotDelete
    generalize dos.cannotDelete pipe_full_path created.2 = again at hagain ⊢
    split
    · rw [← hagain] at hcreated
      exact hcreated
    · rw [← hagain] at hcreated
      cases hhandle : created.1 with
      | none =>
        rw [hhandle] at hcreated
        have hsame : dos.handles slots again.2 = dos.handles slots deleted.2 := hcreated
        rw [← hsame]
        exact hlaw.CreateFile hpath_ne
      | some handle =>
        rw [hhandle] at hcreated
        obtain ⟨-, hfree, hafter⟩ := hcreated
        have hone : slots again.2 handle = some 1 := by
          have := congrArg (fun H => H.slots handle) hafter
          exact this.trans Handles.take_slots_self
        have hclosed : dos.handles slots (dos.CloseFile handle again.2) =
            dos.handles slots deleted.2 := by
          rw [hlaw.CloseFile hone, hafter, Handles.release_take hfree]
        dsimp only
        rw [← hclosed]
        exact hlaw.CreateFile hpath_ne
  · exact hcreated

theorem get_output_redirection {out_file : List Char} {pipe append : Bool}
    (htemp : pipe → pipe_tempfile ≠ [])
    (hout : (pipe → (dos.cannotDelete pipe_tempfile s).1) → out_file ≠ []) :
    Opens (dos.handles slots s)
      (Shell.get_output_redirection dos out_file pipe pipe_tempfile append s).handle
      (dos.handles slots
        (Shell.get_output_redirection dos out_file pipe pipe_tempfile append s).state) := by
  rw [Shell.get_output_redirection]
  cases pipe with
  | true => exact hlaw.createPipe (htemp rfl) fun h => hout fun _ => h
  | false =>
    have hfile : out_file ≠ [] := hout fun h => absurd h Bool.false_ne_true
    cases append with
    | true => exact hlaw.appendTo hfile
    | false => exact hlaw.overwrite hfile

/-- The output is opened, with `nul` in its place when that fails without a pipe. -/
theorem openOutput (htemp : r.pipe_target ≠ [] → pipe_tempfile ≠ [])
    (hout : r.pipe_target ≠ [] → (dos.cannotDelete pipe_tempfile s).1 → r.out_file ≠ []) :
    Opens (dos.handles slots s) (Shell.openOutput dos r pipe_tempfile s).handle
      (dos.handles slots (Shell.openOutput dos r pipe_tempfile s).state) := by
  rw [Shell.openOutput]
  split
  · exact rfl
  next hsome =>
  dsimp only
  generalize hwarned : (if r.out_file ≠ [] ∧ r.pipe_target ≠ [] then _ else s) = warned
  have hwritten : dos.handles slots warned = dos.handles slots s := by
    rw [← hwarned]
    split
    · exact hlaw.WriteOut
    · rfl
  generalize hcall : Shell.get_output_redirection dos r.out_file (decide (r.pipe_target ≠ []))
    pipe_tempfile r.is_appending warned = output
  have hspec : Opens (dos.handles slots warned) output.handle
      (dos.handles slots output.state) := by
    rw [← hcall]
    refine hlaw.get_output_redirection (fun h => htemp (of_decide_eq_true h)) fun h hnull => ?_
    have hpipe : r.pipe_target ≠ [] := fun h => hsome ⟨hnull, h⟩
    rw [if_neg fun h => h.1 hnull] at hwarned
    rw [← hwarned] at h
    exact hout hpipe (h (decide_eq_true hpipe)) hnull
  rw [← hwritten]
  split
  · next hfail =>
    rw [hfail.1] at hspec
    have hsame : dos.handles slots output.state = dos.handles slots warned := hspec
    rw [← hsame]
    dsimp only
    generalize (if dos.accessDenied output.state then Message.SHELL_ACCESS_DENIED _ else _) =
      message
    have hwritten : dos.handles slots (dos.WriteOut message output.state) =
        dos.handles slots output.state := hlaw.WriteOut
    rw [← hwritten]
    exact hlaw.OpenFile (by decide)
  · exact hspec

theorem pipeTempfile :
    dos.handles slots (Shell.pipeTempfile dos s).2 = dos.handles slots s := by
  rw [Shell.pipeTempfile]
  split
  · rfl
  · dsimp only
    split <;> exact hlaw.GetFileAttr

end Lawful

/-! ## The command -/

/-- One standard handle, replaced and put back. -/
theorem Handles.restored_one {H : Handles} {e : Entry} {i : ℕ} (hi : H.slots i = none) :
    (((H.take i).set e i).set e (H.entries e)).release i = H := by
  ext k
  · simp only [take, set, release, Function.update_idem, Function.update_eq_self]
  · simp only [take, set, release, Function.update_idem]
    rw [← hi, Function.update_eq_self]

/-- Both standard handles, replaced and put back. -/
theorem Handles.restored_both {H : Handles} {i o : ℕ} (hi : H.slots i = none)
    (ho : (H.take i).slots o = none) :
    (((((((H.take i).take o).set .STDIN i).set .STDOUT o).set .STDIN (H.entries .STDIN)).release
      i).set .STDOUT (H.entries .STDOUT)).release o = H := by
  have hne : o ≠ i := by
    rintro rfl
    rw [take_slots_self] at ho
    exact Option.some_ne_none 1 ho
  ext k
  · cases k <;> rfl
  · rw [take_slots_ne hne] at ho
    simp only [take, set, release, Function.update_apply]
    by_cases hk : k = o
    · rw [if_pos hk, hk, ho]
    · by_cases hk' : k = i
      · rw [if_neg hk, if_pos hk', hk', hi]
      · rw [if_neg hk, if_neg hk', if_neg hk, if_neg hk']

section Command

variable {input output : Option ℕ} {H H' : Handles}

/-- **Whatever has been opened, restoring undoes it.** -/
theorem Handles.restored {H'' : Handles} (hin : Opens H input H') (hout : Opens H' output H'') :
    (((H''.redirect .STDIN input).redirect .STDOUT output).restore .STDIN (H.entries .STDIN)
      input).restore .STDOUT (H.entries .STDOUT) output = H := by
  cases input with
  | none =>
    obtain rfl : H' = H := hin
    cases output with
    | none => exact hout
    | some o =>
      obtain ⟨-, hfree, rfl⟩ := hout
      exact restored_one hfree
  | some i =>
    obtain ⟨-, hfree, rfl⟩ := hin
    cases output with
    | none =>
      obtain rfl : H'' = H.take i := hout
      exact restored_one hfree
    | some o =>
      obtain ⟨-, hfree', rfl⟩ := hout
      exact restored_both hfree hfree'

theorem Opens.lt {handle : ℕ} (h : Opens H (some handle) H') : handle < 256 :=
  h.1.trans (Nat.lt_succ_self 255)

theorem Opens.slots_self {handle : ℕ} (h : Opens H (some handle) H') :
    H'.slots handle = some 1 := by
  rw [h.2.2, Handles.take_slots_self]

/-- A slot that is occupied keeps its count when another file is opened. -/
theorem Opens.slots_eq {handle n : ℕ} (h : Opens H input H') (hn : H.slots handle = some n) :
    H'.slots handle = some n := by
  cases input with
  | none =>
    obtain rfl : H' = H := h
    exact hn
  | some i =>
    obtain ⟨-, hfree, rfl⟩ := h
    rw [Handles.take_slots_ne, hn]
    rintro rfl
    exact Option.some_ne_none n (hn.symm.trans hfree)

namespace Lawful

variable (hlaw : Lawful dos slots full present) {e : Entry}
include hlaw

theorem redirect (hopen : ∀ handle ∈ input, handle < 256) :
    dos.handles slots (dos.redirect e input s) = (dos.handles slots s).redirect e input := by
  cases input with
  | none => rfl
  | some handle => exact hlaw.SetFileHandle (hopen handle rfl)

theorem restore {old : ℕ} (hold : old < 256) (hone : ∀ handle ∈ input, slots s handle = some 1) :
    dos.handles slots (dos.restore e old input s) =
      (dos.handles slots s).restore e old input := by
  cases input with
  | none => rfl
  | some handle =>
    have hset := hlaw.SetFileHandle (e := e) (s := s) hold
    have hslots : slots (dos.SetFileHandle e old s) handle = some 1 :=
      (congrArg (fun H => H.slots handle) hset).trans (hone handle rfl)
    rw [Dos.restore, hlaw.CloseFile hslots, hset]
    rfl

/-- The command finds its own standard handles, and leaves those of the shell. -/
theorem runCommand {command : List Char}
    (hcommand : ∀ s, dos.handles slots (dos.DoCommand command s) = dos.handles slots s)
    (hin : Opens H input H') (hout : Opens H' output (dos.handles slots s))
    (hlt : ∀ e, H.entries e < 256) :
    dos.handles slots (Shell.runCommand dos (H.entries .STDIN) (H.entries .STDOUT) input output
      command s) = H := by
  have hin_lt : ∀ handle ∈ input, handle < 256 := by
    rintro handle rfl
    exact hin.lt
  have hout_lt : ∀ handle ∈ output, handle < 256 := by
    rintro handle rfl
    exact hout.lt
  have hran : dos.handles slots (dos.DoCommand command
      (dos.redirect .STDOUT output (dos.redirect .STDIN input s))) =
      ((dos.handles slots s).redirect .STDIN input).redirect .STDOUT output := by
    rw [hcommand, hlaw.redirect hout_lt, hlaw.redirect hin_lt]
  have hin_one : ∀ handle ∈ input, slots (dos.DoCommand command
      (dos.redirect .STDOUT output (dos.redirect .STDIN input s))) handle = some 1 := by
    rintro handle rfl
    have hslots := congrArg (fun H => H.slots handle) hran
    rw [Handles.redirect_slots, Handles.redirect_slots] at hslots
    exact hslots.trans (hout.slots_eq hin.slots_self)
  have hrestored := hlaw.restore (e := .STDIN) (hlt .STDIN) hin_one
  rw [hran] at hrestored
  have hout_one : ∀ handle ∈ output, slots (dos.restore .STDIN (H.entries .STDIN) input
      (dos.DoCommand command (dos.redirect .STDOUT output (dos.redirect .STDIN input s))))
      handle = some 1 := by
    rintro handle rfl
    have hslots := congrArg (fun H => H.slots handle) hrestored
    rw [Handles.restore_slots_ne, Handles.redirect_slots, Handles.redirect_slots] at hslots
    · exact hslots.trans hout.slots_self
    · rintro i rfl rfl
      exact Option.some_ne_none 1 (hin.slots_self.symm.trans hout.2.1)
  rw [Shell.runCommand, hlaw.restore (hlt .STDOUT) hout_one, hrestored]
  exact Handles.restored hin hout

end Lawful

end Command

/-! ## The line -/

section Line

variable (dos : Dos σ) (r : RedirectionResults) (s : σ)

/-- The name of the temporary file that the output is opened with. -/
def tempfile : List Char × σ :=
  let input := openInput dos r.in_file s
  if r.pipe_target ≠ [] then pipeTempfile dos input.2 else ([], input.2)

/-- The output that the command runs with. -/
def output : OutputRedirection σ := openOutput dos r (tempfile dos r s).1 (tempfile dos r s).2

/-- A pipe without an output file, whose temporary file is there and cannot be deleted: a file
is created without a name. -/
def NullName : Prop :=
  (openInput dos r.in_file s).1 ≠ none ∧ r.pipe_target ≠ [] ∧ r.out_file = [] ∧
    (dos.cannotDelete (tempfile dos r s).1 (tempfile dos r s).2).1 = true

variable {dos r s}

theorem runFirst_of_input {handle : Option ℕ} (h : (openInput dos r.in_file s).1 = some handle) :
    runFirst dos r s = ⟨true, (output dos r s).pipe_tempfile, (output dos r s).failed_pipe,
      runCommand dos (dos.GetFileHandle .STDIN s) (dos.GetFileHandle .STDOUT s) handle
        (output dos r s).handle r.processed_line (output dos r s).state⟩ := by
  rw [runFirst]
  dsimp only
  rw [h]
  rfl

theorem runFirst_of_none (h : (openInput dos r.in_file s).1 = none) :
    runFirst dos r s = ⟨false, [], false, (openInput dos r.in_file s).2⟩ := by
  rw [runFirst]
  dsimp only
  rw [h]

theorem pipeName_ne_nil : dos.pipeName s ≠ [] :=
  List.append_ne_nil_of_right_ne_nil _ (by decide)

theorem pipeTempfile_ne_nil : (pipeTempfile dos s).1 ≠ [] := by
  rw [pipeTempfile]
  split
  · exact truncate_ne_nil pipeName_ne_nil
  · dsimp only
    split
    · exact truncate_ne_nil (List.append_ne_nil_of_right_ne_nil _ (List.cons_ne_nil _ _))
    · exact truncate_ne_nil pipeName_ne_nil

theorem tempfile_ne_nil (h : r.pipe_target ≠ []) : (tempfile dos r s).1 ≠ [] := by
  rw [tempfile]
  rw [if_pos h]
  exact pipeTempfile_ne_nil

theorem createPipe_ne_nil {out_file pipe_tempfile : List Char} (h : pipe_tempfile ≠ []) :
    (createPipe dos out_file pipe_tempfile s).pipe_tempfile ≠ [] := by
  rw [createPipe]
  dsimp only
  generalize dos.CreateFile _ _ = created
  split
  · have hfull (drive_name : List Char) :
        truncate PipeTempfileSize (drive_name ++ pipe_tempfile) ≠ [] :=
      truncate_ne_nil (List.append_ne_nil_of_right_ne_nil _ h)
    generalize dos.cannotDelete _ created.2 = again
    cases again.1 <;> exact hfull _
  · exact h

/-- With a pipe, the output is the file behind it. -/
theorem openOutput_of_pipe {pipe_tempfile : List Char} (h : r.pipe_target ≠ []) :
    openOutput dos r pipe_tempfile s = createPipe dos r.out_file pipe_tempfile
      (if r.out_file ≠ [] then dos.WriteOut (.SHELL_CMD_DUPLICATE_REDIRECTION r.out_file) s
        else s) := by
  simp [openOutput, get_output_redirection, h]

theorem output_ne_nil (h : r.pipe_target ≠ []) : (output dos r s).pipe_tempfile ≠ [] := by
  rw [output, openOutput_of_pipe h]
  exact createPipe_ne_nil (tempfile_ne_nil h)

namespace Lawful

variable (hlaw : Lawful dos slots full present)
include hlaw

theorem tempfile : dos.handles slots (Shell.tempfile dos r s).2 =
    dos.handles slots (Shell.openInput dos r.in_file s).2 := by
  rw [Shell.tempfile]
  split
  · exact hlaw.pipeTempfile
  · rfl

/-- A command leaves the handles as they were before its redirections. -/
theorem runFirst
    (hcommands : ∀ command s, dos.handles slots (dos.DoCommand command s) = dos.handles slots s)
    (hnull : ¬ NullName dos r s) :
    dos.handles slots (Shell.runFirst dos r s).state = dos.handles slots s := by
  have hopen : Opens (dos.handles slots s) ((Shell.openInput dos r.in_file s).1.getD none)
      (dos.handles slots (Shell.openInput dos r.in_file s).2) := hlaw.openInput
  cases hinput : (Shell.openInput dos r.in_file s).1 with
  | none =>
    rw [runFirst_of_none hinput]
    rw [hinput] at hopen
    exact hopen
  | some handle =>
    rw [hinput, ← hlaw.tempfile (r := r)] at hopen
    have hout : r.pipe_target ≠ [] → (dos.cannotDelete (Shell.tempfile dos r s).1
        (Shell.tempfile dos r s).2).1 → r.out_file ≠ [] := by
      intro hpipe hdelete hfile
      exact hnull ⟨by rw [hinput]; exact Option.some_ne_none handle, hpipe, hfile, hdelete⟩
    rw [runFirst_of_input hinput]
    exact hlaw.runCommand (hcommands r.processed_line) hopen
      (hlaw.openOutput (fun hpipe => tempfile_ne_nil hpipe) hout) fun e => hlaw.GetFileHandle_lt

theorem openPipe {run : CommandRun σ} (hname : run.pipe_tempfile ≠ []) :
    Opens (dos.handles slots run.state) (Shell.openPipe dos run).1
      (dos.handles slots (Shell.openPipe dos run).2) := by
  rw [Shell.openPipe]
  split
  · exact rfl
  · exact hlaw.OpenFile hname

end Lawful

theorem apply_of_operator_eq_none {p : Piece} (h : p.operator = none) :
    (p.apply r).in_file = r.in_file ∧ (p.apply r).out_file = r.out_file ∧
      (p.apply r).pipe_target = r.pipe_target := by
  cases p with
  | text c => exact ⟨rfl, rfl, rfl⟩
  | quoted s => exact ⟨rfl, rfl, rfl⟩
  | redirection token target tail =>
    have htoken : token.head? = none := h
    rw [Piece.apply, redirect, htoken]
    exact ⟨rfl, rfl, rfl⟩

theorem foldl_of_operator_eq_none {ps : List Piece} (h : ∀ p ∈ ps, p.operator = none) :
    (ps.foldl Piece.apply r).in_file = r.in_file ∧
      (ps.foldl Piece.apply r).out_file = r.out_file ∧
      (ps.foldl Piece.apply r).pipe_target = r.pipe_target := by
  induction ps generalizing r with
  | nil => exact ⟨rfl, rfl, rfl⟩
  | cons p ps ih =>
    obtain ⟨hin, hout, hpipe⟩ := apply_of_operator_eq_none (r := r) (h p List.mem_cons_self)
    obtain ⟨hin', hout', hpipe'⟩ := ih (r := p.apply r) fun q hq =>
      h q (List.mem_cons_of_mem p hq)
    exact ⟨hin'.trans hin, hout'.trans hout, hpipe'.trans hpipe⟩

/-- A line without redirection characters runs its command, or shows what is wrong with it. -/
theorem ParseLine_of_text (h : ∀ c ∈ line, ¬ isRedirection c) :
    (ParseLine dos line s).2 = (GetRedirection (trim (blankAt line))).elim
      (dos.WriteOut .SHELL_SYNTAX_ERROR s) fun r => dos.DoCommand r.processed_line s := by
  have hclean : ∀ c ∈ trim (blankAt line), ¬ isRedirection c := by
    intro c hc
    rcases mem_blankAt (mem_trim hc) with rfl | hc
    · decide
    · exact h c hc
  cases hr : GetRedirection (trim (blankAt line)) with
  | none =>
    rw [ParseLine_of_none hr]
    rfl
  | some r =>
    have hreads := reads_pieces (trim (blankAt line))
    obtain ⟨hin, hout, hpipe⟩ := foldl_of_operator_eq_none (r := .empty) fun p hp =>
      hreads.operator_eq_none hclean hp
    rw [← hreads.eq_foldl hr, RedirectionResults.empty] at hin hout hpipe
    have hran : runFirst dos r s = ⟨true, [], false, dos.DoCommand r.processed_line s⟩ := by
      simp [runFirst, openInput, hin, openOutput, hout, hpipe, runCommand, Dos.redirect,
        Dos.restore]
    rw [ParseLine_of_ran hr (by rw [hran]) hpipe, hran]
    rfl

theorem not_isRedirection_target (hr : GetRedirection line = some r) (hpipe : r.pipe_target ≠ []) :
    ∀ c ∈ truncate CMD_MAXLINE r.pipe_target, ¬ isRedirection c := by
  intro c hc hredirection
  have htarget := isTarget_pipe_target hr hpipe c (List.mem_of_mem_take hc)
  rw [isTarget, hredirection] at htarget
  exact Bool.false_ne_true htarget

theorem runFirst_ran_iff : (runFirst dos r s).ran = true ↔ (openInput dos r.in_file s).1 ≠ none := by
  cases hinput : (openInput dos r.in_file s).1 with
  | none =>
    rw [runFirst_of_none hinput]
    exact ⟨fun h => absurd h Bool.false_ne_true, fun h => absurd rfl h⟩
  | some handle =>
    rw [runFirst_of_input hinput]
    exact ⟨fun _ => Option.some_ne_none handle, fun _ => rfl⟩

theorem runFirst_pipe_tempfile (hran : (runFirst dos r s).ran = true) :
    (runFirst dos r s).pipe_tempfile = (output dos r s).pipe_tempfile := by
  obtain ⟨handle, hinput⟩ := Option.ne_none_iff_exists'.1 (runFirst_ran_iff.1 hran)
  rw [runFirst_of_input hinput]

namespace Lawful

variable (hlaw : Lawful dos slots full present)
  (hcommands : ∀ command s, dos.handles slots (dos.DoCommand command s) = dos.handles slots s)
include hlaw hcommands

theorem ParseLine_of_text (h : ∀ c ∈ line, ¬ isRedirection c) :
    dos.handles slots (Shell.ParseLine dos line s).2 = dos.handles slots s := by
  rw [Shell.ParseLine_of_text h]
  cases GetRedirection (trim (blankAt line)) with
  | none => exact hlaw.WriteOut
  | some r => exact hcommands r.processed_line s

/-- The pipe's file is the standard input of the second command, and closed behind it. -/
theorem runPipe (hr : GetRedirection line = some r) (hpipe : r.pipe_target ≠ [])
    (hran : (Shell.runFirst dos r s).ran = true) (hnull : ¬ NullName dos r s) :
    dos.handles slots (Shell.runPipe dos r s).2 = dos.handles slots s := by
  have hfirst := hlaw.runFirst hcommands hnull
  have hname : (Shell.runFirst dos r s).pipe_tempfile ≠ [] := by
    rw [runFirst_pipe_tempfile hran]
    exact output_ne_nil hpipe
  have hopen := hlaw.openPipe hname
  rw [hfirst] at hopen
  rw [Shell.runPipe]
  dsimp only
  cases hopened : (Shell.openPipe dos (Shell.runFirst dos r s)).1 with
  | none =>
    rw [hopened] at hopen
    exact hlaw.WriteOut.trans hopen
  | some pipe_handle =>
    rw [hopened] at hopen
    have hnext := hlaw.ParseLine_of_text hcommands (not_isRedirection_target hr hpipe)
      (s := dos.SetFileHandle .STDIN pipe_handle
        (Shell.openPipe dos (Shell.runFirst dos r s)).2)
    rw [hlaw.SetFileHandle hopen.lt] at hnext
    dsimp only
    generalize (Shell.ParseLine dos (truncate CMD_MAXLINE r.pipe_target) _).2 = next at hnext ⊢
    have hone : ∀ handle ∈ some pipe_handle, slots next handle = some 1 := by
      intro handle h
      obtain rfl : pipe_handle = handle := Option.some.inj h
      exact (congrArg (fun H => H.slots pipe_handle) hnext).trans hopen.slots_self
    have hrestore : dos.handles slots (dos.restore .STDIN (dos.GetFileHandle .STDIN s)
        (some pipe_handle) next) = (dos.handles slots next).restore .STDIN
          (dos.GetFileHandle .STDIN s) (some pipe_handle) :=
      hlaw.restore hlaw.GetFileHandle_lt hone
    obtain ⟨-, hfree, hafter⟩ := hopen
    rw [hnext, hafter] at hrestore
    exact hrestore.trans (Handles.restored_one hfree)

/-- **The handles are restored.** After a line that creates no file without a name, the standard
handles and the slots of `Files` are as before it. -/
theorem handles_ParseLine
    (hnull : ∀ r, GetRedirection (trim (blankAt line)) = some r → ¬ NullName dos r s) :
    dos.handles slots (Shell.ParseLine dos line s).2 = dos.handles slots s := by
  cases hr : GetRedirection (trim (blankAt line)) with
  | none =>
    rw [ParseLine_of_none hr]
    exact hlaw.WriteOut
  | some r =>
    have hfirst := hlaw.runFirst hcommands (hnull r hr)
    cases hran : (Shell.runFirst dos r s).ran with
    | false =>
      rw [ParseLine_of_not_ran hr hran]
      exact hfirst
    | true =>
      by_cases hpipe : r.pipe_target = []
      · rw [ParseLine_of_ran hr hran hpipe]
        exact hfirst
      · rw [ParseLine_of_pipe hr hran hpipe]
        exact hlaw.cannotDelete.trans (hlaw.runPipe hcommands hr hpipe hran (hnull r hr))

end Lawful

end Line

end Shell

end AugraDosbox
