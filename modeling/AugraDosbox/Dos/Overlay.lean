import AugraDosbox.Lib.FileTree
import Mathlib.Data.List.AList
import Mathlib.Data.UInt
import Mathlib.Data.List.Sort

/-!
# The overlay drive

`Overlay_Drive` of `src/dos/drive_overlay.cpp`: a drive that shows a base directory of the
host and keeps everything that is written in a second one, the overlay.

* `OverlayDrive` — the two trees on the host, the lists that the drive keeps in memory, and
  the open files.  A path is the list of its names; the base is given by the DOS names that
  the drive cache makes of the host's.  The overlay directory is not part of the base;
* `specials` — the files `DBOVERLAY_DEL_x` and `DBOVERLAY_RMD_x` in the overlay, which say
  that `x` of the base has been removed;
* `FileCreate`, `FileOpen`, `Read`, `Write`, `Close`, `FileUnlink`, `Rename`, `MakeDir`,
  `RemoveDir` — the calls; `FileExists` and `TestDir` — the questions;
* `DriveCall`, `step`, `run` — any sequence of calls.

The host is a POSIX one.  Attributes are left out, except for the archive attribute of a
file of the base, which is the only one that a call changes there; so are times.  What the
drive cache lists is given with each call of `RemoveDir`, the only one that looks at it.
-/

namespace AugraDosbox

open FileTree

/-- A path of the drive: the names between the backslashes. -/
abbrev DosPath := List String

inductive BaseNode where
  | dir
  | file (content : List UInt8) (archive : Bool)
deriving DecidableEq

inductive OverlayNode where
  | dir
  | file (inode : ℕ)
deriving DecidableEq

inductive SpecialOperation where
  | DEL | RMD
deriving DecidableEq

/-- The low bits of the flags of `FileOpen`. -/
inductive OpenFlags where
  | OPEN_READ | OPEN_WRITE | OPEN_READWRITE | OPEN_READ_NO_MOD | invalid
deriving DecidableEq

namespace OpenFlags

def readable (flags : OpenFlags) : Bool := flags ≠ .OPEN_WRITE

def writable (flags : OpenFlags) : Bool := flags = .OPEN_WRITE ∨ flags = .OPEN_READWRITE

end OpenFlags

structure OverlayFile where
  name : DosPath
  /-- Whether `path` is one of the base.  It stays so when the file is switched. -/
  pathInBase : Bool
  file_handle : Inode String
  pos : ℕ
  flags : OpenFlags
  overlay_active : Bool
  set_archive_on_close : Bool
deriving DecidableEq

structure OverlayDrive where
  base : DosPath → Option BaseNode
  overlay : AList fun _ : DosPath => OverlayNode
  specials : List (SpecialOperation × DosPath)
  /-- What is in the files of the overlay. -/
  store : ℕ → List UInt8
  next : ℕ
  deleted_files_in_base : List DosPath
  deleted_paths_in_base : List DosPath
  DOSdirs_cache : List DosPath
  /-- The table of open files. -/
  Files : ℕ → Option OverlayFile

namespace OverlayDrive

variable (d : OverlayDrive)

/-! ## The host -/

/-- `stat` of a path in the overlay. -/
def stat (p : DosPath) : Option OverlayNode := if p = [] then some .dir else d.overlay.lookup p

def local_drive_create_dir (p : DosPath) : Option OverlayDrive :=
  if d.stat p = none ∧ d.stat p.dropLast = some .dir then
    some { d with overlay := d.overlay.insert p .dir }
  else none

def local_drive_remove_dir (p : DosPath) : Option OverlayDrive :=
  if p ≠ [] ∧ d.stat p = some .dir ∧ (∀ q ∈ d.overlay.keys, q.dropLast ≠ p) ∧
      ∀ s ∈ d.specials, s.2.dropLast ≠ p then
    some { d with overlay := d.overlay.erase p }
  else none

def delete_native_file (p : DosPath) : Option OverlayDrive :=
  match d.stat p with
  | some (.file _) => some { d with overlay := d.overlay.erase p }
  | _ => none

/-- `local_drive_rename_file_or_directory` of a file. -/
def local_drive_rename_file (p q : DosPath) : Option OverlayDrive :=
  match d.stat p with
  | some (.file n) =>
    if p = q then some d
    else if d.stat q.dropLast = some .dir ∧ d.stat q ≠ some .dir then
      some { d with overlay := (d.overlay.erase p).insert q (.file n) }
    else none
  | _ => none

def create_native_file (p : DosPath) : Option (OverlayDrive × ℕ) :=
  match d.stat p with
  | some .dir => none
  | some (.file n) => some ({ d with store := Function.update d.store n [] }, n)
  | none =>
    if d.stat p.dropLast = some .dir then
      some ({ d with
        overlay := d.overlay.insert p (.file d.next)
        store := Function.update d.store d.next [], next := d.next + 1 }, d.next)
    else none

/-- The bytes behind a file handle. -/
def content : Inode String → List UInt8
  | .ofBase p =>
    match d.base p with
    | some (.file content _) => content
    | _ => []
  | .made n => d.store n

/-- A write to a file handle. -/
def setContent (content : List UInt8) : Inode String → OverlayDrive
  | .ofBase p =>
    match d.base p with
    | some (.file _ archive) =>
      { d with base := Function.update d.base p (some (.file content archive)) }
    | _ => d
  | .made n => { d with store := Function.update d.store n content }

/-! ## The base drive -/

/-- `localDrive::TestDir`. -/
def baseTestDir (p : DosPath) : Bool := d.base p = some .dir

/-- `localDrive::FileExists`. -/
def baseFileExists (p : DosPath) : Bool :=
  match d.base p with
  | some (.file _ _) => true
  | _ => false

/-! ## The lists -/

def is_dir_only_in_overlay (name : DosPath) : Bool := name ≠ [] ∧ name ∈ d.DOSdirs_cache

def is_deleted_file (name : DosPath) : Bool := name ≠ [] ∧ name ∈ d.deleted_files_in_base

/-- The path or one that leads to it has been deleted. -/
def is_deleted_path (name : DosPath) : Bool :=
  name ≠ [] ∧ ∃ entry ∈ d.deleted_paths_in_base, entry <+: name

/-- Without a leading directory the answer is no. -/
def check_if_leading_is_deleted (name : DosPath) : Bool := d.is_deleted_path name.dropLast

def leadingFrom (dir : DosPath) : List String → List DosPath
  | [] => []
  | name :: names => (dir ++ [name]) :: leadingFrom (dir ++ [name]) names

/-- The directories that lead to a file, from the root on. -/
def leadingDirs (name : DosPath) : List DosPath := leadingFrom [] name.dropLast

/-- The loop of `Sync_leading_dirs`: directories of the base are made in the overlay. -/
def syncDirs : List DosPath → OverlayDrive → OverlayDrive
  | [], d => d
  | dir :: dirs, d =>
    if d.baseTestDir dir then
      match d.stat dir with
      | some .dir => syncDirs dirs d
      | some (.file _) => d
      | none =>
        match d.local_drive_create_dir dir with
        | some d => syncDirs dirs d
        | none => d
    else syncDirs dirs d

def Sync_leading_dirs (dos_filename : DosPath) : OverlayDrive := syncDirs (leadingDirs dos_filename) d

def create_file_in_overlay (dos_filename : DosPath) : OverlayDrive × Option ℕ :=
  match d.create_native_file dos_filename with
  | some (d, n) => (d, some n)
  | none =>
    if 1 < dos_filename.length then
      let d := d.Sync_leading_dirs dos_filename
      match d.create_native_file dos_filename with
      | some (d, n) => (d, some n)
      | none => (d, none)
    else (d, none)

/-- The special file is written where its directory is. -/
def writeSpecial (operation : SpecialOperation) (dosname : DosPath) : Option OverlayDrive :=
  if d.stat dosname.dropLast = some .dir then
    some { d with specials := d.specials.insert (operation, dosname) }
  else none

def add_special_file_to_disk (dosname : DosPath) (operation : SpecialOperation) : OverlayDrive :=
  match d.writeSpecial operation dosname with
  | some d => d
  | none =>
    let d := d.Sync_leading_dirs dosname
    (d.writeSpecial operation dosname).getD d

def remove_special_file_from_disk (dosname : DosPath) (operation : SpecialOperation) :
    OverlayDrive :=
  { d with specials := d.specials.filter (· ≠ (operation, dosname)) }

def add_deleted_file (name : DosPath) (create_on_disk : Bool) : OverlayDrive :=
  if d.is_deleted_file name then d
  else
    let d := { d with deleted_files_in_base := d.deleted_files_in_base ++ [name] }
    if create_on_disk then d.add_special_file_to_disk name .DEL else d

def remove_deleted_file (name : DosPath) (create_on_disk : Bool) : OverlayDrive :=
  if name ∈ d.deleted_files_in_base then
    let d := { d with deleted_files_in_base := d.deleted_files_in_base.erase name }
    if create_on_disk then d.remove_special_file_from_disk name .DEL else d
  else d

def add_deleted_path (name : DosPath) (create_on_disk : Bool) : OverlayDrive :=
  if name = [] then d
  else if d.is_deleted_path name then d
  else
    let d := { d with deleted_paths_in_base := d.deleted_paths_in_base ++ [name] }
    let d := if create_on_disk then d.add_special_file_to_disk name .RMD else d
    d.add_deleted_file name false

def remove_deleted_path (name : DosPath) (create_on_disk : Bool) : OverlayDrive :=
  if name ∈ d.deleted_paths_in_base then
    let d := { d with deleted_paths_in_base := d.deleted_paths_in_base.erase name }
    let d := d.remove_deleted_file name false
    if create_on_disk then d.remove_special_file_from_disk name .RMD else d
  else d

def add_DOSdir_to_cache (name : DosPath) : OverlayDrive :=
  if name = [] then d
  else if d.is_dir_only_in_overlay name then d
  else { d with DOSdirs_cache := d.DOSdirs_cache ++ [name] }

def remove_DOSdir_from_cache (name : DosPath) : OverlayDrive :=
  { d with DOSdirs_cache := d.DOSdirs_cache.erase name }

/-- The special files in the order in which the directories are read: a directory comes
before those in it. -/
def specialsRead : List (SpecialOperation × DosPath) :=
  d.specials.insertionSort fun s s' => s.2.length ≤ s'.2.length

def readSpecial (d : OverlayDrive) : SpecialOperation × DosPath → OverlayDrive
  | (.DEL, name) => d.add_deleted_file name false
  | (.RMD, name) => d.add_deleted_path name false

/-- The directories of the overlay. -/
def overlayDirs : List DosPath := d.overlay.keys.filter fun p => d.stat p = some .dir

/-- `update_cache(true)`: the lists are read again from the overlay. -/
def update_cache : OverlayDrive :=
  let cleared := { d with
    DOSdirs_cache := [], deleted_files_in_base := [], deleted_paths_in_base := [] }
  let dirs := d.overlayDirs.foldl (fun d dir =>
    if d.baseTestDir dir then d else d.add_DOSdir_to_cache dir) cleared
  d.specialsRead.foldl readSpecial dirs

/-! ## Questions -/

def FileExists (name : DosPath) : Bool :=
  match d.stat name with
  | some (.file _) => true
  | _ => if d.is_deleted_file name then false else d.baseFileExists name

def TestDir (dir : DosPath) : Bool :=
  if d.is_dir_only_in_overlay dir then true
  else if d.is_deleted_path dir then false
  else d.baseTestDir dir

/-- `GetFileAttr`, of which only the directory attribute is of interest. -/
def GetFileAttr (name : DosPath) : Option Bool :=
  match d.stat name with
  | some .dir => some true
  | some (.file _) => some false
  | none =>
    if d.is_deleted_file name then none
    else (d.base name).map fun node => node = .dir

/-! ## Calls -/

/-- The drive with another entry in the table of open files. -/
def setFile (h : ℕ) (f : Option OverlayFile) : OverlayDrive :=
  { d with Files := Function.update d.Files h f }

def FileCreate (name : DosPath) (h : ℕ) : OverlayDrive × Bool :=
  if d.check_if_leading_is_deleted name then (d, false)
  else
    match d.create_file_in_overlay name with
    | (d, none) => (d, false)
    | (d, some n) =>
      let d := d.setFile h (some ⟨name, false, .made n, 0, .OPEN_READWRITE, true, false⟩)
      (d.remove_deleted_file name true, true)

/-- `FileOpen`.  `DOS_OpenFile` does not ask for a directory. -/
def FileOpen (name : DosPath) (flags : OpenFlags) (h : ℕ) : OverlayDrive × Bool :=
  if flags = .invalid then (d, false)
  else
    match d.stat name with
    | some (.file n) =>
      (d.setFile h (some ⟨name, false, .made n, 0, flags, true, false⟩), true)
    | _ =>
      if d.is_deleted_file name then (d, false)
      else if d.baseFileExists name then
        (d.setFile h (some ⟨name, true, .ofBase name, 0, flags, false, false⟩), true)
      else (d, false)

/-- The bytes that `Read` gives. -/
def Read (h n : ℕ) : OverlayDrive × Option (List UInt8) :=
  match d.Files h with
  | none => (d, none)
  | some f =>
    if f.flags = .OPEN_WRITE then (d, none)
    else
      let bytes := ((d.content f.file_handle).drop f.pos).take n
      (d.setFile h (some { f with pos := f.pos + bytes.length }), some bytes)

/-- `OverlayFile::create_copy`: the whole file, with the same position. -/
def create_copy (f : OverlayFile) : OverlayDrive × Option ℕ :=
  match d.create_file_in_overlay f.name with
  | (d, none) => (d, none)
  | (d, some n) => ({ d with store := Function.update d.store n (d.content f.file_handle) }, some n)

/-- `localFile::Write`. -/
def localWrite (h : ℕ) (f : OverlayFile) (data : List UInt8) : OverlayDrive × Bool :=
  if f.flags = .OPEN_READ ∨ f.flags = .OPEN_READ_NO_MOD then (d, false)
  else
    let d := d.setContent (writeAt (d.content f.file_handle) f.pos data) f.file_handle
    (d.setFile h (some { f with pos := f.pos + data.length, set_archive_on_close := true }), true)

/-- `OverlayFile::Write`. -/
def Write (h : ℕ) (data : List UInt8) : OverlayDrive × Bool :=
  match d.Files h with
  | none => (d, false)
  | some f =>
    if f.overlay_active = false ∧ f.flags.writable then
      match d.create_copy f with
      | (d, none) => (d, false)
      | (d, some n) =>
        d.localWrite h { f with overlay_active := true, file_handle := .made n } data
    else d.localWrite h f data

/-- `Seek` to a position. -/
def Seek (h pos : ℕ) : OverlayDrive × Bool :=
  match d.Files h with
  | none => (d, false)
  | some f => (d.setFile h (some { f with pos := pos }), true)

/-- The archive attribute of a file of the base is set. -/
def setArchive (p : DosPath) : OverlayDrive :=
  match d.base p with
  | some (.file content _) => { d with base := Function.update d.base p (some (.file content true)) }
  | _ => d

def Close (h : ℕ) : OverlayDrive × Bool :=
  match d.Files h with
  | none => (d, false)
  | some f =>
    let d := if f.set_archive_on_close ∧ f.pathInBase then d.setArchive f.name else d
    (d.setFile h none, true)

def FileUnlink (name : DosPath) : OverlayDrive × Bool :=
  match d.delete_native_file name with
  | some d => (if d.baseFileExists name then d.add_deleted_file name true else d, true)
  | none =>
    if d.stat name ≠ none then (d, false)
    else if d.is_deleted_file name then (d, false)
    else if d.base name = none then (d, false)
    else (d.add_deleted_file name true, true)

/-- The end of `Rename`. -/
def afterRename (newname : DosPath) : OverlayDrive :=
  let d := if d.is_deleted_file newname then d.remove_deleted_file newname true else d
  d.update_cache

/-- `Rename`; `none` stands for `E_Exit`. -/
def Rename (oldname newname : DosPath) : Option (OverlayDrive × Bool) :=
  match d.GetFileAttr oldname with
  | none | some true => none
  | some false =>
    if d.stat oldname ≠ none then
      match d.local_drive_rename_file oldname newname with
      | none => some (d, false)
      | some d =>
        let d := if d.baseFileExists oldname then d.add_deleted_file oldname true else d
        some (d.afterRename newname, true)
    else
      match d.create_file_in_overlay newname with
      | (d, none) => some (d, false)
      | (d, some n) =>
        let d := { d with store := Function.update d.store n (d.content (.ofBase oldname)) }
        some ((d.add_deleted_file oldname true).afterRename newname, true)

def MakeDir (dir : DosPath) : OverlayDrive × Bool :=
  if d.TestDir dir then (d, false)
  else if d.check_if_leading_is_deleted dir then (d, false)
  else if d.is_deleted_path dir ∧ d.baseTestDir dir then (d.remove_deleted_path dir true, true)
  else
    match d.local_drive_create_dir dir with
    | some d => (d.add_DOSdir_to_cache dir, true)
    | none => (d, false)

/-- What `FindNext` does with a name that the drive cache lists. -/
def found (dir : DosPath) (name : String) : Bool :=
  d.stat (dir ++ [name]) ≠ none ∨
    (d.is_deleted_file (dir ++ [name]) = false ∧ d.base (dir ++ [name]) ≠ none)

/-- `RemoveDir`, with what the drive cache lists in the directory, if it finds it. -/
def RemoveDir (dir : DosPath) (listed : Option (List String)) : OverlayDrive × Bool :=
  if d.is_dir_only_in_overlay dir then
    match d.local_drive_remove_dir dir with
    | some d => (d.remove_DOSdir_from_cache dir, true)
    | none => (d, false)
  else if d.is_deleted_path dir then (d, false)
  else
    match listed with
    | none => (d, false)
    | some names =>
      if names.any (d.found dir) then (d, false) else (d.add_deleted_path dir true, true)

end OverlayDrive

/-! ## Runs -/

inductive DriveCall where
  | FileCreate (name : DosPath) (h : ℕ)
  | FileOpen (name : DosPath) (flags : OpenFlags) (h : ℕ)
  | Read (h n : ℕ)
  | Write (h : ℕ) (data : List UInt8)
  | Seek (h pos : ℕ)
  | Close (h : ℕ)
  | FileUnlink (name : DosPath)
  | Rename (oldname newname : DosPath)
  | MakeDir (dir : DosPath)
  | RemoveDir (dir : DosPath) (listed : Option (List String))
deriving DecidableEq

namespace OverlayDrive

/-- The drive when it is mounted, with an empty overlay. -/
def mount (base : DosPath → Option BaseNode) : OverlayDrive :=
  { base := base, overlay := ∅, specials := [], store := fun _ => [], next := 0
    deleted_files_in_base := [], deleted_paths_in_base := [], DOSdirs_cache := []
    Files := fun _ => none }

/-- A call and whether it succeeds.  A file is opened under a number that is not in use. -/
def step (d : OverlayDrive) : DriveCall → Option (OverlayDrive × Bool)
  | .FileCreate name h => if d.Files h = none then some (d.FileCreate name h) else some (d, false)
  | .FileOpen name flags h =>
    if d.Files h = none then some (d.FileOpen name flags h) else some (d, false)
  | .Read h n => some ((d.Read h n).1, (d.Read h n).2.isSome)
  | .Write h data => some (d.Write h data)
  | .Seek h pos => some (d.Seek h pos)
  | .Close h => some (d.Close h)
  | .FileUnlink name => some (d.FileUnlink name)
  | .Rename oldname newname => d.Rename oldname newname
  | .MakeDir dir => some (d.MakeDir dir)
  | .RemoveDir dir listed => some (d.RemoveDir dir listed)

/-- The calls, and those of them that have succeeded. -/
def run : OverlayDrive → List DriveCall → Option (OverlayDrive × List DriveCall)
  | d, [] => some (d, [])
  | d, call :: calls =>
    (d.step call).bind fun r => (run r.1 calls).map fun r' =>
      (r'.1, if r.2 then call :: r'.2 else r'.2)

end OverlayDrive

/-- The same call on an ordinary tree. -/
def DriveCall.toCall : DriveCall → Call String UInt8
  | .FileCreate name h => .create name h
  | .FileOpen name flags h => .openFile name h flags.readable flags.writable
  | .Read h n => .read h n
  | .Write h data => .write h data
  | .Seek h pos => .seek h pos
  | .Close h => .close h
  | .FileUnlink name => .unlink name
  | .Rename oldname newname => .rename oldname newname
  | .MakeDir dir => .mkdir dir
  | .RemoveDir dir _ => .rmdir dir

end AugraDosbox
