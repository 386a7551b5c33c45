import AugraDosbox.Dos.MakeName
import AugraDosbox.Dos.Psp

/-!
# Files and handles

The calls of `src/dos/dos_files.cpp` that open, create, duplicate and close files, in the form that
uses the job file table of a process.

* `Host` — the virtual functions of the drives, the devices and the objects of files;
* `State` — `Files`, the job file table and the error code;
* `DOS_OpenFile`, `DOS_CreateFile`, `DOS_CloseFile`, `DOS_DuplicateEntry`,
  `DOS_ForceDuplicateEntry`, `DOS_OpenFileExtended` — the calls; what a call returns is `none` when
  it returns `false`.
-/

namespace AugraDosbox.Files

open Fat MakeName

/-- The errors that the calls set. -/
inductive DosError where
  | NONE
  | FUNCTION_NUMBER_INVALID
  | FILE_NOT_FOUND
  | PATH_NOT_FOUND
  | TOO_MANY_OPEN_FILES
  | ACCESS_DENIED
  | INVALID_HANDLE
  | ACCESS_CODE_INVALID
  | LOCK_VIOLATION
  | FILE_ALREADY_EXISTS
  | other (code : ℕ)
  deriving DecidableEq, Repr

def OPEN_READ : UInt8 := 0
def OPEN_WRITE : UInt8 := 1
def OPEN_READWRITE : UInt8 := 2
def OPEN_READ_NO_MOD : UInt8 := 4

structure FileRegionLock where
  pos : ℕ
  len : ℕ
  deriving DecidableEq, Repr

/-- `DOS_File`; `object` is what the derived class has. -/
structure DOS_File (F : Type) where
  object : F
  name : CString
  flags : UInt8
  hdrive : ℕ
  refCtr : ℤ := 0
  region_locks : List FileRegionLock := []

/-- The object of a file that has just been made. -/
structure NewFile (F : Type) where
  object : F
  name : CString
  flags : UInt8

/-- A file that has just been made, on a drive. -/
def NewFile.onDrive {F : Type} (f : NewFile F) (hdrive : ℕ) : DOS_File F :=
  { object := f.object, name := f.name, flags := f.flags, hdrive := hdrive }

def strcasecmp (s t : CString) : Bool := s.map toupper = t.map toupper

def DOS_File.IsName {F : Type} (f : DOS_File F) (str : CString) : Bool :=
  f.name ≠ [] && strcasecmp f.name str

/-- The drives and devices, with a state `W` and objects `F` for open files.  `FileOpen` also gives
the error code that it sets. -/
structure Host (W F : Type) where
  drives : W → Drives
  FindDevice : W → CString → Option (NewFile F)
  GetFileAttr : W → ℕ → CString → Option UInt8
  IsReadOnly : W → ℕ → Bool
  TestDir : W → ℕ → CString → Bool
  FileExists : W → ℕ → CString → Bool
  FileOpen : W → ℕ → CString → UInt8 → W × Option DosError × Option (NewFile F)
  FileCreate : W → ℕ → CString → UInt8 → W × Option (NewFile F)
  Close : W → F → W × F

/-- `Files`, the process and the drives. -/
structure State (W F : Type) where
  world : W
  Files : ℕ → Option (DOS_File F)
  psp : Psp
  errorcode : DosError
  file_locking : Bool

variable {W F : Type}

def State.DOS_SetError (s : State W F) (code : DosError) : State W F := { s with errorcode := code }

/-! ## Sharing -/

inductive FileSharingMode where
  | Compatibility
  | DenyReadWrite
  | DenyWrite
  | DenyRead
  | DenyNone
  deriving DecidableEq, Repr

structure FileOpenFlags where
  sharing : FileSharingMode
  read : Bool
  write : Bool
  deriving DecidableEq, Repr

def parse_file_flags (flags : UInt8) : FileOpenFlags where
  sharing :=
    match ((flags >>> 4) &&& 7).toNat with
    | 1 => .DenyReadWrite
    | 2 => .DenyWrite
    | 3 => .DenyRead
    | 4 => .DenyNone
    | _ => .Compatibility
  read := flags &&& 7 ≠ OPEN_WRITE
  write := flags &&& 7 ≠ OPEN_READ ∧ flags &&& 7 ≠ OPEN_READ_NO_MOD

def single_directional_sharing_check (new_file existing_file : FileOpenFlags) : Bool :=
  match new_file.sharing with
  | .Compatibility => existing_file.sharing = .Compatibility
  | .DenyReadWrite => false
  | .DenyWrite => existing_file.sharing ≠ .Compatibility && !existing_file.write
  | .DenyRead => existing_file.sharing ≠ .Compatibility && !existing_file.read
  | .DenyNone => existing_file.sharing ≠ .Compatibility

def file_modes_are_compatible (new_file existing_file : FileOpenFlags) : Bool :=
  single_directional_sharing_check new_file existing_file &&
    single_directional_sharing_check existing_file new_file

def file_is_locked (s : State W F) (file_name : CString) (drive : ℕ) (flags : UInt8) : Bool :=
  s.file_locking && (List.range DOS_FILES).any fun i =>
    match s.Files i with
    | none => false
    | some f => f.hdrive = drive && f.IsName file_name &&
        !file_modes_are_compatible (parse_file_flags flags) (parse_file_flags f.flags)

/-! ## Names -/

def MakeNameError.toDosError : MakeNameError → DosError
  | .FILE_NOT_FOUND => .FILE_NOT_FOUND
  | .PATH_NOT_FOUND => .PATH_NOT_FOUND

/-- `DOS_MakeName` with the error code that it sets: the drive and the complete name. -/
def makeName (h : Host W F) (s : State W F) (name : CString) :
    Except Fault (Option (ℕ × CString) × State W F) := do
  let answer ← DOS_MakeName (h.drives s.world) name
  match answer.fullname with
  | .ok fullname => .ok (some (answer.drive.getD 0, fullname), s)
  | .error e => .ok (none, s.DOS_SetError (MakeNameError.toDosError e))

def DOS_GetFileAttr (h : Host W F) (s : State W F) (name : CString) :
    Except Fault (Option UInt8 × State W F) := do
  match ← makeName h s name with
  | (none, s) => .ok (none, s)
  | (some (drive, fullname), s) =>
      match h.GetFileAttr s.world drive fullname with
      | some attr => .ok (some attr, s)
      | none => .ok (none, s.DOS_SetError .FILE_NOT_FOUND)

def CROSS_LEN : ℕ := 512

def PathExists (h : Host W F) (s : State W F) (name : CString) :
    Except Fault (Bool × State W F) :=
  match strrchr backslash name with
  | none => .ok (true, s)
  | some _ =>
      match strrchr backslash (name.take (CROSS_LEN - 1)) with
      | none => .error .outOfBounds
      | some ([], _) => .ok (true, s)
      | some (temp, _) => do
          match ← makeName h s temp with
          | (none, s) => .ok (false, s)
          | (some (drive, fulldir), s) => .ok (h.TestDir s.world drive fulldir, s)

/-! ## Opening and creating -/

/-- The first slot of `Files` that is empty. -/
def freeSlot (s : State W F) : Option ℕ := (List.range DOS_FILES).find? fun i => (s.Files i).isNone

theorem freeSlot_DOS_SetError (s : State W F) (code : DosError) :
    freeSlot (s.DOS_SetError code) = freeSlot s := rfl

/-- A file in a slot. -/
def State.setFile (s : State W F) (handle : ℕ) (file : Option (DOS_File F)) : State W F :=
  { s with Files := Function.update s.Files handle file }

/-- `AddRef` for the file in a slot, and an entry of the job file table that refers to it. -/
def State.attach (s : State W F) (handle entry : ℕ) (file : DOS_File F) : State W F :=
  { s.setFile handle (some { file with refCtr := file.refCtr + 1 }) with
    psp := s.psp.SetFileHandle entry (UInt8.ofNat handle) }

/-- The directories and volume labels that `DOS_OpenFile` does not open. -/
def isDirectory (h : Host W F) (s : State W F) (name : CString) (device : Option (NewFile F)) :
    Except Fault (Bool × State W F) :=
  match device with
  | some _ => .ok (false, s)
  | none => do
      match ← DOS_GetFileAttr h s name with
      | (none, s) => .ok (false, s)
      | (some attr, s) => .ok (attr &&& 0x18 ≠ 0, s)

/-- Why a file could not be opened. -/
def openError (h : Host W F) (s : State W F) (name fullname : CString) (drive : ℕ) (flags : UInt8) :
    Except Fault (State W F) :=
  if flags &&& 3 ≠ OPEN_READ ∧ h.FileExists s.world drive fullname then
    .ok (s.DOS_SetError .ACCESS_DENIED)
  else do
    let (found, s) ← PathExists h s name
    .ok (s.DOS_SetError (if found then .FILE_NOT_FOUND else .PATH_NOT_FOUND))

/-- The part of `DOS_OpenFile` that opens a file of a drive, with a slot and an entry at hand. -/
def openOnDrive (h : Host W F) (s : State W F) (name fullname : CString) (drive : ℕ)
    (flags : UInt8) (handle entry : ℕ) : Except Fault (Option ℕ × State W F) :=
  if file_is_locked s fullname drive flags then .ok (none, s.DOS_SetError .ACCESS_DENIED)
  else
    let (world, error, file) := h.FileOpen s.world drive fullname flags
    let s := { s with world := world }
    if error = some .ACCESS_CODE_INVALID then
      .ok (none, (s.setFile handle (file.map (·.onDrive drive))).DOS_SetError .ACCESS_CODE_INVALID)
    else
      match file with
      | some file => .ok (some entry, s.attach handle entry (file.onDrive drive))
      | none => do
          let s ← openError h s name fullname drive flags
          .ok (none, s)

/-- `DOS_OpenFile`: the entry of the job file table. -/
def DOS_OpenFile (h : Host W F) (s : State W F) (name : CString) (flags : UInt8) :
    Except Fault (Option ℕ × State W F) := do
  let device := h.FindDevice s.world name
  match ← isDirectory h s name device with
  | (true, s) => .ok (none, s.DOS_SetError .ACCESS_DENIED)
  | (false, s) =>
      match ← makeName h s name with
      | (none, s) => .ok (none, s)
      | (some (drive, fullname), s) =>
          match freeSlot s with
          | none => .ok (none, s.DOS_SetError .TOO_MANY_OPEN_FILES)
          | some handle =>
              let entry := s.psp.FindFreeFileEntry
              if entry = 0xff then .ok (none, s.DOS_SetError .TOO_MANY_OPEN_FILES)
              else
                match device with
                | some file => .ok (some entry, s.attach handle entry (file.onDrive 0xff))
                | none => openOnDrive h s name fullname drive flags handle entry

/-- The part of `DOS_CreateFile` that creates a file on a drive, with a slot at hand. -/
def createOnDrive (h : Host W F) (s : State W F) (name fullname : CString) (drive : ℕ)
    (attributes : UInt8) (handle : ℕ) : Except Fault (Option ℕ × State W F) :=
  if h.IsReadOnly s.world drive || file_is_locked s fullname drive OPEN_READWRITE then
    .ok (none, s.DOS_SetError .ACCESS_DENIED)
  else
    let entry := s.psp.FindFreeFileEntry
    if entry = 0xff then .ok (none, s.DOS_SetError .TOO_MANY_OPEN_FILES)
    else if attributes &&& 0x10 ≠ 0 then .ok (none, s.DOS_SetError .ACCESS_DENIED)
    else
      match h.FileCreate s.world drive fullname attributes with
      | (world, some file) =>
          .ok (some entry, { s with world := world }.attach handle entry (file.onDrive drive))
      | (world, none) => do
          let (found, s) ← PathExists h { s with world := world } name
          .ok (none, s.DOS_SetError (if found then .ACCESS_DENIED else .PATH_NOT_FOUND))

/-- `DOS_CreateFile`: the entry of the job file table. -/
def DOS_CreateFile (h : Host W F) (s : State W F) (name : CString) (attributes : UInt8) :
    Except Fault (Option ℕ × State W F) :=
  match h.FindDevice s.world name with
  | some _ => DOS_OpenFile h s name OPEN_READ
  | none => do
      match ← makeName h s name with
      | (none, s) => .ok (none, s)
      | (some (drive, fullname), s) =>
          match freeSlot s with
          | none => .ok (none, s.DOS_SetError .TOO_MANY_OPEN_FILES)
          | some handle => createOnDrive h s name fullname drive attributes handle

/-! ## Closing and duplicating -/

/-- The slot and the file that an entry refers to. -/
def openFile (s : State W F) (entry : ℕ) : Option (ℕ × DOS_File F) :=
  let handle := (s.psp.GetFileHandle entry).toNat
  if DOS_FILES ≤ handle then none else (s.Files handle).map (handle, ·)

/-- `DOS_CloseFile`: the references that there were. -/
def DOS_CloseFile (h : Host W F) (s : State W F) (entry : ℕ) : Option ℤ × State W F :=
  match openFile s entry with
  | none => (none, s.DOS_SetError .INVALID_HANDLE)
  | some (handle, file) =>
      let (world, object) := h.Close s.world file.object
      let refs := file.refCtr - 1
      let file := { file with object := object, refCtr := refs }
      (some ((if refs ≤ 0 then 0 else refs) + 1),
        { s with world := world, psp := s.psp.SetFileHandle entry 0xff }.setFile handle
          (if refs ≤ 0 then none else some file))

/-- `DOS_DuplicateEntry`: the new entry. -/
def DOS_DuplicateEntry (s : State W F) (entry : ℕ) : Option ℕ × State W F :=
  match openFile s entry with
  | none => (none, s.DOS_SetError .INVALID_HANDLE)
  | some (handle, file) =>
      let newentry := s.psp.FindFreeFileEntry
      if newentry = 0xff then (none, s.DOS_SetError .TOO_MANY_OPEN_FILES)
      else (some newentry, s.attach handle newentry file)

/-- `DOS_ForceDuplicateEntry`.  The file has to be there after the new entry has been closed. -/
def DOS_ForceDuplicateEntry (h : Host W F) (s : State W F) (entry newentry : ℕ) :
    Except Fault (Bool × State W F) :=
  if entry = newentry then .ok (false, s.DOS_SetError .INVALID_HANDLE)
  else
    match openFile s entry with
    | none => .ok (false, s.DOS_SetError .INVALID_HANDLE)
    | some (orig, _) =>
        let s := if (openFile s newentry).isSome then (DOS_CloseFile h s newentry).2 else s
        match s.Files orig with
        | none => .error .outOfBounds
        | some file => .ok (true, s.attach orig newentry file)

/-! ## Opening with an action -/

/-- `DOS_OpenFileExtended`: the entry and the status. -/
def DOS_OpenFileExtended (h : Host W F) (s : State W F) (name : CString) (flags : ℕ)
    (createAttr : UInt8) (action : ℕ) : Except Fault (Option (ℕ × ℕ) × State W F) :=
  if action = 0 ∨ 2 < action &&& 0x0f ∨ 0x10 < action &&& 0xf0 then
    .ok (none, s.DOS_SetError .FUNCTION_NUMBER_INVALID)
  else do
    match ← DOS_OpenFile h s name (UInt8.ofNat (flags &&& 0xff)) with
    | (some entry, s) =>
        -- file already exists
        if action &&& 0x0f = 0 then .ok (none, s.DOS_SetError .FILE_ALREADY_EXISTS)
        else if action &&& 0x0f = 1 then .ok (some (entry, 1), s)
        else
          match ← DOS_CreateFile h (DOS_CloseFile h s entry).2 name createAttr with
          | (none, s) => .ok (none, s)
          | (some entry, s) => .ok (some (entry, 3), s)
    | (none, s) =>
        -- file does not exist
        if action &&& 0xf0 = 0 then .ok (none, s)
        else
          match ← DOS_CreateFile h s name createAttr with
          | (none, s) => .ok (none, s)
          | (some entry, s) => .ok (some (entry, 2), s)

end AugraDosbox.Files
