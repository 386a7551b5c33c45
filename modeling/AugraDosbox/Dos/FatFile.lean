import AugraDosbox.Dos.FatDirectory

/-!
# Files

The class `fatFile` of `src/dos/drive_fat.cpp`, and the function that opens files.

* `FatFile` — the members of a file.  Only `Close` reads its times and its archive flag, which
  are left out;
* `Call` — a result, or the access behind the end of the sector buffer where a call goes wrong,
  or a loop that is still running after `fuel` rounds;
* `Seek`, `Read`, `Write` — the calls;
* `FileOpen` — the file of a path;
* `Op`, `run` — calls one after the other.

The assertion of `Write` that the medium can be written holds of the files that `FileOpen`
returns and is left out.
-/

namespace AugraDosbox.Fat

open ByteMemory

/-! ## Files -/

def OPEN_READ : UInt8 := 0b0000
def OPEN_WRITE : UInt8 := 0b0001
def OPEN_READWRITE : UInt8 := 0b0010
def OPEN_READ_NO_MOD : UInt8 := 0b0100

inductive SeekType where
  | DOS_SEEK_SET | DOS_SEEK_CUR | DOS_SEEK_END | other
deriving DecidableEq, Repr

structure FatFile where
  firstCluster : ℕ
  seekpos : ℕ
  filelength : ℕ
  currentSector : ℕ
  curSectOff : ℕ
  sectorBuffer : Memory
  dirCluster : ℕ
  dirIndex : ℕ
  loadedSector : Bool
  flags : UInt8

/-- What keeps a call from returning. -/
inductive Fault where
  | outOfBounds | unfinished
deriving DecidableEq, Repr

abbrev Call := Except Fault

/-- The result of a loop with a bound on its rounds. -/
def finished {α : Type} : Option α → Call α
  | none => .error .unfinished
  | some a => .ok a

/-- A number as an `int32_t`. -/
def i32 (n : ℤ) : ℤ := Int.bmod n (2 ^ 32)

namespace Volume

variable (v : Volume)

/-! ## Sectors of a file -/

/-- Loads the sector of the position, with the offset in it. -/
def locate (f : FatFile) (d : Drive) : FatFile × Drive :=
  let (currentSector, d) := v.getAbsoluteSectFromBytePos f.firstCluster f.seekpos d
  if currentSector = 0 then
    ({ f with currentSector := 0, loadedSector := false }, d)
  else
    ({ f with
      currentSector := currentSector
      curSectOff := f.seekpos % BytePerSector
      sectorBuffer := d.readSector currentSector
      loadedSector := true }, d)

/-- Goes on to the next sector; the offset stays behind the end when there is none. -/
def nextSector (f : FatFile) (d : Drive) : FatFile × Drive :=
  let (currentSector, d) := v.getAbsoluteSectFromBytePos f.firstCluster f.seekpos d
  if currentSector = 0 then
    ({ f with currentSector := 0, loadedSector := false }, d)
  else
    ({ f with
      currentSector := currentSector
      curSectOff := 0
      sectorBuffer := d.readSector currentSector
      loadedSector := true }, d)

/-! ## Seek -/

/-- The new position; sums of `int32_t` wrap around. -/
def seekTarget (pos : ℕ) (type : SeekType) (f : FatFile) : ℕ :=
  let seekto : ℤ :=
    match type with
    | .DOS_SEEK_SET => i32 pos
    | .DOS_SEEK_CUR => i32 (i32 pos + i32 f.seekpos)
    | .DOS_SEEK_END => i32 (i32 f.filelength + i32 pos)
    | .other => 0
  seekto.toNat

def Seek (pos : ℕ) (type : SeekType) (f : FatFile) (d : Drive) : FatFile × Drive :=
  v.locate { f with seekpos := seekTarget pos type f } d

/-! ## Read -/

/-- The loop of `Read`, with `sizedec` bytes to go. -/
def readLoop : ℕ → List UInt8 → FatFile → Drive → Call (List UInt8 × FatFile × Drive)
  | 0, data, f, d => .ok (data, f, d)
  | sizedec + 1, data, f, d =>
    if f.filelength ≤ f.seekpos then
      .ok (data, f, d)
    else if f.curSectOff < BytePerSector then
      let data := data ++ [f.sectorBuffer f.curSectOff]
      let f := { f with curSectOff := f.curSectOff + 1, seekpos := u32 (f.seekpos + 1) }
      if BytePerSector ≤ f.curSectOff then
        let (f, d) := v.nextSector f d
        -- EOC reached before EOF
        if !f.loadedSector then .ok (data, f, d) else readLoop sizedec data f d
      else
        readLoop sizedec data f d
    else
      .error .outOfBounds

/-- The bytes that are read; `none` without the right to read. -/
def Read (size : ℕ) (f : FatFile) (d : Drive) : Call (Option (List UInt8) × FatFile × Drive) :=
  if f.flags &&& 0xf = OPEN_WRITE then
    .ok (none, f, d)
  else if f.filelength ≤ f.seekpos then
    .ok (some [], f, d)
  else
    let (f, d) := if f.loadedSector then (f, d) else v.locate f d
    -- EOC reached before EOF
    if !f.loadedSector then
      .ok (some [], f, d)
    else do
      let (data, f, d) ← v.readLoop size [] f d
      return (some data, f, d)

/-! ## Write -/

/-- Frees the clusters of a file behind the position. -/
def freeTail (fuel : ℕ) (f : FatFile) (d : Drive) : Call Drive :=
  if f.firstCluster ≠ 0 then finished (v.deleteClustChain fuel f.firstCluster f.seekpos d)
  else .ok d

/-- Truncates the file to the position. -/
def truncate (fuel : ℕ) (f : FatFile) (d : Drive) : Call (FatFile × Drive) := do
  let d ← v.freeTail fuel f d
  let f := if f.seekpos = 0 then { f with firstCluster := 0 } else f
  return ({ f with filelength := f.seekpos }, d)

/-- The first cluster of an empty file; `false` when the drive is full. -/
def takeFirst (f : FatFile) (d : Drive) : Bool × FatFile × Drive :=
  let (firstCluster, d) := v.getFirstFreeClust d
  let f := { f with firstCluster := firstCluster }
  if firstCluster = 0 then
    (false, f, d)
  else
    (true, f, (v.allocateCluster firstCluster 0 d).2)

/-- One more cluster, until the length reaches the position. -/
def extendStep (fuel : ℕ) :
    FatFile × Drive → (FatFile × Drive) ⊕ Option (Bool × FatFile × Drive)
  | (f, d) =>
    if f.filelength < f.seekpos then
      match v.appendCluster fuel f.firstCluster d with
      | none => .inr none
      | some (newClust, d) =>
        if newClust = 0 then .inr (some (false, f, d))
        else .inl ({ f with filelength := u32 (f.filelength + v.getClusterSize) }, d)
    else
      .inr (some (true, f, d))

/-- Extends a file that has a cluster to the position; `false` when the drive is full. -/
def extendTo (fuel : ℕ) (f : FatFile) (d : Drive) : Call (Bool × FatFile × Drive) := do
  let clustSize := v.getClusterSize
  let f := { f with filelength := u32 (((f.filelength - 1) / clustSize + 1) * clustSize) }
  let (room, f, d) ← finished (Loop.run (v.extendStep fuel) fuel (f, d)).join
  if !room then
    return (false, f, d)
  return (true, if f.seekpos < f.filelength then { f with filelength := f.seekpos } else f, d)

def extend (fuel : ℕ) (f : FatFile) (d : Drive) : Call (Bool × FatFile × Drive) :=
  if f.filelength = 0 then
    let (room, f, d) := v.takeFirst f d
    if room then v.extendTo fuel { f with filelength := v.getClusterSize } d
    else .ok (false, f, d)
  else
    v.extendTo fuel f d

/-- The sector of the position at the end of the file, with another cluster if there is none
yet. -/
def findRoom (fuel : ℕ) (f : FatFile) (d : Drive) : Call (FatFile × Drive) :=
  if f.loadedSector then
    .ok (f, d)
  else do
    let (f, d) := v.locate f d
    if f.loadedSector then
      return (f, d)
    -- EOC reached before EOF - try to increase file allocation
    let (_, d) ← finished (v.appendCluster fuel f.firstCluster d)
    return v.locate f d

/-- Increases the length of the file if necessary; `false` when there is no room for it. -/
def makeRoom (fuel : ℕ) (f : FatFile) (d : Drive) : Call (Bool × FatFile × Drive) :=
  if f.seekpos < f.filelength then
    .ok (true, f, d)
  else do
    let (room, f, d) :=
      if f.filelength = 0 then
        let (room, f, d) := v.takeFirst f d
        if room then
          let (currentSector, d) := v.getAbsoluteSectFromBytePos f.firstCluster f.seekpos d
          -- The offset in the sector stays as it is.
          (true, { f with
            currentSector := currentSector
            sectorBuffer := d.readSector currentSector
            loadedSector := true }, d)
        else
          (false, f, d)
      else
        (true, f, d)
    if !room then
      return (false, f, d)
    let (f, d) ← v.findRoom fuel f d
    if !f.loadedSector then
      return (false, f, d)
    return (true, { f with filelength := u32 (f.seekpos + 1) }, d)

/-- Puts a byte into the buffer, which is written when it is full. -/
def putByte (x : UInt8) (f : FatFile) (d : Drive) : Call (FatFile × Drive) :=
  if f.curSectOff < BytePerSector then
    let f := { f with
      sectorBuffer := Function.update f.sectorBuffer f.curSectOff x
      curSectOff := f.curSectOff + 1
      seekpos := u32 (f.seekpos + 1) }
    if BytePerSector ≤ f.curSectOff then
      let d := if f.loadedSector then d.writeSector f.currentSector f.sectorBuffer else d
      .ok (v.nextSector f d)
    else
      .ok (f, d)
  else
    .error .outOfBounds

/-- The loop of `Write`: whether it has come to its end, and how many bytes are written. -/
def writeLoop (fuel : ℕ) : List UInt8 → ℕ → FatFile → Drive → Call (Bool × ℕ × FatFile × Drive)
  | [], sizecount, f, d => .ok (true, sizecount, f, d)
  | x :: data, sizecount, f, d => do
    let (room, f, d) ← v.makeRoom fuel f d
    if !room then
      return (false, sizecount, f, d)
    let (f, d) ← v.putByte x f d
    writeLoop fuel data (sizecount + 1) f d

/-- The entry of the file gets its length, its first cluster and the time.  An entry that
cannot be read cannot be changed either. -/
def finalizeWrite (modTime modDate : UInt16) (f : FatFile) (d : Drive) : Drive :=
  let (entry, d) := v.directoryBrowse f.dirCluster (i32 f.dirIndex) 0 d
  let tmpentry := { entry.getD .empty with
    modTime := modTime
    modDate := modDate
    entrysize := .ofNat f.filelength
    loFirstClust := .ofNat f.firstCluster }
  (v.directoryChange f.dirCluster tmpentry (i32 f.dirIndex) d).2

/-- `Write` from its loop on. -/
def writeBytes (fuel : ℕ) (data : List UInt8) (modTime modDate : UInt16) (f : FatFile)
    (d : Drive) : Call (Option ℕ × FatFile × Drive) := do
  let (complete, sizecount, f, d) ← v.writeLoop fuel data 0 f d
  let d := if complete ∧ 0 < f.curSectOff ∧ f.loadedSector
    then d.writeSector f.currentSector f.sectorBuffer else d
  return (some sizecount, f, v.finalizeWrite modTime modDate f d)

/-- The number of bytes that are written; `none` without the right to write. -/
def Write (fuel : ℕ) (data : List UInt8) (modTime modDate : UInt16) (f : FatFile) (d : Drive) :
    Call (Option ℕ × FatFile × Drive) :=
  if f.flags &&& 0xf = OPEN_READ ∨ f.flags &&& 0xf = OPEN_READ_NO_MOD then
    .ok (none, f, d)
  else if f.seekpos < f.filelength ∧ data = [] then do
    let (f, d) ← v.truncate fuel f d
    return (some 0, f, v.finalizeWrite modTime modDate f d)
  else if f.filelength < f.seekpos then do
    -- Extend file to current position
    let (room, f, d) ← v.extend fuel f d
    if !room ∨ data = [] then
      return (some 0, f, v.finalizeWrite modTime modDate f d)
    v.writeBytes fuel data modTime modDate f d
  else
    v.writeBytes fuel data modTime modDate f d

/-! ## Opening -/

/-- The constructor of a file. -/
def fatFile (startCluster fileLen : ℕ) (d : Drive) : FatFile × Drive :=
  let f : FatFile := {
    firstCluster := startCluster
    seekpos := 0
    filelength := fileLen
    currentSector := 0
    curSectOff := 0
    sectorBuffer := fun _ => 0
    dirCluster := 0
    dirIndex := 0
    loadedSector := false
    flags := 0 }
  if 0 < f.filelength then v.Seek 0 .DOS_SEEK_SET f d else (f, d)

/-- `none` in the inner place when there is no such file or no right to open it. -/
def FileOpen (fuel : ℕ) (name : CString) (flags : UInt8) (IsReadOnly : Bool) (d : Drive) :
    Option (Option FatFile × Drive) := do
  let (found, d) ← v.getFileDirEntry fuel name false d
  match found with
  | none => return (none, d)
  | some (fileEntry, dirClust, subEntry) =>
    let open_for_readonly := flags &&& 0xf = OPEN_READ ∨ flags &&& 0xf = OPEN_READ_NO_MOD
    if fileEntry.has FatAttributeFlags.ReadOnly ∧ ¬ open_for_readonly then
      return (none, d)
    let flags := if ¬ open_for_readonly ∧ IsReadOnly then OPEN_READ else flags
    let (f, d) := v.fatFile fileEntry.loFirstClust.toNat fileEntry.entrysize.toNat d
    return (some { f with flags := flags, dirCluster := dirClust, dirIndex := subEntry }, d)

/-! ## Runs -/

/-- A call of a program, with the time at which it comes. -/
inductive Op where
  | Seek (pos : ℕ) (type : SeekType)
  | Read (size : ℕ)
  | Write (data : List UInt8) (modTime modDate : UInt16)

def step (fuel : ℕ) (s : FatFile × Drive) : Op → Call (FatFile × Drive)
  | .Seek pos type => .ok (v.Seek pos type s.1 s.2)
  | .Read size => do
    let (_, f, d) ← v.Read size s.1 s.2
    return (f, d)
  | .Write data modTime modDate => do
    let (_, f, d) ← v.Write fuel data modTime modDate s.1 s.2
    return (f, d)

def run (fuel : ℕ) : List Op → FatFile × Drive → Call (FatFile × Drive)
  | [], s => .ok s
  | op :: ops, s => do
    let s ← v.step fuel s op
    run fuel ops s

end Volume

end AugraDosbox.Fat
