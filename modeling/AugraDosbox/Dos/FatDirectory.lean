import AugraDosbox.Dos.Fat
import AugraDosbox.Dos.FatNames

/-!
# Directories

The functions of `src/dos/drive_fat.cpp` that look at directories entry by entry, and the
searches with paths over them.

* `Direntry` — an entry, and how it lies in a sector; the host is little-endian;
* `DTA` — the disk transfer area, with the search pattern, the position and the result;
* `FindNextInternal`, `FindFirst`, `FindNext` — searches;
* `directoryBrowse`, `directoryChange`, `addDirectoryEntry` — single entries.  The loops of the
  first two are the same: `entrySector`;
* `getDirClustNum`, `getFileDirEntry` — paths.

Positions in a directory are 16 bit numbers.  The label that a volume search caches is left
out: nothing here reads it.  `none` in the outer place says that a loop is still running after
`fuel` rounds.
-/

namespace AugraDosbox.Fat

open ByteMemory

/-! ## Entries -/

structure Direntry where
  entryname : Vector UInt8 11
  attrib : UInt8
  NTRes : UInt8
  milliSecondStamp : UInt8
  crtTime : UInt16
  crtDate : UInt16
  accessDate : UInt16
  hiFirstClust : UInt16
  modTime : UInt16
  modDate : UInt16
  loFirstClust : UInt16
  entrysize : UInt32
deriving DecidableEq, Repr

namespace FatAttributeFlags

def ReadOnly : UInt8 := 0x01
def Hidden : UInt8 := 0x02
def System : UInt8 := 0x04
def Volume : UInt8 := 0x08
def Directory : UInt8 := 0x10
def Archive : UInt8 := 0x20

end FatAttributeFlags

namespace Direntry

/-- The entry that lies at the offset `o`. -/
def decode (m : Memory) (o : ℕ) : Direntry where
  entryname := Vector.ofFn fun i => m (o + i)
  attrib := m (o + 11)
  NTRes := m (o + 12)
  milliSecondStamp := m (o + 13)
  crtTime := .ofNat (load m (o + 14) 2)
  crtDate := .ofNat (load m (o + 16) 2)
  accessDate := .ofNat (load m (o + 18) 2)
  hiFirstClust := .ofNat (load m (o + 20) 2)
  modTime := .ofNat (load m (o + 22) 2)
  modDate := .ofNat (load m (o + 24) 2)
  loFirstClust := .ofNat (load m (o + 26) 2)
  entrysize := .ofNat (load m (o + 28) 4)

/-- The name as the bytes it is written over. -/
def storeName (name : Vector UInt8 11) (o : ℕ) (m : Memory) : Memory := fun k =>
  if h : o ≤ k ∧ k < o + 11 then name[k - o] else m k

/-- Writes an entry to the offset `o`. -/
def encode (e : Direntry) (o : ℕ) (m : Memory) : Memory :=
  let m := storeName e.entryname o m
  let m := ByteMemory.store m (o + 11) 1 e.attrib.toNat
  let m := ByteMemory.store m (o + 12) 1 e.NTRes.toNat
  let m := ByteMemory.store m (o + 13) 1 e.milliSecondStamp.toNat
  let m := ByteMemory.store m (o + 14) 2 e.crtTime.toNat
  let m := ByteMemory.store m (o + 16) 2 e.crtDate.toNat
  let m := ByteMemory.store m (o + 18) 2 e.accessDate.toNat
  let m := ByteMemory.store m (o + 20) 2 e.hiFirstClust.toNat
  let m := ByteMemory.store m (o + 22) 2 e.modTime.toNat
  let m := ByteMemory.store m (o + 24) 2 e.modDate.toNat
  let m := ByteMemory.store m (o + 26) 2 e.loFirstClust.toNat
  ByteMemory.store m (o + 28) 4 e.entrysize.toNat

/-- An entry of zeros. -/
def empty : Direntry :=
  ⟨Vector.replicate 11 0, 0, 0, 0, 0, 0, 0, 0, 0, 0, 0, 0⟩

def isDeleted (e : Direntry) : Bool := e.entryname[0] = 0xe5

def markDeleted (e : Direntry) : Direntry := { e with entryname := e.entryname.set 0 0xe5 }

/-- The end of the directory. -/
def isEnd (e : Direntry) : Bool := e.entryname[0] = 0

def has (e : Direntry) (flag : UInt8) : Bool := e.attrib &&& flag ≠ 0

end Direntry

/-! ## The disk transfer area -/

structure DTA where
  sname : Vector UInt8 8
  sext : Vector UInt8 3
  sattr : UInt8
  dirID : UInt16
  dirCluster : UInt16
  name : CString
  size : UInt32
  date : UInt16
  time : UInt16
  attr : UInt8
deriving DecidableEq, Repr

namespace DTA

/-- The first bytes of a string in a field filled with spaces. -/
def field (n : ℕ) (s : CString) : Vector UInt8 n := Vector.ofFn fun i => s.getD i space

def SetupSearch (dta : DTA) (attr : UInt8) (pattern : CString) : DTA :=
  match strchr dot pattern with
  | some (name, ext) => { dta with sattr := attr, sname := field 8 name, sext := field 3 ext }
  | none => { dta with sattr := attr, sname := field 8 pattern, sext := field 3 [] }

def GetSearchParams (dta : DTA) : UInt8 × CString :=
  (dta.sattr, cstr (dta.sname.toList ++ dot :: dta.sext.toList))

def SetResult (dta : DTA) (name : CString) (e : Direntry) : DTA :=
  { dta with
    name := name
    size := e.entrysize
    date := e.modDate
    time := e.modTime
    attr := e.attrib }

def SetDirID (dta : DTA) (id : ℕ) : DTA := { dta with dirID := .ofNat id }

def isDirectory (dta : DTA) : Bool := dta.attr &&& FatAttributeFlags.Directory ≠ 0

end DTA

/-- The area that the drive keeps for its own searches; each of them sets it up. -/
def imgDTA : DTA :=
  ⟨Vector.replicate 8 0, Vector.replicate 3 0, 0, 0, 0, [], 0, 0, 0, 0⟩

namespace Volume

variable (v : Volume)

/-! ## Positions -/

/-- The sector with the entry `dirPos` of a directory; `none` behind its last sector. -/
def dirSector (dirClustNumber dirPos : ℕ) (d : Drive) : Option ℕ × Drive :=
  let logentsector := dirPos / 16
  if dirClustNumber = 0 then
    (if v.rootdirentries ≤ dirPos then none else some (u32 (v.firstRootDirSect + logentsector)), d)
  else
    let (tmpsector, d) := v.getAbsoluteSectFromChain dirClustNumber logentsector d
    (if tmpsector = 0 then none else some tmpsector, d)

/-- The entry of a sector for the position `dirPos`. -/
def sectorEntry (sectbuf : Memory) (dirPos : ℕ) : Direntry := .decode sectbuf (32 * (dirPos % 16))

def nextPos (dirPos : ℕ) : ℕ := (dirPos + 1) % 2 ^ 16

/-! ## Searches -/

/-- The attributes of an entry against those of a search. -/
def passes (attrs : UInt8) (e : Direntry) : Bool :=
  if attrs = FatAttributeFlags.Volume then
    e.has FatAttributeFlags.Volume
  else
    ~~~attrs &&& e.attrib &&& (FatAttributeFlags.Directory ||| FatAttributeFlags.Volume |||
      FatAttributeFlags.System ||| FatAttributeFlags.Hidden) = 0

/-- An entry that a search returns. -/
def isFound (attrs : UInt8) (search_pattern : CString) (e : Direntry) : Bool :=
  !e.isDeleted && passes attrs e && wild_file_cmp (findName e.entryname) search_pattern

/-- One round of `FindNextInternal`, from the label `nextfile` on. -/
def findStep (dirClustNumber : ℕ) (attrs : UInt8) (search_pattern : CString) :
    ℕ × DTA × Drive → (ℕ × DTA × Drive) ⊕ (Option Direntry × DTA × Drive)
  | (dirPos, dta, d) =>
    match v.dirSector dirClustNumber dirPos d with
    | (none, d) => .inr (none, dta, d)
    | (some tmpsector, d) =>
      let e := sectorEntry (d.readSector tmpsector) dirPos
      let dta := dta.SetDirID (nextPos dirPos)
      if e.isEnd then .inr (none, dta, d)
      else if isFound attrs search_pattern e then
        .inr (some e, dta.SetResult (findName e.entryname) e, d)
      else .inl (nextPos dirPos, dta, d)

def FindNextInternal (fuel dirClustNumber : ℕ) (dta : DTA) (d : Drive) :
    Option (Option Direntry × DTA × Drive) :=
  let (attrs, search_pattern) := dta.GetSearchParams
  Loop.run (v.findStep dirClustNumber attrs search_pattern) fuel (dta.dirID.toNat, dta, d)

/-! ## Single entries -/

/-- Goes over `n` entries and finds the one after them: its sector and its position.  There
must be no end of the directory on the way. -/
def entrySector (dirClustNumber : ℕ) : ℕ → ℕ → Drive → Option (ℕ × ℕ) × Drive
  | n, dirPos, d =>
    match v.dirSector dirClustNumber dirPos d with
    | (none, d) => (none, d)
    | (some tmpsector, d) =>
      if (sectorEntry (d.readSector tmpsector) dirPos).isEnd then (none, d)
      else
        match n with
        | 0 => (some (tmpsector, dirPos), d)
        | n + 1 => entrySector dirClustNumber n (nextPos dirPos) d

def directoryBrowse (dirClustNumber : ℕ) (entNum start : ℤ) (d : Drive) :
    Option Direntry × Drive :=
  if start < 0 ∨ 65535 < start then
    (none, d)
  else if entNum < start then
    (none, d)
  else
    match v.entrySector dirClustNumber (entNum - start).toNat start.toNat d with
    | (none, d) => (none, d)
    | (some (tmpsector, dirPos), d) => (some (sectorEntry (d.readSector tmpsector) dirPos), d)

/-- A sector with one of its entries replaced. -/
def changeEntry (useEntry : Direntry) (tmpsector dirPos : ℕ) (d : Drive) : Drive :=
  d.writeSector tmpsector (useEntry.encode (32 * (dirPos % 16)) (d.readSector tmpsector))

def directoryChange (dirClustNumber : ℕ) (useEntry : Direntry) (entNum : ℤ) (d : Drive) :
    Bool × Drive :=
  if entNum < 0 then
    (false, d)
  else
    match v.entrySector dirClustNumber entNum.toNat 0 d with
    | (none, d) => (false, d)
    | (some (tmpsector, dirPos), d) =>
      if tmpsector ≠ 0 then (true, changeEntry useEntry tmpsector dirPos d) else (false, d)

/-- The sector for a new entry: a directory that is not the root directory gets another cluster
when it has no sector left.  `none` in the outer place: the chain of the directory is still
being followed. -/
def roomFor (fuel dirClustNumber dirPos : ℕ) (d : Drive) : Option (Option ℕ × Drive) :=
  match v.dirSector dirClustNumber dirPos d with
  | (some tmpsector, d) => some (some tmpsector, d)
  | (none, d) =>
    if dirClustNumber = 0 then
      some (none, d)
    else do
      let (newClust, d) ← v.appendCluster fuel dirClustNumber d
      if newClust = 0 then
        return (none, d)
      return v.dirSector dirClustNumber dirPos d

/-- One round of `addDirectoryEntry`. -/
def addStep (fuel dirClustNumber : ℕ) (useEntry : Direntry) :
    ℕ × Drive → (ℕ × Drive) ⊕ Option (Bool × Drive)
  | (dirPos, d) =>
    match v.roomFor fuel dirClustNumber dirPos d with
    | none => .inr none
    | some (none, d) => .inr (some (false, d))
    | some (some tmpsector, d) =>
      let e := sectorEntry (d.readSector tmpsector) dirPos
      -- Deleted file entry or end of directory list
      if e.isDeleted ∨ e.isEnd then .inr (some (true, changeEntry useEntry tmpsector dirPos d))
      else .inl (nextPos dirPos, d)

def addDirectoryEntry (fuel dirClustNumber : ℕ) (useEntry : Direntry) (d : Drive) :
    Option (Bool × Drive) :=
  (Loop.run (v.addStep fuel dirClustNumber useEntry) fuel (0, d)).join

/-! ## Paths -/

/-- The search for a name in a directory, from its beginning. -/
def lookup (fuel currentClust : ℕ) (attributes : UInt8) (name : CString) (d : Drive) :
    Option (Option Direntry × DTA × Drive) :=
  v.FindNextInternal fuel currentClust ((imgDTA.SetupSearch attributes name).SetDirID 0) d

/-- The loop of `getDirClustNum` over the names that are left. -/
def dirClustLoop (fuel : ℕ) (parDir : Bool) : List CString → ℕ → Drive →
    Option (Option ℕ × Drive)
  | [], currentClust, d => some (some currentClust, d)
  | findDir :: rest, currentClust, d =>
    if parDir ∧ rest = [] then
      some (some currentClust, d)
    else do
      let (foundEntry, dta, d) ← v.lookup fuel currentClust FatAttributeFlags.Directory findDir d
      match foundEntry with
      | none => return (none, d)
      | some e =>
        if !dta.isDirectory then
          return (none, d)
        dirClustLoop fuel parDir rest e.loFirstClust.toNat d

def getDirClustNum (fuel : ℕ) (dir : CString) (parDir : Bool) (d : Drive) :
    Option (Option ℕ × Drive) :=
  if namesRoot dir then some (some 0, d) else v.dirClustLoop fuel parDir (tokens dir) 0 d

/-- The loop of `getFileDirEntry`: the directory in which it stops and the name it has then. -/
def fileDirLoop (fuel : ℕ) (dir_ok : Bool) : List CString → CString → ℕ → Drive →
    Option (ℕ × CString × Drive)
  | [], findFile, currentClust, d => some (currentClust, findFile, d)
  | findDir :: rest, _, currentClust, d => do
    let (foundEntry, dta, d) ← v.lookup fuel currentClust FatAttributeFlags.Directory findDir d
    match foundEntry with
    | none => return (currentClust, findDir, d)
    | some e =>
      -- Found something. See if it's a directory
      if !dta.isDirectory then
        return (currentClust, findDir, d)
      else if rest = [] ∧ dir_ok then
        return (currentClust, findDir, d)
      else
        fileDirLoop fuel dir_ok rest findDir e.loFirstClust.toNat d

/-- The entry of a path, with the cluster of its directory and its number there. -/
def getFileDirEntry (fuel : ℕ) (filename : CString) (dir_ok : Bool) (d : Drive) :
    Option (Option (Direntry × ℕ × ℕ) × Drive) := do
  let (currentClust, findFile, d) ←
    if namesRoot filename then some (0, filename.take (DOS_PATHLENGTH - 1), d)
    else v.fileDirLoop fuel dir_ok (tokens filename) [] 0 d
  let attributes := FatAttributeFlags.ReadOnly ||| FatAttributeFlags.Hidden |||
    FatAttributeFlags.System ||| (if dir_ok then FatAttributeFlags.Directory else 0)
  let (foundEntry, dta, d) ← v.lookup fuel currentClust attributes findFile d
  match foundEntry with
  | none => return (none, d)
  | some e => return (some (e, currentClust, u32 (dta.dirID.toNat + 2 ^ 32 - 1)), d)

/-- The directory of the search is kept as a 16 bit number. -/
def FindFirst (fuel : ℕ) (dir : CString) (dta : DTA) (d : Drive) :
    Option (Bool × DTA × Drive) := do
  let (cwdDirCluster, d) ← v.getDirClustNum fuel dir false d
  match cwdDirCluster with
  | none => return (false, dta, d)
  | some clust =>
    let dta := { dta.SetDirID 0 with dirCluster := .ofNat (clust % 2 ^ 16) }
    let (foundEntry, dta, d) ← v.FindNextInternal fuel clust dta d
    return (foundEntry.isSome, dta, d)

def FindNext (fuel : ℕ) (dta : DTA) (d : Drive) : Option (Bool × DTA × Drive) := do
  let (foundEntry, dta, d) ← v.FindNextInternal fuel dta.dirCluster.toNat dta d
  return (foundEntry.isSome, dta, d)

end Volume

end AugraDosbox.Fat
