import AugraDosbox.Lib.ByteMemory
import AugraDosbox.Lib.Loop

/-!
# Volumes with a file allocation table

The parts of `src/dos/drive_fat.cpp` that know how a disk image is laid out.

* `Bootstrap`, `Volume` — the boot sector, and a volume as the constructor `fatDrive` accepts
  it.  The checks of the constructor are fields of `Volume`;
* `Drive` — the sectors and the cached part of the table.  `readSector` and `writeSector` are
  taken as a storage that gives back what was written last; only the first 512 bytes of a
  sector count;
* `getClusterValue`, `setClusterValue` — the entries of the table;
* `getAbsoluteSectFromChain`, `getFirstFreeClust`, `allocateCluster`, `zeroOutCluster`,
  `appendCluster`, `deleteClustChain` — chains of clusters.

Numbers are of type `uint32_t` where nothing else is said; `u32` stands where they can
overflow.  The two loops that follow a chain to its end need not finish: `fuel` is the number
of rounds they get, and `none` says that they are still running then.
-/

namespace AugraDosbox.Fat

open ByteMemory

def u32 (n : ℕ) : ℕ := n % 2 ^ 32

theorem u32_of_lt {n : ℕ} (h : n < 2 ^ 32) : u32 n = n := Nat.mod_eq_of_lt h

theorem u32_lt (n : ℕ) : u32 n < 2 ^ 32 := Nat.mod_lt _ (by decide)

def BytePerSector : ℕ := 512

inductive FatType where
  | FAT12 | FAT16 | FAT32
deriving DecidableEq, Repr

/-! ## The boot sector -/

structure Bootstrap where
  nearjmp : Vector UInt8 3
  oemname : Vector UInt8 8
  bytespersector : UInt16
  sectorspercluster : UInt8
  reservedsectors : UInt16
  fatcopies : UInt8
  rootdirentries : UInt16
  totalsectorcount : UInt16
  mediadescriptor : UInt8
  sectorsperfat : UInt16
  sectorspertrack : UInt16
  headcount : UInt16
  totalsecdword : UInt32

/-- The sanity checks of the constructor. -/
def Bootstrap.Sane (b : Bootstrap) : Prop :=
  b.sectorsperfat ≠ 0 ∧ b.bytespersector = 512 ∧ b.sectorspercluster ≠ 0 ∧
    b.rootdirentries ≠ 0 ∧ b.fatcopies ≠ 0

instance (b : Bootstrap) : Decidable b.Sane := by unfold Bootstrap.Sane; infer_instance

/-- The geometry values that are possible on a disk with these heads and sectors per track. -/
def Bootstrap.Fits (b : Bootstrap) (headscyl cylsector : ℕ) : Prop :=
  b.headcount ≠ 0 ∧ b.headcount.toNat ≤ headscyl ∧
    b.sectorspertrack ≠ 0 ∧ b.sectorspertrack.toNat ≤ cylsector

instance (b : Bootstrap) (headscyl cylsector : ℕ) : Decidable (b.Fits headscyl cylsector) := by
  unfold Bootstrap.Fits; infer_instance

/-- DOS 1.x floppies have no parameters in their boot sector: `mdesc` is the media descriptor
in the table. -/
def Bootstrap.withoutParameters (b : Bootstrap) (mdesc : UInt8) : Bootstrap :=
  let nine := mdesc &&& 0x2 = 0
  let twoSides := mdesc &&& 0x1 ≠ 0
  let sectors : UInt16 := if nine then 360 else 320
  { b with
    bytespersector := 512
    sectorspercluster := if twoSides then 2 else 1
    reservedsectors := 1
    fatcopies := 2
    rootdirentries := if twoSides then 112 else 64
    totalsectorcount := if twoSides then sectors * 2 else sectors
    mediadescriptor := mdesc
    sectorsperfat := if nine then 2 else 1
    sectorspertrack := if nine then 9 else 8
    headcount := if twoSides then 2 else 1 }

/-- The floppy formats; `none` for an unknown one. -/
def Bootstrap.identifyFloppy (b : Bootstrap) (mdesc : UInt8) : Option Bootstrap :=
  if (b.nearjmp[0] = 0x69 ∨ b.nearjmp[0] = 0xe9 ∨ (b.nearjmp[0] = 0xeb ∧ b.nearjmp[2] = 0x90)) ∧
      b.mediadescriptor &&& 0xf0 = 0xf0 then
    -- Pre-DOS 3.2 single-sided floppies: the digits of the version are in the OEM name.
    if (b.mediadescriptor ≠ 0xf0 ∧ b.mediadescriptor &&& 0x1 = 0) ∧
        (b.oemname[5] ≠ 0x33 ∨ b.oemname[6] ≠ 0x2e ∨ b.oemname[7] < 0x32) then
      some { b with sectorspercluster := 1 }
    else
      some b
  else if 0xf8 ≤ mdesc then
    some (b.withoutParameters mdesc)
  else
    none

namespace Bootstrap

variable (b : Bootstrap)

def RootDirSectors : ℕ :=
  (b.rootdirentries.toNat * 32 + (BytePerSector - 1)) / BytePerSector

/-- The sectors in front of the root directory, from the beginning of the partition. -/
def tableEnd : ℕ := b.reservedsectors.toNat + b.fatcopies.toNat * b.sectorsperfat.toNat

def getSectorCount : ℕ :=
  if b.totalsectorcount ≠ 0 then b.totalsectorcount.toNat else b.totalsecdword.toNat

def DataSectors : ℕ := u32 (b.getSectorCount + 2 ^ 32 - (b.tableEnd + b.RootDirSectors))

def CountOfClusters : ℕ := b.DataSectors / b.sectorspercluster.toNat

end Bootstrap

def fatType (CountOfClusters : ℕ) : FatType :=
  if CountOfClusters < 4085 then .FAT12
  else if CountOfClusters < 65525 then .FAT16
  else .FAT32

/-- A volume that the constructor has accepted, with the members that it sets. -/
structure Volume where
  bootbuffer : Bootstrap
  partSectOff : UInt32
  fattype : FatType
  CountOfClusters : ℕ
  firstDataSector : ℕ
  firstRootDirSect : ℕ
  sane : bootbuffer.Sane
  CountOfClusters_eq : CountOfClusters = bootbuffer.CountOfClusters
  fattype_eq : fattype = fatType CountOfClusters
  firstDataSector_eq : firstDataSector
    = u32 (bootbuffer.tableEnd + bootbuffer.RootDirSectors + partSectOff.toNat)
  firstRootDirSect_eq : firstRootDirSect = u32 (bootbuffer.tableEnd + partSectOff.toNat)

def Volume.ofBootstrap (b : Bootstrap) (partSectOff : UInt32) (h : b.Sane) : Volume where
  bootbuffer := b
  partSectOff := partSectOff
  fattype := fatType b.CountOfClusters
  CountOfClusters := b.CountOfClusters
  firstDataSector := u32 (b.tableEnd + b.RootDirSectors + partSectOff.toNat)
  firstRootDirSect := u32 (b.tableEnd + partSectOff.toNat)
  sane := h
  CountOfClusters_eq := rfl
  fattype_eq := rfl
  firstDataSector_eq := rfl
  firstRootDirSect_eq := rfl

/-- The constructor, from the boot sector on. -/
def fatDrive (isHdd : Bool) (bytesector cylsector headscyl : ℕ) (mdesc : UInt8)
    (partSectOff : UInt32) (bootbuffer : Bootstrap) : Option Volume :=
  if bytesector ≠ BytePerSector then
    none
  else do
    let b ← if isHdd then some bootbuffer else bootbuffer.identifyFloppy mdesc
    if h : b.Sane then
      if b.Fits headscyl cylsector then some (.ofBootstrap b partSectOff h) else none
    else
      none

/-- The boot sector of a floppy of 1440 kB. -/
def bootstrap1440 : Bootstrap where
  nearjmp := #v[0xeb, 0x3c, 0x90]
  oemname := #v[0x4d, 0x53, 0x44, 0x4f, 0x53, 0x35, 0x2e, 0x30]
  bytespersector := 512
  sectorspercluster := 1
  reservedsectors := 1
  fatcopies := 2
  rootdirentries := 224
  totalsectorcount := 2880
  mediadescriptor := 0xf0
  sectorsperfat := 9
  sectorspertrack := 18
  headcount := 2
  totalsecdword := 0

def floppy1440 : Volume := .ofBootstrap bootstrap1440 0 (by decide)

namespace Volume

variable (v : Volume)

def sectorspercluster : ℕ := v.bootbuffer.sectorspercluster.toNat
def reservedsectors : ℕ := v.bootbuffer.reservedsectors.toNat
def fatcopies : ℕ := v.bootbuffer.fatcopies.toNat
def rootdirentries : ℕ := v.bootbuffer.rootdirentries.toNat
def sectorsperfat : ℕ := v.bootbuffer.sectorsperfat.toNat

theorem sectorspercluster_pos : 0 < v.sectorspercluster := by
  have h := v.sane.2.2.1
  have hne : v.bootbuffer.sectorspercluster.toNat ≠ 0 := fun h0 => h (UInt8.toNat_inj.mp h0)
  exact Nat.pos_of_ne_zero hne

theorem sectorspercluster_lt : v.sectorspercluster < 2 ^ 8 :=
  v.bootbuffer.sectorspercluster.toNat_lt

theorem fatcopies_pos : 0 < v.fatcopies := by
  have h := v.sane.2.2.2.2
  have hne : v.bootbuffer.fatcopies.toNat ≠ 0 := fun h0 => h (UInt8.toNat_inj.mp h0)
  exact Nat.pos_of_ne_zero hne

theorem fatcopies_lt : v.fatcopies < 2 ^ 8 := v.bootbuffer.fatcopies.toNat_lt

theorem sectorsperfat_pos : 0 < v.sectorsperfat := by
  have h := v.sane.1
  have hne : v.bootbuffer.sectorsperfat.toNat ≠ 0 := fun h0 => h (UInt16.toNat_inj.mp h0)
  exact Nat.pos_of_ne_zero hne

theorem sectorsperfat_lt : v.sectorsperfat < 2 ^ 16 := v.bootbuffer.sectorsperfat.toNat_lt

def getClusterSize : ℕ := v.sectorspercluster * BytePerSector

end Volume

/-! ## Sectors -/

abbrev Disk := ℕ → Memory

/-- The storage, and what of the table is cached: a sector and, for FAT12, the one after it. -/
structure Drive where
  disk : Disk
  fatSectBuffer : Memory
  curFatSect : ℕ

namespace Drive

/-- A drive as the constructor leaves it. -/
def mounted (disk : Disk) : Drive := ⟨disk, fun _ => 0, 0xffffffff⟩

def readSector (d : Drive) (sectnum : ℕ) : Memory := d.disk sectnum

def writeSector (d : Drive) (sectnum : ℕ) (data : Memory) : Drive :=
  { d with disk := Function.update d.disk sectnum data }

end Drive

namespace Volume

variable (v : Volume)

/-! ## The table -/

/-- Where the entry of a cluster is in the table, in bytes. -/
def fatoffset (clustNum : ℕ) : ℕ :=
  match v.fattype with
  | .FAT12 => u32 (clustNum + clustNum / 2)
  | .FAT16 => u32 (clustNum * 2)
  | .FAT32 => u32 (clustNum * 4)

def fatsectnum (fatoffset : ℕ) : ℕ :=
  u32 (v.reservedsectors + fatoffset / BytePerSector + v.partSectOff.toNat)

/-- Loads two sectors at once for FAT12. -/
def loadFatSect (fatsectnum : ℕ) (d : Drive) : Drive :=
  if d.curFatSect ≠ fatsectnum then
    let first := d.readSector fatsectnum
    let second := d.readSector (u32 (fatsectnum + 1))
    { d with
      fatSectBuffer := fun k =>
        if k < BytePerSector then first k
        else if v.fattype = .FAT12 then second (k - BytePerSector)
        else d.fatSectBuffer k
      curFatSect := fatsectnum }
  else
    d

/-- The entry at the offset `fatentoff` of the buffer. -/
def readEntry (clustNum fatentoff : ℕ) (fatSectBuffer : Memory) : ℕ :=
  match v.fattype with
  | .FAT12 =>
    let clustValue := load fatSectBuffer fatentoff 2
    if clustNum &&& 0x1 ≠ 0 then clustValue >>> 4 else clustValue &&& 0xfff
  | .FAT16 => load fatSectBuffer fatentoff 2
  | .FAT32 => load fatSectBuffer fatentoff 4

def writeEntry (clustNum fatentoff clustValue : ℕ) (fatSectBuffer : Memory) : Memory :=
  match v.fattype with
  | .FAT12 =>
    let tmpValue := load fatSectBuffer fatentoff 2
    if clustNum &&& 0x1 ≠ 0 then
      ByteMemory.store fatSectBuffer fatentoff 2
        ((tmpValue &&& 0xf) ||| ((clustValue &&& 0xfff) <<< 4))
    else
      ByteMemory.store fatSectBuffer fatentoff 2 ((tmpValue &&& 0xf000) ||| (clustValue &&& 0xfff))
  | .FAT16 => ByteMemory.store fatSectBuffer fatentoff 2 clustValue
  | .FAT32 => ByteMemory.store fatSectBuffer fatentoff 4 clustValue

def getClusterValue (clustNum : ℕ) (d : Drive) : ℕ × Drive :=
  let fatoffset := v.fatoffset clustNum
  let d := v.loadFatSect (v.fatsectnum fatoffset) d
  (v.readEntry clustNum (fatoffset % BytePerSector) d.fatSectBuffer, d)

/-- Writes the cached sectors to one copy of the table: the second sector only when the entry
reaches into it. -/
def writeCopy (fatsectnum fatentoff fc : ℕ) (d : Drive) : Drive :=
  let d := d.writeSector (u32 (fatsectnum + fc * v.sectorsperfat)) d.fatSectBuffer
  if v.fattype = .FAT12 ∧ 511 ≤ fatentoff then
    d.writeSector (u32 (fatsectnum + 1 + fc * v.sectorsperfat))
      fun k => d.fatSectBuffer (BytePerSector + k)
  else
    d

/-- The loop over the first copies of the table. -/
def writeCopies (fatsectnum fatentoff : ℕ) : ℕ → Drive → Drive
  | 0, d => d
  | fc + 1, d => v.writeCopy fatsectnum fatentoff fc (writeCopies fatsectnum fatentoff fc d)

def setClusterValue (clustNum clustValue : ℕ) (d : Drive) : Drive :=
  let fatoffset := v.fatoffset clustNum
  let fatentoff := fatoffset % BytePerSector
  let d := v.loadFatSect (v.fatsectnum fatoffset) d
  let d := { d with fatSectBuffer := v.writeEntry clustNum fatentoff clustValue d.fatSectBuffer }
  v.writeCopies (v.fatsectnum fatoffset) fatentoff v.fatcopies d

/-! ## Chains of clusters -/

/-- The end marks. -/
def isEOF (testvalue : ℕ) : Bool :=
  match v.fattype with
  | .FAT12 => 0xff8 ≤ testvalue
  | .FAT16 => 0xfff8 ≤ testvalue
  | .FAT32 => 0xfffffff8 ≤ testvalue

/-- The end mark that is written. -/
def endMark : ℕ :=
  match v.fattype with
  | .FAT12 => 0xfff
  | .FAT16 => 0xffff
  | .FAT32 => 0xffffffff

def getClustFirstSect (clustNum : ℕ) : ℕ :=
  u32 ((clustNum + 2 ^ 32 - 2) * v.sectorspercluster + v.firstDataSector)

/-- Goes on by so many clusters; `none` when the chain ends before. -/
def skipClusters : ℕ → ℕ → Drive → Option ℕ × Drive
  | 0, currentClust, d => (some currentClust, d)
  | skipClust + 1, currentClust, d =>
    let (testvalue, d) := v.getClusterValue currentClust d
    if v.isEOF testvalue then (none, d) else skipClusters skipClust testvalue d

/-- The sector of a chain, 0 when the chain has ended before.  No caller asks for a sector
from `2 ^ 31` on, so that the number of clusters to skip is not negative. -/
def getAbsoluteSectFromChain (startClustNum logicalSector : ℕ) (d : Drive) : ℕ × Drive :=
  let (currentClust, d) :=
    v.skipClusters (logicalSector / v.sectorspercluster) startClustNum d
  match currentClust with
  | none => (0, d)
  | some clust =>
    (u32 (v.getClustFirstSect clust + logicalSector % v.sectorspercluster), d)

def getAbsoluteSectFromBytePos (startClustNum bytePos : ℕ) (d : Drive) : ℕ × Drive :=
  v.getAbsoluteSectFromChain startClustNum (bytePos / BytePerSector) d

/-- The search from the cluster `i + 2` on, with `n` clusters to go; 0 when none is free. -/
def firstFreeFrom : ℕ → ℕ → Drive → ℕ × Drive
  | 0, _, d => (0, d)
  | n + 1, i, d =>
    let (value, d) := v.getClusterValue (u32 (i + 2)) d
    if value = 0 then (u32 (i + 2), d) else firstFreeFrom n (i + 1) d

def getFirstFreeClust (d : Drive) : ℕ × Drive := v.firstFreeFrom v.CountOfClusters 0 d

def allocateCluster (useCluster prevCluster : ℕ) (d : Drive) : Bool × Drive :=
  if useCluster = 0 then
    (false, d)
  else if prevCluster ≠ 0 then
    let (value, d) := v.getClusterValue prevCluster d
    if value = 0 then
      (false, d)
    else
      let d := v.setClusterValue prevCluster useCluster d
      (true, v.setClusterValue useCluster v.endMark d)
  else
    (true, v.setClusterValue useCluster v.endMark d)

/-- The loop over the first `n` sectors of a cluster. -/
def zeroOutSectors (clustNumber : ℕ) : ℕ → Drive → Drive
  | 0, d => d
  | i + 1, d =>
    let d := zeroOutSectors clustNumber i d
    let (sect, d) := v.getAbsoluteSectFromChain clustNumber i d
    d.writeSector sect fun _ => 0

def zeroOutCluster (clustNumber : ℕ) (d : Drive) : Drive :=
  v.zeroOutSectors clustNumber v.sectorspercluster d

/-- One round of the search for the last cluster of a chain. -/
def lastClusterStep : ℕ × Drive → (ℕ × Drive) ⊕ (ℕ × Drive)
  | (currentClust, d) =>
    let (testvalue, d) := v.getClusterValue currentClust d
    if v.isEOF testvalue then .inr (currentClust, d) else .inl (testvalue, d)

def appendCluster (fuel startCluster : ℕ) (d : Drive) : Option (ℕ × Drive) := do
  let (currentClust, d) ← Loop.run v.lastClusterStep fuel (startCluster, d)
  let (newClust, d) := v.getFirstFreeClust d
  if newClust = 0 then
    return (0, d)
  let (allocated, d) := v.allocateCluster newClust currentClust d
  if !allocated then
    return (0, d)
  return (newClust, v.zeroOutCluster newClust d)

/-- What `deleteClustChain` does to one cluster with the value `testvalue`. -/
def deleteCluster (endClust countClust currentClust testvalue : ℕ) (d : Drive) : Drive :=
  if countClust = endClust ∧ !v.isEOF testvalue then
    v.setClusterValue currentClust v.endMark d
  else if endClust < countClust then
    v.setClusterValue currentClust 0 d
  else
    d

/-- One round of `deleteClustChain`, with the number of the cluster in the chain. -/
def deleteStep (endClust : ℕ) : ℕ × ℕ × Drive → (ℕ × ℕ × Drive) ⊕ Drive
  | (countClust, currentClust, d) =>
    let (testvalue, d) := v.getClusterValue currentClust d
    if testvalue = 0 then
      .inr d
    else
      let d := v.deleteCluster endClust countClust currentClust testvalue d
      if v.isEOF testvalue then .inr d
      else .inl (u32 (countClust + 1), testvalue, d)

def deleteClustChain (fuel startCluster bytePos : ℕ) (d : Drive) : Option Drive :=
  let endClust := u32 (bytePos + v.getClusterSize - 1) / v.getClusterSize
  Loop.run (v.deleteStep endClust) fuel (1, startCluster, d)

end Volume

end AugraDosbox.Fat
