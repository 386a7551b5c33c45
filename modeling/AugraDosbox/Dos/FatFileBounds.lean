import AugraDosbox.Dos.FatAlloc
import AugraDosbox.Dos.FatFile
import AugraDosbox.Lib.Fallible

/-!
# The sector buffer of a file

Which calls of a file access its sector buffer behind the end.

* `fileSector` — the sector of a position of a file, from the table on the disk;
* `InBounds` — the offset is in the buffer as long as a sector is loaded;
* `Apart` — the sectors of the file are not those of the table;
* `Backed` — the sectors that begin below the recorded length are there;
* **`run_in_bounds_iff`** — a run stays inside the buffer exactly if each write is backed;
* **`write_out_of_bounds`** — a file whose recorded length is longer than its chain.
-/

namespace AugraDosbox.Fat

open ByteMemory Fallible

namespace Volume

variable {v : Volume} {c k n fuel : ℕ} {f f' : FatFile} {d d' : Drive} {disk disk' : Disk}

/-! ## The sectors of a file -/

/-- The cluster after `k` links, as long as there is no end mark. -/
def skip (v : Volume) (disk : Disk) : ℕ → ℕ → Option ℕ
  | 0, c => some c
  | k + 1, c => (v.next disk c).bind (skip v disk k)

/-- The links of a chain have their entries in the table. -/
def StaysInTable (v : Volume) (disk : Disk) (c : ℕ) : Prop :=
  ∀ k x, v.skip disk k c = some x → v.InTable x

/-- The sector of a position of a file, 0 when there is none. -/
def fileSector (v : Volume) (disk : Disk) (c pos : ℕ) : ℕ :=
  (v.skip disk (pos / BytePerSector / v.sectorspercluster) c).elim 0
    fun x => u32 (v.getClustFirstSect x + pos / BytePerSector % v.sectorspercluster)

theorem StaysInTable.inTable (h : v.StaysInTable disk c) : v.InTable c := h 0 c rfl

theorem StaysInTable.next {x : ℕ} (h : v.StaysInTable disk c) (hx : v.next disk c = some x) :
    v.StaysInTable disk x := fun k y hy => h (k + 1) y (by rw [skip, hx]; exact hy)

theorem skip_congr (h : ∀ s, v.TableSector s → disk' s = disk s) (hc : v.StaysInTable disk c) :
    v.skip disk' k c = v.skip disk k c := by
  induction k generalizing c with
  | zero => rfl
  | succ k ih =>
    have hnext : v.next disk' c = v.next disk c := by
      rw [Volume.next, Volume.next, fatValue_congr h hc.inTable]
    rw [skip, skip, hnext]
    cases hx : v.next disk c with
    | none => rfl
    | some x => exact ih (hc.next hx)

theorem StaysInTable.congr (h : ∀ s, v.TableSector s → disk' s = disk s)
    (hc : v.StaysInTable disk c) : v.StaysInTable disk' c :=
  fun k x hx => hc k x (by rwa [skip_congr h hc] at hx)

variable {pos : ℕ} {data : List UInt8} {x : UInt8} {s : FatFile × Drive}

theorem fileSector_congr (h : ∀ s, v.TableSector s → disk' s = disk s)
    (hc : v.StaysInTable disk c) : v.fileSector disk' c pos = v.fileSector disk c pos := by
  rw [fileSector, fileSector, skip_congr h hc]

theorem skipClusters_of_stays (hd : v.Coherent d) (hc : v.StaysInTable d.disk c) :
    (v.skipClusters k c d).1 = v.skip d.disk k c := by
  induction k generalizing c d with
  | zero => rfl
  | succ k ih =>
    have hreads : Reads v d (v.getClusterValue c d).2 := getClusterValue_reads
    simp only [skipClusters, getClusterValue_of_inTable hd hc.inTable]
    by_cases heof : v.isEOF (v.fatValue d.disk c) = true
    · have hnext : v.next d.disk c = none := next_eq_none_iff.mpr heof
      rw [if_pos heof, skip, hnext, Option.bind_none]
    · have hnext : v.next d.disk c = some (v.fatValue d.disk c) := if_neg heof
      rw [if_neg heof, skip, hnext, Option.bind_some,
        ih (hreads.table hd) (by rw [hreads.disk]; exact hc.next hnext), hreads.disk]

theorem getAbsoluteSectFromBytePos_eq (hd : v.Coherent d) (hc : v.StaysInTable d.disk c) :
    (v.getAbsoluteSectFromBytePos c pos d).1 = v.fileSector d.disk c pos := by
  rw [getAbsoluteSectFromBytePos, getAbsoluteSectFromChain_fst, skipClusters_of_stays hd hc,
    fileSector]

theorem getAbsoluteSectFromBytePos_reads :
    Reads v d (v.getAbsoluteSectFromBytePos c pos d).2 := getAbsoluteSectFromChain_reads

/-! ## The offset -/

theorem bytePerSector_pos : 0 < BytePerSector := by decide

/-- The offset is in the buffer as long as a sector is loaded, and never far behind it. -/
structure InBounds (f : FatFile) : Prop where
  le : f.curSectOff ≤ BytePerSector
  lt : f.loadedSector = true → f.curSectOff < BytePerSector

theorem locate_inBounds (h : InBounds f) : InBounds (v.locate f d).1 := by
  simp only [locate]
  split_ifs with hzero
  · exact ⟨h.le, fun hloaded => absurd hloaded (by simp)⟩
  · have hmod : f.seekpos % BytePerSector < BytePerSector := Nat.mod_lt _ (by decide)
    exact ⟨hmod.le, fun _ => hmod⟩

theorem nextSector_inBounds (h : f.curSectOff ≤ BytePerSector) :
    InBounds (v.nextSector f d).1 := by
  simp only [nextSector]
  split_ifs with hzero
  · exact ⟨h, fun hloaded => absurd hloaded (by simp)⟩
  · exact ⟨Nat.zero_le _, fun _ => bytePerSector_pos⟩

theorem fatFile_inBounds {startCluster fileLen : ℕ} :
    InBounds (v.fatFile startCluster fileLen d).1 := by
  simp only [fatFile]
  split_ifs with hlen
  · exact locate_inBounds ⟨Nat.zero_le _, fun _ => bytePerSector_pos⟩
  · exact ⟨Nat.zero_le _, fun _ => bytePerSector_pos⟩

/-- A file is opened with the offset in the buffer. -/
theorem FileOpen_inBounds {name : CString} {flags : UInt8} {IsReadOnly : Bool}
    (h : v.FileOpen fuel name flags IsReadOnly d = some (some f, d')) : InBounds f := by
  simp only [FileOpen, Option.bind_eq_bind, Option.bind_eq_some_iff] at h
  obtain ⟨⟨found, d₁⟩, -, h⟩ := h
  cases found with
  | none => simp at h
  | some x =>
    obtain ⟨fileEntry, dirClust, subEntry⟩ := x
    simp only at h
    have hnew : InBounds (v.fatFile fileEntry.loFirstClust.toNat fileEntry.entrysize.toNat d₁).1 :=
      fatFile_inBounds
    by_cases hrights : fileEntry.has FatAttributeFlags.ReadOnly = true ∧
        ¬ (flags &&& 0xf = OPEN_READ ∨ flags &&& 0xf = OPEN_READ_NO_MOD)
    · rw [if_pos hrights] at h
      simp at h
    · rw [if_neg hrights] at h
      simp only [Option.pure_def, Option.some.injEq, Prod.mk.injEq] at h
      rw [← h.1]
      exact ⟨hnew.le, hnew.lt⟩

/-! ## Reading -/

theorem readLoop_inBounds (h : f.curSectOff < BytePerSector) :
    Avoids .outOfBounds (v.readLoop n data f d) fun r => InBounds r.2.1 := by
  induction n generalizing data f d with
  | zero => exact .ok ⟨h.le, fun _ => h⟩
  | succ n ih =>
    simp only [readLoop]
    by_cases hend : f.filelength ≤ f.seekpos
    · rw [if_pos hend]
      exact .ok ⟨h.le, fun _ => h⟩
    · rw [if_neg hend, if_pos h]
      have hnext : InBounds (v.nextSector { f with
          curSectOff := f.curSectOff + 1, seekpos := u32 (f.seekpos + 1) } d).1 :=
        nextSector_inBounds h
      split_ifs with hfull hloaded
      · exact .ok hnext
      · exact ih (hnext.lt (by simpa using hloaded))
      · exact ih (by simpa using hfull)

/-- **Reading stays inside the buffer.** -/
theorem Read_inBounds {size : ℕ} (h : InBounds f) :
    Avoids .outOfBounds (v.Read size f d) fun r => InBounds r.2.1 := by
  unfold Read
  by_cases hrights : f.flags &&& 0xf = OPEN_WRITE
  · rw [if_pos hrights]
    exact .ok h
  · rw [if_neg hrights]
    by_cases hend : f.filelength ≤ f.seekpos
    · rw [if_pos hend]
      exact .ok h
    · rw [if_neg hend]
      have hlocated : InBounds (if f.loadedSector then (f, d) else v.locate f d).1 := by
        split_ifs
        · exact h
        · exact locate_inBounds h
      generalize (if f.loadedSector then (f, d) else v.locate f d) = x at hlocated ⊢
      obtain ⟨f₁, d₁⟩ := x
      simp only
      split_ifs with hloaded
      · exact .ok hlocated
      · exact (readLoop_inBounds (hlocated.lt (by simpa using hloaded))).bind fun r hr => .ok hr

/-! ## Writing at the end of a file -/

/-- The position and the length are not what a function changes. -/
structure SamePlace (f f' : FatFile) : Prop where
  seekpos : f'.seekpos = f.seekpos
  filelength : f'.filelength = f.filelength

theorem locate_samePlace : SamePlace f (v.locate f d).1 := by
  simp only [locate]
  split_ifs <;> exact ⟨rfl, rfl⟩

theorem nextSector_samePlace : SamePlace f (v.nextSector f d).1 := by
  simp only [nextSector]
  split_ifs <;> exact ⟨rfl, rfl⟩

theorem findRoom_inBounds (h : InBounds f) :
    Avoids .outOfBounds (v.findRoom fuel f d) fun r => InBounds r.1 ∧ SamePlace f r.1 := by
  unfold findRoom
  by_cases hloaded : f.loadedSector = true
  · rw [if_pos hloaded]
    exact .ok ⟨h, rfl, rfl⟩
  · rw [if_neg hloaded]
    have hlocated : InBounds (v.locate f d).1 := locate_inBounds h
    have hplace : SamePlace f (v.locate f d).1 := locate_samePlace
    generalize v.locate f d = x at hlocated hplace ⊢
    obtain ⟨f₁, d₁⟩ := x
    by_cases hfound : f₁.loadedSector = true
    · simp only [hfound, if_true]
      exact .ok ⟨hlocated, hplace⟩
    · simp only [hfound, if_false, Bool.false_eq_true]
      cases v.appendCluster fuel f₁.firstCluster d₁ with
      | none => exact .error (by decide)
      | some r =>
        have hplace' : SamePlace f₁ (v.locate f₁ r.2).1 := locate_samePlace
        exact .ok ⟨locate_inBounds hlocated, hplace'.seekpos.trans hplace.seekpos,
          hplace'.filelength.trans hplace.filelength⟩

/-- At the end of a file that is not empty there is a loaded sector, or no room. -/
theorem makeRoom_inBounds (h : InBounds f) (hne : f.filelength ≠ 0)
    (hend : f.filelength ≤ f.seekpos) :
    Avoids .outOfBounds (v.makeRoom fuel f d) fun r => InBounds r.2.1 ∧
      (r.1 = true → r.2.1.curSectOff < BytePerSector ∧ r.2.1.seekpos = f.seekpos ∧
        r.2.1.filelength = u32 (f.seekpos + 1)) := by
  unfold makeRoom
  rw [if_neg (by omega)]
  simp only [if_neg hne]
  refine (findRoom_inBounds h).bind fun r hr => ?_
  obtain ⟨hin, hplace⟩ := hr
  by_cases hloaded : r.1.loadedSector = true
  · simp only [hloaded, Bool.not_true, Bool.false_eq_true, if_false]
    refine .ok ⟨⟨hin.le, fun _ => hin.lt hloaded⟩,
      fun _ => ⟨hin.lt hloaded, hplace.seekpos, ?_⟩⟩
    show u32 (r.1.seekpos + 1) = u32 (f.seekpos + 1)
    rw [hplace.seekpos]
  · simp only [hloaded, Bool.not_false, if_true]
    exact .ok ⟨hin, fun hroom => absurd hroom (by simp)⟩

theorem putByte_inBounds (h : f.curSectOff < BytePerSector) :
    Avoids .outOfBounds (v.putByte x f d) fun r => InBounds r.1 ∧
      r.1.seekpos = u32 (f.seekpos + 1) ∧ r.1.filelength = f.filelength := by
  simp only [putByte, if_pos h]
  split_ifs with hfull
  · exact .ok ⟨nextSector_inBounds h, nextSector_samePlace.seekpos,
      nextSector_samePlace.filelength⟩
  · exact .ok ⟨nextSector_inBounds h, nextSector_samePlace.seekpos,
      nextSector_samePlace.filelength⟩
  · exact .ok ⟨⟨h, fun _ => by simpa using hfull⟩, rfl, rfl⟩

/-- **At its end** a file that is not empty can be extended safely. -/
theorem writeLoop_extending (h : InBounds f) (hne : f.filelength ≠ 0)
    (hend : f.filelength ≤ f.seekpos) (hfits : f.seekpos + data.length < 2 ^ 32) :
    Avoids .outOfBounds (v.writeLoop fuel data n f d) fun r => InBounds r.2.2.1 := by
  induction data generalizing n f d with
  | nil => exact .ok h
  | cons x data ih =>
    rw [List.length_cons] at hfits
    refine (makeRoom_inBounds h hne hend).bind ?_
    rintro ⟨room, f₁, d₁⟩ ⟨hin, hroom⟩
    cases room with
    | false => exact .ok hin
    | true =>
      obtain ⟨hoff, hpos, hlen⟩ := hroom rfl
      refine (putByte_inBounds hoff).bind ?_
      rintro ⟨f₂, d₂⟩ ⟨hin₂, hpos₂, hlen₂⟩
      have hu : u32 (f.seekpos + 1) = f.seekpos + 1 := u32_of_lt (by omega)
      simp only at hpos hlen hpos₂ hlen₂
      rw [hpos, hu] at hpos₂
      rw [hlen, hu] at hlen₂
      exact ih hin₂ (by omega) (by omega) (by omega)

/-! ## Writing below the end of a file -/

/-- The file and the table are apart: its links are in the table, and its sectors are not. -/
structure Apart (v : Volume) (f : FatFile) (d : Drive) : Prop where
  coherent : v.Coherent d
  inTable : v.StaysInTable d.disk f.firstCluster
  current : f.loadedSector = true → ¬ v.TableSector f.currentSector
  sectors : ∀ p < f.filelength, v.fileSector d.disk f.firstCluster p ≠ 0 →
    ¬ v.TableSector (v.fileSector d.disk f.firstCluster p)

/-- A position below the recorded length at which a write of `n` bytes enters a new sector. -/
def Cut (f : FatFile) (n b : ℕ) : Prop :=
  (∃ j, b = f.seekpos + (BytePerSector - f.curSectOff) + BytePerSector * j) ∧
    b < f.seekpos + n ∧ b < f.filelength

/-- The sectors that a write of `n` bytes enters below the recorded length are there. -/
structure SectorsThere (v : Volume) (f : FatFile) (d : Drive) (n : ℕ) : Prop where
  offset : f.curSectOff < BytePerSector
  cuts : ∀ b, Cut f n b → v.fileSector d.disk f.firstCluster b ≠ 0

/-- The next sector of a file that is apart from the table. -/
theorem nextSector_eq (hd : v.Coherent d) (hc : v.StaysInTable d.disk f.firstCluster) :
    v.nextSector f d = (if v.fileSector d.disk f.firstCluster f.seekpos = 0 then
        { f with currentSector := 0, loadedSector := false }
      else
        { f with
          currentSector := v.fileSector d.disk f.firstCluster f.seekpos
          curSectOff := 0
          sectorBuffer := d.disk (v.fileSector d.disk f.firstCluster f.seekpos)
          loadedSector := true },
      (v.getAbsoluteSectFromBytePos f.firstCluster f.seekpos d).2) := by
  have hreads : Reads v d (v.getAbsoluteSectFromBytePos f.firstCluster f.seekpos d).2 :=
    getAbsoluteSectFromBytePos_reads
  simp only [nextSector, getAbsoluteSectFromBytePos_eq hd hc, Drive.readSector, hreads.disk]
  split_ifs <;> rfl

theorem putByte_of_lt (h : f.curSectOff + 1 < BytePerSector) :
    v.putByte x f d = .ok ({ f with
      sectorBuffer := Function.update f.sectorBuffer f.curSectOff x
      curSectOff := f.curSectOff + 1
      seekpos := u32 (f.seekpos + 1) }, d) := by
  simp only [putByte, if_pos (show f.curSectOff < BytePerSector by omega),
    if_neg (show ¬ BytePerSector ≤ f.curSectOff + 1 by omega)]

theorem putByte_of_le (h : BytePerSector ≤ f.curSectOff) :
    v.putByte x f d = .error .outOfBounds := by
  simp only [putByte, if_neg (show ¬ f.curSectOff < BytePerSector by omega)]

/-- Writing the loaded sector leaves the table as it is. -/
theorem Apart.flush (h : v.Apart f d) (buffer : Memory) :
    ∃ d', (if f.loadedSector then d.writeSector f.currentSector buffer else d) = d' ∧
      v.Coherent d' ∧ ∀ s, v.TableSector s → d'.disk s = d.disk s := by
  refine ⟨_, rfl, ?_⟩
  split_ifs with hloaded
  · have hs := h.current hloaded
    have hchanged : v.Changed (fun _ => False) (· = f.currentSector) d
        (d.writeSector f.currentSector buffer) := writeSector_changed h.coherent hs
    refine ⟨hchanged.coherent, fun s htable => Function.update_of_ne ?_ _ _⟩
    rintro rfl
    exact hs htable
  · exact ⟨h.coherent, fun s _ => rfl⟩

/-- **The byte that fills the buffer** of a file that is apart from the table. -/
theorem putByte_of_eq (h : v.Apart f d) (hoff : f.curSectOff + 1 = BytePerSector)
    (hpos : f.seekpos + 1 < f.filelength) (hfits : f.seekpos + 1 < 2 ^ 32) :
    ∃ f' d', v.putByte x f d = .ok (f', d') ∧ v.Apart f' d' ∧
      f'.seekpos = f.seekpos + 1 ∧ f'.filelength = f.filelength ∧
      f'.firstCluster = f.firstCluster ∧
      (∀ p, v.fileSector d'.disk f.firstCluster p = v.fileSector d.disk f.firstCluster p) ∧
      f'.curSectOff
        = if v.fileSector d.disk f.firstCluster (f.seekpos + 1) = 0 then BytePerSector else 0 := by
  obtain ⟨d₁, hflush, hcoherent, htable⟩ :=
    h.flush (Function.update f.sectorBuffer f.curSectOff x)
  have hstays : v.StaysInTable d₁.disk f.firstCluster := h.inTable.congr htable
  have hsector : ∀ p, v.fileSector d₁.disk f.firstCluster p
      = v.fileSector d.disk f.firstCluster p := fun p => fileSector_congr htable h.inTable
  have hu : u32 (f.seekpos + 1) = f.seekpos + 1 := u32_of_lt hfits
  set f₁ : FatFile := { f with
    sectorBuffer := Function.update f.sectorBuffer f.curSectOff x
    curSectOff := f.curSectOff + 1
    seekpos := f.seekpos + 1 } with hf₁
  have hreads : Reads v d₁ (v.getAbsoluteSectFromBytePos f.firstCluster (f.seekpos + 1) d₁).2 :=
    getAbsoluteSectFromBytePos_reads
  set d₂ := (v.getAbsoluteSectFromBytePos f.firstCluster (f.seekpos + 1) d₁).2 with hd₂
  have hput : v.putByte x f d = .ok (v.nextSector f₁ d₁) := by
    simp only [putByte, if_pos (show f.curSectOff < BytePerSector by omega),
      if_pos (show BytePerSector ≤ f.curSectOff + 1 by omega), hflush, hu]
    rfl
  have hnext := nextSector_eq (f := f₁) hcoherent hstays
  have hsectors₂ : ∀ p, v.fileSector d₂.disk f.firstCluster p
      = v.fileSector d.disk f.firstCluster p := fun p => by rw [hreads.disk, hsector]
  have hstays₂ : v.StaysInTable d₂.disk f.firstCluster := by rw [hreads.disk]; exact hstays
  have hapart : ∀ f₂ : FatFile, f₂.firstCluster = f.firstCluster → f₂.filelength = f.filelength →
      (f₂.loadedSector = true → ¬ v.TableSector f₂.currentSector) → v.Apart f₂ d₂ := by
    intro f₂ hcluster hlen hcurrent
    refine ⟨hreads.table hcoherent, by rw [hcluster]; exact hstays₂, hcurrent, fun p hp => ?_⟩
    rw [hcluster, hsectors₂]
    exact h.sectors p (by omega)
  rw [hput, hnext]
  by_cases hzero : v.fileSector d.disk f.firstCluster (f.seekpos + 1) = 0
  · have hzero₁ : v.fileSector d₁.disk f₁.firstCluster f₁.seekpos = 0 := by rw [hsector, hzero]
    rw [if_pos hzero₁]
    refine ⟨_, _, rfl, hapart _ rfl rfl (fun hloaded => absurd hloaded (by simp)), rfl, rfl, rfl,
      hsectors₂, ?_⟩
    rw [if_pos hzero]
    exact hoff
  · have hzero₁ : v.fileSector d₁.disk f₁.firstCluster f₁.seekpos ≠ 0 := by rwa [hsector]
    rw [if_neg hzero₁]
    refine ⟨_, _, rfl, hapart _ rfl rfl (fun _ => ?_), rfl, rfl, rfl, hsectors₂, ?_⟩
    · show ¬ v.TableSector (v.fileSector d₁.disk f.firstCluster (f.seekpos + 1))
      rw [hsector]
      exact h.sectors _ hpos hzero
    · rw [if_neg hzero]

theorem writeLoop_below (hpos : f.seekpos < f.filelength) :
    v.writeLoop fuel (x :: data) n f d
      = v.putByte x f d >>= fun r => v.writeLoop fuel data (n + 1) r.1 r.2 := by
  have hroom : v.makeRoom fuel f d = .ok (true, f, d) := if_pos hpos
  rw [writeLoop, hroom]
  rfl

theorem not_cut_of_le {b : ℕ} (hoff : f.curSectOff < BytePerSector)
    (h : min (f.seekpos + n) f.filelength ≤ f.seekpos + 1) : ¬ Cut f n b := by
  rintro ⟨⟨j, rfl⟩, hn, hlen⟩
  have hge : f.seekpos + 1 ≤ f.seekpos + (BytePerSector - f.curSectOff) + BytePerSector * j := by
    omega
  omega

/-- **Below its recorded length** a file that is apart from the table goes out of bounds exactly
if a sector is missing. -/
theorem writeLoop_outOfBounds_iff (h : v.Apart f d) (hin : InBounds f)
    (hpos : f.seekpos < f.filelength) (hfits : f.seekpos + data.length < 2 ^ 32) :
    v.writeLoop fuel data n f d = .error .outOfBounds ↔
      data ≠ [] ∧ ¬ v.SectorsThere f d data.length := by
  induction data generalizing n f d with
  | nil => simp [writeLoop]
  | cons x data ih =>
    rw [List.length_cons] at hfits
    rw [writeLoop_below hpos, List.length_cons]
    by_cases hoff : f.curSectOff < BytePerSector
    swap
    · rw [putByte_of_le (by omega)]
      exact ⟨fun _ => ⟨by simp, fun hthere => hoff hthere.offset⟩, fun _ => rfl⟩
    -- The last byte below the recorded length, or the last byte at all.
    by_cases hlast : f.filelength ≤ f.seekpos + 1 ∨ data = []
    · have hthere : v.SectorsThere f d (data.length + 1) := by
        refine ⟨hoff, fun b hb => absurd hb (not_cut_of_le hoff ?_)⟩
        rcases hlast with hlen | rfl
        · omega
        · simp
      have hsafe : Avoids .outOfBounds
          (v.putByte x f d >>= fun r => v.writeLoop fuel data (n + 1) r.1 r.2)
          fun r => InBounds r.2.2.1 := by
        refine (putByte_inBounds hoff).bind ?_
        rintro ⟨f₁, d₁⟩ ⟨hin₁, hpos₁, hlen₁⟩
        rw [u32_of_lt (by omega)] at hpos₁
        simp only at hpos₁ hlen₁
        show Avoids .outOfBounds (v.writeLoop fuel data (n + 1) f₁ d₁) fun r => InBounds r.2.2.1
        rcases hlast with hlen | rfl
        · exact writeLoop_extending hin₁ (by omega) (by omega) (by omega)
        · exact .ok hin₁
      exact ⟨fun hout => absurd hout hsafe.1, fun hno => absurd hthere hno.2⟩
    obtain ⟨hlen, hdata⟩ := not_or.mp hlast
    have hlength : 0 < data.length := List.length_pos_iff.mpr hdata
    rcases Nat.lt_or_ge (f.curSectOff + 1) BytePerSector with hnext | hfull
    · -- The buffer is not full.
      rw [putByte_of_lt hnext]
      set f₁ : FatFile := { f with
        sectorBuffer := Function.update f.sectorBuffer f.curSectOff x
        curSectOff := f.curSectOff + 1
        seekpos := u32 (f.seekpos + 1) } with hf₁
      have hpos₁ : f₁.seekpos = f.seekpos + 1 := u32_of_lt (by omega)
      have hsame : v.SectorsThere f₁ d data.length ↔ v.SectorsThere f d (data.length + 1) := by
        have hcut : ∀ b, Cut f₁ data.length b ↔ Cut f (data.length + 1) b := by
          intro b
          have hsub : f₁.seekpos + (BytePerSector - f₁.curSectOff)
              = f.seekpos + (BytePerSector - f.curSectOff) := by
            show f₁.seekpos + (BytePerSector - (f.curSectOff + 1)) = _
            omega
          unfold Cut
          rw [hsub, hpos₁, Nat.add_right_comm f.seekpos 1, Nat.add_assoc f.seekpos]
        exact ⟨fun hthere => ⟨hoff, fun b hb => hthere.cuts b ((hcut b).mpr hb)⟩,
          fun hthere => ⟨hnext, fun b hb => hthere.cuts b ((hcut b).mp hb)⟩⟩
      have hih : v.writeLoop fuel data (n + 1) f₁ d = .error .outOfBounds ↔
          data ≠ [] ∧ ¬ v.SectorsThere f₁ d data.length :=
        ih ⟨h.coherent, h.inTable, h.current, h.sectors⟩ ⟨hnext.le, fun _ => hnext⟩
          (by show f₁.seekpos < f.filelength; omega) (by omega)
      rw [hsame] at hih
      exact hih.trans ⟨fun hno => ⟨by simp, hno.2⟩, fun hno => ⟨hdata, hno.2⟩⟩
    · -- The buffer is full: the next byte is at a cut.
      have heq : f.curSectOff + 1 = BytePerSector := by omega
      obtain ⟨f₁, d₁, hput, hapart, hpos₁, hlen₁, hcluster, hsectors, hoff₁⟩ :=
        putByte_of_eq (x := x) h heq (by omega) (by omega)
      have hin₁ : InBounds f₁ := (putByte_inBounds hoff).2 _ hput |>.1
      rw [hput]
      have hih : v.writeLoop fuel data (n + 1) f₁ d₁ = .error .outOfBounds ↔
          data ≠ [] ∧ ¬ v.SectorsThere f₁ d₁ data.length :=
        ih hapart hin₁ (by omega) (by omega)
      have hsame : v.SectorsThere f₁ d₁ data.length ↔ v.SectorsThere f d (data.length + 1) := by
        have hfirst : Cut f (data.length + 1) (f.seekpos + 1) :=
          ⟨⟨0, by omega⟩, by omega, by omega⟩
        by_cases hzero : v.fileSector d.disk f.firstCluster (f.seekpos + 1) = 0
        · rw [if_pos hzero] at hoff₁
          exact ⟨fun hthere => absurd hthere.offset (by omega),
            fun hthere => absurd hzero (hthere.cuts _ hfirst)⟩
        · rw [if_neg hzero] at hoff₁
          have hcut : ∀ b, Cut f (data.length + 1) b ↔
              b = f.seekpos + 1 ∨ Cut f₁ data.length b := by
            intro b
            unfold Cut
            rw [hpos₁, hlen₁, hoff₁]
            constructor
            · rintro ⟨⟨j, rfl⟩, hb, hb'⟩
              cases j with
              | zero => exact .inl (by omega)
              | succ j => exact .inr ⟨⟨j, by rw [Nat.mul_succ]; omega⟩, by omega, by omega⟩
            · rintro (rfl | ⟨⟨j, rfl⟩, hb, hb'⟩)
              · exact hfirst
              · exact ⟨⟨j + 1, by rw [Nat.mul_succ]; omega⟩, by omega, by omega⟩
          constructor
          · intro hthere
            refine ⟨hoff, fun b hb => ?_⟩
            rcases (hcut b).mp hb with rfl | hb
            · exact hzero
            · rw [← hsectors, ← hcluster]
              exact hthere.cuts b hb
          · intro hthere
            refine ⟨by rw [hoff₁]; exact bytePerSector_pos, fun b hb => ?_⟩
            rw [hcluster, hsectors]
            exact hthere.cuts b ((hcut b).mpr (.inr hb))
      rw [hsame] at hih
      exact hih.trans ⟨fun hno => ⟨by simp, hno.2⟩, fun hno => ⟨hdata, hno.2⟩⟩

/-! ## The first write to an empty file -/

/-- The first cluster is taken without the offset being set. -/
theorem makeRoom_empty (fuel : ℕ) (hlen : f.filelength = 0) :
    ∃ room f' d', v.makeRoom fuel f d = .ok (room, f', d') ∧
      (room = true ↔ (v.getFirstFreeClust d).1 ≠ 0) ∧ f'.curSectOff = f.curSectOff ∧
      (room = true → f'.loadedSector = true ∧ f'.seekpos = f.seekpos ∧
        f'.filelength = u32 (f.seekpos + 1)) ∧
      (room = false → f'.loadedSector = f.loadedSector) := by
  unfold makeRoom
  rw [if_neg (by omega)]
  simp only [if_pos hlen, takeFirst]
  by_cases hfree : (v.getFirstFreeClust d).1 = 0
  · simp only [if_pos hfree]
    exact ⟨_, _, _, rfl, by simp [hfree], rfl, fun hroom => absurd hroom (by simp), fun _ => rfl⟩
  · simp only [if_neg hfree, findRoom, if_true]
    exact ⟨_, _, _, rfl, by simp [hfree], rfl, fun _ => ⟨rfl, rfl, rfl⟩,
      fun hroom => absurd hroom (by simp)⟩

theorem writeLoop_empty_iff (hlen : f.filelength = 0) (hfits : f.seekpos + data.length < 2 ^ 32) :
    v.writeLoop fuel data n f d = .error .outOfBounds ↔
      data ≠ [] ∧ (v.getFirstFreeClust d).1 ≠ 0 ∧ BytePerSector ≤ f.curSectOff := by
  cases data with
  | nil => simp [writeLoop]
  | cons x data =>
    rw [List.length_cons] at hfits
    obtain ⟨room, f₁, d₁, hroom, hfree, hoff, htrue, -⟩ :=
      makeRoom_empty (v := v) (d := d) fuel hlen
    rw [writeLoop, hroom, ← hfree]
    cases room with
    | false =>
      have hdone : (.ok (false, n, f₁, d₁) : Call (Bool × ℕ × FatFile × Drive))
          ≠ .error .outOfBounds := by simp
      exact ⟨fun hout => absurd hout hdone, fun h => absurd h.2.1 (by simp)⟩
    | true =>
      obtain ⟨hloaded, hpos₁, hlen₁⟩ := htrue rfl
      have hu : u32 (f.seekpos + 1) = f.seekpos + 1 := u32_of_lt (by omega)
      show (v.putByte x f₁ d₁ >>= fun r => v.writeLoop fuel data (n + 1) r.1 r.2)
        = .error .outOfBounds ↔ _
      by_cases hin : f₁.curSectOff < BytePerSector
      · have hsafe : Avoids .outOfBounds
            (v.putByte x f₁ d₁ >>= fun r => v.writeLoop fuel data (n + 1) r.1 r.2)
            fun r => InBounds r.2.2.1 := by
          refine (putByte_inBounds hin).bind ?_
          rintro ⟨f₂, d₂⟩ ⟨hin₂, hpos₂, hlen₂⟩
          simp only at hpos₂ hlen₂
          rw [hpos₁, hu] at hpos₂
          rw [hlen₁, hu] at hlen₂
          show Avoids .outOfBounds (v.writeLoop fuel data (n + 1) f₂ d₂) fun r => InBounds r.2.2.1
          exact writeLoop_extending hin₂ (by omega) (by omega) (by omega)
        exact ⟨fun hout => absurd hout hsafe.1, fun h => absurd h.2.2 (by omega)⟩
      · rw [putByte_of_le (by omega)]
        exact ⟨fun _ => ⟨by simp, rfl, by omega⟩, fun _ => rfl⟩

/-! ## What the calls keep -/

theorem makeRoom_ok {room : Bool} (h : InBounds f) (hok : v.makeRoom fuel f d = .ok (room, f', d')) :
    InBounds f' ∨ room = true := by
  by_cases hpos : f.seekpos < f.filelength
  · have hroom : v.makeRoom fuel f d = .ok (true, f, d) := if_pos hpos
    rw [hroom] at hok
    cases hok
    exact .inl h
  · by_cases hlen : f.filelength = 0
    · obtain ⟨room₁, f₁, d₁, hroom, -, hoff, -, hfalse⟩ :=
        makeRoom_empty (v := v) (d := d) fuel hlen
      rw [hroom] at hok
      cases hok
      cases room with
      | false =>
        refine .inl ⟨by rw [hoff]; exact h.le, fun hloaded => ?_⟩
        rw [hoff]
        exact h.lt (by rwa [hfalse rfl] at hloaded)
      | true => exact .inr rfl
    · exact .inl ((makeRoom_inBounds h hlen (by omega)).2 _ hok).1

theorem putByte_ok (hok : v.putByte x f d = .ok (f', d')) : InBounds f' := by
  by_cases hoff : f.curSectOff < BytePerSector
  · exact ((putByte_inBounds hoff).2 _ hok).1
  · rw [putByte_of_le (by omega)] at hok
    cases hok

theorem writeLoop_ok {r : Bool × ℕ × FatFile × Drive} (h : InBounds f)
    (hok : v.writeLoop fuel data n f d = .ok r) : InBounds r.2.2.1 := by
  induction data generalizing n f d with
  | nil =>
    cases hok
    exact h
  | cons x data ih =>
    rw [writeLoop] at hok
    obtain ⟨⟨room, f₁, d₁⟩, hroom, hok⟩ := bind_ok.mp hok
    cases room with
    | false =>
      have hin := (makeRoom_ok h hroom).resolve_right (by simp)
      cases hok
      exact hin
    | true =>
      obtain ⟨⟨f₂, d₂⟩, hput, hok⟩ := bind_ok.mp hok
      exact ih (putByte_ok hput) hok

theorem takeFirst_inBounds (h : InBounds f) : InBounds (v.takeFirst f d).2.1 ∧
    (v.takeFirst f d).2.1.seekpos = f.seekpos := by
  simp only [takeFirst]
  split_ifs <;> exact ⟨⟨h.le, h.lt⟩, rfl⟩

theorem extendStep_inBounds {s' : FatFile × Drive} (h : InBounds s.1 ∧ s.1.seekpos = pos)
    (hstep : v.extendStep fuel s = .inl s') :
    InBounds s'.1 ∧ s'.1.seekpos = pos := by
  simp only [extendStep] at hstep
  split_ifs at hstep with hlt
  split at hstep
  · cases hstep
  · split_ifs at hstep
    obtain rfl := (Sum.inl.inj hstep).symm
    exact ⟨⟨h.1.le, h.1.lt⟩, h.2⟩

theorem extendStep_leaves {a : Option (Bool × FatFile × Drive)}
    (h : InBounds s.1 ∧ s.1.seekpos = pos) (hstep : v.extendStep fuel s = .inr a) :
    ∀ r, a = some r → InBounds r.2.1 ∧ r.2.1.seekpos = pos ∧
      (r.1 = true → pos ≤ r.2.1.filelength) := by
  simp only [extendStep] at hstep
  rintro r rfl
  by_cases hlt : s.1.filelength < s.1.seekpos
  · rw [if_pos hlt] at hstep
    split at hstep
    · cases hstep
    · split_ifs at hstep
      cases hstep
      exact ⟨h.1, h.2, fun hroom => absurd hroom (by simp)⟩
  · rw [if_neg hlt] at hstep
    cases hstep
    exact ⟨h.1, h.2, fun _ => by show pos ≤ s.1.filelength; omega⟩

/-- Extending a file moves its end to the position. -/
theorem extendTo_inBounds (h : InBounds f) : Avoids .outOfBounds (v.extendTo fuel f d) fun r =>
    InBounds r.2.1 ∧ (r.1 = true → r.2.1.seekpos = f.seekpos ∧ r.2.1.filelength = f.seekpos) := by
  unfold extendTo
  set f₁ : FatFile := { f with
    filelength := u32 (((f.filelength - 1) / v.getClusterSize + 1) * v.getClusterSize) } with hf₁
  have hstart : InBounds (f₁, d).1 ∧ (f₁, d).1.seekpos = f.seekpos := ⟨⟨h.le, h.lt⟩, rfl⟩
  have hloop : Avoids .outOfBounds (finished (Loop.run (v.extendStep fuel) fuel (f₁, d)).join)
      fun r => InBounds r.2.1 ∧ r.2.1.seekpos = f.seekpos ∧
        (r.1 = true → f.seekpos ≤ r.2.1.filelength) := by
    cases hrun : Loop.run (v.extendStep fuel) fuel (f₁, d) with
    | none => exact .error (by simp)
    | some a =>
      have hpost := Loop.run_post (fun s : FatFile × Drive => InBounds s.1 ∧ s.1.seekpos = f.seekpos)
        (fun _ _ hs hstep => extendStep_inBounds hs hstep)
        (fun _ _ hs hstep => extendStep_leaves hs hstep) hstart hrun
      cases a with
      | none => exact .error (by simp)
      | some r => exact .ok (hpost r rfl)
  refine hloop.bind ?_
  rintro ⟨room, f₂, d₂⟩ ⟨hin, hpos, hlen⟩
  simp only at hin hpos hlen
  cases room with
  | false => exact .ok ⟨hin, fun hroom => absurd hroom (by simp)⟩
  | true =>
    have hle := hlen rfl
    refine .ok ⟨?_, fun _ => ?_⟩
    · show InBounds (if f₂.seekpos < f₂.filelength
        then { f₂ with filelength := f₂.seekpos } else f₂)
      split_ifs
      · exact ⟨hin.le, hin.lt⟩
      · exact hin
    · show (if f₂.seekpos < f₂.filelength
          then { f₂ with filelength := f₂.seekpos } else f₂).seekpos = f.seekpos ∧
        (if f₂.seekpos < f₂.filelength
          then { f₂ with filelength := f₂.seekpos } else f₂).filelength = f.seekpos
      split_ifs with hlt
      · exact ⟨hpos, hpos⟩
      · exact ⟨hpos, by omega⟩

theorem extend_inBounds (h : InBounds f) : Avoids .outOfBounds (v.extend fuel f d) fun r =>
    InBounds r.2.1 ∧ (r.1 = true → r.2.1.seekpos = f.seekpos ∧ r.2.1.filelength = f.seekpos) := by
  unfold extend
  by_cases hlen : f.filelength = 0
  · rw [if_pos hlen]
    obtain ⟨htaken, hpos⟩ := takeFirst_inBounds (v := v) (d := d) h
    generalize v.takeFirst f d = x at htaken hpos ⊢
    obtain ⟨room, f₁, d₁⟩ := x
    simp only at htaken hpos ⊢
    cases room with
    | false => exact .ok ⟨htaken, fun hroom => absurd hroom (by simp)⟩
    | true =>
      rw [if_pos rfl, ← hpos]
      exact extendTo_inBounds ⟨htaken.le, htaken.lt⟩
  · rw [if_neg hlen]
    exact extendTo_inBounds h

theorem truncate_inBounds (fuel : ℕ) (h : InBounds f) :
    Avoids .outOfBounds (v.truncate fuel f d) fun r => InBounds r.1 := by
  have hfree : Avoids .outOfBounds (v.freeTail fuel f d) fun _ => True := by
    unfold freeTail
    split_ifs
    · cases v.deleteClustChain fuel f.firstCluster f.seekpos d with
      | none => exact .error (by simp)
      | some d₁ => exact .ok trivial
    · exact .ok trivial
  refine hfree.bind fun d₁ _ => .ok ?_
  split_ifs
  · exact ⟨h.le, h.lt⟩
  · exact ⟨h.le, h.lt⟩

/-! ## Which writes go out of bounds -/

/-- The file was not opened for reading only. -/
def MayWrite (f : FatFile) : Prop :=
  ¬ (f.flags &&& 0xf = OPEN_READ ∨ f.flags &&& 0xf = OPEN_READ_NO_MOD)

/-- The sectors that a call needs are there: those below the recorded length for a write, and
an offset in the buffer for the first write to an empty file. -/
def Backed (v : Volume) (s : FatFile × Drive) : Op → Prop
  | .Write data _ _ => MayWrite s.1 → data ≠ [] →
      (s.1.seekpos < s.1.filelength → v.SectorsThere s.1 s.2 data.length) ∧
      (s.1.seekpos = 0 → s.1.filelength = 0 → (v.getFirstFreeClust s.2).1 ≠ 0 →
        s.1.curSectOff < BytePerSector)
  | _ => True

/-- A write below the recorded length is one to a file apart from the table, and positions stay
below `2 ^ 32`. -/
def Separate (v : Volume) (s : FatFile × Drive) : Op → Prop
  | .Write data _ _ => s.1.seekpos + data.length < 2 ^ 32 ∧
      (s.1.seekpos < s.1.filelength → v.Apart s.1 s.2)
  | _ => True

theorem writeBytes_outOfBounds_iff {modTime modDate : UInt16} :
    v.writeBytes fuel data modTime modDate f d = .error .outOfBounds ↔
      v.writeLoop fuel data 0 f d = .error .outOfBounds := by
  unfold writeBytes
  rw [bind_error]
  constructor
  · rintro (herr | ⟨r, -, hr⟩)
    · exact herr
    · cases hr
  · exact .inl

/-- **A write goes out of bounds exactly if it is not backed.** -/
theorem Write_outOfBounds_iff {modTime modDate : UInt16} (h : InBounds f)
    (hsep : v.Separate (f, d) (.Write data modTime modDate)) :
    v.Write fuel data modTime modDate f d = .error .outOfBounds ↔
      ¬ v.Backed (f, d) (.Write data modTime modDate) := by
  obtain ⟨hfits, hapart⟩ := hsep
  simp only at hfits hapart
  have hbacked : v.Backed (f, d) (.Write data modTime modDate) ↔ (MayWrite f → data ≠ [] →
      (f.seekpos < f.filelength → v.SectorsThere f d data.length) ∧
      (f.seekpos = 0 → f.filelength = 0 → (v.getFirstFreeClust d).1 ≠ 0 →
        f.curSectOff < BytePerSector)) := Iff.rfl
  rw [hbacked]
  unfold Write
  by_cases hrights : f.flags &&& 0xf = OPEN_READ ∨ f.flags &&& 0xf = OPEN_READ_NO_MOD
  · rw [if_pos hrights]
    exact ⟨fun hout => (by cases hout), fun hno => absurd (fun hmay => absurd hrights hmay) hno⟩
  rw [if_neg hrights]
  by_cases htruncate : f.seekpos < f.filelength ∧ data = []
  · rw [if_pos htruncate]
    have hsafe := (truncate_inBounds (v := v) (d := d) fuel h).bind
      fun r _ => .ok (Q := fun _ => True)
        (a := (some 0, r.1, v.finalizeWrite modTime modDate r.1 r.2)) trivial
    exact ⟨fun hout => absurd hout hsafe.1,
      fun hno => absurd (fun _ hdata => absurd htruncate.2 hdata) hno⟩
  rw [if_neg htruncate]
  by_cases hextend : f.filelength < f.seekpos
  · rw [if_pos hextend]
    have hsafe : Avoids .outOfBounds (v.extend fuel f d >>= fun r =>
        if !r.1 ∨ data = [] then
          pure (some 0, r.2.1, v.finalizeWrite modTime modDate r.2.1 r.2.2)
        else
          v.writeBytes fuel data modTime modDate r.2.1 r.2.2) fun _ => True := by
      refine (extend_inBounds h).bind ?_
      rintro ⟨room, f₁, d₁⟩ ⟨hin, hroom⟩
      by_cases hstop : (!room) = true ∨ data = []
      · simp only [if_pos hstop]
        exact .ok trivial
      · simp only [if_neg hstop]
        obtain ⟨hpos₁, hlen₁⟩ := hroom (by simpa using (not_or.mp hstop).1)
        refine ⟨fun hout => ?_, fun _ _ => trivial⟩
        exact (writeLoop_extending hin (by omega) (by omega) (by omega)).1
          (writeBytes_outOfBounds_iff.mp hout)
    exact ⟨fun hout => absurd hout hsafe.1, fun hno =>
      absurd (fun _ _ => ⟨fun hlt => absurd hlt (by omega), fun hzero => absurd hzero (by omega)⟩)
        hno⟩
  rw [if_neg hextend, writeBytes_outOfBounds_iff]
  rcases Nat.lt_or_ge f.seekpos f.filelength with hbelow | hend
  · rw [writeLoop_outOfBounds_iff (hapart hbelow) h hbelow hfits]
    constructor
    · rintro ⟨hdata, hno⟩ hall
      exact hno ((hall hrights hdata).1 hbelow)
    · intro hno
      refine ⟨fun hdata => htruncate ⟨hbelow, hdata⟩, fun hthere => hno fun _ _ => ?_⟩
      exact ⟨fun _ => hthere, fun _ hzero => absurd hzero (by omega)⟩
  · by_cases hempty : f.filelength = 0
    · rw [writeLoop_empty_iff hempty hfits]
      constructor
      · rintro ⟨hdata, hfree, hoff⟩ hall
        exact absurd ((hall hrights hdata).2 (by omega) hempty hfree) (by omega)
      · intro hno
        by_contra hnot
        refine hno fun _ hdata => ⟨fun hlt => absurd hlt (by omega), fun _ _ hfree => ?_⟩
        by_contra hoff
        exact hnot ⟨hdata, hfree, by omega⟩
    · have hsafe : Avoids .outOfBounds (v.writeLoop fuel data 0 f d) fun r => InBounds r.2.2.1 :=
        writeLoop_extending h hempty hend hfits
      refine ⟨fun hout => absurd hout hsafe.1, fun hno => absurd (fun _ _ => ?_) hno⟩
      exact ⟨fun hlt => absurd hlt (by omega), fun _ hzero => absurd hzero hempty⟩

theorem Write_ok {modTime modDate : UInt16} {r : Option ℕ × FatFile × Drive} (h : InBounds f)
    (hok : v.Write fuel data modTime modDate f d = .ok r) : InBounds r.2.1 := by
  have hbytes : ∀ {f d}, InBounds f → v.writeBytes fuel data modTime modDate f d = .ok r →
      InBounds r.2.1 := by
    intro f d hin hok
    unfold writeBytes at hok
    obtain ⟨⟨complete, sizecount, f₁, d₁⟩, hloop, hr⟩ := bind_ok.mp hok
    simp only [pure_ok] at hr
    have hin' : InBounds f₁ := writeLoop_ok hin hloop
    rwa [← hr]
  unfold Write at hok
  by_cases hrights : f.flags &&& 0xf = OPEN_READ ∨ f.flags &&& 0xf = OPEN_READ_NO_MOD
  · rw [if_pos hrights] at hok
    cases hok
    exact h
  rw [if_neg hrights] at hok
  by_cases htruncate : f.seekpos < f.filelength ∧ data = []
  · rw [if_pos htruncate] at hok
    obtain ⟨⟨f₁, d₁⟩, hcut, hr⟩ := bind_ok.mp hok
    simp only [pure_ok] at hr
    have hin' : InBounds f₁ := (truncate_inBounds fuel h).2 _ hcut
    rwa [← hr]
  rw [if_neg htruncate] at hok
  by_cases hextend : f.filelength < f.seekpos
  · rw [if_pos hextend] at hok
    obtain ⟨⟨room, f₁, d₁⟩, hext, hr⟩ := bind_ok.mp hok
    obtain ⟨hin, -⟩ := (extend_inBounds h).2 _ hext
    by_cases hstop : (!room) = true ∨ data = []
    · simp only [if_pos hstop, pure_ok] at hr
      rwa [← hr]
    · simp only [if_neg hstop] at hr
      exact hbytes hin hr
  · rw [if_neg hextend] at hok
    exact hbytes h hok

/-! ## Runs -/

theorem step_inBounds {s' : FatFile × Drive} {op : Op} (h : InBounds s.1)
    (hok : v.step fuel s op = .ok s') : InBounds s'.1 := by
  cases op with
  | Seek pos type =>
    cases hok
    exact locate_inBounds ⟨h.le, h.lt⟩
  | Read size =>
    obtain ⟨r, hread, hr⟩ := bind_ok.mp hok
    cases hr
    exact (Read_inBounds h).2 _ hread
  | Write data modTime modDate =>
    obtain ⟨r, hwrite, hr⟩ := bind_ok.mp hok
    cases hr
    exact Write_ok h hwrite

theorem step_outOfBounds_iff {op : Op} (fuel : ℕ) (h : InBounds s.1) (hsep : v.Separate s op) :
    v.step fuel s op = .error .outOfBounds ↔ ¬ v.Backed s op := by
  cases op with
  | Seek pos type =>
    have hdone : v.step fuel s (.Seek pos type) ≠ .error .outOfBounds := by simp [step]
    exact ⟨fun hout => absurd hout hdone, fun hno => absurd trivial hno⟩
  | Read size =>
    have hsafe : Avoids .outOfBounds (v.step fuel s (.Read size)) fun _ => True :=
      (Read_inBounds h).bind fun r _ => .ok trivial
    exact ⟨fun hout => absurd hout hsafe.1, fun hno => absurd trivial hno⟩
  | Write data modTime modDate =>
    rw [← Write_outOfBounds_iff h hsep]
    constructor
    · intro hout
      rcases bind_error.mp hout with herr | ⟨r, -, hr⟩
      · exact herr
      · cases hr
    · exact fun hout => bind_error.mpr (.inl hout)

/-- A property of each call of a run, in the state in which it comes. -/
def Throughout (v : Volume) (fuel : ℕ) (P : FatFile × Drive → Op → Prop) :
    List Op → FatFile × Drive → Prop
  | [], _ => True
  | op :: ops, s => P s op ∧ ∀ s', v.step fuel s op = .ok s' → Throughout v fuel P ops s'

theorem run_iff {ops : List Op} (h : InBounds s.1) (hsep : v.Throughout fuel v.Separate ops s) :
    v.run fuel ops s ≠ .error .outOfBounds ↔ v.Throughout fuel v.Backed ops s := by
  induction ops generalizing s with
  | nil => exact ⟨fun _ => trivial, fun _ => by simp [run]⟩
  | cons op ops ih =>
    obtain ⟨hop, hrest⟩ := hsep
    have hstep := step_outOfBounds_iff fuel h hop
    constructor
    · intro hrun
      refine ⟨by_contra fun hno => hrun ?_, fun s' hs' => ?_⟩
      · exact bind_error.mpr (.inl (hstep.mpr hno))
      · exact (ih (step_inBounds h hs') (hrest s' hs')).mp
          fun hout => hrun (bind_error.mpr (.inr ⟨s', hs', hout⟩))
    · rintro ⟨hbacked, hall⟩ hout
      rcases bind_error.mp hout with herr | ⟨s', hs', herr⟩
      · exact absurd hbacked (hstep.mp herr)
      · exact (ih (step_inBounds h hs') (hrest s' hs')).mpr (hall s' hs') herr

/-- **The calls on a file stay inside the sector buffer exactly if each of them is backed.** -/
theorem run_in_bounds_iff (v : Volume) (fuel : ℕ) (name : CString) (flags : UInt8)
    (IsReadOnly : Bool) (f : FatFile) (d d' : Drive) (ops : List Op)
    (hopen : v.FileOpen fuel name flags IsReadOnly d = some (some f, d'))
    (hsep : v.Throughout fuel v.Separate ops (f, d')) :
    v.run fuel ops (f, d') ≠ .error .outOfBounds ↔ v.Throughout fuel v.Backed ops (f, d') :=
  run_iff (FileOpen_inBounds hopen) hsep

/-- A floppy with a file of 2000 bytes, by its entry, and one cluster. -/
def longEntry : Disk := fun s k =>
  if s = 1 then
    if k = 3 then 0xff else if k = 4 then 0x0f else 0
  else if s = 19 then
    match k with
    | 0 => 0x46
    | 11 => 0x20
    | 26 => 2
    | 28 => 0xd0
    | 29 => 0x07
    | k => if k < 11 then 0x20 else 0
  else 0

theorem run_in_bounds_iff_longEntry : ∃ f d', floppy1440.FileOpen 1 [0x46] OPEN_READWRITE false
      (Drive.mounted longEntry) = some (some f, d') ∧
    (floppy1440.run 1 [.Seek 2000 .DOS_SEEK_SET, .Write [0x2a] 0 0] (f, d') ≠ .error .outOfBounds ↔
      floppy1440.Throughout 1 floppy1440.Backed
        [.Seek 2000 .DOS_SEEK_SET, .Write [0x2a] 0 0] (f, d')) := by
  have hlen : (floppy1440.FileOpen 1 [0x46] OPEN_READWRITE false (Drive.mounted longEntry)).map
      (fun r => r.1.map FatFile.filelength) = some (some 2000) := by decide
  obtain ⟨⟨found, d'⟩, hopen, hfound⟩ := Option.map_eq_some_iff.mp hlen
  obtain ⟨f, rfl, hlength⟩ := Option.map_eq_some_iff.mp hfound
  refine ⟨f, d', hopen, run_in_bounds_iff floppy1440 1 [0x46] OPEN_READWRITE false f _ d' _ hopen
    ⟨trivial, fun s hs => ⟨?_, fun _ _ => trivial⟩⟩⟩
  have hplace : SamePlace { f with seekpos := seekTarget 2000 .DOS_SEEK_SET f } s.1 := by
    rw [← Except.ok.inj hs]
    exact locate_samePlace
  have htarget : seekTarget 2000 .DOS_SEEK_SET f = 2000 := by
    show (i32 2000).toNat = 2000
    decide
  have hpos : s.1.seekpos = 2000 := hplace.seekpos.trans htarget
  have hend : s.1.filelength = 2000 := hplace.filelength.trans hlength
  refine ⟨?_, fun hbelow => absurd hbelow (by omega)⟩
  rw [hpos]
  decide

/-- What becomes of a run on a file. -/
def outcome (v : Volume) (fuel : ℕ) (name : CString) (flags : UInt8) (ops : List Op) (d : Drive) :
    Option (Option Fault) :=
  match v.FileOpen fuel name flags false d with
  | some (some f, d) =>
    match v.run fuel ops (f, d) with
    | .ok _ => some none
    | .error fault => some (some fault)
  | _ => none

theorem write_out_of_bounds : floppy1440.outcome 1 [0x46] OPEN_READWRITE
    [.Seek 511 .DOS_SEEK_SET, .Write [0, 0] 0 0] (Drive.mounted longEntry)
      = some (some .outOfBounds) := by
  decide

end Volume

end AugraDosbox.Fat
