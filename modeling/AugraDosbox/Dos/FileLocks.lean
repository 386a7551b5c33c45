import Mathlib.Logic.Relation
import AugraDosbox.Dos.Files

/-!
# Region locks

`regions_overlap`, `region_is_locked` and the calls of `src/dos/dos_files.cpp` that lock, unlock,
read, write and seek.

* `FileIo` — the virtual functions of the objects of files;
* `LockedBy`, `Exclusive` — the bytes that are locked through a slot, and that no byte is locked
  through two slots of one file;
* `Clean` — no sum of a position and a length wraps, and no name is missing, where ranges meet;
* **`locks_exclusive`** — the locks exclude each other, and keep readers and writers out, in every
  run of such calls.
-/

namespace AugraDosbox.Files

open Fat

def DOS_SEEK_SET : ℕ := 0
def DOS_SEEK_CUR : ℕ := 1
def DOS_SEEK_END : ℕ := 2

/-- What the objects of open files do.  `Seek` gives the new position when it succeeds, `Read` and
`Write` what they transfer; `position` is where they transfer it. -/
structure FileIo (W F : Type) where
  position : W → F → ℕ
  Seek : W → F → ℕ → ℕ → W × F × Option ℕ
  Read : W → F → UInt8 → ℕ → W × F × Bool × List UInt8
  Write : W → F → UInt8 → List UInt8 → W × F × Bool × ℕ

variable {W F : Type}

/-- `regions_overlap`; the sums are 32-bit ones. -/
def regions_overlap (pos1 len1 pos2 len2 : ℕ) : Bool :=
  !((pos2 + len2) % 2 ^ 32 ≤ pos1 || (pos1 + len1) % 2 ^ 32 ≤ pos2)

/-- `region_is_locked`, for a slot with its file. -/
def region_is_locked (s : State W F) (file_handle : ℕ) (file : DOS_File F) (pos len : ℕ) : Bool :=
  s.file_locking && (List.range DOS_FILES).any fun i =>
    match s.Files i with
    | none => false
    | some f => i ≠ file_handle && f.hdrive = file.hdrive && f.IsName file.name &&
        f.region_locks.any fun lock => regions_overlap pos len lock.pos lock.len

/-- The slot that a call works on, with its file. -/
def slotOf (s : State W F) (entry : ℕ) (fcb : Bool) : Option (ℕ × DOS_File F) :=
  let handle := if fcb then entry else (s.psp.GetFileHandle entry).toNat
  if DOS_FILES ≤ handle then none else (s.Files handle).map (handle, ·)

/-! ## The calls -/

def DOS_LockFile (s : State W F) (entry : ℕ) (pos len : UInt32) : Bool × State W F :=
  if !s.file_locking then (false, s.DOS_SetError .FUNCTION_NUMBER_INVALID)
  else
    match slotOf s entry false with
    | none => (false, s.DOS_SetError .INVALID_HANDLE)
    | some (handle, file) =>
        if region_is_locked s handle file pos.toNat len.toNat then
          (false, s.DOS_SetError .LOCK_VIOLATION)
        else
          let lock : FileRegionLock := ⟨pos.toNat, len.toNat⟩
          (true, s.setFile handle (some { file with region_locks := file.region_locks ++ [lock] }))

def DOS_UnlockFile (s : State W F) (entry : ℕ) (pos len : UInt32) : Bool × State W F :=
  if !s.file_locking then (false, s.DOS_SetError .FUNCTION_NUMBER_INVALID)
  else
    match slotOf s entry false with
    | none => (false, s.DOS_SetError .INVALID_HANDLE)
    | some (handle, file) =>
        let lock : FileRegionLock := ⟨pos.toNat, len.toNat⟩
        if lock ∈ file.region_locks then
          (true, s.setFile handle (some { file with region_locks := file.region_locks.erase lock }))
        else (false, s.DOS_SetError .LOCK_VIOLATION)

/-- The file in a slot after one of its functions has run. -/
def State.ranFile (s : State W F) (handle : ℕ) (file : DOS_File F) (world : W) (object : F) :
    State W F :=
  { s with world := world }.setFile handle (some { file with object := object })

/-- `DOS_ReadFile`: whether it succeeds, and the bytes. -/
def DOS_ReadFile (io : FileIo W F) (s : State W F) (entry amount : ℕ) (fcb : Bool) :
    (Bool × List UInt8) × State W F :=
  match slotOf s entry fcb with
  | none => ((false, []), s.DOS_SetError .INVALID_HANDLE)
  | some (handle, file) =>
      let (world, object, pos) := io.Seek s.world file.object 0 DOS_SEEK_CUR
      let s := s.ranFile handle file world object
      if region_is_locked s handle file (pos.getD 0) amount then
        ((false, []), s.DOS_SetError .ACCESS_DENIED)
      else
        let (world, object, ret) := io.Read world object file.flags amount
        (ret, s.ranFile handle file world object)

/-- `DOS_WriteFile`: whether it succeeds, and how many bytes are written. -/
def DOS_WriteFile (io : FileIo W F) (s : State W F) (entry : ℕ) (data : List UInt8) (fcb : Bool) :
    (Bool × ℕ) × State W F :=
  match slotOf s entry fcb with
  | none => ((false, 0), s.DOS_SetError .INVALID_HANDLE)
  | some (handle, file) =>
      let (world, object, pos) := io.Seek s.world file.object 0 DOS_SEEK_CUR
      let s := s.ranFile handle file world object
      if region_is_locked s handle file (pos.getD 0) data.length then
        ((false, 0), s.DOS_SetError .ACCESS_DENIED)
      else
        let (world, object, ret) := io.Write world object file.flags data
        (ret, s.ranFile handle file world object)

/-- `DOS_SeekFile`: the new position. -/
def DOS_SeekFile (io : FileIo W F) (s : State W F) (entry : ℕ) (pos : UInt32) (type : ℕ)
    (fcb : Bool) : Option ℕ × State W F :=
  if DOS_SEEK_END < type then (none, s.DOS_SetError .FUNCTION_NUMBER_INVALID)
  else
    match slotOf s entry fcb with
    | none => (none, s.DOS_SetError .INVALID_HANDLE)
    | some (handle, file) =>
        let (world, object, ret) := io.Seek s.world file.object pos.toNat type
        (ret, s.ranFile handle file world object)

/-! ## Locked bytes -/

/-- The locks that are held through a slot. -/
def locksOf (s : State W F) (handle : ℕ) : List FileRegionLock :=
  match s.Files handle with
  | none => []
  | some file => file.region_locks

/-- A byte of the file is in a range. -/
def FileRegionLock.Covers (lock : FileRegionLock) (x : ℕ) : Prop :=
  lock.pos ≤ x ∧ x < lock.pos + lock.len

/-- A byte of the file is locked through a slot. -/
def LockedBy (s : State W F) (handle x : ℕ) : Prop := ∃ lock ∈ locksOf s handle, lock.Covers x

/-- Two slots are open on one file; `opened` are the names that they have been opened with. -/
structure SameFile (opened : ℕ → CString) (s : State W F) (i j : ℕ) : Prop where
  slots : i < DOS_FILES ∧ j < DOS_FILES
  drive : ∃ f g, s.Files i = some f ∧ s.Files j = some g ∧ f.hdrive = g.hdrive
  name : strcasecmp (opened i) (opened j)

variable {i : ℕ} {range : FileRegionLock}

theorem SameFile.symm {opened : ℕ → CString} {s : State W F} {j : ℕ} (h : SameFile opened s i j) :
    SameFile opened s j i := by
  obtain ⟨f, g, hf, hg, hdrive⟩ := h.drive
  have hname := h.name
  rw [strcasecmp, decide_eq_true_eq] at hname
  exact ⟨h.slots.symm, ⟨g, f, hg, hf, hdrive.symm⟩, by simp [strcasecmp, hname]⟩

/-- No byte is locked through two slots of one file. -/
def Exclusive (opened : ℕ → CString) (s : State W F) : Prop :=
  ∀ i j, i ≠ j → SameFile opened s i j → ∀ x, ¬ (LockedBy s i x ∧ LockedBy s j x)

/-- The files have the names that they have been opened with, or none. -/
def Named (opened : ℕ → CString) (s : State W F) : Prop :=
  ∀ i f, s.Files i = some f → f.name = [] ∨ f.name = opened i

/-- A range is free of locks that are held through other slots of the file. -/
def FreeOfOthers (opened : ℕ → CString) (s : State W F) (handle : ℕ) (range : FileRegionLock) :
    Prop :=
  ∀ j, handle ≠ j → SameFile opened s handle j → ∀ x, range.Covers x → ¬ LockedBy s j x

/-- Where a range meets a lock of another slot of the file, both end below 2 ^ 32 and both files
have their names. -/
def Clean (opened : ℕ → CString) (s : State W F) (handle : ℕ) (file : DOS_File F)
    (range : FileRegionLock) : Prop :=
  ∀ j g, handle ≠ j → SameFile opened s handle j → s.Files j = some g →
    ∀ lock ∈ g.region_locks, (∃ x, range.Covers x ∧ lock.Covers x) →
      (file.name ≠ [] ∧ g.name ≠ []) ∧
        range.pos + range.len < 2 ^ 32 ∧ lock.pos + lock.len < 2 ^ 32

/-- Ranges that meet overlap when no sum wraps. -/
theorem regions_overlap_of_meet {r l : FileRegionLock} {x : ℕ} (hr : r.Covers x) (hl : l.Covers x)
    (hrlt : r.pos + r.len < 2 ^ 32) (hllt : l.pos + l.len < 2 ^ 32) :
    regions_overlap r.pos r.len l.pos l.len = true := by
  have h₁ := hr.1
  have h₂ := hr.2
  have h₃ := hl.1
  have h₄ := hl.2
  have hnot₁ : ¬ l.pos + l.len ≤ r.pos := by omega
  have hnot₂ : ¬ r.pos + r.len ≤ l.pos := by omega
  rw [regions_overlap, Nat.mod_eq_of_lt hrlt, Nat.mod_eq_of_lt hllt]
  simp [hnot₁, hnot₂]

/-- **The check lets no range pass that meets a lock of another slot**, when the range is clean. -/
theorem freeOfOthers_of_unlocked {opened : ℕ → CString} {s : State W F} {handle : ℕ}
    {file : DOS_File F} (hon : s.file_locking = true) (hnamed : Named opened s)
    (hfile : s.Files handle = some file) (hclean : Clean opened s handle file range)
    (hcheck : region_is_locked s handle file range.pos range.len = false) :
    FreeOfOthers opened s handle range := by
  rintro j hne hsame x hx ⟨lock, hlock, hcovers⟩
  obtain ⟨f, g, hf, hg, hdrive⟩ := hsame.drive
  rw [hfile] at hf
  cases hf
  rw [locksOf, hg] at hlock
  obtain ⟨⟨hname₁, hname₂⟩, hlt₁, hlt₂⟩ := hclean j g hne hsame hg lock hlock ⟨x, hx, hcovers⟩
  -- the names are the ones that the slots have been opened with
  have hfilename := (hnamed handle file hfile).resolve_left hname₁
  have hgname := (hnamed j g hg).resolve_left hname₂
  have hmatch : g.IsName file.name = true := by
    have hopened := hsame.name
    rw [strcasecmp, decide_eq_true_eq] at hopened
    rw [DOS_File.IsName, hfilename, hgname, strcasecmp, hopened]
    rw [hgname] at hname₂
    simp [hname₂]
  have hover := regions_overlap_of_meet hx hcovers hlt₁ hlt₂
  rw [region_is_locked, hon, Bool.true_and, List.any_eq_false] at hcheck
  refine hcheck j (List.mem_range.2 hsame.slots.2) ?_
  rw [hg]
  simp only [Bool.and_eq_true, decide_eq_true_eq, List.any_eq_true]
  exact ⟨⟨⟨Ne.symm hne, hdrive.symm⟩, hmatch⟩, lock, hlock, hover⟩

/-! ## What the calls change -/

variable {s s' : State W F} {handle : ℕ} {file : DOS_File F} {opened : ℕ → CString}

theorem slotOf_spec {entry : ℕ} {fcb : Bool} (h : slotOf s entry fcb = some (handle, file)) :
    s.Files handle = some file := by
  rw [slotOf] at h
  generalize (if fcb = true then entry else (s.psp.GetFileHandle entry).toNat) = slot at h
  split at h
  · cases h
  · obtain ⟨file', hfile, heq⟩ := Option.map_eq_some_iff.1 h
    cases heq
    exact hfile

@[simp] theorem setFile_self (s : State W F) (handle : ℕ) (new : Option (DOS_File F)) :
    (s.setFile handle new).Files handle = new := Function.update_self _ _ _

theorem setFile_of_ne (hi : i ≠ handle) (new : Option (DOS_File F)) :
    (s.setFile handle new).Files i = s.Files i := Function.update_of_ne hi _ _

/-- The slots have files on the same drives and with the same names. -/
structure SameSlots (s s' : State W F) : Prop where
  file_locking : s'.file_locking = s.file_locking
  files : ∀ i, (s'.Files i).map (fun f => (f.hdrive, f.name)) =
    (s.Files i).map fun f => (f.hdrive, f.name)

theorem SameSlots.same_file (h : SameSlots s s') {f : DOS_File F} (hf : s'.Files i = some f) :
    ∃ g, s.Files i = some g ∧ f.hdrive = g.hdrive ∧ f.name = g.name := by
  have hview := h.files i
  rw [hf] at hview
  obtain ⟨g, hg, heq⟩ := Option.map_eq_some_iff.1 hview.symm
  simp only [Prod.mk.injEq] at heq
  exact ⟨g, hg, heq.1.symm, heq.2.symm⟩

theorem SameSlots.named (h : SameSlots s s') (hn : Named opened s) : Named opened s' := by
  intro i f hf
  obtain ⟨g, hg, -, hname⟩ := h.same_file hf
  rw [hname]
  exact hn i g hg

theorem SameSlots.sameFile (h : SameSlots s s') {j : ℕ} (hsame : SameFile opened s' i j) :
    SameFile opened s i j := by
  obtain ⟨f, g, hf, hg, hdrive⟩ := hsame.drive
  obtain ⟨f', hf', hfd, -⟩ := h.same_file hf
  obtain ⟨g', hg', hgd, -⟩ := h.same_file hg
  exact ⟨hsame.slots, ⟨f', g', hf', hg', by rw [← hfd, ← hgd, hdrive]⟩, hsame.name⟩

/-- The file in a slot is replaced by one with the same drive and name. -/
theorem setFile_sameSlots {new : DOS_File F} (hfile : s.Files handle = some file)
    (hdrive : new.hdrive = file.hdrive) (hname : new.name = file.name) :
    SameSlots s (s.setFile handle (some new)) := by
  refine ⟨rfl, fun i => ?_⟩
  by_cases hi : i = handle
  · rw [hi, hfile, setFile_self]
    simp [hdrive, hname]
  · rw [setFile_of_ne hi]

theorem locksOf_setFile (s : State W F) (handle : ℕ) (new : DOS_File F) (i : ℕ) :
    locksOf (s.setFile handle (some new)) i =
      if i = handle then new.region_locks else locksOf s i := by
  by_cases hi : i = handle
  · rw [if_pos hi, locksOf, hi, setFile_self]
  · rw [if_neg hi, locksOf, setFile_of_ne hi, locksOf]

theorem locksOf_of_file (hfile : s.Files handle = some file) :
    locksOf s handle = file.region_locks := by
  rw [locksOf, hfile]

/-- Only the world and the object of the file are other ones. -/
theorem ranFile_sameSlots (hfile : s.Files handle = some file) (world : W) (object : F) :
    SameSlots s (s.ranFile handle file world object) := by
  have hset : SameSlots ({ s with world := world }) (s.ranFile handle file world object) :=
    setFile_sameSlots hfile rfl rfl
  exact ⟨hset.file_locking, hset.files⟩

theorem locksOf_ranFile (hfile : s.Files handle = some file) (world : W) (object : F) (i : ℕ) :
    locksOf (s.ranFile handle file world object) i = locksOf s i := by
  rw [State.ranFile, locksOf_setFile]
  split_ifs with hi
  · rw [hi, locksOf_of_file hfile]
  · rfl

@[simp] theorem ranFile_ranFile (s : State W F) (handle : ℕ) (file : DOS_File F)
    (world world' : W) (object object' : F) :
    (s.ranFile handle file world object).ranFile handle file world' object' =
      s.ranFile handle file world' object' := by
  simp [State.ranFile, State.setFile, Function.update_idem]

theorem region_is_locked_ranFile (s : State W F) (handle : ℕ) (file : DOS_File F) (world : W)
    (object : F) (pos len : ℕ) :
    region_is_locked (s.ranFile handle file world object) handle file pos len =
      region_is_locked s handle file pos len := by
  refine congrArg (s.file_locking && ·) (congrArg (List.any _) (funext fun i => ?_))
  by_cases hi : i = handle
  · subst hi
    have hself : ((s.ranFile i file world object).Files i) =
        some { file with object := object } := Function.update_self _ _ _
    rw [hself]
    cases s.Files i with
    | none => simp
    | some f => simp
  · have hother : (s.ranFile handle file world object).Files i = s.Files i :=
      Function.update_of_ne hi _ _
    rw [hother]

/-! ## Sequences of calls -/

/-- A call on a file with its arguments. -/
inductive FileCall where
  | lock (entry : ℕ) (pos len : UInt32)
  | unlock (entry : ℕ) (pos len : UInt32)
  | read (entry amount : ℕ) (fcb : Bool)
  | write (entry : ℕ) (data : List UInt8) (fcb : Bool)
  | seek (entry : ℕ) (pos : UInt32) (type : ℕ) (fcb : Bool)

/-- What a call leaves. -/
def serveFile (io : FileIo W F) (s : State W F) : FileCall → State W F
  | .lock entry pos len => (DOS_LockFile s entry pos len).2
  | .unlock entry pos len => (DOS_UnlockFile s entry pos len).2
  | .read entry amount fcb => (DOS_ReadFile io s entry amount fcb).2
  | .write entry data fcb => (DOS_WriteFile io s entry data fcb).2
  | .seek entry pos type fcb => (DOS_SeekFile io s entry pos type fcb).2

/-- The position that `Seek` gives to `DOS_ReadFile` and `DOS_WriteFile`. -/
def seekCur (io : FileIo W F) (s : State W F) (file : DOS_File F) : ℕ :=
  (io.Seek s.world file.object 0 DOS_SEEK_CUR).2.2.getD 0

/-- The slot that a call works on, its file and the range that the call asks for. -/
def asked (io : FileIo W F) (s : State W F) :
    FileCall → Option (ℕ × DOS_File F × FileRegionLock)
  | .lock entry pos len => (slotOf s entry false).map fun (handle, file) =>
      (handle, file, ⟨pos.toNat, len.toNat⟩)
  | .read entry amount fcb => (slotOf s entry fcb).map fun (handle, file) =>
      (handle, file, ⟨seekCur io s file, amount⟩)
  | .write entry data fcb => (slotOf s entry fcb).map fun (handle, file) =>
      (handle, file, ⟨seekCur io s file, data.length⟩)
  | _ => none

/-- Where the object of a file goes on to transfer. -/
def positionOf (io : FileIo W F) (s : State W F) (file : DOS_File F) : ℕ :=
  let (world, object, _) := io.Seek s.world file.object 0 DOS_SEEK_CUR
  io.position world object

/-- The slot and the bytes that a successful call reads or writes. -/
def touched (io : FileIo W F) (s : State W F) : FileCall → Option (ℕ × FileRegionLock)
  | .read entry amount fcb => do
      let (handle, file) ← slotOf s entry fcb
      let (ret, data) := (DOS_ReadFile io s entry amount fcb).1
      if ret then some (handle, ⟨positionOf io s file, data.length⟩) else none
  | .write entry data fcb => do
      let (handle, file) ← slotOf s entry fcb
      let (ret, written) := (DOS_WriteFile io s entry data fcb).1
      if ret then some (handle, ⟨positionOf io s file, written⟩) else none
  | _ => none

/-- The objects give their position to a caller that seeks from it, and transfer no more than they
are asked for. -/
structure FileIo.Lawful (io : FileIo W F) : Prop where
  seek : ∀ w f, (io.Seek w f 0 DOS_SEEK_CUR).2.2 =
    some (io.position (io.Seek w f 0 DOS_SEEK_CUR).1 (io.Seek w f 0 DOS_SEEK_CUR).2.1)
  read : ∀ w f flags n, (io.Read w f flags n).2.2.2.length ≤ n
  write : ∀ w f flags data, (io.Write w f flags data).2.2.2 ≤ data.length

theorem FileIo.Lawful.seekCur_eq {io : FileIo W F} (hio : io.Lawful) (s : State W F)
    (file : DOS_File F) : seekCur io s file = positionOf io s file := by
  rw [seekCur, hio.seek]
  rfl

/-- A call takes no lock. -/
def NoMoreLocks (s s' : State W F) : Prop := ∀ i, locksOf s' i ⊆ locksOf s i

/-- A call takes a lock that has been checked. -/
structure TakesLock (s s' : State W F) (handle : ℕ) (file : DOS_File F) (range : FileRegionLock) :
    Prop where
  slot : s.Files handle = some file
  checked : region_is_locked s handle file range.pos range.len = false
  self : locksOf s' handle = locksOf s handle ++ [range]
  others : ∀ j, j ≠ handle → locksOf s' j = locksOf s j

theorem DOS_LockFile_cases (s : State W F) (entry : ℕ) (pos len : UInt32) :
    SameSlots s (DOS_LockFile s entry pos len).2 ∧
      (NoMoreLocks s (DOS_LockFile s entry pos len).2 ∨
        ∃ handle file, slotOf s entry false = some (handle, file) ∧
          TakesLock s (DOS_LockFile s entry pos len).2 handle file ⟨pos.toNat, len.toNat⟩) := by
  rw [DOS_LockFile]
  split
  · exact ⟨⟨rfl, fun _ => rfl⟩, Or.inl fun _ => List.Subset.refl _⟩
  · cases hslot : slotOf s entry false with
    | none => exact ⟨⟨rfl, fun _ => rfl⟩, Or.inl fun _ => List.Subset.refl _⟩
    | some found =>
      obtain ⟨handle, file⟩ := found
      have hfile := slotOf_spec hslot
      dsimp only
      split
      · exact ⟨⟨rfl, fun _ => rfl⟩, Or.inl fun _ => List.Subset.refl _⟩
      · rename_i hcheck
        refine ⟨setFile_sameSlots hfile rfl rfl,
          Or.inr ⟨handle, file, rfl, hfile, Bool.eq_false_iff.2 hcheck, ?_, fun j hj => ?_⟩⟩
        · rw [locksOf_setFile, if_pos rfl, locksOf_of_file hfile]
        · rw [locksOf_setFile, if_neg hj]

theorem DOS_UnlockFile_keeps (s : State W F) (entry : ℕ) (pos len : UInt32) :
    SameSlots s (DOS_UnlockFile s entry pos len).2 ∧
      NoMoreLocks s (DOS_UnlockFile s entry pos len).2 := by
  rw [DOS_UnlockFile]
  split
  · exact ⟨⟨rfl, fun _ => rfl⟩, fun _ => List.Subset.refl _⟩
  · cases hslot : slotOf s entry false with
    | none => exact ⟨⟨rfl, fun _ => rfl⟩, fun _ => List.Subset.refl _⟩
    | some found =>
      obtain ⟨handle, file⟩ := found
      have hfile := slotOf_spec hslot
      dsimp only
      split
      · refine ⟨setFile_sameSlots hfile rfl rfl, fun i => ?_⟩
        rw [locksOf_setFile]
        split_ifs with hi
        · rw [hi, locksOf_of_file hfile]
          exact List.erase_subset
        · exact List.Subset.refl _
      · exact ⟨⟨rfl, fun _ => rfl⟩, fun _ => List.Subset.refl _⟩

theorem ranFile_keeps (hfile : s.Files handle = some file) (world : W) (object : F) :
    SameSlots s (s.ranFile handle file world object) ∧
      NoMoreLocks s (s.ranFile handle file world object) :=
  ⟨ranFile_sameSlots hfile world object, fun i => by
    rw [locksOf_ranFile hfile]
    exact List.Subset.refl _⟩

variable {io : FileIo W F}

theorem DOS_SeekFile_keeps (io : FileIo W F) (s : State W F) (entry : ℕ) (pos : UInt32) (type : ℕ)
    (fcb : Bool) : SameSlots s (DOS_SeekFile io s entry pos type fcb).2 ∧
      NoMoreLocks s (DOS_SeekFile io s entry pos type fcb).2 := by
  rw [DOS_SeekFile]
  split
  · exact ⟨⟨rfl, fun _ => rfl⟩, fun _ => List.Subset.refl _⟩
  · cases hslot : slotOf s entry fcb with
    | none => exact ⟨⟨rfl, fun _ => rfl⟩, fun _ => List.Subset.refl _⟩
    | some found => exact ranFile_keeps (slotOf_spec hslot) _ _

theorem DOS_ReadFile_keeps (io : FileIo W F) (s : State W F) (entry amount : ℕ) (fcb : Bool) :
    SameSlots s (DOS_ReadFile io s entry amount fcb).2 ∧
      NoMoreLocks s (DOS_ReadFile io s entry amount fcb).2 := by
  rw [DOS_ReadFile]
  cases hslot : slotOf s entry fcb with
  | none => exact ⟨⟨rfl, fun _ => rfl⟩, fun _ => List.Subset.refl _⟩
  | some found =>
    obtain ⟨handle, file⟩ := found
    have hkeeps := ranFile_keeps (slotOf_spec hslot)
    dsimp only
    split
    · obtain ⟨hsame, hlocks⟩ := hkeeps (io.Seek s.world file.object 0 DOS_SEEK_CUR).1
        (io.Seek s.world file.object 0 DOS_SEEK_CUR).2.1
      exact ⟨⟨hsame.file_locking, hsame.files⟩, hlocks⟩
    · rw [ranFile_ranFile]
      exact hkeeps _ _

theorem DOS_WriteFile_keeps (io : FileIo W F) (s : State W F) (entry : ℕ) (data : List UInt8)
    (fcb : Bool) : SameSlots s (DOS_WriteFile io s entry data fcb).2 ∧
      NoMoreLocks s (DOS_WriteFile io s entry data fcb).2 := by
  rw [DOS_WriteFile]
  cases hslot : slotOf s entry fcb with
  | none => exact ⟨⟨rfl, fun _ => rfl⟩, fun _ => List.Subset.refl _⟩
  | some found =>
    obtain ⟨handle, file⟩ := found
    have hkeeps := ranFile_keeps (slotOf_spec hslot)
    dsimp only
    split
    · obtain ⟨hsame, hlocks⟩ := hkeeps (io.Seek s.world file.object 0 DOS_SEEK_CUR).1
        (io.Seek s.world file.object 0 DOS_SEEK_CUR).2.1
      exact ⟨⟨hsame.file_locking, hsame.files⟩, hlocks⟩
    · rw [ranFile_ranFile]
      exact hkeeps _ _

/-- A call keeps the files in their slots, and takes at most the lock that it asks for. -/
theorem serveFile_cases (io : FileIo W F) (s : State W F) (c : FileCall) :
    SameSlots s (serveFile io s c) ∧ (NoMoreLocks s (serveFile io s c) ∨
      ∃ handle file range, asked io s c = some (handle, file, range) ∧
        TakesLock s (serveFile io s c) handle file range) := by
  cases c with
  | lock entry pos len =>
    obtain ⟨hsame, hcases⟩ := DOS_LockFile_cases s entry pos len
    refine ⟨hsame, hcases.imp id ?_⟩
    rintro ⟨handle, file, hslot, htakes⟩
    exact ⟨handle, file, _, by rw [asked, hslot]; rfl, htakes⟩
  | unlock entry pos len =>
    obtain ⟨hsame, hlocks⟩ := DOS_UnlockFile_keeps s entry pos len
    exact ⟨hsame, Or.inl hlocks⟩
  | read entry amount fcb =>
    obtain ⟨hsame, hlocks⟩ := DOS_ReadFile_keeps io s entry amount fcb
    exact ⟨hsame, Or.inl hlocks⟩
  | write entry data fcb =>
    obtain ⟨hsame, hlocks⟩ := DOS_WriteFile_keeps io s entry data fcb
    exact ⟨hsame, Or.inl hlocks⟩
  | seek entry pos type fcb =>
    obtain ⟨hsame, hlocks⟩ := DOS_SeekFile_keeps io s entry pos type fcb
    exact ⟨hsame, Or.inl hlocks⟩

theorem covers_of_le {pos m n : ℕ} (h : m ≤ n) (x : ℕ)
    (hx : FileRegionLock.Covers ⟨pos, m⟩ x) : FileRegionLock.Covers ⟨pos, n⟩ x :=
  ⟨hx.1, hx.2.trans_le (Nat.add_le_add_left h pos)⟩

/-- What a successful call touches has been checked. -/
theorem touched_checked (hio : io.Lawful) {c : FileCall} {bytes : FileRegionLock}
    (h : touched io s c = some (handle, bytes)) :
    ∃ file range, asked io s c = some (handle, file, range) ∧ s.Files handle = some file ∧
      region_is_locked s handle file range.pos range.len = false ∧
        ∀ x, bytes.Covers x → range.Covers x := by
  cases c with
  | read entry amount fcb =>
    obtain ⟨⟨handle', file⟩, hslot, h⟩ := Option.bind_eq_some_iff.1 h
    have hlength := hio.read
    have hpos := hio.seekCur_eq s file
    rw [DOS_ReadFile, hslot] at h
    dsimp only at h
    rw [region_is_locked_ranFile] at h
    split at h
    · cases h
    · rename_i hcheck
      split at h
      · cases h
        have hunlocked : region_is_locked s handle file (seekCur io s file) amount = false :=
          Bool.eq_false_iff.2 hcheck
        refine ⟨file, ⟨seekCur io s file, amount⟩, ?_, slotOf_spec hslot, hunlocked, ?_⟩
        · rw [asked, hslot, Option.map_some]
        · rw [hpos]
          exact covers_of_le (hlength _ _ _ _)
      · cases h
  | write entry data fcb =>
    obtain ⟨⟨handle', file⟩, hslot, h⟩ := Option.bind_eq_some_iff.1 h
    have hlength := hio.write
    have hpos := hio.seekCur_eq s file
    rw [DOS_WriteFile, hslot] at h
    dsimp only at h
    rw [region_is_locked_ranFile] at h
    split at h
    · cases h
    · rename_i hcheck
      split at h
      · cases h
        have hunlocked : region_is_locked s handle file (seekCur io s file) data.length = false :=
          Bool.eq_false_iff.2 hcheck
        refine ⟨file, ⟨seekCur io s file, data.length⟩, ?_, slotOf_spec hslot, hunlocked, ?_⟩
        · rw [asked, hslot, Option.map_some]
        · rw [hpos]
          exact covers_of_le (hlength _ _ _ _)
      · cases h
  | lock entry pos len => cases h
  | unlock entry pos len => cases h
  | seek entry pos type fcb => cases h

/-- The range that a call asks for is clean. -/
def CleanCall (opened : ℕ → CString) (io : FileIo W F) (s : State W F) (c : FileCall) : Prop :=
  ∀ handle file range, asked io s c = some (handle, file, range) →
    Clean opened s handle file range

/-- One clean call more. -/
def LockStep (opened : ℕ → CString) (io : FileIo W F) (s s' : State W F) : Prop :=
  ∃ c, CleanCall opened io s c ∧ serveFile io s c = s'

/-- What every call keeps. -/
structure Guarded (opened : ℕ → CString) (s : State W F) : Prop where
  file_locking : s.file_locking = true
  named : Named opened s
  exclusive : Exclusive opened s

theorem Exclusive.noMoreLocks (he : Exclusive opened s) (hsame : SameSlots s s')
    (hlocks : NoMoreLocks s s') : Exclusive opened s' := by
  rintro i j hne hij x ⟨⟨l₁, hl₁, hc₁⟩, ⟨l₂, hl₂, hc₂⟩⟩
  exact he i j hne (hsame.sameFile hij) x ⟨⟨l₁, hlocks i hl₁, hc₁⟩, ⟨l₂, hlocks j hl₂, hc₂⟩⟩

/-- A byte that is locked now has been locked before or is in the new range. -/
theorem TakesLock.lockedBy (ht : TakesLock s s' handle file range) {k x : ℕ}
    (hlocked : LockedBy s' k x) : LockedBy s k x ∨ handle = k ∧ range.Covers x := by
  obtain ⟨l, hl, hcov⟩ := hlocked
  by_cases hk : handle = k
  · rw [← hk, ht.self, List.mem_append, List.mem_singleton] at hl
    rcases hl with hold | rfl
    · exact Or.inl ⟨l, hk ▸ hold, hcov⟩
    · exact Or.inr ⟨hk, hcov⟩
  · rw [ht.others k (Ne.symm hk)] at hl
    exact Or.inl ⟨l, hl, hcov⟩

theorem Exclusive.takesLock (he : Exclusive opened s) (hsame : SameSlots s s')
    (ht : TakesLock s s' handle file range) (hfree : FreeOfOthers opened s handle range) :
    Exclusive opened s' := by
  rintro i j hne hij x ⟨h₁, h₂⟩
  have hij' := hsame.sameFile hij
  rcases ht.lockedBy h₁ with hi | ⟨hi, hx⟩
  · rcases ht.lockedBy h₂ with hj | ⟨hj, hx⟩
    · exact he i j hne hij' x ⟨hi, hj⟩
    · rw [← hj] at hne hij'
      exact hfree i (Ne.symm hne) hij'.symm x hx hi
  · rcases ht.lockedBy h₂ with hj | ⟨hj, -⟩
    · rw [← hi] at hne hij'
      exact hfree j hne hij' x hx hj
    · exact hne (hi.symm.trans hj)

theorem Guarded.step (hg : Guarded opened s) (hs : LockStep opened io s s') :
    Guarded opened s' := by
  obtain ⟨c, hclean, rfl⟩ := hs
  obtain ⟨hsame, hcases⟩ := serveFile_cases io s c
  refine ⟨hsame.file_locking.trans hg.file_locking, hsame.named hg.named, ?_⟩
  rcases hcases with hlocks | ⟨handle, file, range, hasked, htakes⟩
  · exact hg.exclusive.noMoreLocks hsame hlocks
  · exact hg.exclusive.takesLock hsame htakes
      (freeOfOthers_of_unlocked hg.file_locking hg.named htakes.slot
        (hclean handle file range hasked) htakes.checked)

theorem Guarded.run (hg : Guarded opened s)
    (hrun : Relation.ReflTransGen (LockStep opened io) s s') : Guarded opened s' := by
  induction hrun with
  | refl => exact hg
  | tail _ hs ih => exact ih.step hs

/-- **Region locks are exclusive**: after every run of clean calls no byte of a file is locked
through two slots, and no clean call that succeeds touches a byte that is locked through another
slot. -/
theorem locks_exclusive (hio : io.Lawful) (hon : s.file_locking = true) (hnamed : Named opened s)
    (hfree : ∀ i, locksOf s i = [])
    (hrun : Relation.ReflTransGen (LockStep opened io) s s') :
    Exclusive opened s' ∧ ∀ c, CleanCall opened io s' c → ∀ handle bytes,
      touched io s' c = some (handle, bytes) → FreeOfOthers opened s' handle bytes := by
  have hexclusive : Exclusive opened s := by
    rintro i j - - x ⟨⟨l, hl, -⟩, -⟩
    rw [hfree i] at hl
    cases hl
  have hg := Guarded.run ⟨hon, hnamed, hexclusive⟩ hrun
  refine ⟨hg.exclusive, fun c hclean handle bytes htouched => ?_⟩
  obtain ⟨file, range, hasked, hfile, hcheck, hbytes⟩ := touched_checked hio htouched
  have hrange := freeOfOthers_of_unlocked hg.file_locking hg.named hfile
    (hclean handle file range hasked) hcheck
  intro j hne hsame x hx
  exact hrange j hne hsame x (hbytes x hx)

/-- A file that all objects share; an object is a position. -/
def sharedIo : FileIo (List UInt8) ℕ where
  position := fun _ pos => pos
  Seek := fun data pos by_ type =>
    let pos := ((if type = DOS_SEEK_SET then 0 else if type = DOS_SEEK_CUR then pos else data.length)
      + by_) % 2 ^ 32
    (data, pos, some pos)
  Read := fun data pos _ n =>
    let bytes := (data.drop pos).take n
    (data, pos + bytes.length, true, bytes)
  Write := fun data pos _ bytes =>
    (data.take pos ++ bytes ++ data.drop (pos + bytes.length), pos + bytes.length, true,
      bytes.length)

theorem sharedIo_lawful : sharedIo.Lawful := by
  refine ⟨fun _ _ => rfl, fun data pos _ n => ?_, fun _ _ _ _ => le_rfl⟩
  exact List.length_take_le n (data.drop pos)

/-- A process that has one file open through two slots. -/
def twoOpen : State (List UInt8) ℕ where
  world := []
  Files := fun handle => if handle < 2 then some ⟨0, [0x41], OPEN_READWRITE, 2, 1, []⟩ else none
  psp := ⟨fun i => if i < 2 then UInt8.ofNat i else 0xff, 0, 20, 0xc800⟩
  errorcode := .NONE
  file_locking := true

theorem twoOpen_file {f : DOS_File ℕ} (hf : twoOpen.Files i = some f) :
    f = ⟨0, [0x41], OPEN_READWRITE, 2, 1, []⟩ := by
  change (if i < 2 then _ else none) = some f at hf
  split at hf
  · exact (Option.some.inj hf).symm
  · cases hf

theorem twoOpen_locksOf (i : ℕ) : locksOf twoOpen i = [] := by
  cases hf : twoOpen.Files i with
  | none => rw [locksOf, hf]
  | some f => rw [locksOf_of_file hf, twoOpen_file hf]

set_option maxRecDepth 4000 in
/-- The first four bytes are locked through the first slot. -/
theorem locks_exclusive_twoOpen :
    (DOS_LockFile twoOpen 0 0 4).1 = true ∧
      Exclusive (fun _ => [0x41]) (DOS_LockFile twoOpen 0 0 4).2 := by
  refine ⟨rfl, (locks_exclusive sharedIo_lawful rfl (fun i f hf => Or.inr ?_) twoOpen_locksOf
    (.single ⟨.lock 0 0 4, fun handle file range _ => ?_, rfl⟩)).1⟩
  · rw [twoOpen_file hf]
  · intro j g _ _ hg lock hlock
    rw [twoOpen_file hg] at hlock
    cases hlock

set_option maxRecDepth 4000 in
/-- The last sixteen bytes before 2 ^ 32 are locked through both slots: their end wraps to zero. -/
theorem locks_at_end_overlap :
    ∃ s₁ s₂, DOS_LockFile twoOpen 0 0xfffffff0 0x10 = (true, s₁) ∧
      DOS_LockFile s₁ 1 0xfffffff0 0x10 = (true, s₂) ∧ ¬ Exclusive (fun _ => [0x41]) s₂ := by
  refine ⟨_, _, rfl, rfl, fun he => ?_⟩
  refine he 0 1 (by decide) ⟨by decide, ⟨_, _, rfl, rfl, rfl⟩, rfl⟩ 0xfffffff0 ⟨?_, ?_⟩
  · exact ⟨⟨0xfffffff0, 0x10⟩, List.mem_singleton.2 rfl, by decide, by decide⟩
  · exact ⟨⟨0xfffffff0, 0x10⟩, List.mem_singleton.2 rfl, by decide, by decide⟩

end AugraDosbox.Files
