import AugraDosbox.Dos.FileHandles

/-!
# Opening with an action

When `DOS_OpenFileExtended` does what its action says.

* `CanOpen`, `OpenFails`, `CanCreate` — when opening and creating succeed, read off the state;
* `CanCreate.kept_iff`, `DOS_CreateFile_kept_iff` — what creating does to the contents;
* `Honours` — a call that fails leaves no handle open, and no content is replaced without the
  action for it;
* **`openExtended_honours_iff`** — the action is honoured unless the file is open and should not
  exist, or it exists and cannot be opened but can be created.
-/

namespace AugraDosbox.Files

open Fat MakeName Fallible

variable {W F Id : Type} {h : Host W F} {s s' : State W F} {name : CString}

/-! ## When opening and creating succeed -/

/-- The name is one on a drive, and there are a slot and an entry for the file. -/
structure Ready (h : Host W F) (s : State W F) (name : CString) (drive : ℕ) (fullname : CString) :
    Prop where
  resolves : Resolves h s.world name drive fullname
  slot : freeSlot s ≠ none
  entry : s.psp.FindFreeFileEntry ≠ 0xff

/-- The drive is asked to open the file. -/
structure AsksDrive (h : Host W F) (s : State W F) (name : CString) (flags : UInt8) (drive : ℕ)
    (fullname : CString) : Prop extends Ready h s name drive fullname where
  device : h.FindDevice s.world name = none
  not_directory : ¬ NamesDirectory h s.world name
  unlocked : file_is_locked s fullname drive flags = false

/-- The name is one of a device, or the drive opens the file. -/
def CanOpen (h : Host W F) (s : State W F) (name : CString) (flags : UInt8) : Prop :=
  (h.FindDevice s.world name ≠ none ∧ ∃ drive fullname, Ready h s name drive fullname) ∨
    ∃ drive fullname, AsksDrive h s name flags drive fullname ∧
      (h.FileOpen s.world drive fullname flags).2.1 ≠ some .ACCESS_CODE_INVALID ∧
        (h.FileOpen s.world drive fullname flags).2.2 ≠ none

/-- `w` is what the call to open the file leaves of the drives: the drive has been asked, or it has
not come to that. -/
def OpenLeaves (h : Host W F) (s : State W F) (name : CString) (flags : UInt8) (w : W) : Prop :=
  (∃ drive fullname, AsksDrive h s name flags drive fullname ∧
      w = (h.FileOpen s.world drive fullname flags).1) ∨
    (¬ ∃ drive fullname, AsksDrive h s name flags drive fullname) ∧ w = s.world

/-- The file cannot be opened, and `w` is what is left of the drives. -/
def OpenFails (h : Host W F) (s : State W F) (name : CString) (flags : UInt8) (w : W) : Prop :=
  ¬ CanOpen h s name flags ∧ OpenLeaves h s name flags w

/-- The drive creates the file. -/
structure CanCreate (h : Host W F) (s : State W F) (name : CString) (attributes : UInt8)
    (drive : ℕ) (fullname : CString) : Prop extends Ready h s name drive fullname where
  device : h.FindDevice s.world name = none
  writable : h.IsReadOnly s.world drive = false
  unlocked : file_is_locked s fullname drive OPEN_READWRITE = false
  not_directory : attributes &&& 0x10 = 0
  creates : (h.FileCreate s.world drive fullname attributes).2 ≠ none

/-- What a call to open a file has done. -/
structure Opened (h : Host W F) (s : State W F) (name : CString) (flags : UInt8) (r : Option ℕ)
    (s' : State W F) : Prop where
  file_locking : s'.file_locking = s.file_locking
  leaves : OpenLeaves h s name flags s'.world
  opens : r ≠ none ↔ CanOpen h s name flags

theorem Opened.of_fails {flags : UInt8} (hlock : s'.file_locking = s.file_locking)
    (hf : OpenFails h s name flags s'.world) : Opened h s name flags none s' :=
  ⟨hlock, hf.2, iff_of_false (fun hne => hne rfl) hf.1⟩

section setError

variable {flags attributes : UInt8} {drive : ℕ} {fullname : CString} {r : Option ℕ} (e : DosError)

/-! The error code is not looked at. -/

@[simp] theorem ready_setError :
    Ready h (s.DOS_SetError e) name drive fullname ↔ Ready h s name drive fullname :=
  ⟨fun ⟨hres, hslot, hentry⟩ => ⟨hres, hslot, hentry⟩,
    fun ⟨hres, hslot, hentry⟩ => ⟨hres, hslot, hentry⟩⟩

@[simp] theorem asksDrive_setError :
    AsksDrive h (s.DOS_SetError e) name flags drive fullname ↔
      AsksDrive h s name flags drive fullname :=
  ⟨fun ⟨hready, hdev, hdir, hlock⟩ => ⟨(ready_setError e).1 hready, hdev, hdir, hlock⟩,
    fun ⟨hready, hdev, hdir, hlock⟩ => ⟨(ready_setError e).2 hready, hdev, hdir, hlock⟩⟩

@[simp] theorem canCreate_setError :
    CanCreate h (s.DOS_SetError e) name attributes drive fullname ↔
      CanCreate h s name attributes drive fullname :=
  ⟨fun ⟨hready, hdev, hw, hlock, hdir, hc⟩ =>
      ⟨(ready_setError e).1 hready, hdev, hw, hlock, hdir, hc⟩,
    fun ⟨hready, hdev, hw, hlock, hdir, hc⟩ =>
      ⟨(ready_setError e).2 hready, hdev, hw, hlock, hdir, hc⟩⟩

@[simp] theorem canOpen_setError :
    CanOpen h (s.DOS_SetError e) name flags ↔ CanOpen h s name flags := by
  simp only [CanOpen, ready_setError, asksDrive_setError]
  rfl

@[simp] theorem openLeaves_setError {w : W} :
    OpenLeaves h (s.DOS_SetError e) name flags w ↔ OpenLeaves h s name flags w := by
  simp only [OpenLeaves, asksDrive_setError]
  rfl

theorem Opened.of_setError (ho : Opened h (s.DOS_SetError e) name flags r s') :
    Opened h s name flags r s' :=
  ⟨ho.file_locking, (openLeaves_setError e).1 ho.leaves, ho.opens.trans (canOpen_setError e)⟩

end setError

theorem openFails_of_unasked {flags : UInt8} (hdevice : h.FindDevice s.world name = none)
    (hno : ¬ ∃ drive fullname, AsksDrive h s name flags drive fullname) :
    OpenFails h s name flags s.world := by
  refine ⟨?_, Or.inr ⟨hno, rfl⟩⟩
  rintro (⟨hdev, -⟩ | ⟨drive, fullname, hasks, -⟩)
  · exact hdev hdevice
  · exact hno ⟨drive, fullname, hasks⟩

theorem openFails_of_unready {flags : UInt8}
    (hno : ¬ ∃ drive fullname, Ready h s name drive fullname) :
    OpenFails h s name flags s.world := by
  refine ⟨?_, Or.inr ⟨?_, rfl⟩⟩
  · rintro (⟨-, hready⟩ | ⟨drive, fullname, hasks, -⟩)
    · exact hno hready
    · exact hno ⟨drive, fullname, hasks.toReady⟩
  · rintro ⟨drive, fullname, hasks⟩
    exact hno ⟨drive, fullname, hasks.toReady⟩

variable {entry action : ℕ} {s₁ : State W F}

theorem openOnDrive_opened {fullname : CString} {drive handle : ℕ} {flags : UInt8} {r : Option ℕ}
    (hready : Ready h s name drive fullname) (hdevice : h.FindDevice s.world name = none)
    (hdir : ¬ NamesDirectory h s.world name)
    (ho : openOnDrive h s name fullname drive flags handle entry = .ok (r, s')) :
    Opened h s name flags r s' := by
  rw [openOnDrive] at ho
  split at ho
  · rename_i hlocked
    cases ho
    refine Opened.of_fails rfl (openFails_of_unasked hdevice ?_)
    rintro ⟨drive', fullname', hasks⟩
    obtain ⟨rfl, rfl⟩ := hready.resolves.unique hasks.resolves
    rw [hasks.unlocked] at hlocked
    cases hlocked
  · rename_i hunlocked
    have hasks : AsksDrive h s name flags drive fullname :=
      ⟨hready, hdevice, hdir, Bool.eq_false_iff.2 hunlocked⟩
    have hleaves : OpenLeaves h s name flags (h.FileOpen s.world drive fullname flags).1 :=
      Or.inl ⟨drive, fullname, hasks, rfl⟩
    have hcan : CanOpen h s name flags ↔
        (h.FileOpen s.world drive fullname flags).2.1 ≠ some .ACCESS_CODE_INVALID ∧
          (h.FileOpen s.world drive fullname flags).2.2 ≠ none := by
      refine ⟨?_, fun hopens => Or.inr ⟨drive, fullname, hasks, hopens⟩⟩
      rintro (⟨hdev, -⟩ | ⟨drive', fullname', hasks', hopens⟩)
      · exact absurd hdevice hdev
      · obtain ⟨rfl, rfl⟩ := hready.resolves.unique hasks'.resolves
        exact hopens
    generalize h.FileOpen s.world drive fullname flags = result at ho hleaves hcan
    obtain ⟨world, error, file⟩ := result
    dsimp only at ho hleaves hcan
    split at ho
    · rename_i herror
      cases ho
      exact Opened.of_fails rfl ⟨fun hc => (hcan.1 hc).1 herror, hleaves⟩
    · rename_i herror
      cases file with
      | some file =>
        cases ho
        exact ⟨rfl, hleaves, iff_of_true (Option.some_ne_none _)
          (hcan.2 ⟨herror, Option.some_ne_none file⟩)⟩
      | none =>
        obtain ⟨s₁, he, ho⟩ := bind_ok.1 ho
        obtain ⟨e, rfl⟩ := openError_onlyError he
        cases ho
        exact Opened.of_fails rfl ⟨fun hc => (hcan.1 hc).2 rfl, hleaves⟩

theorem DOS_OpenFile_opened {flags : UInt8} {r : Option ℕ}
    (ho : DOS_OpenFile h s name flags = .ok (r, s')) : Opened h s name flags r s' := by
  obtain ⟨⟨denied, s₁⟩, hd, ho⟩ := bind_ok.1 ho
  have hdir : OnlyError s s₁ ∧ (h.FindDevice s.world name = none →
      (denied = true ↔ NamesDirectory h s.world name)) ∧
        (h.FindDevice s.world name ≠ none → denied = false) := by
    cases hdev : h.FindDevice s.world name with
    | some device =>
      rw [hdev] at hd
      cases hd
      exact ⟨OnlyError.refl s, fun hnone => absurd hnone (Option.some_ne_none _), fun _ => rfl⟩
    | none =>
      rw [hdev] at hd
      obtain ⟨honly, hiff⟩ := isDirectory_cases hd
      exact ⟨honly, fun _ => hiff, fun hne => absurd rfl hne⟩
  obtain ⟨⟨e, rfl⟩, hnone, hsome⟩ := hdir
  cases denied with
  | true =>
    cases ho
    have hdevice : h.FindDevice s.world name = none := by
      by_contra hne
      cases hsome hne
    refine Opened.of_fails rfl (openFails_of_unasked hdevice ?_)
    rintro ⟨drive, fullname, hasks⟩
    exact hasks.not_directory ((hnone hdevice).1 rfl)
  | false =>
    obtain ⟨⟨made, s₂⟩, hm, ho⟩ := bind_ok.1 ho
    obtain ⟨⟨e', rfl⟩, hname⟩ := makeName_cases hm
    cases made with
    | none =>
      cases ho
      refine Opened.of_fails rfl (openFails_of_unready ?_)
      rintro ⟨drive, fullname, hready⟩
      cases (hname drive fullname).2 hready.resolves
    | some made =>
      obtain ⟨drive, fullname⟩ := made
      have hres : Resolves h s.world name drive fullname := (hname drive fullname).1 rfl
      dsimp only at ho
      rw [freeSlot_DOS_SetError, freeSlot_DOS_SetError] at ho
      cases hslot : freeSlot s with
      | none =>
        rw [hslot] at ho
        cases ho
        refine Opened.of_fails rfl (openFails_of_unready ?_)
        rintro ⟨drive, fullname, hready⟩
        exact hready.slot hslot
      | some handle =>
        rw [hslot] at ho
        dsimp only at ho
        split at ho
        · rename_i hfull
          cases ho
          refine Opened.of_fails rfl (openFails_of_unready ?_)
          rintro ⟨drive, fullname, hready⟩
          exact hready.entry hfull
        · rename_i hne
          have hready : Ready h s name drive fullname := ⟨hres, by rw [hslot]; simp, hne⟩
          cases hdev : h.FindDevice s.world name with
          | some file =>
            rw [hdev] at ho
            cases ho
            have hdevice : h.FindDevice s.world name ≠ none := by simp [hdev]
            refine ⟨rfl, Or.inr ⟨?_, rfl⟩, iff_of_true (Option.some_ne_none _) ?_⟩
            · rintro ⟨drive, fullname, hasks⟩
              exact hdevice hasks.device
            · exact Or.inl ⟨hdevice, drive, fullname, hready⟩
          | none =>
            rw [hdev] at ho
            have hnot : ¬ NamesDirectory h s.world name := fun hd =>
              absurd ((hnone hdev).2 hd) Bool.false_ne_true
            exact Opened.of_setError e'
              (openOnDrive_opened ((ready_setError e').2 hready) hdev hnot ho)

/-! ## Contents -/

/-- The files of the drives: the file that a name is, and what is in a file. -/
structure Contents (W Id : Type) where
  resolve : W → ℕ → CString → Option Id
  content : W → Id → Option (List UInt8)

variable {d : Contents W Id} {flags attributes : UInt8}

/-- The files that there are have what they had. -/
def Contents.Kept (d : Contents W Id) (w w' : W) : Prop :=
  ∀ i, d.content w i ≠ none → d.content w' i = d.content w i

theorem Contents.Kept.refl (d : Contents W Id) (w : W) : d.Kept w w := fun _ _ => rfl

/-- What the drives do to the contents of files: opening changes none, and creating empties the file
that has the name. -/
structure Host.Lawful (h : Host W F) (d : Contents W Id) : Prop where
  opens : ∀ w drive name flags i,
    d.content (h.FileOpen w drive name flags).1 i = d.content w i
  fails : ∀ w drive name attributes, (h.FileCreate w drive name attributes).2 = none →
    d.Kept w (h.FileCreate w drive name attributes).1
  creates : ∀ w drive name attributes, (h.FileCreate w drive name attributes).2 ≠ none →
    d.resolve w drive name = none → d.Kept w (h.FileCreate w drive name attributes).1
  empties : ∀ w drive name attributes i, (h.FileCreate w drive name attributes).2 ≠ none →
    d.resolve w drive name = some i →
      d.content (h.FileCreate w drive name attributes).1 i = some [] ∧
        ∀ j, j ≠ i → d.content w j ≠ none →
          d.content (h.FileCreate w drive name attributes).1 j = d.content w j

/-- The drive creates the file, and there is one of that name that is not empty. -/
def Truncates (h : Host W F) (d : Contents W Id) (s : State W F) (name : CString)
    (attributes : UInt8) : Prop :=
  ∃ drive fullname i bytes, CanCreate h s name attributes drive fullname ∧
    d.resolve s.world drive fullname = some i ∧ d.content s.world i = some bytes ∧ bytes ≠ []

@[simp] theorem truncates_setError (e : DosError) :
    Truncates h d (s.DOS_SetError e) name attributes ↔ Truncates h d s name attributes := by
  simp only [Truncates, canCreate_setError]
  rfl

theorem OpenLeaves.content_eq (hl : h.Lawful d) {w : W} (ho : OpenLeaves h s name flags w)
    (i : Id) :
    d.content w i = d.content s.world i := by
  obtain ⟨drive, fullname, -, rfl⟩ | ⟨-, rfl⟩ := ho
  · exact hl.opens s.world drive fullname flags i
  · rfl

theorem createOnDrive_world {fullname : CString} {drive handle : ℕ} {r : Option ℕ}
    (hres : Resolves h s.world name drive fullname) (hslot : freeSlot s = some handle)
    (hdevice : h.FindDevice s.world name = none)
    (ho : createOnDrive h s name fullname drive attributes handle = .ok (r, s')) :
    (CanCreate h s name attributes drive fullname →
      s'.world = (h.FileCreate s.world drive fullname attributes).1) ∧
    (¬ CanCreate h s name attributes drive fullname →
      s'.world = s.world ∨ (h.FileCreate s.world drive fullname attributes).2 = none ∧
        s'.world = (h.FileCreate s.world drive fullname attributes).1) := by
  rw [createOnDrive] at ho
  split at ho
  · rename_i hdenied
    cases ho
    refine ⟨fun hc => ?_, fun _ => Or.inl rfl⟩
    rw [hc.writable, hc.unlocked] at hdenied
    cases hdenied
  · rename_i hgranted
    rw [Bool.or_eq_true, not_or] at hgranted
    obtain ⟨hwritable, hunlocked⟩ := hgranted
    dsimp only at ho
    split at ho
    · rename_i hfull
      cases ho
      exact ⟨fun hc => absurd hfull hc.entry, fun _ => Or.inl rfl⟩
    · rename_i hentry
      split at ho
      · rename_i hdir
        cases ho
        exact ⟨fun hc => absurd hc.not_directory hdir, fun _ => Or.inl rfl⟩
      · rename_i hdir
        have hcan : (h.FileCreate s.world drive fullname attributes).2 ≠ none →
            CanCreate h s name attributes drive fullname := fun hcreates =>
          ⟨⟨hres, by simp [hslot], hentry⟩, hdevice, Bool.eq_false_iff.2 hwritable,
            Bool.eq_false_iff.2 hunlocked, not_not.1 hdir, hcreates⟩
        split at ho
        · rename_i world file hc
          cases ho
          rw [hc] at hcan ⊢
          exact ⟨fun _ => rfl, fun hno => absurd (hcan (Option.some_ne_none file)) hno⟩
        · rename_i world hc
          obtain ⟨⟨found, s₁⟩, hp, ho⟩ := bind_ok.1 ho
          obtain ⟨e, rfl⟩ := PathExists_onlyError hp
          cases ho
          rw [hc]
          exact ⟨fun _ => rfl, fun _ => Or.inr ⟨rfl, rfl⟩⟩

/-- A drive that creates a file keeps the contents, unless there is one of that name that is not
empty. -/
theorem CanCreate.kept_iff (hl : h.Lawful d) {drive : ℕ} {fullname : CString}
    (hcan : CanCreate h s name attributes drive fullname) :
    d.Kept s.world (h.FileCreate s.world drive fullname attributes).1 ↔
      ¬ Truncates h d s name attributes := by
  constructor
  · rintro hkept ⟨drive', fullname', i, bytes, hc, hi, hbytes, hne⟩
    obtain ⟨rfl, rfl⟩ := hcan.resolves.unique hc.resolves
    have hempty := (hl.empties s.world drive fullname attributes i hc.creates hi).1
    rw [hkept i (by rw [hbytes]; simp), hbytes] at hempty
    exact hne (Option.some.inj hempty)
  · intro hnot
    cases hi : d.resolve s.world drive fullname with
    | none => exact hl.creates s.world drive fullname attributes hcan.creates hi
    | some i =>
      obtain ⟨hempty, hothers⟩ := hl.empties s.world drive fullname attributes i hcan.creates hi
      intro j hj
      by_cases hji : j = i
      · cases hbytes : d.content s.world j with
        | none => exact absurd hbytes hj
        | some bytes =>
          -- the file that has the name is empty already
          have hnil : bytes = [] := by
            by_contra hne
            exact hnot ⟨drive, fullname, i, bytes, hcan, hi, hji ▸ hbytes, hne⟩
          rw [hji, hempty, hnil]
      · exact hothers j hji hj

/-- **What a call to create a file does to the contents**: it keeps them, unless it empties the file
that has the name. -/
theorem DOS_CreateFile_kept_iff (hl : h.Lawful d) {r : Option ℕ}
    (ho : DOS_CreateFile h s name attributes = .ok (r, s')) :
    d.Kept s.world s'.world ↔ ¬ Truncates h d s name attributes := by
  rw [DOS_CreateFile] at ho
  cases hdev : h.FindDevice s.world name with
  | some device =>
    rw [hdev] at ho
    have hopened := DOS_OpenFile_opened ho
    refine iff_of_true (fun i _ => hopened.leaves.content_eq hl i) ?_
    rintro ⟨drive, fullname, i, bytes, hc, -⟩
    rw [hc.device] at hdev
    cases hdev
  | none =>
    rw [hdev] at ho
    obtain ⟨⟨made, s₁⟩, hm, ho⟩ := bind_ok.1 ho
    obtain ⟨⟨e, rfl⟩, hname⟩ := makeName_cases hm
    cases made with
    | none =>
      cases ho
      refine iff_of_true (Contents.Kept.refl d _) ?_
      rintro ⟨drive, fullname, i, bytes, hc, -⟩
      cases (hname drive fullname).2 hc.resolves
    | some made =>
      obtain ⟨drive, fullname⟩ := made
      have hres : Resolves h s.world name drive fullname := (hname drive fullname).1 rfl
      dsimp only at ho
      rw [freeSlot_DOS_SetError] at ho
      cases hslot : freeSlot s with
      | none =>
        rw [hslot] at ho
        cases ho
        refine iff_of_true (Contents.Kept.refl d _) ?_
        rintro ⟨drive, fullname, i, bytes, hc, -⟩
        exact hc.slot hslot
      | some handle =>
        rw [hslot] at ho
        obtain ⟨hyes, hno⟩ := createOnDrive_world (s := s.DOS_SetError e) hres hslot hdev ho
        rw [canCreate_setError] at hyes hno
        change _ → s'.world = (h.FileCreate s.world drive fullname attributes).1 at hyes
        change _ → s'.world = s.world ∨ (h.FileCreate s.world drive fullname attributes).2 = none ∧
          s'.world = (h.FileCreate s.world drive fullname attributes).1 at hno
        by_cases hcan : CanCreate h s name attributes drive fullname
        · rw [hyes hcan]
          exact hcan.kept_iff hl
        · have hnot : ¬ Truncates h d s name attributes := by
            rintro ⟨drive', fullname', i, bytes, hc, -⟩
            obtain ⟨rfl, rfl⟩ := hres.unique hc.resolves
            exact hcan hc
          refine iff_of_true ?_ hnot
          rcases hno hcan with heq | ⟨hfails, heq⟩
          · rw [heq]
            exact Contents.Kept.refl d s.world
          · rw [heq]
            exact hl.fails s.world drive fullname attributes hfails

/-! ## The action -/

/-- The action is one that the call knows. -/
def ValidAction (action : ℕ) : Prop :=
  action ≠ 0 ∧ action &&& 0x0f ≤ 2 ∧ action &&& 0xf0 ≤ 0x10

/-- A call that fails leaves the open handles as they were, and what a file has is replaced only by
the action for it. -/
def Honours (d : Contents W Id) (s : State W F) (action : ℕ) (r : Option (ℕ × ℕ))
    (s' : State W F) : Prop :=
  (r = none → Untouched s s') ∧ (¬ d.Kept s.world s'.world → action &&& 0x0f = 2)

/-- Closing the file that has just been opened leaves the tables as they were. -/
theorem DOS_CloseFile_attached (ha : Attached s s₁ entry) :
    Untouched s (DOS_CloseFile h s₁ entry).2 := by
  obtain ⟨⟨handle, file, hlt, hnone, hone, hfiles, hpsp⟩, hfree⟩ := ha
  have hentry : entry < s.psp.table.length := (List.getElem?_eq_some_iff.1 hfree).1
  have hget : s₁.psp.GetFileHandle entry = UInt8.ofNat handle := by
    rw [Psp.GetFileHandle_eq, hpsp, Psp.table_SetFileHandle, List.getElem?_set_self hentry]
    rfl
  have hnat : (UInt8.ofNat handle).toNat = handle := by
    have hlt' : handle < 255 := hlt
    exact UInt8.toNat_ofNat_of_lt' (by rw [UInt8.size]; omega)
  have hopen : openFile s₁ entry = some (handle, file) := by
    rw [openFile, hget, hnat, if_neg (Nat.not_le_of_lt hlt), hfiles, Function.update_self]
    rfl
  rw [DOS_CloseFile, hopen]
  dsimp only
  rw [hone, if_pos (show (1 : ℤ) - 1 ≤ 0 by decide)]
  constructor
  · change Function.update s₁.Files handle none = s.Files
    rw [hfiles, Function.update_idem, ← hnone, Function.update_eq_self]
  · change s₁.psp.SetFileHandle entry 0xff = s.psp
    rw [hpsp, Psp.SetFileHandle_back _ hfree]

theorem not_untouched_of_attached (ha : Attached s s' entry) : ¬ Untouched s s' := by
  obtain ⟨⟨handle, file, -, hnone, -, hfiles, -⟩, -⟩ := ha
  intro hu
  have heq := congrFun hu.1 handle
  rw [hfiles, Function.update_self, hnone] at heq
  cases heq

theorem OpenLeaves.unique {w w' : W} (h₁ : OpenLeaves h s name flags w)
    (h₂ : OpenLeaves h s name flags w') : w = w' := by
  obtain ⟨drive, fullname, hasks, rfl⟩ | ⟨hno, rfl⟩ := h₁
  · obtain ⟨drive', fullname', hasks', rfl⟩ | ⟨hno, -⟩ := h₂
    · obtain ⟨rfl, rfl⟩ := hasks.resolves.unique hasks'.resolves
      rfl
    · exact absurd ⟨drive, fullname, hasks⟩ hno
  · obtain ⟨drive', fullname', hasks', -⟩ | ⟨-, rfl⟩ := h₂
    · exact absurd ⟨drive', fullname', hasks'⟩ hno
    · rfl

/-- After a call that could not open the file only the drives and the error code are other ones. -/
theorem Untouched.eq_setError (hu : Untouched s s₁) (hlock : s₁.file_locking = s.file_locking) :
    s₁ = ({ s with world := s₁.world } : State W F).DOS_SetError s₁.errorcode := by
  obtain ⟨hfiles, hpsp⟩ := hu
  cases s₁
  dsimp only at hfiles hpsp hlock
  rw [hfiles, hpsp, hlock]
  rfl

/-- The open succeeds and the action asks for a failure. -/
def LeavesOpen (h : Host W F) (s : State W F) (name : CString) (flags : UInt8) (action : ℕ) :
    Prop :=
  ValidAction action ∧ action &&& 0x0f = 0 ∧ CanOpen h s name flags

/-- The open fails, and the action asks for a new file where there is one that is not empty. -/
def Overwrites (h : Host W F) (d : Contents W Id) (s : State W F) (name : CString) (flags : UInt8)
    (createAttr : UInt8) (action : ℕ) : Prop :=
  ValidAction action ∧ action &&& 0x0f ≠ 2 ∧ action &&& 0xf0 ≠ 0 ∧
    ∃ w, OpenFails h s name flags w ∧ Truncates h d { s with world := w } name createAttr

/-- Calls that do not come to open a file honour the action. -/
theorem honours_of_invalid (e : DosError) :
    Honours d s action none (s.DOS_SetError e) :=
  ⟨fun _ => Untouched.setError s e, fun hno => absurd (Contents.Kept.refl d s.world) hno⟩

theorem validAction_iff :
    ValidAction action ↔ ¬ (action = 0 ∨ 2 < action &&& 0x0f ∨ 0x10 < action &&& 0xf0) := by
  rw [ValidAction]
  omega

/-- **The file has been opened**: the action is honoured unless it asks for a failure. -/
theorem honours_of_opened (hh : h.RefusesInvalid) (hl : h.Lawful d) {flags : ℕ} {createAttr : UInt8}
    {r : Option (ℕ × ℕ)} (haction : ValidAction action)
    (ho : DOS_OpenFile h s name (UInt8.ofNat (flags &&& 0xff)) = .ok (some entry, s₁))
    (hcall : DOS_OpenFileExtended h s name flags createAttr action = .ok (r, s')) :
    Honours d s action r s' ↔ ¬ LeavesOpen h s name (UInt8.ofNat (flags &&& 0xff)) action := by
  have htables : Attached s s₁ entry := DOS_OpenFile_opens hh ho
  have hopened := DOS_OpenFile_opened ho
  have hkept : d.Kept s.world s₁.world := fun i _ => hopened.leaves.content_eq hl i
  rw [DOS_OpenFileExtended, if_neg (validAction_iff.1 haction), ho] at hcall
  change (if action &&& 0x0f = 0 then _ else _) = _ at hcall
  split at hcall
  · rename_i hzero
    cases hcall
    have hcan := hopened.opens.1 (Option.some_ne_none entry)
    refine iff_of_false ?_ fun hnot => hnot ⟨haction, hzero, hcan⟩
    rintro ⟨hclosed, -⟩
    exact not_untouched_of_attached htables (hclosed rfl)
  · rename_i hnonzero
    have hleaves : ¬ LeavesOpen h s name (UInt8.ofNat (flags &&& 0xff)) action :=
      fun hc => hnonzero hc.2.1
    split at hcall
    · cases hcall
      exact iff_of_true ⟨fun hnone => (nomatch hnone), fun hno => absurd hkept hno⟩ hleaves
    · rename_i hone
      obtain ⟨⟨created, s₂⟩, hc, hcall⟩ := bind_ok.1 hcall
      have htwo : action &&& 0x0f = 2 := by
        have hle := haction.2.1
        omega
      have hclosed := DOS_CloseFile_attached (h := h) htables
      have htables₂ := DOS_CreateFile_opens hh hc
      cases created with
      | none =>
        cases hcall
        exact iff_of_true ⟨fun _ => hclosed.trans htables₂, fun _ => htwo⟩ hleaves
      | some entry₂ =>
        cases hcall
        exact iff_of_true ⟨fun hnone => (nomatch hnone), fun _ => htwo⟩ hleaves

/-- The drives after a call that could not open the file are the ones that `OpenFails` names. -/
theorem truncates_iff_of_fails {openFlags createAttr : UInt8} (htables : Untouched s s₁)
    (hopened : Opened h s name openFlags none s₁) :
    (∃ w, OpenFails h s name openFlags w ∧ Truncates h d { s with world := w } name createAttr) ↔
      Truncates h d s₁ name createAttr := by
  have hnocan : ¬ CanOpen h s name openFlags := fun hcan => hopened.opens.2 hcan rfl
  rw [Untouched.eq_setError htables hopened.file_locking, truncates_setError]
  constructor
  · rintro ⟨w, hfails, ht⟩
    rwa [← hfails.2.unique hopened.leaves]
  · exact fun ht => ⟨s₁.world, ⟨hnocan, hopened.leaves⟩, ht⟩

/-- **The file could not be opened**: the action is honoured unless the file is created over one
that is not empty. -/
theorem honours_of_not_opened (hh : h.RefusesInvalid) (hl : h.Lawful d) {flags : ℕ}
    {createAttr : UInt8} {r : Option (ℕ × ℕ)} (haction : ValidAction action)
    (ho : DOS_OpenFile h s name (UInt8.ofNat (flags &&& 0xff)) = .ok (none, s₁))
    (hcall : DOS_OpenFileExtended h s name flags createAttr action = .ok (r, s')) :
    Honours d s action r s' ↔
      ¬ Overwrites h d s name (UInt8.ofNat (flags &&& 0xff)) createAttr action := by
  have htables : Untouched s s₁ := DOS_OpenFile_opens hh ho
  have hopened := DOS_OpenFile_opened ho
  have hcontent := fun i => hopened.leaves.content_eq hl i
  rw [DOS_OpenFileExtended, if_neg (validAction_iff.1 haction), ho] at hcall
  change (if action &&& 0xf0 = 0 then _ else _) = _ at hcall
  split at hcall
  · rename_i hzero
    cases hcall
    have hkept : d.Kept s.world s'.world := fun i _ => hcontent i
    exact iff_of_true ⟨fun _ => htables, fun hno => absurd hkept hno⟩ fun hc => hc.2.2.1 hzero
  · rename_i hcreate
    obtain ⟨⟨created, s₂⟩, hc, hcall⟩ := bind_ok.1 hcall
    have htables₂ : created = none → Untouched s s₂ := by
      rintro rfl
      exact Untouched.trans htables (DOS_CreateFile_opens hh hc)
    -- the contents are the ones before the call to open the file
    have hsame : d.Kept s₁.world s₂.world ↔ d.Kept s.world s₂.world := by
      simp only [Contents.Kept, hcontent]
    have hresult : Honours d s action r s' ↔
        (¬ d.Kept s.world s₂.world → action &&& 0x0f = 2) := by
      cases created with
      | none =>
        cases hcall
        exact ⟨fun hh => hh.2, fun hk => ⟨fun _ => htables₂ rfl, hk⟩⟩
      | some entry =>
        cases hcall
        exact ⟨fun hh => hh.2, fun hk => ⟨fun hnone => (nomatch hnone), hk⟩⟩
    rw [hresult, ← hsame, DOS_CreateFile_kept_iff hl hc, not_not, Overwrites,
      truncates_iff_of_fails htables hopened]
    constructor
    · exact fun himp hover => hover.2.1 (himp hover.2.2.2)
    · intro hnot ht
      by_contra hne
      exact hnot ⟨haction, hne, hcreate, ht⟩

/-- **The action is honoured exactly when** the call neither opens a file that should not exist nor
creates over one that it could not open. -/
theorem openExtended_honours_iff (hh : h.RefusesInvalid) (hl : h.Lawful d) {flags action : ℕ}
    {createAttr : UInt8} {r : Option (ℕ × ℕ)}
    (hcall : DOS_OpenFileExtended h s name flags createAttr action = .ok (r, s')) :
    Honours d s action r s' ↔
      ¬ LeavesOpen h s name (UInt8.ofNat (flags &&& 0xff)) action ∧
        ¬ Overwrites h d s name (UInt8.ofNat (flags &&& 0xff)) createAttr action := by
  by_cases haction : ValidAction action
  · have hbind := hcall
    rw [DOS_OpenFileExtended, if_neg (validAction_iff.1 haction)] at hbind
    obtain ⟨⟨opened, s₁⟩, ho, -⟩ := bind_ok.1 hbind
    have hcan := (DOS_OpenFile_opened ho).opens
    cases opened with
    | some entry =>
      have hover : ¬ Overwrites h d s name (UInt8.ofNat (flags &&& 0xff)) createAttr action :=
        fun ⟨_, _, _, _, hfails, _⟩ => hfails.1 (hcan.1 (Option.some_ne_none entry))
      rw [honours_of_opened hh hl haction ho hcall]
      exact (and_iff_left hover).symm
    | none =>
      have hleaves : ¬ LeavesOpen h s name (UInt8.ofNat (flags &&& 0xff)) action :=
        fun hc => hcan.2 hc.2.2 rfl
      rw [honours_of_not_opened hh hl haction ho hcall]
      exact (and_iff_right hleaves).symm
  · rw [DOS_OpenFileExtended, if_pos (not_not.1 (validAction_iff.not.1 haction))] at hcall
    cases hcall
    exact iff_of_true (honours_of_invalid _) ⟨fun hc => haction hc.1, fun hc => haction hc.1⟩

/-- One drive with at most one file, which every name is the name of. -/
def oneFileHost : Host (Option (List UInt8)) Unit where
  drives := fun _ => onlyZ []
  FindDevice := fun _ _ => none
  GetFileAttr := fun w _ _ => w.map fun _ => 0x20
  IsReadOnly := fun _ _ => false
  TestDir := fun _ _ _ => true
  FileExists := fun w _ _ => w.isSome
  FileOpen := fun w _ name flags =>
    if OPEN_READWRITE < flags &&& 0x0f then (w, some .ACCESS_CODE_INVALID, none)
    else (w, none, w.map fun _ => ⟨(), name, flags⟩)
  FileCreate := fun _ _ name _ => (some [], some ⟨(), name, OPEN_READWRITE⟩)
  Close := fun w object => (w, object)

def oneFile : Contents (Option (List UInt8)) Unit where
  resolve := fun w _ _ => w.map fun _ => ()
  content := fun w _ => w

theorem oneFileHost_refusesInvalid : oneFileHost.RefusesInvalid := by
  intro w drive name flags herror
  rw [oneFileHost] at herror ⊢
  dsimp only at herror ⊢
  split at herror
  · rename_i hinvalid
    rw [if_pos hinvalid]
  · cases herror

theorem oneFileHost_lawful : oneFileHost.Lawful oneFile where
  opens := by
    intro w drive name flags i
    rw [oneFileHost]
    dsimp only
    split
    · rfl
    · rfl
  fails := fun _ _ _ _ hnone => nomatch hnone
  creates := by
    intro w drive name attributes _ hresolve i hi
    cases w with
    | none => exact absurd rfl hi
    | some bytes => cases hresolve
  empties := fun _ _ _ _ _ _ _ => ⟨rfl, fun j hj => absurd rfl hj⟩

/-- A process with twenty free entries and a file of one byte. -/
def oneByte : State (Option (List UInt8)) Unit where
  world := some [0x2a]
  Files := fun _ => none
  psp := ⟨fun _ => 0xff, 0, 20, 0xc800⟩
  errorcode := .NONE
  file_locking := false

/-- The file is opened when the action allows no other thing. -/
theorem openExtended_honours_iff_oneByte :
    ∃ s₁, DOS_OpenFileExtended oneFileHost oneByte [0x41] 0 0 0x01 = .ok (some (0, 1), s₁) ∧
      Honours oneFile oneByte 0x01 (some (0, 1)) s₁ := by
  obtain ⟨s₁, hcall⟩ : ∃ s₁, DOS_OpenFileExtended oneFileHost oneByte [0x41] 0 0 0x01 =
    .ok (some (0, 1), s₁) := ⟨_, rfl⟩
  refine ⟨s₁, hcall, (openExtended_honours_iff oneFileHost_refusesInvalid oneFileHost_lawful
    hcall).2 ⟨fun hc => ?_, fun hc => ?_⟩⟩
  · exact absurd hc.2.1 (by decide)
  · exact absurd hc.2.2.1 (by decide)

/-- With "create, fail if the file exists" the call fails and leaves the file open; with "open or
create" and an invalid access code it empties the file. -/
theorem action_not_honoured :
    (∃ s₁, DOS_OpenFileExtended oneFileHost oneByte [0x41] 0 0 0x10 = .ok (none, s₁) ∧
      ¬ Honours oneFile oneByte 0x10 none s₁) ∧
    ∃ s₁, DOS_OpenFileExtended oneFileHost oneByte [0x41] 3 0 0x11 = .ok (some (0, 2), s₁) ∧
      ¬ Honours oneFile oneByte 0x11 (some (0, 2)) s₁ := by
  refine ⟨⟨_, rfl, fun hh => ?_⟩, ⟨_, rfl, fun hh => ?_⟩⟩
  · exact nomatch congrFun (hh.1 rfl).1 0
  · refine absurd (hh.2 fun hkept => ?_) (by decide)
    exact nomatch hkept () (Option.some_ne_none _)

end AugraDosbox.Files
