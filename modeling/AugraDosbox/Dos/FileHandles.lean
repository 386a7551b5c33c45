import AugraDosbox.Dos.Files
import AugraDosbox.Lib.Fallible

/-!
# Reference counts of file handles

Each slot of `Files` counts the entries of the job file table that refer to it.

* `makeName_cases`, `DOS_GetFileAttr_cases`, `isDirectory_cases` — what names are; the calls for
  them change nothing but the error code;
* `Untouched`, `Attached` — what opening and creating do to the two tables, and
  `DOS_OpenFile_opens`, `DOS_CreateFile_opens`;
* `Counted` — a slot is occupied when entries refer to it, and its count is their number;
* **`handles_counted`** — this holds after every sequence of calls, if no second handle is forced
  outside of the table.
-/

namespace AugraDosbox.Files

open Fat MakeName Fallible

variable {W F : Type} {h : Host W F} {s s' : State W F} {name : CString}

/-! ## Names and attributes -/

/-- The name is one on a drive. -/
def Resolves (h : Host W F) (w : W) (name : CString) (drive : ℕ) (fullname : CString) : Prop :=
  ∃ answer, DOS_MakeName (h.drives w) name = .ok answer ∧ answer.fullname = .ok fullname ∧
    answer.drive.getD 0 = drive

variable {drive entry handle : ℕ} {fullname : CString} {file : DOS_File F} {r : Option ℕ}

theorem Resolves.unique {w : W} {drive' : ℕ} {fullname' : CString}
    (h₁ : Resolves h w name drive fullname) (h₂ : Resolves h w name drive' fullname') :
    drive = drive' ∧ fullname = fullname' := by
  obtain ⟨a, ha, hfull, hdrive⟩ := h₁
  obtain ⟨b, hb, hfull', hdrive'⟩ := h₂
  rw [ha] at hb
  cases hb
  rw [hfull] at hfull'
  cases hfull'
  exact ⟨hdrive.symm.trans hdrive', rfl⟩

/-- Only the error code is another one. -/
def OnlyError (s s' : State W F) : Prop := ∃ e, s' = s.DOS_SetError e

theorem OnlyError.refl (s : State W F) : OnlyError s s := ⟨s.errorcode, rfl⟩

theorem OnlyError.setError (h₁ : OnlyError s s') (e : DosError) :
    OnlyError s (s'.DOS_SetError e) := by
  obtain ⟨e', rfl⟩ := h₁
  exact ⟨e, rfl⟩

theorem makeName_cases {r : Option (ℕ × CString)} (hm : makeName h s name = .ok (r, s')) :
    OnlyError s s' ∧
      ∀ drive fullname, r = some (drive, fullname) ↔ Resolves h s.world name drive fullname := by
  obtain ⟨answer, hanswer, hm⟩ := bind_ok.1 hm
  cases hf : answer.fullname with
  | ok fullname =>
    rw [hf] at hm
    cases hm
    refine ⟨OnlyError.refl s, fun drive fullname' => ⟨fun heq => ?_, fun hres => ?_⟩⟩
    · cases heq
      exact ⟨answer, hanswer, hf, rfl⟩
    · obtain ⟨rfl, rfl⟩ := Resolves.unique ⟨answer, hanswer, hf, rfl⟩ hres
      rfl
  | error e =>
    rw [hf] at hm
    cases hm
    refine ⟨(OnlyError.refl s).setError _, fun drive fullname' => ⟨fun heq => (nomatch heq), ?_⟩⟩
    rintro ⟨answer', hanswer', hf', -⟩
    rw [hanswer] at hanswer'
    cases hanswer'
    rw [hf] at hf'
    cases hf'

/-- The name is one of a directory or of a volume label. -/
def NamesDirectory (h : Host W F) (w : W) (name : CString) : Prop :=
  ∃ drive fullname attr, Resolves h w name drive fullname ∧
    h.GetFileAttr w drive fullname = some attr ∧ attr &&& 0x18 ≠ 0

theorem DOS_GetFileAttr_cases {r : Option UInt8} (hg : DOS_GetFileAttr h s name = .ok (r, s')) :
    OnlyError s s' ∧ ∀ attr, r = some attr ↔ ∃ drive fullname,
      Resolves h s.world name drive fullname ∧
        h.GetFileAttr s.world drive fullname = some attr := by
  obtain ⟨⟨made, s₁⟩, hm, hg⟩ := bind_ok.1 hg
  obtain ⟨⟨e, rfl⟩, hname⟩ := makeName_cases hm
  cases made with
  | none =>
    cases hg
    refine ⟨⟨e, rfl⟩, fun attr => ⟨fun heq => absurd heq.symm (Option.some_ne_none _), ?_⟩⟩
    rintro ⟨drive, fullname, hres, -⟩
    cases (hname drive fullname).2 hres
  | some made =>
    obtain ⟨drive, fullname⟩ := made
    have hres := (hname drive fullname).1 rfl
    have hattr : ∀ attr, h.GetFileAttr s.world drive fullname = some attr ↔ ∃ drive fullname,
        Resolves h s.world name drive fullname ∧
          h.GetFileAttr s.world drive fullname = some attr := by
      refine fun attr => ⟨fun ha => ⟨drive, fullname, hres, ha⟩, ?_⟩
      rintro ⟨drive', fullname', hres', ha⟩
      obtain ⟨rfl, rfl⟩ := hres.unique hres'
      exact ha
    have hworld : (s.DOS_SetError e).world = s.world := rfl
    dsimp only at hg
    rw [hworld] at hg
    cases ha : h.GetFileAttr s.world drive fullname with
    | none =>
      rw [ha] at hg hattr
      cases hg
      exact ⟨⟨_, rfl⟩, hattr⟩
    | some attr =>
      rw [ha] at hg hattr
      cases hg
      exact ⟨⟨_, rfl⟩, hattr⟩

theorem isDirectory_cases {r : Bool} (hd : isDirectory h s name none = .ok (r, s')) :
    OnlyError s s' ∧ (r = true ↔ NamesDirectory h s.world name) := by
  obtain ⟨⟨found, s₁⟩, hg, hd⟩ := bind_ok.1 hd
  obtain ⟨honly, hattr⟩ := DOS_GetFileAttr_cases hg
  cases found with
  | none =>
    cases hd
    refine ⟨honly, fun heq => (nomatch heq), ?_⟩
    rintro ⟨drive, fullname, attr, hres, ha, -⟩
    exact nomatch (hattr attr).2 ⟨drive, fullname, hres, ha⟩
  | some attr =>
    cases hd
    refine ⟨honly, ?_⟩
    rw [decide_eq_true_eq]
    constructor
    · intro hne
      obtain ⟨drive, fullname, hres, ha⟩ := (hattr attr).1 rfl
      exact ⟨drive, fullname, attr, hres, ha, hne⟩
    · rintro ⟨drive, fullname, attr', hres, ha, hne⟩
      cases (hattr attr').2 ⟨drive, fullname, hres, ha⟩
      exact hne

theorem isDirectory_onlyError {device : Option (NewFile F)} {r : Bool}
    (hd : isDirectory h s name device = .ok (r, s')) : OnlyError s s' := by
  cases device with
  | some d =>
    cases hd
    exact OnlyError.refl s
  | none => exact (isDirectory_cases hd).1

theorem PathExists_onlyError {r : Bool} (hp : PathExists h s name = .ok (r, s')) :
    OnlyError s s' := by
  rw [PathExists] at hp
  split at hp
  · cases hp
    exact OnlyError.refl s
  · split at hp
    · cases hp
    · cases hp
      exact OnlyError.refl s
    · obtain ⟨⟨made, s₁⟩, hm, hp⟩ := bind_ok.1 hp
      have h₁ := (makeName_cases hm).1
      cases made with
      | none =>
        cases hp
        exact h₁
      | some made =>
        cases hp
        exact h₁

theorem openError_onlyError {flags : UInt8}
    (ho : openError h s name fullname drive flags = .ok s') : OnlyError s s' := by
  rw [openError] at ho
  split at ho
  · cases ho
    exact ⟨_, rfl⟩
  · obtain ⟨⟨found, s₁⟩, hp, ho⟩ := bind_ok.1 ho
    cases ho
    exact (PathExists_onlyError hp).setError _

/-! ## What calls do to the tables -/

/-- Neither table has changed. -/
def Untouched (s s' : State W F) : Prop := s'.Files = s.Files ∧ s'.psp = s.psp

theorem Untouched.trans {s₁ s₂ s₃ : State W F} (h₁ : Untouched s₁ s₂) (h₂ : Untouched s₂ s₃) :
    Untouched s₁ s₃ := ⟨h₂.1.trans h₁.1, h₂.2.trans h₁.2⟩

theorem Untouched.setError (s : State W F) (code : DosError) : Untouched s (s.DOS_SetError code) :=
  ⟨rfl, rfl⟩

theorem OnlyError.untouched (h₁ : OnlyError s s') : Untouched s s' := by
  obtain ⟨e, rfl⟩ := h₁
  exact Untouched.setError s e

/-- A new file is in a free slot, and a free entry refers to it. -/
structure Attached (s s' : State W F) (entry : ℕ) : Prop where
  intro ::
  exists_slot : ∃ (handle : ℕ) (file : DOS_File F), handle < DOS_FILES ∧ s.Files handle = none ∧
    file.refCtr = 1 ∧ s'.Files = Function.update s.Files handle (some file) ∧
    s'.psp = s.psp.SetFileHandle entry (UInt8.ofNat handle)
  free : s.psp.table[entry]? = some 0xff

theorem Attached.of_untouched {t : State W F} (h₁ : Untouched s t) (ha : Attached t s' entry) :
    Attached s s' entry := by
  obtain ⟨⟨handle, file, hlt, hfree, hrefs, hfiles, hpsp⟩, hentry⟩ := ha
  rw [h₁.1] at hfree hfiles
  rw [h₁.2] at hpsp hentry
  exact ⟨⟨handle, file, hlt, hfree, hrefs, hfiles, hpsp⟩, hentry⟩

theorem freeSlot_spec (hs : freeSlot s = some handle) :
    handle < DOS_FILES ∧ s.Files handle = none := by
  have hmem := List.mem_of_find?_eq_some hs
  have hfree := List.find?_some hs
  exact ⟨List.mem_range.1 hmem, by simpa using hfree⟩

/-- A new file in a free slot and a free entry. -/
theorem attached_attach (hslot : freeSlot s = some handle)
    (hentry : s.psp.FindFreeFileEntry = entry) (hne : entry ≠ 0xff) (hrefs : file.refCtr = 0) :
    Attached s (s.attach handle entry file) entry := by
  obtain ⟨hlt, hfree⟩ := freeSlot_spec hslot
  refine ⟨⟨handle, { file with refCtr := file.refCtr + 1 }, hlt, hfree, ?_, rfl, rfl⟩, ?_⟩
  · simp [hrefs]
  · rw [← hentry] at hne ⊢
    exact Psp.FindFreeFileEntry_spec hne

/-! ## Opening and creating -/

/-- No drive opens a file with an access code that it reports as invalid. -/
def Host.RefusesInvalid (h : Host W F) : Prop :=
  ∀ w drive name flags, (h.FileOpen w drive name flags).2.1 = some .ACCESS_CODE_INVALID →
    (h.FileOpen w drive name flags).2.2 = none

/-- The tables after a call that returns an entry, or nothing. -/
def Opens (s : State W F) (r : Option ℕ) (s' : State W F) : Prop :=
  match r with
  | none => Untouched s s'
  | some entry => Attached s s' entry

theorem Opens.of_untouched {s₁ : State W F} (h₁ : Untouched s s₁) (ho : Opens s₁ r s') :
    Opens s r s' := by
  cases r with
  | none => exact h₁.trans ho
  | some entry => exact Attached.of_untouched h₁ ho

theorem openOnDrive_opens (hh : h.RefusesInvalid) {flags : UInt8} (hslot : freeSlot s = some handle)
    (hne : s.psp.FindFreeFileEntry ≠ 0xff)
    (ho : openOnDrive h s name fullname drive flags handle s.psp.FindFreeFileEntry = .ok (r, s')) :
    Opens s r s' := by
  rw [openOnDrive] at ho
  split at ho
  · cases ho
    exact Untouched.setError s _
  · have hinvalid := hh s.world drive fullname flags
    generalize h.FileOpen s.world drive fullname flags = result at ho hinvalid
    obtain ⟨world, error, file⟩ := result
    dsimp only at ho hinvalid
    split at ho
    · rename_i herror
      cases ho
      -- the slot gets no file, and it was empty before
      rw [hinvalid herror, Option.map_none]
      refine ⟨?_, rfl⟩
      change Function.update s.Files handle none = s.Files
      rw [← (freeSlot_spec hslot).2, Function.update_eq_self]
    · cases file with
      | some file =>
        cases ho
        exact Attached.of_untouched (t := { s with world := world }) ⟨rfl, rfl⟩
          (attached_attach hslot rfl hne rfl)
      | none =>
        obtain ⟨s₁, he, ho⟩ := bind_ok.1 ho
        cases ho
        have h₁ := (openError_onlyError he).untouched
        exact ⟨h₁.1, h₁.2⟩

/-- **Opening attaches one file or leaves the tables alone.** -/
theorem DOS_OpenFile_opens (hh : h.RefusesInvalid) {flags : UInt8}
    (ho : DOS_OpenFile h s name flags = .ok (r, s')) : Opens s r s' := by
  obtain ⟨⟨denied, s₁⟩, hd, ho⟩ := bind_ok.1 ho
  have h₁ := (isDirectory_onlyError hd).untouched
  cases denied with
  | true =>
    cases ho
    exact h₁.trans (Untouched.setError s₁ _)
  | false =>
    obtain ⟨⟨made, s₂⟩, hm, ho⟩ := bind_ok.1 ho
    have h₂ := h₁.trans (makeName_cases hm).1.untouched
    cases made with
    | none =>
      cases ho
      exact h₂
    | some made =>
      obtain ⟨drive, fullname⟩ := made
      dsimp only at ho
      cases hslot : freeSlot s₂ with
      | none =>
        rw [hslot] at ho
        cases ho
        exact h₂.trans (Untouched.setError s₂ _)
      | some handle =>
        rw [hslot] at ho
        dsimp only at ho
        split at ho
        · cases ho
          exact h₂.trans (Untouched.setError s₂ _)
        · rename_i hne
          refine Opens.of_untouched h₂ ?_
          cases hdev : h.FindDevice s.world name with
          | some file =>
            rw [hdev] at ho
            cases ho
            exact attached_attach hslot rfl hne rfl
          | none =>
            rw [hdev] at ho
            exact openOnDrive_opens hh hslot hne ho

theorem createOnDrive_opens {attributes : UInt8} (hslot : freeSlot s = some handle)
    (ho : createOnDrive h s name fullname drive attributes handle = .ok (r, s')) :
    Opens s r s' := by
  rw [createOnDrive] at ho
  split at ho
  · cases ho
    exact Untouched.setError s _
  · dsimp only at ho
    split at ho
    · cases ho
      exact Untouched.setError s _
    · rename_i hne
      split at ho
      · cases ho
        exact Untouched.setError s _
      · split at ho
        · rename_i world file _
          cases ho
          exact Attached.of_untouched (t := { s with world := world }) ⟨rfl, rfl⟩
            (attached_attach hslot rfl hne rfl)
        · obtain ⟨⟨found, s₁⟩, hp, ho⟩ := bind_ok.1 ho
          have h₁ := (PathExists_onlyError hp).untouched
          cases ho
          exact ⟨h₁.1, h₁.2⟩

/-- **Creating attaches one file or leaves the tables alone.** -/
theorem DOS_CreateFile_opens (hh : h.RefusesInvalid) {attributes : UInt8}
    (ho : DOS_CreateFile h s name attributes = .ok (r, s')) : Opens s r s' := by
  rw [DOS_CreateFile] at ho
  cases hdev : h.FindDevice s.world name with
  | some file =>
    rw [hdev] at ho
    exact DOS_OpenFile_opens hh ho
  | none =>
    rw [hdev] at ho
    obtain ⟨⟨made, s₁⟩, hm, ho⟩ := bind_ok.1 ho
    have h₁ := (makeName_cases hm).1.untouched
    cases made with
    | none =>
      cases ho
      exact h₁
    | some made =>
      obtain ⟨drive, fullname⟩ := made
      dsimp only at ho
      cases hslot : freeSlot s₁ with
      | none =>
        rw [hslot] at ho
        cases ho
        exact h₁.trans (Untouched.setError s₁ _)
      | some handle =>
        rw [hslot] at ho
        exact Opens.of_untouched h₁ (createOnDrive_opens hslot ho)

/-! ## Counting references -/

/-- How many entries of the job file table refer to a slot. -/
def refs (s : State W F) (handle : ℕ) : ℕ := s.psp.table.count (UInt8.ofNat handle)

/-- Each slot is occupied exactly when entries refer to it, and its file counts them. -/
def Counted (s : State W F) : Prop :=
  ∀ handle < DOS_FILES,
    ((s.Files handle).isSome ↔ 0 < refs s handle) ∧
      ∀ file, s.Files handle = some file → file.refCtr = refs s handle

theorem ofNat_inj {m n : ℕ} (hm : m < DOS_FILES) (hn : n < DOS_FILES) :
    UInt8.ofNat m = UInt8.ofNat n ↔ m = n := by
  have hfiles : DOS_FILES = 255 := rfl
  constructor
  · intro heq
    have hnat := congrArg UInt8.toNat heq
    rwa [UInt8.toNat_ofNat_of_lt' (by rw [UInt8.size]; omega),
      UInt8.toNat_ofNat_of_lt' (by rw [UInt8.size]; omega)] at hnat
  · rintro rfl
    rfl

theorem ofNat_ne_free (hlt : handle < DOS_FILES) : UInt8.ofNat handle ≠ 0xff := by
  intro heq
  have hfiles : DOS_FILES = 255 := rfl
  have hnat := congrArg UInt8.toNat heq
  rw [UInt8.toNat_ofNat_of_lt' (by rw [UInt8.size]; omega)] at hnat
  have h255 : (0xff : UInt8).toNat = 255 := rfl
  omega

/-- Pointing an entry of a table elsewhere moves one reference. -/
theorem count_set_of_get {t : List UInt8} {i : ℕ} {old : UInt8} (new x : UInt8)
    (hi : t[i]? = some old) :
    (t.set i new).count x + (if old = x then 1 else 0) = t.count x + if new = x then 1 else 0 := by
  obtain ⟨hlt, hget⟩ := List.getElem?_eq_some_iff.1 hi
  rw [List.count_set hlt, hget]
  by_cases hold : old = x
  · have hpos : 0 < t.count x := by
      rw [List.count_pos_iff, ← hold, ← hget]
      exact List.getElem_mem hlt
    by_cases hnew : new = x
    · simp only [hold, hnew, beq_self_eq_true, if_true]
      omega
    · simp only [hold, hnew, beq_self_eq_true, if_true, if_false, beq_iff_eq]
      omega
  · simp [hold]

/-- Pointing an entry at a slot moves one reference. -/
theorem refs_point {x : ℕ} (hlt : handle < DOS_FILES) (hx : x < DOS_FILES)
    (hfree : s.psp.table[entry]? = some 0xff)
    (hpsp : s'.psp = s.psp.SetFileHandle entry (UInt8.ofNat handle)) :
    refs s' x = refs s x + if handle = x then 1 else 0 := by
  have hcount := count_set_of_get (UInt8.ofNat handle) (UInt8.ofNat x) hfree
  simp only [if_neg (ofNat_ne_free hx).symm, Nat.add_zero, ofNat_inj hlt hx] at hcount
  rw [refs, hpsp, Psp.table_SetFileHandle, hcount, refs]

/-- Freeing an entry takes one reference away. -/
theorem refs_release {x : ℕ} (hlt : handle < DOS_FILES) (hx : x < DOS_FILES)
    (hentry : s.psp.table[entry]? = some (UInt8.ofNat handle))
    (hpsp : s'.psp = s.psp.SetFileHandle entry 0xff) :
    refs s' x + (if handle = x then 1 else 0) = refs s x := by
  have hcount := count_set_of_get 0xff (UInt8.ofNat x) hentry
  simp only [if_neg (ofNat_ne_free hx).symm, Nat.add_zero, ofNat_inj hlt hx] at hcount
  rw [refs, hpsp, Psp.table_SetFileHandle, hcount, refs]

theorem refs_pos_of_get (he : s.psp.table[entry]? = some (UInt8.ofNat handle)) :
    0 < refs s handle :=
  List.count_pos_iff.2 (List.mem_of_getElem? he)

theorem Counted.untouched (hc : Counted s) (hu : Untouched s s') : Counted s' := by
  intro handle hlt
  obtain ⟨hfiles, hpsp⟩ := hu
  have hrefs : refs s' handle = refs s handle := by rw [refs, refs, hpsp]
  rw [hfiles, hrefs]
  exact hc handle hlt

/-- The tables after the free entry has got a reference to a slot, whose file counts one more. -/
theorem Counted.point (hc : Counted s) (hlt : handle < DOS_FILES)
    (hfree : s.psp.table[entry]? = some 0xff)
    (hfiles : s'.Files = Function.update s.Files handle (some file))
    (hpsp : s'.psp = s.psp.SetFileHandle entry (UInt8.ofNat handle))
    (hrefs : file.refCtr = refs s handle + 1) : Counted s' := by
  intro x hx
  rw [refs_point hlt hx hfree hpsp, hfiles]
  by_cases heq : handle = x
  · rw [if_pos heq, ← heq, Function.update_self]
    refine ⟨by simp, fun file' hfile' => ?_⟩
    cases hfile'
    rw [hrefs]
    push_cast
    rfl
  · rw [if_neg heq, Nat.add_zero, Function.update_of_ne (Ne.symm heq)]
    exact hc x hx

theorem Counted.attached (hc : Counted s) (ha : Attached s s' entry) :
    Counted s' := by
  obtain ⟨⟨handle, file, hlt, hnone, hone, hfiles, hpsp⟩, hfree⟩ := ha
  have hzero : refs s handle = 0 := by
    have h0 := (hc handle hlt).1
    rw [hnone] at h0
    by_contra hne
    exact absurd (h0.2 (Nat.pos_of_ne_zero hne)) (by simp)
  exact hc.point hlt hfree hfiles hpsp (by rw [hone, hzero]; rfl)

theorem Counted.opens (hc : Counted s) (ho : Opens s r s') : Counted s' := by
  cases r with
  | none => exact hc.untouched ho
  | some entry => exact hc.attached ho

/-- What an entry with an open file looks like in the table. -/
theorem openFile_spec (ho : openFile s entry = some (handle, file)) :
    handle < DOS_FILES ∧ s.Files handle = some file ∧
      s.psp.table[entry]? = some (UInt8.ofNat handle) := by
  rw [openFile] at ho
  split at ho
  · cases ho
  · rename_i hlt
    obtain ⟨file', hfile, heq⟩ := Option.map_eq_some_iff.1 ho
    simp only [Prod.mk.injEq] at heq
    obtain ⟨rfl, rfl⟩ := heq
    refine ⟨Nat.lt_of_not_le hlt, hfile, ?_⟩
    rw [UInt8.ofNat_toNat, Psp.GetFileHandle_eq]
    cases ht : s.psp.table[entry]? with
    | some v => rfl
    | none =>
      rw [Psp.GetFileHandle_eq, ht] at hlt
      exact absurd (by decide) hlt

/-- The tables after an entry has been freed, whose file counts one less or is gone. -/
theorem Counted.release {new : Option (DOS_File F)} (hc : Counted s) (hlt : handle < DOS_FILES)
    (hfile : s.Files handle = some file) (hentry : s.psp.table[entry]? = some (UInt8.ofNat handle))
    (hfiles : s'.Files = Function.update s.Files handle new)
    (hpsp : s'.psp = s.psp.SetFileHandle entry 0xff) (hgone : file.refCtr - 1 ≤ 0 → new = none)
    (hstays : 0 < file.refCtr - 1 → ∃ file', new = some file' ∧ file'.refCtr = file.refCtr - 1) :
    Counted s' := by
  intro x hx
  have hrefs := refs_release hlt hx hentry hpsp
  rw [hfiles]
  by_cases heq : handle = x
  · rw [if_pos heq] at hrefs
    rw [← heq] at hrefs ⊢
    have hcount := (hc handle hlt).2 file hfile
    rw [Function.update_self]
    rcases le_or_gt (file.refCtr - 1) 0 with hle | hpos
    · rw [hgone hle]
      exact ⟨by simp; omega, fun file' hfile' => by cases hfile'⟩
    · obtain ⟨file', hnew, hrefs'⟩ := hstays hpos
      rw [hnew]
      refine ⟨by simp; omega, fun file'' hfile'' => ?_⟩
      cases hfile''
      omega
  · rw [if_neg heq, Nat.add_zero] at hrefs
    rw [Function.update_of_ne (Ne.symm heq), hrefs]
    exact hc x hx

theorem Counted.close (hc : Counted s) (h : Host W F) (entry : ℕ) :
    Counted (DOS_CloseFile h s entry).2 := by
  rw [DOS_CloseFile]
  cases ho : openFile s entry with
  | none => exact hc.untouched (Untouched.setError s _)
  | some found =>
    obtain ⟨handle, file⟩ := found
    obtain ⟨hlt, hfile, hentry⟩ := openFile_spec ho
    refine hc.release hlt hfile hentry rfl rfl (fun hle => if_pos hle) fun hpos => ?_
    exact ⟨_, if_neg (by omega), rfl⟩

theorem Counted.duplicate (hc : Counted s) :
    Counted (DOS_DuplicateEntry s entry).2 := by
  rw [DOS_DuplicateEntry]
  cases ho : openFile s entry with
  | none => exact hc.untouched (Untouched.setError s _)
  | some found =>
    obtain ⟨handle, file⟩ := found
    obtain ⟨hlt, hfile, -⟩ := openFile_spec ho
    dsimp only
    split
    · exact hc.untouched (Untouched.setError s _)
    · rename_i hne
      have hrefs := (hc handle hlt).2 file hfile
      exact hc.point hlt (Psp.FindFreeFileEntry_spec hne) rfl rfl (by rw [← hrefs])

/-- An entry of the table is free when no file is open there. -/
theorem Counted.free_of_closed (hc : Counted s) (hlt : entry < s.psp.max_files)
    (hclosed : openFile s entry = none) : s.psp.table[entry]? = some 0xff := by
  have hget : s.psp.table[entry]? = some (s.psp.GetFileHandle entry) := by
    rw [Psp.GetFileHandle_eq, Psp.getElem?_table, if_pos hlt]
    rfl
  rw [openFile] at hclosed
  split at hclosed
  · rename_i hle
    have hbyte := (s.psp.GetFileHandle entry).toNat_lt
    have hfiles : DOS_FILES = 255 := rfl
    rw [hget]
    refine congrArg some (UInt8.toNat_inj.1 ?_)
    have h255 : (0xff : UInt8).toNat = 255 := rfl
    omega
  · rename_i hlt255
    have hnone : s.Files (s.psp.GetFileHandle entry).toNat = none := by simpa using hclosed
    rw [← UInt8.ofNat_toNat (x := s.psp.GetFileHandle entry)] at hget
    have hsome := (hc _ (Nat.lt_of_not_le hlt255)).1.2 (refs_pos_of_get hget)
    rw [hnone] at hsome
    cases hsome

/-- The file of an entry is still there after another entry has been closed. -/
theorem Counted.stays_of_close {newentry : ℕ} (hc : Counted s) (hne : entry ≠ newentry)
    (ho : openFile s entry = some (handle, file)) :
    ∃ file', (DOS_CloseFile h s newentry).2.Files handle = some file' := by
  obtain ⟨hlt, hfile, hentry⟩ := openFile_spec ho
  refine Option.isSome_iff_exists.1 ((hc.close h newentry handle hlt).1.2 ?_)
  have htable : (DOS_CloseFile h s newentry).2.psp.table[entry]? = s.psp.table[entry]? := by
    rw [DOS_CloseFile]
    cases openFile s newentry with
    | none => rfl
    | some found =>
      change (s.psp.SetFileHandle newentry 0xff).table[entry]? = _
      rw [Psp.table_SetFileHandle, List.getElem?_set_ne (Ne.symm hne)]
  exact refs_pos_of_get (htable.trans hentry)

/-- The entry that a handle is forced into, once it has been closed. -/
theorem Counted.freed_of_close {newentry : ℕ} (hc : Counted s)
    (hlt : newentry < s.psp.max_files) :
    (if (openFile s newentry).isSome then (DOS_CloseFile h s newentry).2 else s).psp.table[
      newentry]? = some 0xff := by
  cases ho : openFile s newentry with
  | none => exact hc.free_of_closed hlt ho
  | some found =>
    rw [if_pos (show (some found).isSome = true from rfl), DOS_CloseFile, ho]
    change (s.psp.SetFileHandle newentry 0xff).table[newentry]? = _
    rw [Psp.table_SetFileHandle, List.getElem?_set_self (by rw [Psp.length_table]; exact hlt)]

/-- **Forcing a handle into an entry of the table keeps the counts**, also when the entry has
referred to the same file. -/
theorem Counted.forceDuplicate {newentry : ℕ} (hc : Counted s)
    (hin : (openFile s entry).isSome → newentry < s.psp.max_files) :
    ∃ r s', DOS_ForceDuplicateEntry h s entry newentry = .ok (r, s') ∧ Counted s' := by
  rw [DOS_ForceDuplicateEntry]
  by_cases heq : entry = newentry
  · rw [if_pos heq]
    exact ⟨_, _, rfl, hc.untouched (Untouched.setError s _)⟩
  rw [if_neg heq]
  cases ho : openFile s entry with
  | none => exact ⟨_, _, rfl, hc.untouched (Untouched.setError s _)⟩
  | some found =>
    obtain ⟨orig, file₀⟩ := found
    have hlt := hin (by rw [ho]; rfl)
    obtain ⟨horig, hfile₀, -⟩ := openFile_spec ho
    have hfree := hc.freed_of_close (h := h) hlt
    have hclosed : Counted
        (if (openFile s newentry).isSome then (DOS_CloseFile h s newentry).2 else s) := by
      split
      · exact hc.close h newentry
      · exact hc
    have hstays : ∃ file, (if (openFile s newentry).isSome then (DOS_CloseFile h s newentry).2
        else s).Files orig = some file := by
      split
      · exact hc.stays_of_close heq ho
      · exact ⟨file₀, hfile₀⟩
    dsimp only
    generalize (if (openFile s newentry).isSome then (DOS_CloseFile h s newentry).2 else s) = s₁
      at hfree hclosed hstays ⊢
    obtain ⟨file, hfile⟩ := hstays
    rw [hfile]
    have hrefs := (hclosed orig horig).2 file hfile
    exact ⟨true, _, rfl, hclosed.point horig hfree rfl rfl (by rw [← hrefs])⟩

/-! ## Sequences of calls -/

/-- A call with its arguments. -/
inductive Call where
  | open (name : CString) (flags : UInt8)
  | create (name : CString) (attributes : UInt8)
  | duplicate (entry : ℕ)
  | forceDuplicate (entry newentry : ℕ)
  | close (entry : ℕ)

/-- What a call leaves. -/
def serve (h : Host W F) (s : State W F) : Call → Except Fault (State W F)
  | .open name flags => do
      let (_, s) ← DOS_OpenFile h s name flags
      .ok s
  | .create name attributes => do
      let (_, s) ← DOS_CreateFile h s name attributes
      .ok s
  | .duplicate entry => .ok (DOS_DuplicateEntry s entry).2
  | .forceDuplicate entry newentry => do
      let (_, s) ← DOS_ForceDuplicateEntry h s entry newentry
      .ok s
  | .close entry => .ok (DOS_CloseFile h s entry).2

/-- No handle of an open file is forced into an entry behind the end of the table. -/
def Call.InTable (s : State W F) : Call → Prop
  | .forceDuplicate entry newentry => (openFile s entry).isSome → newentry < s.psp.max_files
  | _ => True

/-- One call more. -/
def Step (h : Host W F) (s s' : State W F) : Prop := ∃ c : Call, c.InTable s ∧ serve h s c = .ok s'

/-- No file is open. -/
structure Fresh (s : State W F) : Prop where
  files : ∀ handle, s.Files handle = none
  table : ∀ v ∈ s.psp.table, v = 0xff

theorem Fresh.counted (hf : Fresh s) : Counted s := by
  intro handle hlt
  have hzero : refs s handle = 0 := by
    refine List.count_eq_zero.2 fun hmem => ?_
    exact ofNat_ne_free hlt (hf.table _ hmem)
  rw [hzero, hf.files]
  exact ⟨by simp, fun file hfile => by cases hfile⟩

theorem Counted.step (hh : h.RefusesInvalid) (hc : Counted s) (hs : Step h s s') : Counted s' := by
  obtain ⟨c, hin, hserve⟩ := hs
  cases c with
  | «open» name flags =>
    obtain ⟨⟨r, s₁⟩, ho, hserve⟩ := bind_ok.1 hserve
    cases hserve
    exact hc.opens (DOS_OpenFile_opens hh ho)
  | create name attributes =>
    obtain ⟨⟨r, s₁⟩, ho, hserve⟩ := bind_ok.1 hserve
    cases hserve
    exact hc.opens (DOS_CreateFile_opens hh ho)
  | duplicate entry =>
    cases hserve
    exact hc.duplicate
  | forceDuplicate entry newentry =>
    obtain ⟨r, s₁, hforce, hc₁⟩ := hc.forceDuplicate (h := h) hin
    rw [serve, hforce] at hserve
    cases hserve
    exact hc₁
  | close entry =>
    cases hserve
    exact hc.close h entry

/-- **Every slot counts the entries that refer to it**, after every sequence of calls that starts
without open files and forces no handle out of the table. -/
theorem handles_counted (hh : h.RefusesInvalid) (hf : Fresh s)
    (hrun : Relation.ReflTransGen (Step h) s s') : Counted s' := by
  induction hrun with
  | refl => exact hf.counted
  | tail _ hs ih => exact ih.step hh hs

/-- One drive on which every name can be opened. -/
def openHost : Host Unit Unit where
  drives := fun _ => onlyZ []
  FindDevice := fun _ _ => none
  GetFileAttr := fun _ _ _ => none
  IsReadOnly := fun _ _ => false
  TestDir := fun _ _ _ => true
  FileExists := fun _ _ _ => true
  FileOpen := fun _ _ name flags => ((), none, some ⟨(), name, flags⟩)
  FileCreate := fun _ _ name _ => ((), some ⟨(), name, OPEN_READWRITE⟩)
  Close := fun _ object => ((), object)

theorem openHost_refusesInvalid : openHost.RefusesInvalid := fun _ _ _ _ h => by cases h

/-- A process with twenty free entries. -/
def twentyFree : State Unit Unit where
  world := ()
  Files := fun _ => none
  psp := ⟨fun _ => 0xff, 0, 20, 0xc800⟩
  errorcode := .NONE
  file_locking := false

theorem twentyFree_fresh : Fresh twentyFree := by
  refine ⟨fun _ => rfl, fun v hv => ?_⟩
  obtain ⟨i, -, rfl⟩ := List.mem_map.1 hv
  rfl

/-- A file is opened, and its handle is forced into the fifth entry. -/
theorem handles_counted_twentyFree :
    ∃ s₁ s₂, serve openHost twentyFree (.open [0x41] OPEN_READ) = .ok s₁ ∧
      serve openHost s₁ (.forceDuplicate 0 5) = .ok s₂ ∧ Counted s₂ := by
  refine ⟨_, _, rfl, rfl, ?_⟩
  refine handles_counted openHost_refusesInvalid twentyFree_fresh
    ((Relation.ReflTransGen.single ⟨.open [0x41] OPEN_READ, trivial, rfl⟩).tail
      ⟨.forceDuplicate 0 5, fun _ => ?_, rfl⟩)
  decide

/-- The same with the twentieth entry, which is not there: the file counts a reference that no entry
holds. -/
theorem forced_out_of_table :
    ∃ s₁ s₂, serve openHost twentyFree (.open [0x41] OPEN_READ) = .ok s₁ ∧
      serve openHost s₁ (.forceDuplicate 0 20) = .ok s₂ ∧ ¬ Counted s₂ := by
  refine ⟨_, _, rfl, rfl, fun hc => ?_⟩
  have hrefs := (hc 0 (by decide)).2 _ rfl
  exact absurd hrefs (by decide)

end AugraDosbox.Files
