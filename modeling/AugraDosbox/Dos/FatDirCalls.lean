import AugraDosbox.Dos.FatFile
import AugraDosbox.Dos.FatInsert
import AugraDosbox.Dos.FatResolve

/-!
# Calls that change directories

`MakeDir`, `RemoveDir`, `Rename`, `FileCreate` and `TestDir` of `src/dos/drive_fat.cpp`.

* `convToDirFile_getEntryName` — the name that a new entry gets;
* `Tidy` — volumes whose directories have their clusters for themselves and nothing behind their
  last entries;
* `Leads` — a path of directories that are not hidden, and where it leads;
* `found_iff` — what a search in a directory finds;
* `dirClustLoop_of_leads`, `fileDirLoop_of_leads` — the walks along such a path, also after a
  change in the directory to which it leads;
* `Sees` — a drive with the directories of the tree;
* `getDirClustNum_spec`, `getFileDirEntry_spec` — the searches for paths.
-/

namespace AugraDosbox.Fat

open ByteMemory FirstMatch

/-! ## Calls -/

/-- The entry of a directory with the first cluster `clust`. -/
def dirEntry (entryname : Vector UInt8 11) (clust : ℕ) : Direntry :=
  { Direntry.empty with
    entryname := entryname
    loFirstClust := .ofNat (clust % 2 ^ 16)
    hiFirstClust := .ofNat (clust / 2 ^ 16)
    attrib := FatAttributeFlags.Directory }

namespace Volume

variable (v : Volume)

def TestDir (fuel : ℕ) (dir : CString) (d : Drive) : Option (Bool × Drive) := do
  let (clust, d) ← v.getDirClustNum fuel dir false d
  return (clust.isSome, d)

/-- `MakeDir` from the search for the base directory on: `dummyClust` is the new cluster. -/
def makeEntries (fuel : ℕ) (dir : CString) (pathName : Vector UInt8 11) (dummyClust : ℕ)
    (d : Drive) : Option (Bool × Drive) := do
  let (dirClust, d) ← v.getDirClustNum fuel dir true d
  match dirClust with
  | none => return (false, d)
  | some dirClust =>
    let (_, d) ← v.addDirectoryEntry fuel dirClust (dirEntry pathName dummyClust) d
    let (_, d) ← v.addDirectoryEntry fuel dummyClust (dirEntry dotName dummyClust) d
    let (_, d) ← v.addDirectoryEntry fuel dummyClust (dirEntry dotDotName dirClust) d
    return (true, d)

def MakeDir (fuel : ℕ) (IsReadOnly : Bool) (dir : CString) (d : Drive) :
    Option (Bool × Drive) :=
  if IsReadOnly then
    some (false, d)
  else do
    let pathName := convToDirFile (getEntryName dir)
    let (clust, d) ← v.getDirClustNum fuel dir false d
    if clust.isSome then
      return (false, d)
    let (dummyClust, d) := v.getFirstFreeClust d
    if dummyClust = 0 then
      return (false, d)
    let (allocated, d) := v.allocateCluster dummyClust 0 d
    if !allocated then
      return (false, d)
    v.makeEntries fuel dir pathName dummyClust (v.zeroOutCluster dummyClust d)

/-- One round of the count of the files in a directory, from the entry `fileidx` on. -/
def countStep (dirClustNumber : ℕ) : ℕ × ℤ × Drive → (ℕ × ℤ × Drive) ⊕ (ℕ × Drive)
  | (filecount, fileidx, d) =>
    match v.directoryBrowse dirClustNumber fileidx 0 d with
    | (none, d) => .inr (filecount, d)
    | (some e, d) =>
      .inl (if e.isDeleted then filecount else u32 (filecount + 1), fileidx + 1, d)

/-- One round of the search for the entry of a directory, which is deleted with its chain. -/
def removeStep (fuel dirClust dummyClust : ℕ) (pathName : Vector UInt8 11) :
    ℤ × Drive → (ℤ × Drive) ⊕ Option (Bool × Drive)
  | (fileidx, d) =>
    match v.directoryBrowse dirClust fileidx 0 d with
    | (none, d) => .inr (some (false, d))
    | (some e, d) =>
      if e.entryname = pathName then
        let d := (v.directoryChange dirClust e.markDeleted fileidx d).2
        .inr ((v.deleteClustChain fuel dummyClust 0 d).map fun d => (true, d))
      else
        .inl (fileidx + 1, d)

def RemoveDir (fuel : ℕ) (IsReadOnly : Bool) (dir : CString) (d : Drive) :
    Option (Bool × Drive) :=
  if IsReadOnly then
    some (false, d)
  else do
    let pathName := convToDirFile (getEntryName dir)
    let (dummyClust, d) ← v.getDirClustNum fuel dir false d
    match dummyClust with
    | none => return (false, d)
    | some dummyClust =>
      if dummyClust = 0 then
        return (false, d)
      let (dirClust, d) ← v.getDirClustNum fuel dir true d
      match dirClust with
      | none => return (false, d)
      | some dirClust =>
        -- The first two entries are those of the directory itself and of its parent.
        let (filecount, d) ← Loop.run (v.countStep dummyClust) fuel (0, 2, d)
        if 0 < filecount then
          return (false, d)
        let fileidx : ℤ := if dirClust = 0 then 0 else 2
        (Loop.run (v.removeStep fuel dirClust dummyClust pathName) fuel (fileidx, d)).join

/-- `Rename` when there is no file with the new name: `file1` is the one to be renamed. -/
def renameFile (fuel : ℕ) (newname : CString) (file1 : Direntry × ℕ × ℕ) (d : Drive) :
    Option (Bool × Drive) := do
  let (fileEntry1, dirClust1, subEntry1) := file1
  let pathName2 := convToDirFile (getEntryName newname)
  let (dirClust2, d) ← v.getDirClustNum fuel newname true d
  match dirClust2 with
  | none => return (false, d)
  | some dirClust2 =>
    let (_, d) ← v.addDirectoryEntry fuel dirClust2 { fileEntry1 with entryname := pathName2 } d
    let (file2, d) ← v.getFileDirEntry fuel newname false d
    match file2 with
    | none => return (false, d)
    | some _ =>
      return (true, (v.directoryChange dirClust1 fileEntry1.markDeleted (i32 subEntry1) d).2)

def Rename (fuel : ℕ) (IsReadOnly : Bool) (oldname newname : CString) (d : Drive) :
    Option (Bool × Drive) :=
  if IsReadOnly then
    some (false, d)
  else do
    let (file1, d) ← v.getFileDirEntry fuel oldname false d
    match file1 with
    | none => return (false, d)
    | some file1 =>
      let (file2, d) ← v.getFileDirEntry fuel newname false d
      match file2 with
      | some _ => return (false, d)
      | none => v.renameFile fuel newname file1 d

/-- The entry that `FileCreate` makes, at the time of the call. -/
def newFile (pathName : Vector UInt8 11) (attributes : UInt8) (modTime modDate : UInt16) :
    Direntry :=
  { Direntry.empty with
    entryname := pathName
    attrib := attributes
    modTime := modTime
    modDate := modDate }

/-- The file for an entry. -/
def openCreated (file : Direntry × ℕ × ℕ) (d : Drive) :
    Option FatFile × Drive :=
  let (fileEntry, dirClust, subEntry) := file
  let (f, d) := v.fatFile fileEntry.loFirstClust.toNat fileEntry.entrysize.toNat d
  (some { f with flags := OPEN_READWRITE, dirCluster := dirClust, dirIndex := subEntry }, d)

/-- `FileCreate` for a file that exists. -/
def truncateFile (fuel : ℕ) (attributes : UInt8) (modTime modDate : UInt16)
    (file : Direntry × ℕ × ℕ) (d : Drive) : Option (Option FatFile × Drive) :=
  let (fileEntry, dirClust, subEntry) := file
  if fileEntry.has FatAttributeFlags.ReadOnly then
    some (none, d)
  else do
    let d ← if fileEntry.loFirstClust ≠ 0
      then v.deleteClustChain fuel fileEntry.loFirstClust.toNat 0 d else some d
    let fileEntry := { fileEntry with
      loFirstClust := 0
      entrysize := 0
      attrib := attributes
      modTime := modTime
      modDate := modDate }
    return v.openCreated (fileEntry, dirClust, subEntry)
      (v.directoryChange dirClust fileEntry (i32 subEntry) d).2

/-- `FileCreate` for a file that does not exist. -/
def createFile (fuel : ℕ) (name : CString) (attributes : UInt8) (modTime modDate : UInt16)
    (d : Drive) : Option (Option FatFile × Drive) := do
  let pathName := convToDirFile (getEntryName name)
  let (dirClust, d) ← v.getDirClustNum fuel name true d
  match dirClust with
  | none => return (none, d)
  | some dirClust =>
    let (_, d) ← v.addDirectoryEntry fuel dirClust (newFile pathName attributes modTime modDate) d
    let (file, d) ← v.getFileDirEntry fuel name false d
    match file with
    | none => return (none, d)
    | some file => return v.openCreated file d

def FileCreate (fuel : ℕ) (IsReadOnly : Bool) (name : CString) (attributes : UInt8)
    (modTime modDate : UInt16) (d : Drive) : Option (Option FatFile × Drive) :=
  if IsReadOnly then
    some (none, d)
  else do
    let attributes := attributes ||| FatAttributeFlags.Archive
    let (file, d) ← v.getFileDirEntry fuel name false d
    match file with
    | some file => v.truncateFile fuel attributes modTime modDate file d
    | none => v.createFile fuel name attributes modTime modDate d

end Volume

/-- **The name of a new entry** is the last one of the path. -/
theorem convToDirFile_getEntryName {names : List Name83} {n : Name83}
    (hlen : (pathText (names ++ [n])).length < DOS_PATHLENGTH) :
    convToDirFile (getEntryName (pathText (names ++ [n]))) = n.entryname := by
  rw [getEntryName, tokens_pathText (by simp) hlen, List.map_append, List.map_singleton,
    List.getLast?_concat, Option.getD_some, List.take_of_length_le n.text_length_le,
    convToDirFile_text]

namespace Tree

variable {v : Volume} {disk : Disk} {t : Tree v disk}

/-! ## The directories of a volume -/

/-- No two directories have a cluster in common, there is nothing behind the last entry of a
directory, and the positions in it have 16 bits, also after it has got another cluster. -/
structure Tidy (t : Tree v disk) : Prop where
  sound : v.Sound
  clusters : ∀ c, t.isDir c → v.Clusters c (t.chain c)
  disjoint : ∀ c c', t.isDir c → t.isDir c' → c ≠ c' → c ≠ 0 → c' ≠ 0 →
    (t.chain c).Disjoint (t.chain c')
  clean : ∀ c, t.isDir c → v.Clean disk c (t.chain c) (t.entries c)
  roomy : ∀ c, t.isDir c → v.slots c (t.chain c) + v.sectorspercluster * 16 < 2 ^ 16

/-- The directory has these entries on the drive. -/
def Shows (t : Tree v disk) (d : Drive) (c : ℕ) : Prop :=
  v.Holds d.disk c (t.chain c) (t.entries c) ∧ v.Clean d.disk c (t.chain c) (t.entries c)

/-- A drive with all the directories of the tree. -/
structure Sees (t : Tree v disk) (d : Drive) : Prop where
  coherent : v.Coherent d
  shows : ∀ c, t.isDir c → t.Shows d c

/-- A path of directories that are not hidden leads from one directory to another. -/
inductive Leads (t : Tree v disk) : ℕ → List Name83 → ℕ → Prop
  | here {c : ℕ} : Leads t c [] c
  | step {c i c' : ℕ} {n : Name83} {e : Direntry} {names : List Name83}
      (hnamed : Named (t.entries c) n e i) (hplain : e.IsPlainDir)
      (hrest : Leads t e.loFirstClust.toNat names c') : Leads t c (n :: names) c'

variable {c c' i fuel : ℕ} {n : Name83} {names rest : List Name83} {e : Direntry} {d d' : Drive}
  {attrs : UInt8} {parDir dir_ok : Bool} {L : List ℕ} {es : List Direntry}

theorem Tidy.sees (h : t.Tidy) (hd : v.Coherent d) (hdisk : d.disk = disk) : t.Sees d := by
  subst hdisk
  exact ⟨hd, fun c hc => ⟨⟨t.directory c hc, rfl, t.short c hc⟩, h.clean c hc⟩⟩

theorem Sees.reads (h : t.Sees d) (hreads : Reads v d d') : t.Sees d' := by
  refine ⟨hreads.table h.coherent, fun c hc => ?_⟩
  rw [Shows, hreads.disk]
  exact h.shows c hc

theorem Leads.isDir (h : t.Leads c names c') (hc : t.isDir c) :
    t.isDir c' ∧ t.depth c ≤ t.depth c' := by
  induction h with
  | here => exact ⟨hc, le_rfl⟩
  | step hnamed hplain _ ih =>
    obtain ⟨hchild, hlt⟩ := t.child _ hc _ _ _ hnamed hplain.1
    obtain ⟨hc', hle⟩ := ih hchild
    exact ⟨hc', hlt.le.trans hle⟩

theorem leads_nil : t.Leads c [] c' ↔ c = c' := by
  constructor
  · rintro ⟨⟩
    rfl
  · rintro rfl
    exact .here

theorem leads_cons (hc : t.isDir c) (hnamed : Named (t.entries c) n e i) :
    t.Leads c (n :: names) c' ↔ e.IsPlainDir ∧ t.Leads e.loFirstClust.toNat names c' := by
  constructor
  · intro h
    cases h with
    | step hnamed' hplain hrest =>
      obtain rfl := (eq_of_named hc hnamed hnamed').2
      exact ⟨hplain, hrest⟩
  · rintro ⟨hplain, hrest⟩
    exact .step hnamed hplain hrest

theorem Leads.append {c₁ : ℕ} (h : t.Leads c names c') (h' : t.Leads c' rest c₁) :
    t.Leads c (names ++ rest) c₁ := by
  induction h with
  | here => exact h'
  | step hnamed hplain _ ih => exact .step hnamed hplain (ih h')

/-- A free cluster does not belong to a directory. -/
theorem Tidy.not_mem_of_free {m : ℕ} (h : t.Tidy) (hm : v.Free disk m) (hc : t.isDir c) :
    c ≠ m ∧ (c ≠ 0 → m ∉ t.chain c) := by
  have hnot : c ≠ 0 → m ∉ t.chain c := fun hc0 =>
    hm.not_mem hc0 (h.clusters c hc) ((t.directory c hc).chain hc0).2
  refine ⟨?_, hnot⟩
  rintro rfl
  have hc0 : c ≠ 0 := by have := hm.1.1; omega
  exact hnot hc0 (List.mem_of_mem_head? ((t.directory c hc).chain hc0).1)

/-! ## Searches -/

/-- **What a search finds** in a directory of the tree. -/
theorem found_iff (hc : t.isDir c)
    (hattrs : ∀ e, Volume.passes attrs e = true → e.has FatAttributeFlags.Volume = false) :
    Volume.found (t.entries c) attrs n.text = some (e, i) ↔
      Named (t.entries c) n e i ∧ Volume.passes attrs e = true := by
  rw [Volume.found, firstMatch_eq_some_iff]
  constructor
  · rintro ⟨hget, hfound, -⟩
    exact (isFound_iff hc hget (hattrs e)).1 hfound
  · rintro ⟨hnamed, hpasses⟩
    refine ⟨hnamed.get, (isFound_iff hc hnamed.get (hattrs e)).2 ⟨hnamed, hpasses⟩, ?_⟩
    intro j hj f hf
    rw [Bool.eq_false_iff]
    intro hfound
    obtain ⟨hnamed', -⟩ := (isFound_iff hc hf (hattrs f)).1 hfound
    have hsame := (eq_of_named hc hnamed hnamed').1
    omega

theorem no_label_of_directory (e : Direntry)
    (h : Volume.passes FatAttributeFlags.Directory e = true) :
    e.has FatAttributeFlags.Volume = false := (passes_directory.1 h).1

theorem no_label_of_file (e : Direntry) (h : Volume.passes (fileAttributes dir_ok) e = true) :
    e.has FatAttributeFlags.Volume = false := (passes_fileAttributes.1 h).1

/-- A search on the way along a path, in any directory. -/
theorem lookup_directory (hd : v.Coherent d) (h : v.Holds d.disk c L es) (n : Name83) :
    ∃ dta d', Reads v d d' ∧
      (∀ e i, Volume.found es FatAttributeFlags.Directory n.text = some (e, i) →
        dta.isDirectory = e.has FatAttributeFlags.Directory) ∧
      ∃ N, ∀ fuel ≥ N, v.lookup fuel c FatAttributeFlags.Directory n.text d
        = some ((Volume.found es FatAttributeFlags.Directory n.text).map Prod.fst, dta, d') := by
  obtain ⟨dta, d', hreads, hdta, hrun⟩ :=
    Volume.lookup_eq hd h FatAttributeFlags.Directory n.text
  refine ⟨dta, d', hreads, fun e i he => ?_, hrun⟩
  rw [DTA.isDirectory, (hdta e i he).2]
  rfl

/-- The step along a path into a directory that is not hidden. -/
theorem lookup_of_plain (hd : v.Coherent d) (hc : t.isDir c)
    (h : v.Holds d.disk c (t.chain c) (t.entries c)) (hnamed : Named (t.entries c) n e i)
    (hplain : e.IsPlainDir) :
    ∃ dta d', Reads v d d' ∧ dta.isDirectory = true ∧
      ∃ N, ∀ fuel ≥ N, v.lookup fuel c FatAttributeFlags.Directory n.text d
        = some (some e, dta, d') := by
  obtain ⟨dta, d', hreads, hdir, hrun⟩ := lookup_directory hd h n
  have hfound := (found_iff hc no_label_of_directory).2
    ⟨hnamed, passes_directory.2 ⟨hnamed.no_label, hplain.2⟩⟩
  rw [hfound] at hrun
  exact ⟨dta, d', hreads, (hdir e i hfound).trans hplain.1, hrun⟩

/-! ## Walks -/

/-- **The walk of `getDirClustNum`** along a path of directories, on a drive that has the
directories in front of the last one. -/
theorem dirClustLoop_of_leads (h : t.Leads c names c') (hc : t.isDir c) (hrest : rest ≠ [])
    (hd : v.Coherent d) (hsame : ∀ x, t.isDir x → t.depth x < t.depth c' →
      v.Holds d.disk x (t.chain x) (t.entries x)) (parDir : Bool) :
    ∃ d', Reads v d d' ∧ ∃ N, ∀ fuel ≥ N,
      v.dirClustLoop fuel parDir ((names ++ rest).map Name83.text) c d
        = v.dirClustLoop fuel parDir (rest.map Name83.text) c' d' := by
  induction h generalizing d with
  | here => exact ⟨d, .refl d, 0, fun fuel _ => rfl⟩
  | @step c i c' n e names hnamed hplain hleads ih =>
    obtain ⟨hchild, hlt⟩ := t.child c hc n e i hnamed hplain.1
    have hlt' : t.depth c < t.depth c' := lt_of_lt_of_le hlt (hleads.isDir hchild).2
    obtain ⟨dta, d₁, hreads, hisdir, N, hrun⟩ :=
      lookup_of_plain hd hc (hsame c hc hlt') hnamed hplain
    obtain ⟨d₂, hreads', N', hwalk⟩ := ih hchild (hreads.table hd)
      (by rw [hreads.disk]; exact hsame)
    refine ⟨d₂, hreads.trans hreads', max N N', fun fuel hfuel => ?_⟩
    have hfirst := hrun fuel (le_trans (le_max_left N N') hfuel)
    have hnext := hwalk fuel (le_trans (le_max_right N N') hfuel)
    rw [List.cons_append, List.map_cons, Volume.dirClustLoop, if_neg (by simp [hrest]), hfirst]
    simp only [Option.bind_eq_bind, Option.bind_some, hisdir, Bool.not_true, Bool.false_eq_true,
      if_false]
    exact hnext

/-- **The walk of `getFileDirEntry`** along such a path. -/
theorem fileDirLoop_of_leads (h : t.Leads c names c') (hc : t.isDir c) (hrest : rest ≠ [])
    (hd : v.Coherent d) (hsame : ∀ x, t.isDir x → t.depth x < t.depth c' →
      v.Holds d.disk x (t.chain x) (t.entries x)) (dir_ok : Bool) (findFile : CString) :
    ∃ findFile' d', Reads v d d' ∧ ∃ N, ∀ fuel ≥ N,
      v.fileDirLoop fuel dir_ok ((names ++ rest).map Name83.text) findFile c d
        = v.fileDirLoop fuel dir_ok (rest.map Name83.text) findFile' c' d' := by
  induction h generalizing d findFile with
  | here => exact ⟨findFile, d, .refl d, 0, fun fuel _ => rfl⟩
  | @step c i c' n e names hnamed hplain hleads ih =>
    obtain ⟨hchild, hlt⟩ := t.child c hc n e i hnamed hplain.1
    have hlt' : t.depth c < t.depth c' := lt_of_lt_of_le hlt (hleads.isDir hchild).2
    obtain ⟨dta, d₁, hreads, hisdir, N, hrun⟩ :=
      lookup_of_plain hd hc (hsame c hc hlt') hnamed hplain
    obtain ⟨findFile', d₂, hreads', N', hwalk⟩ := ih hchild (hreads.table hd)
      (by rw [hreads.disk]; exact hsame) n.text
    refine ⟨findFile', d₂, hreads.trans hreads', max N N', fun fuel hfuel => ?_⟩
    have hfirst := hrun fuel (le_trans (le_max_left N N') hfuel)
    have hnext := hwalk fuel (le_trans (le_max_right N N') hfuel)
    rw [List.cons_append, List.map_cons, fileDirLoop_of_isDirectory hfirst hisdir,
      if_neg (by simp [hrest]), hnext]

/-- **Where the walk of `getDirClustNum` ends**: the last name of the path does not count when
the parent directory is searched for. -/
theorem dirClustLoop_spec (h : t.Sees d)
    (hrest : (parDir = true ∧ ∃ m, rest = [m]) ∨ (parDir = false ∧ rest = [])) (hc : t.isDir c)
    (names : List Name83) :
    ∃ res d', Reads v d d' ∧ (∀ c', res = some c' ↔ t.Leads c names c') ∧ ∃ N, ∀ fuel ≥ N,
      v.dirClustLoop fuel parDir ((names ++ rest).map Name83.text) c d = some (res, d') := by
  induction names generalizing c d with
  | nil =>
    refine ⟨some c, d, .refl d, fun c' => by rw [leads_nil, Option.some.injEq], 0, fun fuel _ => ?_⟩
    rcases hrest with ⟨rfl, m, rfl⟩ | ⟨rfl, rfl⟩
    · rfl
    · rfl
  | cons n names ih =>
    have hmore : ¬ (parDir = true ∧ (names ++ rest).map Name83.text = []) := by
      rcases hrest with ⟨-, m, rfl⟩ | ⟨rfl, -⟩
      · simp
      · simp
    obtain ⟨dta, d₁, hreads, hisdir, N, hrun⟩ :=
      lookup_directory h.coherent (h.shows c hc).1 n
    -- a directory that is not hidden is found
    have hfinds : ∀ e i, Named (t.entries c) n e i → e.IsPlainDir →
        Volume.found (t.entries c) FatAttributeFlags.Directory n.text = some (e, i) :=
      fun e i hnamed hplain => (found_iff hc no_label_of_directory).2
        ⟨hnamed, passes_directory.2 ⟨hnamed.no_label, hplain.2⟩⟩
    cases hfound : Volume.found (t.entries c) FatAttributeFlags.Directory n.text with
    | none =>
      refine ⟨none, d₁, hreads, fun c' => iff_of_false (by simp) ?_, N, fun fuel hfuel => ?_⟩
      · intro hleads
        cases hleads with
        | step hnamed hplain _ =>
          rw [hfinds _ _ hnamed hplain] at hfound
          cases hfound
      · rw [List.cons_append, List.map_cons, Volume.dirClustLoop, if_neg hmore, hrun fuel hfuel,
          hfound]
        rfl
    | some x =>
      obtain ⟨e, i⟩ := x
      obtain ⟨hnamed, hpasses⟩ := (found_iff hc no_label_of_directory).1 hfound
      have hdir := hisdir e i hfound
      by_cases hplain : e.IsPlainDir
      · obtain ⟨res, d₂, hreads', hres, N', hwalk⟩ := ih (h.reads hreads)
          (t.child c hc n e i hnamed hplain.1).1
        refine ⟨res, d₂, hreads.trans hreads', fun c' => ?_, max N N', fun fuel hfuel => ?_⟩
        · rw [hres, leads_cons hc hnamed, and_iff_right hplain]
        · have hnext := hwalk fuel (le_trans (le_max_right N N') hfuel)
          rw [List.cons_append, List.map_cons, Volume.dirClustLoop, if_neg hmore,
            hrun fuel (le_trans (le_max_left N N') hfuel), hfound]
          simp only [Option.map_some, Option.bind_eq_bind, Option.bind_some, hdir, hplain.1,
            Bool.not_true, Bool.false_eq_true, if_false]
          exact hnext
      · have hfile : e.has FatAttributeFlags.Directory = false := by
          rw [Bool.eq_false_iff]
          exact fun hd => hplain ⟨hd, (passes_directory.1 hpasses).2⟩
        refine ⟨none, d₁, hreads, fun c' => ?_, N, fun fuel hfuel => ?_⟩
        · rw [leads_cons hc hnamed]
          exact iff_of_false (by simp) fun hleads => hplain hleads.1
        · rw [List.cons_append, List.map_cons, Volume.dirClustLoop, if_neg hmore,
            hrun fuel hfuel, hfound]
          simp [hdir, hfile]

theorem getDirClustNum_pathText (hne : names ≠ []) (hlen : (pathText names).length < DOS_PATHLENGTH)
    (parDir : Bool) (d : Drive) :
    v.getDirClustNum fuel (pathText names) parDir d
      = v.dirClustLoop fuel parDir (names.map Name83.text) 0 d := by
  rw [Volume.getDirClustNum, namesRoot_pathText hne hlen, tokens_pathText hne hlen]
  exact if_neg Bool.false_ne_true

/-- **The search for a directory.** -/
theorem getDirClustNum_spec (h : t.Sees d) (hlen : (pathText names).length < DOS_PATHLENGTH) :
    ∃ res d', Reads v d d' ∧ (∀ c, res = some c ↔ t.Leads 0 names c) ∧ ∃ N, ∀ fuel ≥ N,
      v.getDirClustNum fuel (pathText names) false d = some (res, d') := by
  by_cases hne : names = []
  · subst hne
    exact ⟨some 0, d, .refl d, fun c => by rw [leads_nil, Option.some.injEq], 0, fun fuel _ => rfl⟩
  · obtain ⟨res, d', hreads, hres, N, hrun⟩ := dirClustLoop_spec h (.inr ⟨rfl, rfl⟩) t.root names
    refine ⟨res, d', hreads, hres, N, fun fuel hfuel => ?_⟩
    rw [getDirClustNum_pathText hne hlen, ← List.append_nil names]
    exact hrun fuel hfuel

/-- **The search for the parent directory** of a path. -/
theorem getDirClustNum_parent (h : t.Sees d)
    (hlen : (pathText (names ++ [n])).length < DOS_PATHLENGTH) :
    ∃ res d', Reads v d d' ∧ (∀ c, res = some c ↔ t.Leads 0 names c) ∧ ∃ N, ∀ fuel ≥ N,
      v.getDirClustNum fuel (pathText (names ++ [n])) true d = some (res, d') := by
  obtain ⟨res, d', hreads, hres, N, hrun⟩ :=
    dirClustLoop_spec h (.inl ⟨rfl, n, rfl⟩) t.root names
  refine ⟨res, d', hreads, hres, N, fun fuel hfuel => ?_⟩
  rw [getDirClustNum_pathText (by simp) hlen]
  exact hrun fuel hfuel

/-- A search for a directory whose parent may have changed. -/
theorem testDir_of_leads (h : t.Leads 0 names c) (hd : v.Coherent d)
    (hsame : ∀ x, t.isDir x → t.depth x < t.depth c → v.Holds d.disk x (t.chain x) (t.entries x))
    (hc : v.Holds d.disk c L es)
    (hlen : (pathText (names ++ [n])).length < DOS_PATHLENGTH) :
    ∃ ok d', (∃ N, ∀ fuel ≥ N, v.TestDir fuel (pathText (names ++ [n])) d = some (ok, d')) ∧
      (ok = true ↔ ∃ e i, Volume.found es FatAttributeFlags.Directory n.text = some (e, i) ∧
        e.has FatAttributeFlags.Directory = true) := by
  obtain ⟨d₁, hreads, N, hwalk⟩ :=
    dirClustLoop_of_leads h t.root (List.cons_ne_nil n []) hd hsame false
  obtain ⟨dta, d₂, -, hisdir, N', hrun⟩ :=
    lookup_directory (hreads.table hd) (by rw [hreads.disk]; exact hc) n
  have hlast : ∀ fuel ≥ max N N', v.getDirClustNum fuel (pathText (names ++ [n])) false d =
      v.dirClustLoop fuel false [n.text] c d₁ ∧
      v.lookup fuel c FatAttributeFlags.Directory n.text d₁ =
        some ((Volume.found es FatAttributeFlags.Directory n.text).map Prod.fst, dta, d₂) := by
    intro fuel hfuel
    rw [getDirClustNum_pathText (by simp) hlen]
    exact ⟨hwalk fuel (le_trans (le_max_left N N') hfuel),
      hrun fuel (le_trans (le_max_right N N') hfuel)⟩
  cases hfound : Volume.found es FatAttributeFlags.Directory n.text with
  | none =>
    refine ⟨false, d₂, ⟨max N N', fun fuel hfuel => ?_⟩, by simp⟩
    obtain ⟨hpath, hname⟩ := hlast fuel hfuel
    rw [Volume.TestDir, hpath, Volume.dirClustLoop, if_neg (by simp), hname, hfound]
    rfl
  | some x =>
    obtain ⟨e, i⟩ := x
    have hdir := hisdir e i hfound
    refine ⟨e.has FatAttributeFlags.Directory, d₂, ⟨max N N', fun fuel hfuel => ?_⟩, ?_⟩
    · obtain ⟨hpath, hname⟩ := hlast fuel hfuel
      rw [Volume.TestDir, hpath, Volume.dirClustLoop, if_neg (by simp), hname, hfound]
      cases hflag : e.has FatAttributeFlags.Directory with
      | true => simp [hdir, hflag, Volume.dirClustLoop]
      | false => simp [hdir, hflag]
    · constructor
      · exact fun hflag => ⟨e, i, rfl, hflag⟩
      · rintro ⟨e', i', heq, hflag⟩
        obtain ⟨rfl, -⟩ := Prod.mk.inj (Option.some.inj heq)
        exact hflag

/-! ## Files -/

/-- What `getFileDirEntry` finds for the path of a file. -/
def Opens (t : Tree v disk) (names : List Name83) (r : Direntry × ℕ × ℕ) : Prop :=
  ∃ c n, Stops t false 0 names c n ∧ IsLast t false c n r

/-- **The search for a file.** -/
theorem getFileDirEntry_spec (hdisk : d.disk = disk) (hd : v.Coherent d) (hne : names ≠ [])
    (hlen : (pathText names).length < DOS_PATHLENGTH) :
    ∃ res d', Reads v d d' ∧ (∀ r, res = some r ↔ t.Opens names r) ∧ ∃ N, ∀ fuel ≥ N,
      v.getFileDirEntry fuel (pathText names) false d = some (res, d') := by
  obtain ⟨res, d', c, n, hreads, hstops, hrun, hres⟩ :=
    getFileDirEntry_stops t false hdisk hd hne hlen
  refine ⟨res, d', hreads, fun r => ?_, hrun⟩
  rw [hres]
  constructor
  · exact fun hlast => ⟨c, n, hstops, hlast⟩
  · rintro ⟨c', n', hstops', hlast⟩
    obtain ⟨rfl, rfl⟩ := hstops.unique t.root hstops'
    exact hlast

/-- The walk of `getFileDirEntry` goes along a path of directories. -/
theorem Leads.stops {m : Name83} {c₁ : ℕ} {n₁ : Name83} (h : t.Leads c names c')
    (hstops : Stops t dir_ok c' (m :: rest) c₁ n₁) :
    Stops t dir_ok c (names ++ m :: rest) c₁ n₁ := by
  induction h with
  | here => exact hstops
  | @step c i c' n e names hnamed hplain _ ih =>
    obtain ⟨k, tail, hcons⟩ : ∃ k tail, names ++ m :: rest = k :: tail := by
      cases names with
      | nil => exact ⟨m, rest, rfl⟩
      | cons k names => exact ⟨k, names ++ m :: rest, rfl⟩
    have hnext := ih hstops
    rw [List.cons_append, hcons]
    rw [hcons] at hnext
    exact .step hnamed hplain hnext

/-- The directory in which `getFileDirEntry` searches for the last name of a path whose parent
`c` has the entries `es`. -/
def lastDir (es : List Direntry) (c : ℕ) (n : Name83) : ℕ :=
  match Volume.found es FatAttributeFlags.Directory n.text with
  | some (e, _) => if e.has FatAttributeFlags.Directory then e.loFirstClust.toNat else c
  | none => c

/-- A search for a file whose parent may have changed. -/
theorem getFileDirEntry_of_leads {M : List ℕ} {fs : List Direntry} (h : t.Leads 0 names c)
    (hd : v.Coherent d) (hsame : ∀ x, t.isDir x → t.depth x < t.depth c →
      v.Holds d.disk x (t.chain x) (t.entries x))
    (hc : v.Holds d.disk c L es) (hin : v.Holds d.disk (lastDir es c n) M fs)
    (hlen : (pathText (names ++ [n])).length < DOS_PATHLENGTH) :
    ∃ res d', Reads v d d' ∧ (res = none ↔ Volume.found fs (fileAttributes false) n.text = none) ∧
      ∃ N, ∀ fuel ≥ N,
        v.getFileDirEntry fuel (pathText (names ++ [n])) false d = some (res, d') := by
  obtain ⟨findFile, d₁, hreads₁, N₁, hwalk⟩ :=
    fileDirLoop_of_leads h t.root (List.cons_ne_nil n []) hd hsame false []
  obtain ⟨dta, d₂, hreads₂, hisdir, N₂, hrun₂⟩ :=
    lookup_directory (hreads₁.table hd) (by rw [hreads₁.disk]; exact hc) n
  have hreads := hreads₁.trans hreads₂
  obtain ⟨dta', d₃, hreads₃, -, N₃, hrun₃⟩ := Volume.lookup_eq (hreads.table hd)
    (by rw [hreads.disk]; exact hin) (fileAttributes false) n.text
  -- the last step of the walk
  have hstep : ∀ fuel ≥ N₂, v.fileDirLoop fuel false [n.text] findFile c d₁ =
      some (lastDir es c n, n.text, d₂) := by
    intro fuel hfuel
    rw [Volume.fileDirLoop, hrun₂ fuel hfuel, lastDir]
    cases hfound : Volume.found es FatAttributeFlags.Directory n.text with
    | none => rfl
    | some x =>
      obtain ⟨e, i⟩ := x
      have hdir := hisdir e i hfound
      cases hflag : e.has FatAttributeFlags.Directory with
      | true => simp [hdir, hflag, Volume.fileDirLoop]
      | false => simp [hdir, hflag]
  generalize Volume.found fs (fileAttributes false) n.text = found at hrun₃ ⊢
  refine ⟨found.map fun x => (x.1, lastDir es c n, u32 (dta'.dirID.toNat + 2 ^ 32 - 1)), d₃,
    hreads.trans hreads₃, Option.map_eq_none_iff, max N₁ (max N₂ N₃), fun fuel hfuel => ?_⟩
  have hfirst := hwalk fuel (by omega)
  have hlast := hrun₃ fuel (by omega)
  rw [List.map_singleton, hstep fuel (by omega)] at hfirst
  simp only [fileAttributes, Bool.false_eq_true, if_false] at hlast
  rw [Volume.getFileDirEntry, namesRoot_pathText (by simp) hlen, tokens_pathText (by simp) hlen]
  simp only [Bool.false_eq_true, if_false, hfirst, Option.bind_eq_bind, Option.bind_some, hlast]
  cases found <;> rfl

end Tree

end AugraDosbox.Fat
