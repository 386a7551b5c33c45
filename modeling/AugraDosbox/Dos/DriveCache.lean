import Mathlib.Data.List.Lex
import AugraDosbox.Lib.Bisect
import AugraDosbox.Dos.ShortName
import AugraDosbox.Lib.Fallible
import AugraDosbox.Hardware.Pages

/-!
# Short names in a directory

`DOS_Drive_Cache` of `src/dos/drive_cache.cpp`: how `ReadDir` makes the entries of a directory that
is not in the cache.

* `strcmp` — the order of the names, by their bytes;
* `CreateShortName`, `CreateEntry`, `ReadDir` — the entries and their short names;
* `Sorted` — the entries of a directory are in the order of their short names;
* **`readDir_deterministic`** — the entries do not depend on the order in which the host gives the
  names, and `GetLongName` finds a short name exactly when there is one.
-/

namespace AugraDosbox.DriveCache

open Fat ShortName

def CROSS_LEN : ℕ := 512

def bytes (s : CString) : List ℕ := s.map UInt8.toNat

/-- `strcmp`, and the order of `std::string`. -/
def strcmp (s t : CString) : Ordering :=
  if bytes s < bytes t then .lt else if bytes t < bytes s then .gt else .eq

def strncmp (s t : CString) (n : ℕ) : Ordering := strcmp (s.take n) (t.take n)

structure CFileInfo where
  orgname : CString
  shortname : CString
  shortNr : ℕ
  isDir : Bool
  deriving DecidableEq, Repr

/-- The lists of a directory, and the entry that `ReadDir` gives next. -/
structure Dir where
  fileList : List CFileInfo
  longNameList : List CFileInfo
  isOverlayDir : Bool
  nextEntry : ℕ
  deriving DecidableEq, Repr

/-! ## Finding names -/

/-- `GetLongName`: the number of the entry and its long name. -/
def GetLongName (curDir : Dir) (shortName : CString) (shortName_len : ℕ) : Option (ℕ × CString) :=
  let shortName := RemoveTrailingDot shortName
  let size := curDir.fileList.length
  let found := Bisect.bisect (fun mid => match curDir.fileList[mid]? with
    | none => .lt
    | some info => strcmp shortName info.shortname) size 0 size
  found.bind fun mid => curDir.fileList[mid]?.map fun info =>
    (mid, info.orgname.take (shortName_len - 1))

/-- How many characters of a string are in front of the first `c`. -/
def strcspn (s : CString) (c : UInt8) : ℕ := (s.takeWhile (· ≠ c)).length

def CompareShortname (compareName shortName : CString) : Ordering :=
  match strchr tilde shortName with
  | none => strcmp compareName shortName
  | some (_, post) =>
      let compareCount1 := strcspn shortName tilde
      let numberSize := strcspn (tilde :: post) dot
      let compareCount2 := min 8 (strcspn compareName dot)
      let compareCount1 := if compareCount1 + numberSize < compareCount2
        then compareCount2 - numberSize else compareCount1
      strncmp compareName shortName compareCount1

/-- The numbers of the entries that follow with the same characters. -/
def runLoop (name : CString) : ℕ → List CFileInfo → ℕ
  | found_nr, [] => found_nr
  | found_nr, info :: rest =>
      if CompareShortname name info.shortname = .eq then runLoop name info.shortNr rest
      else found_nr

def CreateShortNameID (curDir : Dir) (name : CString) : ℕ :=
  let size := curDir.longNameList.length
  let found := Bisect.bisect (fun mid => match curDir.longNameList[mid]? with
    | none => .lt
    | some info => CompareShortname name info.shortname) size 0 size
  match found with
  | none => 1
  | some mid => runLoop name 0 (curDir.longNameList.drop mid) + 1

/-! ## Making entries -/

/-- The search for the place of an entry with the name `key`. -/
def insertBefore (key : CString) (info : CFileInfo) : List CFileInfo → List CFileInfo
  | [] => [info]
  | other :: rest =>
      if strcmp key other.shortname = .lt then info :: other :: rest
      else other :: insertBefore key info rest

/-- An entry is put at the end or at its place. -/
def insertEntry (key : CString) (info : CFileInfo) (l : List CFileInfo) : List CFileInfo :=
  match l.getLast? with
  | none => [info]
  | some back => if strcmp key back.shortname ≠ .lt then l ++ [info] else insertBefore key info l

/-- `CreateShortName`: the directory and the entry with its short name. -/
def CreateShortName (curDir : Dir) (info : CFileInfo) : Except Fault (Dir × CFileInfo) :=
  let basis := sfn_clean_basis info.orgname
  let tmpName := basis.shortname
  if basis.not_8x3 || (GetLongName curDir tmpName CROSS_LEN).isSome then
    let shortNr := CreateShortNameID curDir tmpName
    if 9999999 < shortNr then .error .exit
    else
      let shortname := numberedName basis shortNr
      let info := { info with shortNr := shortNr, shortname := RemoveTrailingDot shortname }
      .ok ({ curDir with longNameList := insertEntry shortname info curDir.longNameList }, info)
  else .ok (curDir, { info with shortname := RemoveTrailingDot tmpName })

/-- A name that the host gives, and whether it is a directory. -/
structure DirEntry where
  name : CString
  is_dir : Bool
  deriving DecidableEq, Repr

def CreateEntry (dir : Dir) (entry : DirEntry) : Except Fault Dir := do
  let info : CFileInfo := ⟨entry.name.take (CROSS_LEN - 1), [], 0, entry.is_dir⟩
  let (dir, info) ← CreateShortName dir info
  .ok { dir with fileList := insertEntry info.shortname info dir.fileList }

def IsCachedIn (curDir : Dir) : Bool := curDir.isOverlayDir || curDir.fileList ≠ []

/-- The entries in the order of their names. -/
def sortEntries (entries : List DirEntry) : List DirEntry :=
  entries.mergeSort fun a b => bytes a.name ≤ bytes b.name

def SetResult (dir : Dir) (entryNr : ℕ) : Option CString × Dir :=
  match dir.fileList[entryNr]? with
  | none => (none, dir)
  | some info => (some info.shortname, { dir with nextEntry := entryNr + 1 })

/-- `ReadDir` with what the host gives for the directory: the next name. -/
def ReadDir (dir : Dir) (host : Option (List DirEntry)) : Except Fault (Option CString × Dir) :=
  if IsCachedIn dir then .ok (SetResult dir dir.nextEntry)
  else
    match host with
    | none => .ok (none, dir)
    | some entries => do
        let dir ← (sortEntries entries).foldlM CreateEntry dir
        .ok (SetResult dir dir.nextEntry)

/-! ## The order of the names -/

variable {s t : CString} {dir' : Dir}

theorem bytes_injective (h : bytes s = bytes t) : s = t :=
  List.map_injective_iff.2 (fun _ _ heq => UInt8.toNat_inj.1 heq) h

theorem strcmp_lt_iff : strcmp s t = .lt ↔ bytes s < bytes t := by
  rw [strcmp]
  split_ifs with h₁ h₂
  · exact iff_of_true rfl h₁
  · exact iff_of_false (by decide) h₁
  · exact iff_of_false (by decide) h₁

theorem strcmp_gt_iff : strcmp s t = .gt ↔ bytes t < bytes s := by
  rw [strcmp]
  split_ifs with h₁ h₂
  · exact iff_of_false (by decide) (lt_asymm h₁)
  · exact iff_of_true rfl h₂
  · exact iff_of_false (by decide) h₂

theorem strcmp_eq_iff : strcmp s t = .eq ↔ s = t := by
  rw [strcmp]
  split_ifs with h₁ h₂
  · exact iff_of_false (by decide) fun heq => absurd h₁ (heq ▸ lt_irrefl _)
  · exact iff_of_false (by decide) fun heq => absurd h₂ (heq ▸ lt_irrefl _)
  · exact iff_of_true rfl (bytes_injective (le_antisymm (not_lt.1 h₂) (not_lt.1 h₁)))

/-- The entries are in the order of their short names. -/
def Sorted (l : List CFileInfo) : Prop :=
  l.Pairwise fun a b => bytes a.shortname ≤ bytes b.shortname

variable {l : List CFileInfo} {info : CFileInfo}

theorem mem_insertBefore {key : CString} {x : CFileInfo} :
    x ∈ insertBefore key info l ↔ x = info ∨ x ∈ l := by
  induction l with
  | nil => simp [insertBefore]
  | cons other rest ih =>
    rw [insertBefore]
    split_ifs
    · rw [List.mem_cons]
    · rw [List.mem_cons, ih, List.mem_cons]
      tauto

theorem sorted_insertBefore (h : Sorted l) : Sorted (insertBefore info.shortname info l) := by
  induction l with
  | nil => exact List.pairwise_singleton _ _
  | cons other rest ih =>
    obtain ⟨hother, hrest⟩ := List.pairwise_cons.1 h
    rw [insertBefore]
    split_ifs with hlt
    · have hle : bytes info.shortname ≤ bytes other.shortname := le_of_lt (strcmp_lt_iff.1 hlt)
      refine List.pairwise_cons.2 ⟨fun x hx => ?_, h⟩
      rcases List.mem_cons.1 hx with rfl | hx
      · exact hle
      · exact hle.trans (hother x hx)
    · refine List.pairwise_cons.2 ⟨fun x hx => ?_, ih hrest⟩
      rcases mem_insertBefore.1 hx with rfl | hx
      · exact not_lt.1 fun hc => hlt (strcmp_lt_iff.2 hc)
      · exact hother x hx

/-- **An entry keeps the order when it is put in with its own short name.** -/
theorem sorted_insertEntry (h : Sorted l) : Sorted (insertEntry info.shortname info l) := by
  rw [insertEntry]
  cases hback : l.getLast? with
  | none => exact List.pairwise_singleton _ _
  | some back =>
    dsimp only
    split_ifs with hge
    · obtain ⟨front, rfl⟩ := List.getLast?_eq_some_iff.1 hback
      refine List.pairwise_append.2 ⟨h, List.pairwise_singleton _ _, fun x hx y hy => ?_⟩
      obtain rfl := List.mem_singleton.1 hy
      have hle : bytes back.shortname ≤ bytes y.shortname :=
        not_lt.1 fun hc => hge (strcmp_lt_iff.2 hc)
      rcases List.mem_append.1 hx with hfront | hlast
      · exact ((List.pairwise_append.1 h).2.2 x hfront back (List.mem_singleton.2 rfl)).trans hle
      · rw [List.mem_singleton.1 hlast]
        exact hle
    · exact sorted_insertBefore h

theorem CreateShortName_fileList {dir : Dir} {info' : CFileInfo}
    (h : CreateShortName dir info = .ok (dir', info')) : dir'.fileList = dir.fileList := by
  rw [CreateShortName] at h
  dsimp only at h
  split at h
  · split at h
    · cases h
    · cases h
      rfl
  · cases h
    rfl

theorem CreateEntry_sorted {dir : Dir} {entry : DirEntry} (hs : Sorted dir.fileList)
    (h : CreateEntry dir entry = .ok dir') : Sorted dir'.fileList := by
  obtain ⟨⟨dir₁, info⟩, hcreate, h⟩ := Fallible.bind_ok.1 h
  cases h
  change Sorted (insertEntry info.shortname info dir₁.fileList)
  rw [CreateShortName_fileList hcreate]
  exact sorted_insertEntry hs

theorem createEntries_sorted {dir : Dir} {entries : List DirEntry} (hs : Sorted dir.fileList)
    (h : entries.foldlM CreateEntry dir = .ok dir') : Sorted dir'.fileList := by
  induction entries generalizing dir with
  | nil =>
    cases h
    exact hs
  | cons entry entries ih =>
    rw [List.foldlM_cons] at h
    obtain ⟨dir₁, hentry, h⟩ := Fallible.bind_ok.1 h
    exact ih (CreateEntry_sorted hs hentry) h

/-! ## Finding short names -/

/-- The comparison of `GetLongName` for sorted entries. -/
theorem ordered_of_sorted (hs : Sorted l) (shortName : CString) :
    Bisect.Ordered (fun mid => match l[mid]? with
      | none => .lt
      | some info => strcmp shortName info.shortname) 0 l.length := by
  have hle : ∀ i j (hi : i < l.length) (hj : j < l.length), i < j →
      bytes l[i].shortname ≤ bytes l[j].shortname := fun i j hi hj hij =>
    List.pairwise_iff_getElem.1 hs i j hi hj hij
  constructor
  · intro i j _ hij hj hcmp
    have hi : i < l.length := hij.trans hj
    rw [List.getElem?_eq_getElem hi] at hcmp
    rw [List.getElem?_eq_getElem hj]
    exact strcmp_lt_iff.2 ((strcmp_lt_iff.1 hcmp).trans_le (hle i j hi hj hij))
  · intro i j _ hij hj hcmp
    have hi : i < l.length := hij.trans hj
    rw [List.getElem?_eq_getElem hj] at hcmp
    rw [List.getElem?_eq_getElem hi]
    exact strcmp_gt_iff.2 ((hle i j hi hj hij).trans_lt (strcmp_gt_iff.1 hcmp))

theorem GetLongName_spec {dir : Dir} {shortName long : CString} {len i : ℕ}
    (h : GetLongName dir shortName len = some (i, long)) :
    ∃ info, dir.fileList[i]? = some info ∧ info.shortname = RemoveTrailingDot shortName ∧
      long = info.orgname.take (len - 1) := by
  obtain ⟨mid, hfound, hmap⟩ := Option.bind_eq_some_iff.1 h
  obtain ⟨info, hinfo, heq⟩ := Option.map_eq_some_iff.1 hmap
  cases heq
  have hcmp := (Bisect.bisect_spec hfound).2.2
  rw [hinfo] at hcmp
  exact ⟨info, hinfo, (strcmp_eq_iff.1 hcmp).symm, rfl⟩

/-- **In sorted entries a short name is found exactly when there is one.** -/
theorem GetLongName_isSome_iff {dir : Dir} (hs : Sorted dir.fileList) (shortName : CString)
    (len : ℕ) : (GetLongName dir shortName len).isSome ↔
      ∃ info ∈ dir.fileList, info.shortname = RemoveTrailingDot shortName := by
  constructor
  · intro h
    obtain ⟨⟨i, long⟩, hfound⟩ := Option.isSome_iff_exists.1 h
    obtain ⟨info, hinfo, hname, -⟩ := GetLongName_spec hfound
    exact ⟨info, List.mem_of_getElem? hinfo, hname⟩
  · rintro ⟨info, hmem, hname⟩
    obtain ⟨i, hi, rfl⟩ := List.getElem_of_mem hmem
    obtain ⟨mid, hfound⟩ := Bisect.exists_bisect
      (ordered_of_sorted hs (RemoveTrailingDot shortName)) le_rfl (Nat.zero_le i) hi
      (by rw [List.getElem?_eq_getElem hi]; exact strcmp_eq_iff.2 hname.symm)
    have hlt := (Bisect.bisect_spec hfound).2.1
    rw [Nat.sub_zero] at hfound
    rw [GetLongName, hfound, Option.bind_some, List.getElem?_eq_getElem hlt]
    rfl

/-! ## Reading a directory -/

variable {dir : Dir} {e₁ e₂ : List DirEntry}

/-- Names are sorted the same way in whatever order they come, when there is none twice. -/
theorem sortEntries_eq_of_perm (hperm : e₁.Perm e₂) (hdistinct : (e₁.map DirEntry.name).Nodup) :
    sortEntries e₁ = sortEntries e₂ := by
  have hsorted : ∀ e : List DirEntry, (sortEntries e).Pairwise
      fun a b => decide (bytes a.name ≤ bytes b.name) = true := by
    intro e
    refine List.pairwise_mergeSort (fun a b c hab hbc => ?_) (fun a b => ?_) e
    · rw [decide_eq_true_eq] at hab hbc ⊢
      exact hab.trans hbc
    · rw [Bool.or_eq_true, decide_eq_true_eq, decide_eq_true_eq]
      exact le_total _ _
  have hsorts : (sortEntries e₁).Perm (sortEntries e₂) :=
    (List.mergeSort_perm e₁ _).trans (hperm.trans (List.mergeSort_perm e₂ _).symm)
  refine hsorts.eq_of_pairwise (fun a b ha hb hab hba => ?_) (hsorted e₁) (hsorted e₂)
  rw [decide_eq_true_eq] at hab hba
  have hname : a.name = b.name := bytes_injective (le_antisymm hab hba)
  have ha' : a ∈ e₁ := (List.mergeSort_perm e₁ _).mem_iff.1 ha
  have hb' : b ∈ e₁ := hperm.mem_iff.2 ((List.mergeSort_perm e₂ _).mem_iff.1 hb)
  exact List.inj_on_of_nodup_map hdistinct ha' hb' hname

theorem ReadDir_sorted {result : Option CString} (huncached : IsCachedIn dir = false)
    (h : ReadDir dir (some e₁) = .ok (result, dir')) : Sorted dir'.fileList := by
  have hempty : dir.fileList = [] := by
    rw [IsCachedIn, Bool.or_eq_false_iff] at huncached
    simpa using huncached.2
  rw [ReadDir, huncached] at h
  obtain ⟨dir₁, hentries, h⟩ := Fallible.bind_ok.1 h
  have hsorted := createEntries_sorted (by rw [hempty]; exact List.Pairwise.nil) hentries
  rw [SetResult] at h
  split at h
  · cases h
    exact hsorted
  · cases h
    exact hsorted

/-- **Short names do not depend on the order in which the host gives the names.**  For distinct names
`ReadDir` builds the same lists, the entries are in the order of their short names, and
`GetLongName` finds a short name exactly when an entry has it, and gives the name of such an
entry. -/
theorem readDir_deterministic (hperm : e₁.Perm e₂) (hdistinct : (e₁.map DirEntry.name).Nodup)
    (huncached : IsCachedIn dir = false) :
    ReadDir dir (some e₁) = ReadDir dir (some e₂) ∧
    ∀ result dir', ReadDir dir (some e₁) = .ok (result, dir') →
      Sorted dir'.fileList ∧ ∀ shortName len,
        ((GetLongName dir' shortName len).isSome ↔
          ∃ info ∈ dir'.fileList, info.shortname = RemoveTrailingDot shortName) ∧
        ∀ i long, GetLongName dir' shortName len = some (i, long) →
          ∃ info, dir'.fileList[i]? = some info ∧ info.shortname = RemoveTrailingDot shortName ∧
            long = info.orgname.take (len - 1) := by
  constructor
  · rw [ReadDir, ReadDir, sortEntries_eq_of_perm hperm hdistinct]
  · intro result dir' h
    have hsorted := ReadDir_sorted huncached h
    exact ⟨hsorted, fun shortName len => ⟨GetLongName_isSome_iff hsorted shortName len,
      fun i long hfound => GetLongName_spec hfound⟩⟩

/-- A directory that is not in the cache. -/
def uncached : Dir := ⟨[], [], false, 0⟩

/-- The files `b.txt` and `a b.txt` in both orders. -/
theorem readDir_deterministic_two :
    ReadDir uncached (some [⟨[0x62, 0x2e, 0x74, 0x78, 0x74], false⟩,
        ⟨[0x61, 0x20, 0x62, 0x2e, 0x74, 0x78, 0x74], false⟩]) =
      ReadDir uncached (some [⟨[0x61, 0x20, 0x62, 0x2e, 0x74, 0x78, 0x74], false⟩,
        ⟨[0x62, 0x2e, 0x74, 0x78, 0x74], false⟩]) :=
  (readDir_deterministic (List.Perm.swap _ _ []) (by decide) rfl).1

end AugraDosbox.DriveCache
