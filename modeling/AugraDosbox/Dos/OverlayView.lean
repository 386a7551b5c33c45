import AugraDosbox.Dos.Overlay

/-!
# What an overlay drive shows

The tree that is seen through an overlay drive, and what holds of the drive's lists and of
the two trees on the host.

* `OverlayDrive.view`, `OverlayDrive.tree` — what is at a path, and all of it as an ordinary
  tree;
* `OverlayDrive.Sound` — the invariant: the lists, the special files and the overlay agree;
* `fileExists_iff`, `testDir_iff` — the answers of a sound drive are those of its view;
* `Synced` — directories of the base have been made in the overlay, which nobody sees;
* `Sound.…` — one lemma for each way in which a call changes the overlay or the lists.
-/

namespace AugraDosbox

open FileTree

/-- An open file, as the tree has it. -/
def OverlayFile.toOpen (f : OverlayFile) : OpenFile (Inode String) :=
  ⟨f.file_handle, f.pos, f.flags.readable, f.flags.writable⟩

namespace OverlayDrive

variable {d : OverlayDrive}

/-! ## The view -/

/-- What is at a path. -/
def view (d : OverlayDrive) (p : DosPath) : Option (Node (Inode String)) :=
  match d.stat p with
  | some (.file n) => some (.file (.made n))
  | some .dir => if d.base p = some .dir ∧ d.is_deleted_path p = true then none else some .dir
  | none =>
    match d.base p with
    | some (.file _ _) => if d.is_deleted_file p then none else some (.file (.ofBase p))
    | some .dir => if d.is_deleted_path p then none else some .dir
    | none => none

/-- The tree that is seen through the drive. -/
def tree (d : OverlayDrive) : Tree String UInt8 :=
  ⟨d.view, d.content, fun h => (d.Files h).map OverlayFile.toOpen, d.next⟩

/-- A file of the base is at the path. -/
def IsBaseFile (d : OverlayDrive) (p : DosPath) : Prop :=
  ∃ content archive, d.base p = some (.file content archive)

/-- The lists, the special files and the overlay agree. -/
structure Sound (d : OverlayDrive) : Prop where
  base_root : d.base [] = some .dir
  base_parent : ∀ p, d.base p ≠ none → d.base p.dropLast = some .dir
  overlay_parent : ∀ p, d.stat p ≠ none → d.stat p.dropLast = some .dir
  /-- A file in the place of a directory of the base: the directory has been removed. -/
  hidden_dir : ∀ p n, d.stat p = some (.file n) → d.base p = some .dir → d.is_deleted_path p = true
  /-- A directory in the place of a file of the base: the file has been removed. -/
  hidden_file : ∀ p, d.stat p = some .dir → d.IsBaseFile p → p ∈ d.deleted_files_in_base
  dirs_cache : ∀ p, p ∈ d.DOSdirs_cache ↔ d.stat p = some .dir ∧ d.base p ≠ some .dir
  deleted_dir : ∀ p ∈ d.deleted_files_in_base, d.base p = some .dir → d.is_deleted_path p = true
  path_special : ∀ p ∈ d.deleted_paths_in_base, (.RMD, p) ∈ d.specials
  special_path : ∀ p, (.RMD, p) ∈ d.specials → d.is_deleted_path p = true ∧ d.base p = some .dir
  special_file : ∀ p, (.DEL, p) ∈ d.specials → d.IsBaseFile p
  file_special : ∀ p, d.IsBaseFile p → (p ∈ d.deleted_files_in_base ↔ (.DEL, p) ∈ d.specials)
  nodup_files : d.deleted_files_in_base.Nodup
  nodup_paths : d.deleted_paths_in_base.Nodup
  nodup_dirs : d.DOSdirs_cache.Nodup
  overlay_older : ∀ p n, d.stat p = some (.file n) → n < d.next
  open_older : ∀ h f, d.Files h = some f → f.file_handle.Older d.next
  open_base : ∀ h f p, d.Files h = some f → f.file_handle = .ofBase p →
    f.name = p ∧ f.overlay_active = false
  open_made : ∀ h f n, d.Files h = some f → f.file_handle = .made n → f.overlay_active = true
  open_flags : ∀ h f, d.Files h = some f → f.flags ≠ .invalid

theorem stat_root : d.stat [] = some .dir := rfl

theorem is_deleted_path_root : d.is_deleted_path [] = false := rfl

theorem is_deleted_path_iff {p : DosPath} :
    d.is_deleted_path p = true ↔ p ≠ [] ∧ ∃ entry ∈ d.deleted_paths_in_base, entry <+: p := by
  simp [is_deleted_path]

theorem is_deleted_file_iff {p : DosPath} :
    d.is_deleted_file p = true ↔ p ≠ [] ∧ p ∈ d.deleted_files_in_base := by
  simp [is_deleted_file]

theorem is_dir_only_in_overlay_iff {p : DosPath} :
    d.is_dir_only_in_overlay p = true ↔ p ≠ [] ∧ p ∈ d.DOSdirs_cache := by
  simp [is_dir_only_in_overlay]

theorem baseTestDir_iff {p : DosPath} : d.baseTestDir p = true ↔ d.base p = some .dir := by
  simp [baseTestDir]

theorem baseFileExists_iff {p : DosPath} : d.baseFileExists p = true ↔ d.IsBaseFile p := by
  unfold baseFileExists IsBaseFile
  rcases d.base p with _ | _ | _ <;> simp

theorem IsBaseFile.ne_dir {p : DosPath} (h : d.IsBaseFile p) : d.base p ≠ some .dir := by
  obtain ⟨content, archive, h⟩ := h
  simp [h]

theorem IsBaseFile.ne_none {p : DosPath} (h : d.IsBaseFile p) : d.base p ≠ none := by
  obtain ⟨content, archive, h⟩ := h
  simp [h]

theorem base_cases (d : OverlayDrive) (p : DosPath) :
    d.base p = none ∨ d.base p = some .dir ∨ d.IsBaseFile p := by
  rcases h : d.base p with _ | _ | ⟨content, archive⟩
  · exact .inl rfl
  · exact .inr (.inl rfl)
  · exact .inr (.inr ⟨content, archive, h⟩)

/-! ### The cases of the view -/

section

variable {p : DosPath}

theorem view_overlay_file {n : ℕ} (h : d.stat p = some (.file n)) :
    d.view p = some (.file (.made n)) := by
  simp only [view, h]

theorem view_overlay_dir (h : d.stat p = some .dir) :
    d.view p = if d.base p = some .dir ∧ d.is_deleted_path p = true then none else some .dir := by
  simp only [view, h]

theorem view_base_file (h : d.stat p = none) (hb : d.IsBaseFile p) :
    d.view p = if d.is_deleted_file p then none else some (.file (.ofBase p)) := by
  obtain ⟨content, archive, hb⟩ := hb
  simp only [view, h, hb]

theorem view_base_dir (h : d.stat p = none) (hb : d.base p = some .dir) :
    d.view p = if d.is_deleted_path p then none else some .dir := by
  simp only [view, h, hb]

theorem view_none (h : d.stat p = none) (hb : d.base p = none) : d.view p = none := by
  simp only [view, h, hb]

/-- The view at a path depends on four answers, some of which do not always matter. -/
theorem view_congr {d' : OverlayDrive} (hstat : d'.stat p = d.stat p) (hbase : d'.base p = d.base p)
    (hfile : d.IsBaseFile p → d'.is_deleted_file p = d.is_deleted_file p)
    (hpath : d.base p = some .dir → d'.is_deleted_path p = d.is_deleted_path p) :
    d'.view p = d.view p := by
  unfold view
  rw [hstat, hbase]
  rcases hb : d.base p with _ | _ | ⟨content, archive⟩
  · simp
  · rw [hpath hb]
  · rw [hfile ⟨content, archive, hb⟩]
    simp

end

namespace Sound

variable {p : DosPath}

theorem root_not_file (h : d.Sound) : [] ∉ d.deleted_files_in_base := fun hmem =>
  absurd (h.deleted_dir [] hmem h.base_root) (by simp [is_deleted_path_root])

theorem is_deleted_file_eq (h : d.Sound) : d.is_deleted_file p = decide (p ∈ d.deleted_files_in_base) := by
  by_cases hp : p = []
  · subst hp
    simp [is_deleted_file, h.root_not_file]
  · simp [is_deleted_file, hp]

theorem fileExists_iff (h : d.Sound) : d.FileExists p = true ↔ ∃ i, d.view p = some (.file i) := by
  unfold FileExists
  rcases hs : d.stat p with _ | _ | n
  · rcases d.base_cases p with hb | hb | hb
    · simp [view_none hs hb, baseFileExists, hb]
    · rw [view_base_dir hs hb]
      simp [baseFileExists, hb]
    · rw [view_base_file hs hb]
      have hexists : d.baseFileExists p = true := baseFileExists_iff.mpr hb
      by_cases hdel : d.is_deleted_file p = true <;> simp [hdel, hexists]
  · rw [view_overlay_dir hs]
    by_cases hb : d.IsBaseFile p
    · have hdel : d.is_deleted_file p = true := by
        rw [h.is_deleted_file_eq]
        exact decide_eq_true (h.hidden_file p hs hb)
      simp [hdel, hb.ne_dir]
    · have hnot : d.baseFileExists p = false := by
        rw [← Bool.not_eq_true, baseFileExists_iff]
        exact hb
      simp only [hnot, ite_self, Bool.false_eq_true, false_iff, not_exists]
      intro i
      split <;> simp
  · simp [view_overlay_file hs]

theorem testDir_iff (h : d.Sound) : d.TestDir p = true ↔ d.view p = some .dir := by
  unfold TestDir
  by_cases honly : d.is_dir_only_in_overlay p = true
  · obtain ⟨hs, hb⟩ := (h.dirs_cache p).mp (is_dir_only_in_overlay_iff.mp honly).2
    simp [honly, view_overlay_dir hs, hb]
  · rw [if_neg honly]
    rcases hs : d.stat p with _ | _ | n
    · rcases d.base_cases p with hb | hb | hb
      · simp [view_none hs hb, baseTestDir, hb]
      · rw [view_base_dir hs hb]
        by_cases hdel : d.is_deleted_path p = true <;> simp [hdel, baseTestDir, hb]
      · rw [view_base_file hs hb]
        have hnot : d.baseTestDir p = false := by simp [baseTestDir, hb.ne_dir]
        simp only [hnot, ite_self, Bool.false_eq_true, false_iff]
        split <;> simp
    · have hb : d.base p = some .dir := by
        by_contra hb
        have hcache := (h.dirs_cache p).mpr ⟨hs, hb⟩
        have hroot : p ≠ [] := by
          rintro rfl
          exact hb h.base_root
        exact honly (is_dir_only_in_overlay_iff.mpr ⟨hroot, hcache⟩)
      rw [view_overlay_dir hs]
      by_cases hdel : d.is_deleted_path p = true <;> simp [hdel, baseTestDir, hb]
    · rw [view_overlay_file hs]
      by_cases hb : d.base p = some .dir
      · simp [h.hidden_dir p n hs hb]
      · simp [baseTestDir, hb]

end Sound

/-! ## The overlay -/

theorem stat_insert {p : DosPath} (hp : p ≠ []) (x : OverlayNode) :
    { d with overlay := d.overlay.insert p x }.stat = Function.update d.stat p (some x) := by
  funext q
  by_cases hq : q = p
  · subst hq
    simp [stat, hp]
  · by_cases hroot : q = []
    · simp [stat, hroot, Function.update_of_ne hp.symm]
    · simp [stat, hroot, Function.update_of_ne hq, AList.lookup_insert_ne hq]

theorem stat_erase {p : DosPath} (hp : p ≠ []) :
    { d with overlay := d.overlay.erase p }.stat = Function.update d.stat p none := by
  funext q
  by_cases hq : q = p
  · subst hq
    simp [stat, hp]
  · by_cases hroot : q = []
    · simp [stat, hroot, Function.update_of_ne hp.symm]
    · simp [stat, hroot, Function.update_of_ne hq, AList.lookup_erase_ne hq]

theorem ne_root_of_stat {p : DosPath} (h : d.stat p ≠ some .dir) : p ≠ [] := by
  rintro rfl
  exact h stat_root

/-- Directories of the base have been made in the overlay. -/
structure Synced (d d' : OverlayDrive) : Prop where
  same : d' = { d with overlay := d'.overlay }
  stat : ∀ p, d'.stat p = d.stat p ∨
    (d.stat p = none ∧ d'.stat p = some .dir ∧ d.base p = some .dir)
  parent : (∀ p, d.stat p ≠ none → d.stat p.dropLast = some .dir) →
    ∀ p, d'.stat p ≠ none → d'.stat p.dropLast = some .dir

namespace Synced

variable {d' : OverlayDrive}

theorem refl (d : OverlayDrive) : Synced d d := ⟨rfl, fun _ => .inl rfl, fun h => h⟩

theorem base_eq (h : Synced d d') : d'.base = d.base := by
  rw [h.same]

theorem trans {d'' : OverlayDrive} (h : Synced d d') (h' : Synced d' d'') : Synced d d'' where
  same := by
    have hsame := h'.same
    rw [h.same] at hsame
    exact hsame
  stat := by
    intro p
    rcases h'.stat p with heq | ⟨hnone, hdir, hb⟩
    · rw [heq]
      exact h.stat p
    · rw [h.base_eq] at hb
      rcases h.stat p with heq' | ⟨-, hdir', -⟩
      · exact .inr ⟨heq' ▸ hnone, hdir, hb⟩
      · rw [hnone] at hdir'
        exact absurd hdir' (by simp)
  parent := fun hparent => h'.parent (h.parent hparent)

theorem mkdir {p : DosPath} (hb : d.base p = some .dir) (h : d.local_drive_create_dir p = some d') :
    Synced d d' := by
  unfold local_drive_create_dir at h
  split at h
  · rename_i hcan
    obtain rfl := Option.some.inj h
    have hroot : p ≠ [] := ne_root_of_stat (d := d) (by simp [hcan.1])
    refine ⟨rfl, ?_, ?_⟩
    · intro q
      rw [stat_insert hroot]
      by_cases hq : q = p
      · subst hq
        exact .inr ⟨hcan.1, Function.update_self .., hb⟩
      · exact .inl (Function.update_of_ne hq ..)
    · intro hparent q hq
      rw [stat_insert hroot] at hq ⊢
      by_cases hup : q.dropLast = p
      · rw [hup, Function.update_self]
      · rw [Function.update_of_ne hup]
        by_cases hqp : q = p
        · rw [hqp]
          exact hcan.2
        · rw [Function.update_of_ne hqp] at hq
          exact hparent q hq
  · exact absurd h (by simp)

theorem syncDirs (dirs : List DosPath) (d : OverlayDrive) : Synced d (syncDirs dirs d) := by
  induction dirs generalizing d with
  | nil => exact refl d
  | cons dir dirs ih =>
    unfold OverlayDrive.syncDirs
    split
    · rename_i hb
      rcases hs : d.stat dir with _ | _ | n
      · dsimp only
        rcases hmk : d.local_drive_create_dir dir with _ | d'
        · exact refl d
        · exact (mkdir (baseTestDir_iff.mp hb) hmk).trans (ih d')
      · exact ih d
      · exact refl d
    · exact ih d

/-- Nobody sees it. -/
theorem view_eq (h : Synced d d') : d'.view = d.view := by
  funext p
  have hfile : d'.is_deleted_file p = d.is_deleted_file p := by rw [h.same]; rfl
  have hpath : d'.is_deleted_path p = d.is_deleted_path p := by rw [h.same]; rfl
  rcases h.stat p with heq | ⟨hnone, hdir, hb⟩
  · exact view_congr heq (congrFun h.base_eq p) (fun _ => hfile) fun _ => hpath
  · rw [view_overlay_dir hdir, view_base_dir hnone hb, h.base_eq, hpath]
    simp [hb]

theorem tree_eq (h : Synced d d') : d'.tree = d.tree := by
  have hview := h.view_eq
  rw [h.same] at hview ⊢
  unfold tree
  rw [hview]
  rfl

end Synced

theorem Sound.synced {d' : OverlayDrive} (h : d.Sound) (hsync : Synced d d') : d'.Sound := by
  have hparent := hsync.parent h.overlay_parent
  have hstat := hsync.stat
  have hbase := hsync.base_eq
  have hsame := hsync.same
  -- only `stat` has changed, and only where the base has a directory
  have hfile : ∀ p n, d'.stat p = some (.file n) → d.stat p = some (.file n) := by
    intro p n hn
    rcases hstat p with heq | ⟨-, hdir, -⟩
    · rwa [heq] at hn
    · rw [hn] at hdir
      exact absurd hdir (by simp)
  have hdir : ∀ p, d.base p ≠ some .dir → d'.stat p = d.stat p := by
    intro p hb
    rcases hstat p with heq | ⟨-, -, hb'⟩
    · exact heq
    · exact absurd hb' hb
  constructor
  case base_root => rw [hbase]; exact h.base_root
  case base_parent => rw [hbase]; exact h.base_parent
  case overlay_parent => exact hparent
  case hidden_dir =>
    intro p n hn hb
    rw [hbase] at hb
    rw [hsame]
    exact h.hidden_dir p n (hfile p n hn) hb
  case hidden_file =>
    intro p hp hb
    have hb' : d.IsBaseFile p := by rwa [IsBaseFile, hbase] at hb
    rw [hdir p hb'.ne_dir] at hp
    rw [hsame]
    exact h.hidden_file p hp hb'
  case dirs_cache =>
    intro p
    have hcache : d'.DOSdirs_cache = d.DOSdirs_cache := by rw [hsame]
    rw [hcache, hbase, h.dirs_cache]
    constructor
    · rintro ⟨hp, hb⟩
      exact ⟨(hdir p hb).trans hp, hb⟩
    · rintro ⟨hp, hb⟩
      exact ⟨(hdir p hb).symm.trans hp, hb⟩
  case overlay_older =>
    intro p n hn
    rw [hsame]
    exact h.overlay_older p n (hfile p n hn)
  all_goals rw [hsame]
  case deleted_dir => exact h.deleted_dir
  case path_special => exact h.path_special
  case special_path => exact h.special_path
  case special_file => exact h.special_file
  case file_special => exact h.file_special
  case nodup_files => exact h.nodup_files
  case nodup_paths => exact h.nodup_paths
  case nodup_dirs => exact h.nodup_dirs
  case open_older => exact h.open_older
  case open_base => exact h.open_base
  case open_made => exact h.open_made
  case open_flags => exact h.open_flags

/-! ### Special files -/

variable {q : DosPath}

theorem mem_leadingFrom {dir : DosPath} {names : List String} (h : q ∈ leadingFrom dir names) :
    q <+: dir ++ names := by
  induction names generalizing dir with
  | nil => exact absurd h List.not_mem_nil
  | cons name names ih =>
    rcases List.mem_cons.mp h with rfl | h
    · exact ⟨names, by simp⟩
    · have hlong := ih h
      rwa [List.append_assoc] at hlong

/-- The loop makes all leading directories, unless a file is in the way. -/
theorem syncDirs_leadingFrom {dir : DosPath} {names : List String} (hdir : d.stat dir = some .dir)
    (hlead : ∀ q ∈ leadingFrom dir names, d.base q = some .dir ∧ ∀ n, d.stat q ≠ some (.file n)) :
    (syncDirs (leadingFrom dir names) d).stat (dir ++ names) = some .dir := by
  induction names generalizing dir d with
  | nil =>
    rw [List.append_nil]
    exact hdir
  | cons name names ih =>
    obtain ⟨hb, hfile⟩ := hlead (dir ++ [name]) List.mem_cons_self
    have hrest : ∀ q ∈ leadingFrom (dir ++ [name]) names,
        d.base q = some .dir ∧ ∀ n, d.stat q ≠ some (.file n) :=
      fun q hq => hlead q (List.mem_cons_of_mem _ hq)
    have happend : dir ++ name :: names = (dir ++ [name]) ++ names := by simp
    rw [happend]
    simp only [leadingFrom, syncDirs, baseTestDir_iff.mpr hb, if_true]
    rcases hs : d.stat (dir ++ [name]) with _ | _ | n
    · dsimp only
      have hcan : d.stat (dir ++ [name]) = none ∧ d.stat (dir ++ [name]).dropLast = some .dir := by
        rw [List.dropLast_concat]
        exact ⟨hs, hdir⟩
      have hmk : d.local_drive_create_dir (dir ++ [name]) =
          some { d with overlay := d.overlay.insert (dir ++ [name]) .dir } := if_pos hcan
      have hsync := Synced.mkdir hb hmk
      rw [hmk]
      refine ih ?_ ?_
      · rw [stat_insert (by simp), Function.update_self]
      · intro q hq
        obtain ⟨hbq, hfileq⟩ := hrest q hq
        refine ⟨hbq, fun n hn => ?_⟩
        rcases hsync.stat q with heq | ⟨-, hdirq, -⟩
        · exact hfileq n (heq ▸ hn)
        · rw [hn] at hdirq
          exact absurd hdirq (by simp)
    · exact ih hs hrest
    · exact absurd hs (hfile n)

/-- A special file is written, with the directories that it needs. -/
theorem add_special_synced {name : DosPath} {operation : SpecialOperation}
    (hlead : ∀ q ∈ leadingDirs name, d.base q = some .dir ∧ ∀ n, d.stat q ≠ some (.file n)) :
    Synced { d with specials := d.specials.insert (operation, name) }
      (d.add_special_file_to_disk name operation) := by
  unfold add_special_file_to_disk writeSpecial
  by_cases hparent : d.stat name.dropLast = some .dir
  · rw [if_pos hparent]
    exact .refl _
  · rw [if_neg hparent]
    have hsynced : (d.Sync_leading_dirs name).stat name.dropLast = some .dir :=
      @syncDirs_leadingFrom d [] name.dropLast stat_root hlead
    have hsync : Synced d (d.Sync_leading_dirs name) := Synced.syncDirs _ d
    dsimp only
    rw [if_pos hsynced, Option.getD_some]
    refine ⟨?_, hsync.stat, hsync.parent⟩
    rw [hsync.same]

theorem leadingDirs_above {p : DosPath} (hq : q ∈ leadingDirs p) : q <+: p ∧ q ≠ p := by
  have hlead : q <+: p.dropLast := by
    have hmem := mem_leadingFrom hq
    rwa [List.nil_append] at hmem
  refine ⟨hlead.trans (List.dropLast_prefix p), ?_⟩
  rintro rfl
  have hlength := hlead.length_le
  rw [List.length_dropLast] at hlength
  have hroot : q = [] := List.length_eq_zero_iff.mp (by omega)
  subst hroot
  exact absurd hq List.not_mem_nil

/-- What leads to something that is seen is seen as a directory. -/
theorem leading_seen {p : DosPath} (hw : d.tree.Wf) (hview : d.view p ≠ none)
    (hq : q ∈ leadingDirs p) : d.view q = some .dir := by
  obtain ⟨hshort, hne⟩ := leadingDirs_above hq
  exact Tree.above_of_parent hw.parent hview hshort hne

/-- What leads to something that is seen is a directory in both trees. -/
theorem leading_of_visible {p : DosPath} (h : d.Sound) (hw : d.tree.Wf) (hview : d.view p ≠ none)
    (hb : d.base p ≠ none) :
    ∀ q ∈ leadingDirs p, d.base q = some .dir ∧ ∀ n, d.stat q ≠ some (.file n) := by
  intro q hq
  obtain ⟨hshort, hne⟩ := leadingDirs_above hq
  refine ⟨Tree.above_of_parent h.base_parent hb hshort hne, fun n hn => ?_⟩
  have hdir := leading_seen hw hview hq
  rw [view_overlay_file hn] at hdir
  exact absurd hdir (by simp)

/-! ## Changes of the lists -/

theorem IsBaseFile.ne_root {p : DosPath} (h : d.Sound) (hb : d.IsBaseFile p) : p ≠ [] := by
  rintro rfl
  exact hb.ne_dir h.base_root

/-- The drive with a note, in memory and in the overlay, that a file of the base has been
removed. -/
def noteFile (d : OverlayDrive) (p : DosPath) : OverlayDrive :=
  { d with
    deleted_files_in_base := d.deleted_files_in_base ++ [p]
    specials := d.specials.insert (.DEL, p) }

/-- The drive with a note that a directory of the base has been removed. -/
def notePath (d : OverlayDrive) (p : DosPath) : OverlayDrive :=
  { d with
    deleted_paths_in_base := d.deleted_paths_in_base ++ [p]
    specials := d.specials.insert (.RMD, p)
    deleted_files_in_base :=
      if d.deleted_files_in_base.contains p then d.deleted_files_in_base
      else d.deleted_files_in_base ++ [p] }

theorem nodup_snoc {l : List DosPath} {p : DosPath} (hl : l.Nodup) (hp : p ∉ l) :
    (l ++ [p]).Nodup := by
  rw [← List.concat_eq_append]
  exact List.Nodup.concat hp hl

theorem notePath_files (d : OverlayDrive) (p : DosPath) :
    (d.notePath p).deleted_files_in_base =
      if p ∈ d.deleted_files_in_base then d.deleted_files_in_base
      else d.deleted_files_in_base ++ [p] :=
  if_congr List.contains_iff_mem rfl rfl

theorem mem_notePath_files {p : DosPath} :
    q ∈ (d.notePath p).deleted_files_in_base ↔ q ∈ d.deleted_files_in_base ∨ q = p := by
  rw [notePath_files]
  split
  · rename_i hmem
    exact ⟨.inl, fun hq => hq.elim id fun heq => heq ▸ hmem⟩
  · rw [List.mem_append, List.mem_singleton]

theorem is_deleted_path_notePath {p : DosPath} :
    (d.notePath p).is_deleted_path q = true ↔
      d.is_deleted_path q = true ∨ (q ≠ [] ∧ p <+: q) := by
  have hmem : ∀ entry, entry ∈ (d.notePath p).deleted_paths_in_base ↔
      entry ∈ d.deleted_paths_in_base ∨ entry = p := fun entry => by simp [notePath]
  rw [is_deleted_path_iff, is_deleted_path_iff]
  constructor
  · rintro ⟨hne, entry, hentry, hlead⟩
    rcases (hmem entry).mp hentry with hentry | rfl
    · exact .inl ⟨hne, entry, hentry, hlead⟩
    · exact .inr ⟨hne, hlead⟩
  · rintro (⟨hne, entry, hentry, hlead⟩ | ⟨hne, hlead⟩)
    · exact ⟨hne, entry, (hmem entry).mpr (.inl hentry), hlead⟩
    · exact ⟨hne, p, (hmem p).mpr (.inr rfl), hlead⟩

namespace Sound

variable {p : DosPath}

theorem noteFile (h : d.Sound) (hb : d.IsBaseFile p) (hp : p ∉ d.deleted_files_in_base) :
    (d.noteFile p).Sound :=
  { h with
    hidden_file := fun q hq hbq => List.mem_append_left _ (h.hidden_file q hq hbq)
    deleted_dir := by
      intro q hq hbq
      rcases List.mem_append.mp hq with hq | hq
      · exact h.deleted_dir q hq hbq
      · rw [List.mem_singleton.mp hq] at hbq
        exact absurd hbq hb.ne_dir
    path_special := fun q hq => List.mem_insert_of_mem (h.path_special q hq)
    special_path := by
      intro q hq
      rcases List.mem_insert_iff.mp hq with heq | hq
      · exact absurd (congrArg Prod.fst heq) (by simp)
      · exact h.special_path q hq
    special_file := by
      intro q hq
      rcases List.mem_insert_iff.mp hq with heq | hq
      · obtain rfl : q = p := (Prod.ext_iff.mp heq).2
        exact hb
      · exact h.special_file q hq
    file_special := by
      intro q hbq
      change q ∈ d.deleted_files_in_base ++ [p] ↔ (.DEL, q) ∈ d.specials.insert (.DEL, p)
      rw [List.mem_append, List.mem_singleton, List.mem_insert_iff, h.file_special q hbq, or_comm]
      simp
    nodup_files := nodup_snoc h.nodup_files hp }

theorem notePath (h : d.Sound) (hroot : p ≠ []) (hb : d.base p = some .dir)
    (hp : d.is_deleted_path p = false) : (d.notePath p).Sound := by
  have hmono : ∀ q, d.is_deleted_path q = true → (d.notePath p).is_deleted_path q = true :=
    fun q hq => is_deleted_path_notePath.mpr (.inl hq)
  have hself : (d.notePath p).is_deleted_path p = true :=
    is_deleted_path_notePath.mpr (.inr ⟨hroot, List.prefix_rfl⟩)
  exact { h with
    hidden_dir := fun q n hn hbq => hmono q (h.hidden_dir q n hn hbq)
    hidden_file := fun q hq hbq => mem_notePath_files.mpr (.inl (h.hidden_file q hq hbq))
    deleted_dir := by
      intro q hq hbq
      rcases mem_notePath_files.mp hq with hq | rfl
      · exact hmono q (h.deleted_dir q hq hbq)
      · exact hself
    path_special := by
      intro q hq
      rcases List.mem_append.mp hq with hq | hq
      · exact List.mem_insert_of_mem (h.path_special q hq)
      · rw [List.mem_singleton.mp hq]
        exact List.mem_insert_self
    special_path := by
      intro q hq
      rcases List.mem_insert_iff.mp hq with heq | hq
      · obtain rfl : q = p := (Prod.ext_iff.mp heq).2
        exact ⟨hself, hb⟩
      · exact ⟨hmono q (h.special_path q hq).1, (h.special_path q hq).2⟩
    special_file := by
      intro q hq
      rcases List.mem_insert_iff.mp hq with heq | hq
      · exact absurd (congrArg Prod.fst heq) (by simp)
      · exact h.special_file q hq
    file_special := by
      intro q hbq
      have hqp : q ≠ p := by
        rintro rfl
        exact IsBaseFile.ne_dir hbq hb
      rw [mem_notePath_files, or_iff_left hqp, h.file_special q hbq]
      change _ ↔ (.DEL, q) ∈ d.specials.insert (.RMD, p)
      rw [List.mem_insert_iff]
      simp
    nodup_files := by
      rw [notePath_files]
      split
      · exact h.nodup_files
      · rename_i hnot
        exact nodup_snoc h.nodup_files hnot
    nodup_paths := by
      refine nodup_snoc h.nodup_paths fun hmem => ?_
      have hdel := is_deleted_path_iff.mpr ⟨hroot, p, hmem, List.prefix_rfl⟩
      rw [hp] at hdel
      exact absurd hdel (by simp) }

end Sound

/-- The view with something else at one path. -/
theorem tree_setNode {d' : OverlayDrive} {p : DosPath} {x : Option (Node (Inode String))}
    (hp : d'.view p = x) (hview : ∀ q, q ≠ p → d'.view q = d.view q) (hcontent : d'.content = d.content)
    (hFiles : d'.Files = d.Files) (hnext : d'.next = d.next) : d'.tree = d.tree.setNode p x := by
  refine Tree.ext ?_ hcontent ?_ hnext
  · funext q
    by_cases hq : q = p
    · subst hq
      rw [Tree.setNode_node, Function.update_self]
      exact hp
    · rw [Tree.setNode_node, Function.update_of_ne hq]
      exact hview q hq
  · change (fun h => (d'.Files h).map _) = fun h => (d.Files h).map _
    rw [hFiles]

theorem setNode_self {t : Tree String UInt8} {p : DosPath} {x : Option (Node (Inode String))}
    (h : t.node p = x) : t.setNode p x = t := by
  refine Tree.ext ?_ rfl rfl rfl
  rw [Tree.setNode_node, ← h, Function.update_eq_self]

theorem tree_noteFile {p : DosPath} (h : d.Sound) (hb : d.IsBaseFile p) :
    (d.noteFile p).tree = if d.stat p = none then d.tree.setNode p none else d.tree := by
  have hother : ∀ q, q ≠ p → (d.noteFile p).view q = d.view q := by
    intro q hq
    refine view_congr rfl rfl (fun _ => ?_) fun _ => rfl
    simp [is_deleted_file, noteFile, hq]
  split
  · rename_i hs
    refine tree_setNode ?_ hother rfl rfl rfl
    have hdel : (d.noteFile p).is_deleted_file p = true :=
      is_deleted_file_iff.mpr ⟨hb.ne_root h, by simp [noteFile]⟩
    rw [view_base_file (d := d.noteFile p) hs hb, hdel]
    rfl
  · rename_i hs
    refine Tree.ext (funext fun q => ?_) rfl rfl rfl
    by_cases hq : q = p
    · subst hq
      rcases hst : d.stat q with _ | _ | n
      · exact absurd hst hs
      · change (d.noteFile q).view q = d.view q
        rw [view_overlay_dir hst, view_overlay_dir (d := d.noteFile q) hst]
        rfl
      · change (d.noteFile q).view q = d.view q
        rw [view_overlay_file hst, view_overlay_file (d := d.noteFile q) hst]
    · exact hother q hq

/-- What most changes leave as it is: the base, and where the overlay has files. -/
structure Keeps (d d' : OverlayDrive) : Prop where
  base : d'.base = d.base
  file : ∀ p n, d.stat p = some (.file n) → d'.stat p = some (.file n)

theorem Keeps.trans {d' d'' : OverlayDrive} (h : Keeps d d') (h' : Keeps d' d'') : Keeps d d'' :=
  ⟨h'.base.trans h.base, fun p n hn => h'.file p n (h.file p n hn)⟩

theorem Keeps.refl (d : OverlayDrive) : Keeps d d := ⟨rfl, fun _ _ h => h⟩

theorem Synced.keeps {d' : OverlayDrive} (h : Synced d d') : Keeps d d' := by
  refine ⟨h.base_eq, fun p n hn => ?_⟩
  rcases h.stat p with heq | ⟨hnone, -, -⟩
  · rwa [heq]
  · rw [hn] at hnone
    exact absurd hnone (by simp)

namespace Sound

variable {p : DosPath}

/-- A file of the base is removed from sight. -/
theorem add_deleted_file (h : d.Sound) (hb : d.IsBaseFile p)
    (hlead : ∀ q ∈ leadingDirs p, d.base q = some .dir ∧ ∀ n, d.stat q ≠ some (.file n)) :
    (d.add_deleted_file p true).Sound ∧ Keeps d (d.add_deleted_file p true) ∧
      (d.add_deleted_file p true).tree = if d.stat p = none then d.tree.setNode p none else d.tree := by
  unfold OverlayDrive.add_deleted_file
  by_cases hdel : d.is_deleted_file p = true
  · rw [if_pos hdel]
    refine ⟨h, .refl d, ?_⟩
    split
    · rename_i hs
      have hnone : d.tree.node p = none := by
        change d.view p = none
        rw [view_base_file hs hb, if_pos hdel]
      exact (setNode_self hnone).symm
    · rfl
  · rw [if_neg hdel]
    have hp : p ∉ d.deleted_files_in_base := fun hmem =>
      hdel (is_deleted_file_iff.mpr ⟨hb.ne_root h, hmem⟩)
    have hsync : Synced (d.noteFile p) (add_special_file_to_disk { d with
        deleted_files_in_base := d.deleted_files_in_base ++ [p] } p .DEL) :=
      add_special_synced (d := { d with
        deleted_files_in_base := d.deleted_files_in_base ++ [p] }) hlead
    have hnote : Keeps d (d.noteFile p) := ⟨rfl, fun _ _ hn => hn⟩
    refine ⟨(h.noteFile hb hp).synced hsync, hnote.trans hsync.keeps, ?_⟩
    exact hsync.tree_eq.trans (tree_noteFile h hb)

/-- A file of the overlay is no longer noted as removed. -/
theorem remove_deleted_file {n : ℕ} (h : d.Sound) (hs : d.stat p = some (.file n)) :
    (d.remove_deleted_file p true).Sound ∧ Keeps d (d.remove_deleted_file p true) ∧
      (d.remove_deleted_file p true).tree = d.tree := by
  unfold OverlayDrive.remove_deleted_file
  by_cases hmem : p ∈ d.deleted_files_in_base
  · simp only [if_pos hmem, if_true]
    have herase : ∀ q, q ∈ d.deleted_files_in_base.erase p ↔ q ≠ p ∧ q ∈ d.deleted_files_in_base :=
      fun q => h.nodup_files.mem_erase_iff
    have hspecial : ∀ s, s ∈ d.specials.filter (· ≠ (.DEL, p)) ↔ s ∈ d.specials ∧ s ≠ (.DEL, p) :=
      fun s => by simp
    refine ⟨?_, ⟨rfl, fun _ _ hn => hn⟩, ?_⟩
    · exact { h with
        hidden_file := by
          intro q hq hbq
          refine (herase q).mpr ⟨?_, h.hidden_file q hq hbq⟩
          rintro rfl
          have hdir : d.stat q = some .dir := hq
          rw [hs] at hdir
          exact absurd hdir (by simp)
        deleted_dir := fun q hq hbq => h.deleted_dir q ((herase q).mp hq).2 hbq
        path_special := fun q hq => (hspecial _).mpr ⟨h.path_special q hq, by simp⟩
        special_path := fun q hq => h.special_path q ((hspecial _).mp hq).1
        special_file := fun q hq => h.special_file q ((hspecial _).mp hq).1
        file_special := by
          intro q hbq
          refine (herase q).trans (Iff.trans ?_ (hspecial (.DEL, q)).symm)
          rw [h.file_special q hbq, and_comm]
          simp
        nodup_files := h.nodup_files.erase p }
    · refine Tree.ext (funext fun q => ?_) rfl rfl rfl
      change view _ q = d.view q
      by_cases hq : q = p
      · subst hq
        rw [view_overlay_file hs]
        exact view_overlay_file hs
      · refine view_congr rfl rfl (fun _ => ?_) fun _ => rfl
        simp [is_deleted_file, remove_special_file_from_disk, List.mem_erase_of_ne hq]
  · rw [if_neg hmem]
    exact ⟨h, .refl d, rfl⟩

end Sound

theorem Synced.withFiles {d' : OverlayDrive} (h : Synced d d') (files : List DosPath) :
    Synced { d with deleted_files_in_base := files } { d' with deleted_files_in_base := files } := by
  refine ⟨?_, h.stat, h.parent⟩
  rw [h.same]

theorem add_deleted_file_false {p : DosPath} (hroot : p ≠ []) :
    d.add_deleted_file p false = { d with deleted_files_in_base :=
      if p ∈ d.deleted_files_in_base then d.deleted_files_in_base
      else d.deleted_files_in_base ++ [p] } := by
  unfold add_deleted_file
  by_cases hmem : p ∈ d.deleted_files_in_base
  · rw [if_pos hmem, if_pos (is_deleted_file_iff.mpr ⟨hroot, hmem⟩)]
  · rw [if_neg hmem, if_neg fun hdel => hmem (is_deleted_file_iff.mp hdel).2]
    rfl

/-- In memory and in the overlay, the path is noted as removed. -/
theorem add_deleted_path_synced {p : DosPath} (hroot : p ≠ []) (hdel : d.is_deleted_path p = false)
    (hlead : ∀ q ∈ leadingDirs p, d.base q = some .dir ∧ ∀ n, d.stat q ≠ some (.file n)) :
    Synced (d.notePath p) (d.add_deleted_path p true) := by
  have hsync : Synced { d with
      deleted_paths_in_base := d.deleted_paths_in_base ++ [p]
      specials := d.specials.insert (.RMD, p) } (add_special_file_to_disk { d with
        deleted_paths_in_base := d.deleted_paths_in_base ++ [p] } p .RMD) :=
    add_special_synced (d := { d with
      deleted_paths_in_base := d.deleted_paths_in_base ++ [p] }) hlead
  unfold add_deleted_path
  simp only [if_neg hroot, hdel, Bool.false_eq_true, if_false, if_true]
  generalize add_special_file_to_disk _ p .RMD = d₁ at hsync ⊢
  have hfiles : d₁.deleted_files_in_base = d.deleted_files_in_base := by rw [hsync.same]
  rw [add_deleted_file_false hroot, hfiles, ← notePath_files]
  exact hsync.withFiles _

theorem tree_notePath {p : DosPath} (hroot : p ≠ []) (hb : d.base p = some .dir)
    (hfile : ∀ n, d.stat p ≠ some (.file n)) (hbelow : ∀ q, p <+: q → q ≠ p → d.view q = none) :
    (d.notePath p).tree = d.tree.setNode p none := by
  have hself : (d.notePath p).is_deleted_path p = true :=
    is_deleted_path_notePath.mpr (.inr ⟨hroot, List.prefix_rfl⟩)
  refine tree_setNode ?_ ?_ rfl rfl rfl
  · rcases hs : d.stat p with _ | _ | n
    · rw [view_base_dir (d := d.notePath p) hs hb, if_pos hself]
    · rw [view_overlay_dir (d := d.notePath p) hs, if_pos ⟨hb, hself⟩]
    · exact absurd hs (hfile n)
  · intro q hq
    have hsamefile : (d.notePath p).is_deleted_file q = d.is_deleted_file q := by
      unfold is_deleted_file
      simp only [mem_notePath_files, hq, or_false]
    by_cases hdown : p <+: q
    · -- what is below was not seen, and the note does not make it seen
      rw [hbelow q hdown hq]
      have hnone := hbelow q hdown hq
      have hdel : (d.notePath p).is_deleted_path q = true := by
        refine is_deleted_path_notePath.mpr (.inr ⟨?_, hdown⟩)
        rintro rfl
        exact hroot (List.prefix_nil.mp hdown)
      rcases hs : d.stat q with _ | _ | n
      · rcases d.base_cases q with hbq | hbq | hbq
        · exact view_none (d := d.notePath p) hs hbq
        · rw [view_base_dir (d := d.notePath p) hs hbq, if_pos hdel]
        · rw [view_base_file (d := d.notePath p) hs hbq, hsamefile, ← view_base_file hs hbq]
          exact hnone
      · rw [view_overlay_dir hs] at hnone
        by_cases hbq : d.base q = some .dir
        · rw [view_overlay_dir (d := d.notePath p) hs, if_pos ⟨hbq, hdel⟩]
        · rw [if_neg fun hboth => hbq hboth.1] at hnone
          exact absurd hnone (by simp)
      · rw [view_overlay_file hs] at hnone
        exact absurd hnone (by simp)
    · refine view_congr rfl rfl (fun _ => hsamefile) fun _ => ?_
      rw [Bool.eq_iff_iff, is_deleted_path_notePath]
      exact or_iff_left fun hlong => hdown hlong.2

namespace Sound

variable {p : DosPath}

/-- A directory of the base is removed from sight. -/
theorem add_deleted_path (h : d.Sound) (hroot : p ≠ []) (hb : d.base p = some .dir)
    (hview : d.view p = some .dir) (hbelow : ∀ q, p <+: q → q ≠ p → d.view q = none)
    (hlead : ∀ q ∈ leadingDirs p, d.base q = some .dir ∧ ∀ n, d.stat q ≠ some (.file n)) :
    (d.add_deleted_path p true).Sound ∧ (d.add_deleted_path p true).base = d.base ∧
      (d.add_deleted_path p true).tree = d.tree.setNode p none := by
  -- the directory is seen, so that it has not been removed
  have hstat : d.stat p = none ∨ d.stat p = some .dir := by
    rcases hs : d.stat p with _ | _ | n
    · exact .inl rfl
    · exact .inr rfl
    · rw [view_overlay_file hs] at hview
      exact absurd hview (by simp)
  have hdel : d.is_deleted_path p = false := by
    by_contra hne
    rw [Bool.not_eq_false] at hne
    rcases hstat with hs | hs
    · rw [view_base_dir hs hb, if_pos hne] at hview
      exact absurd hview (by simp)
    · rw [view_overlay_dir hs, if_pos ⟨hb, hne⟩] at hview
      exact absurd hview (by simp)
  have hfile : ∀ n, d.stat p ≠ some (.file n) := by
    intro n hn
    rcases hstat with hs | hs <;> rw [hn] at hs <;> exact absurd hs (by simp)
  have hsync := add_deleted_path_synced hroot hdel hlead
  refine ⟨(h.notePath hroot hb hdel).synced hsync, hsync.base_eq, ?_⟩
  exact hsync.tree_eq.trans (tree_notePath hroot hb hfile hbelow)

end Sound

end OverlayDrive

end AugraDosbox
