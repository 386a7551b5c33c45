import AugraDosbox.Dos.OverlayChanges
import AugraDosbox.Lib.Ends

/-!
# The calls of an overlay drive

What each call does to the tree that is seen through an overlay drive.

* `OverlayDrive.Fine` — the calls that the drive carries out as it should.  Those that it
  does not are named there;
* `OverlayDrive.Follows` — a call that succeeds does the same to the tree that is seen as to
  an ordinary one, except that a file of the base may get another inode when it is switched
  to the overlay;
* `fileCreate_follows`, `write_follows`, … — one lemma for each call.
-/

namespace AugraDosbox

open FileTree

namespace OverlayDrive

variable {d : OverlayDrive}

/-! ## Calls -/

/-- The file is seen, and it is the one of the base. -/
def FromBase (d : OverlayDrive) (name : DosPath) : Prop :=
  d.stat name = none ∧ d.FileExists name = true

/-- Somebody has the file of the base open. -/
def HeldOpen (d : OverlayDrive) (name : DosPath) (h : ℕ) : Prop :=
  ∃ f, d.Files h = some f ∧ f.file_handle = .ofBase name

/-- The calls that are carried out as they should be.

* `FileCreate` is not called for a directory that is seen in the base only, nor for a file
  of the base that is open;
* the first `Write` to a file of the base happens while it is still seen and nobody else has
  it open;
* a file that has been written to is not closed when the file of the base, in the place of
  which it is, lacks the archive attribute;
* `FileUnlink` is not called for a directory that only the base has, unless it is on the list
  of removed files;
* `Rename` is called for a file, which is not open in the base, and for a new name that is
  not seen, in a directory that is seen or that is in neither tree;
* `MakeDir` is not called for a file, unless it is one of the overlay where the base has no
  directory, and it does not bring back a directory of the base while a directory in it is
  on the list of removed paths only through its parents;
* `RemoveDir` is called for a directory that is seen, all of which the drive cache lists, and
  not for the root when it is empty. -/
def Fine (d : OverlayDrive) : DriveCall → Prop
  | .FileCreate name _ =>
    (d.TestDir name = true → d.stat name = some .dir) ∧
      (d.FromBase name → ∀ h, ¬d.HeldOpen name h)
  | .Write h _ => ∀ f, d.Files h = some f → f.overlay_active = false → f.flags.writable = true →
    d.FromBase f.name ∧ ∀ h', d.HeldOpen f.name h' → h' = h
  | .Close h => ∀ f, d.Files h = some f → f.set_archive_on_close = true → f.pathInBase = true →
    ∃ content, d.base f.name = some (.file content true)
  | .FileUnlink name => d.stat name = none → d.base name = some .dir → d.is_deleted_file name = true
  | .Rename oldname newname =>
    d.FileExists oldname = true ∧ d.FileExists newname = false ∧ d.TestDir newname = false ∧
      (d.TestDir newname.dropLast = false →
        d.stat newname.dropLast ≠ some .dir ∧ d.base newname.dropLast ≠ some .dir) ∧
      (d.FromBase oldname → ∀ h, ¬d.HeldOpen oldname h)
  | .MakeDir dir =>
    (d.FileExists dir = true → d.stat dir ≠ none ∧ d.base dir ≠ some .dir) ∧
      (dir ∈ d.deleted_paths_in_base → ∀ n, d.base (dir ++ [n]) = some .dir →
        dir ++ [n] ∈ d.deleted_paths_in_base)
  | .RemoveDir dir listed => d.TestDir dir = true ∧
    (dir = [] → ∃ n, d.FileExists [n] = true ∨ d.TestDir [n] = true) ∧
    ∀ names, listed = some names → ∀ n,
      d.FileExists (dir ++ [n]) = true ∨ d.TestDir (dir ++ [n]) = true → n ∈ names
  | _ => True

/-- What a call has done: nothing when it has failed, and otherwise the same as on an
ordinary tree, perhaps after a file of the base has got a new inode. -/
structure Follows (d : OverlayDrive) (call : Call String UInt8) (r : OverlayDrive × Bool) : Prop where
  sound : r.1.Sound
  base : r.1.base = d.base
  failed : r.2 = false → r.1.tree = d.tree
  done : r.2 = true → (d.tree.Can call ∧ r.1.tree = d.tree.apply call) ∨
    ∃ p, d.view p = some (.file (.ofBase p)) ∧ (d.tree.relabel (.ofBase p)).Can call ∧
      r.1.tree = (d.tree.relabel (.ofBase p)).apply call

variable {call : Call String UInt8} {n : ℕ} {name dir : DosPath} {flags : OpenFlags}
  {f : OverlayFile}

theorem follows_failed (h : d.Sound) : Follows d call (d, false) :=
  ⟨h, rfl, fun _ => rfl, fun hok => absurd hok (by simp)⟩

/-- A call that succeeds, with the same inodes. -/
theorem follows_done {d' : OverlayDrive} (h : d'.Sound) (hbase : d'.base = d.base)
    (hcan : d.tree.Can call) (htree : d'.tree = d.tree.apply call) :
    Follows d call (d', true) :=
  ⟨h, hbase, fun hok => absurd hok (by simp), fun _ => .inl ⟨hcan, htree⟩⟩

namespace Sound

variable {p : DosPath}

theorem fromBase_iff (h : d.Sound) : d.FromBase p ↔ d.view p = some (.file (.ofBase p)) := by
  unfold FromBase
  rw [h.fileExists_iff]
  rcases hs : d.stat p with _ | _ | n
  · refine ⟨?_, fun hview => ⟨rfl, _, hview⟩⟩
    rintro ⟨-, i, hi⟩
    rcases d.base_cases p with hb | hb | hb
    · rw [view_none hs hb] at hi
      exact absurd hi (by simp)
    · rw [view_base_dir hs hb] at hi
      split at hi <;> exact absurd hi (by simp)
    · rw [view_base_file hs hb] at hi ⊢
      split at hi
      · exact absurd hi (by simp)
      · rename_i hdel
        rw [if_neg hdel]
  · rw [view_overlay_dir hs]
    split <;> simp
  · rw [view_overlay_file hs]
    simp

/-- A file of the base is seen at its own path only. -/
theorem view_ofBase {q : DosPath} (hq : d.view q = some (.file (.ofBase p))) : q = p := by
  rcases hs : d.stat q with _ | _ | n
  · rcases d.base_cases q with hb | hb | hb
    · rw [view_none hs hb] at hq
      exact absurd hq (by simp)
    · rw [view_base_dir hs hb] at hq
      split at hq <;> exact absurd hq (by simp)
    · rw [view_base_file hs hb] at hq
      split at hq
      · exact absurd hq (by simp)
      · simpa using hq
  · rw [view_overlay_dir hs] at hq
    split at hq <;> exact absurd hq (by simp)
  · rw [view_overlay_file hs] at hq
    exact absurd hq (by simp)

theorem isBaseFile_of_view (h : d.Sound) (hp : d.view p = some (.file (.ofBase p))) :
    d.stat p = none ∧ d.IsBaseFile p := by
  have hs := ((h.fromBase_iff).mpr hp).1
  refine ⟨hs, ?_⟩
  rcases d.base_cases p with hb | hb | hb
  · rw [view_none hs hb] at hp
    exact absurd hp (by simp)
  · rw [view_base_dir hs hb] at hp
    split at hp <;> exact absurd hp (by simp)
  · exact hb

/-- A directory of the overlay is seen unless it is one of the base that has been removed. -/
theorem view_dir_of_stat (hs : d.stat p = some .dir) (hdel : d.is_deleted_path p = false) :
    d.view p = some .dir := by
  rw [view_overlay_dir hs, hdel]
  simp

theorem view_dir_of_base (h : d.Sound) (hb : d.base p = some .dir) (hdel : d.is_deleted_path p = false) :
    d.view p = some .dir := by
  rcases hs : d.stat p with _ | _ | n
  · rw [view_base_dir hs hb, hdel]
    rfl
  · exact view_dir_of_stat hs hdel
  · rw [h.hidden_dir p n hs hb] at hdel
    exact absurd hdel (by simp)

end Sound

theorem content_setStore (n : ℕ) (bytes : List UInt8) :
    content { d with store := Function.update d.store n bytes } =
      Function.update d.content (.made n) bytes := by
  funext i
  cases i with
  | ofBase p => rw [Function.update_of_ne (by simp)]; rfl
  | made m =>
    change Function.update d.store n bytes m = _
    by_cases hm : m = n
    · subst hm
      rw [Function.update_self, Function.update_self]
    · rw [Function.update_of_ne hm, Function.update_of_ne (by simpa using hm)]
      rfl

theorem create_native_file_cases {d' : OverlayDrive} {p : DosPath}
    (h : d.create_native_file p = some (d', n)) :
    (d.stat p = some (.file n) ∧ d' = { d with store := Function.update d.store n [] }) ∨
      (d.stat p = none ∧ d.stat p.dropLast = some .dir ∧ n = d.next ∧ d' = { d with
        overlay := d.overlay.insert p (.file d.next)
        store := Function.update d.store d.next [], next := d.next + 1 }) := by
  unfold create_native_file at h
  rcases hs : d.stat p with _ | _ | m
  · simp only [hs] at h
    split at h
    · rename_i hparent
      obtain ⟨rfl, rfl⟩ := Prod.ext_iff.mp (Option.some.inj h)
      exact .inr ⟨rfl, hparent, rfl, rfl⟩
    · exact absurd h (by simp)
  · simp [hs] at h
  · simp only [hs] at h
    obtain ⟨rfl, rfl⟩ := Prod.ext_iff.mp (Option.some.inj h)
    exact .inl ⟨rfl, rfl⟩

theorem create_file_cases (d : OverlayDrive) (p : DosPath) :
    ∃ dm, Synced d dm ∧ (d.create_file_in_overlay p = (dm, none) ∨
      ∃ d' n, dm.create_native_file p = some (d', n) ∧ d.create_file_in_overlay p = (d', some n)) := by
  unfold create_file_in_overlay
  rcases hfirst : d.create_native_file p with _ | ⟨d', n⟩
  · dsimp only
    split
    · have hsync : Synced d (d.Sync_leading_dirs p) := Synced.syncDirs _ d
      rcases hsecond : (d.Sync_leading_dirs p).create_native_file p with _ | ⟨d', n⟩
      · exact ⟨_, hsync, .inl rfl⟩
      · exact ⟨_, hsync, .inr ⟨d', n, hsecond, rfl⟩⟩
    · exact ⟨d, .refl d, .inl rfl⟩
  · exact ⟨d, .refl d, .inr ⟨d', n, hfirst, rfl⟩⟩

/-- What becomes of the drive when a file is made in the overlay. -/
structure Made (d : OverlayDrive) (p : DosPath) (d' : OverlayDrive) (n : ℕ) : Prop where
  sound : d'.Sound
  base : d'.base = d.base
  stat_self : d'.stat p = some (.file n)
  stat_other : ∀ q m, q ≠ p → d'.stat q = some (.file m) → d.stat q = some (.file m)
  older : n < d'.next
  parent : d.stat p = none → d.stat p.dropLast = some .dir ∨ d.base p.dropLast = some .dir
  tree : (d.stat p = some (.file n) ∧ d'.tree = d.tree.setContent (.made n) []) ∨
    (d.stat p = none ∧ n = d.next ∧
      (d.is_deleted_path p.dropLast = false → d.view p.dropLast = some .dir) ∧
      d'.tree = d.tree.alloc.setNode p (some (.file (.made d.next))))

theorem Sound.create_file {p : DosPath} (h : d.Sound)
    (hb : d.stat p = none → d.base p = some .dir → d.is_deleted_path p = true) :
    ∃ d', (d.create_file_in_overlay p = (d', none) ∧ d'.Sound ∧ d'.base = d.base ∧
        d'.tree = d.tree) ∨
      ∃ n, d.create_file_in_overlay p = (d', some n) ∧ Made d p d' n := by
  obtain ⟨dm, hsync, hcreate | ⟨d', n, hnative, hcreate⟩⟩ := create_file_cases d p
  · exact ⟨dm, .inl ⟨hcreate, h.synced hsync, hsync.base_eq, hsync.tree_eq⟩⟩
  · refine ⟨d', .inr ⟨n, hcreate, ?_⟩⟩
    have hm := h.synced hsync
    have hfile : ∀ q m, dm.stat q = some (.file m) → d.stat q = some (.file m) := by
      intro q m hq
      rcases hsync.stat q with heq | ⟨-, hdir, -⟩
      · rwa [heq] at hq
      · rw [hq] at hdir
        exact absurd hdir (by simp)
    rcases create_native_file_cases hnative with ⟨hs, rfl⟩ | ⟨hs, hparent, rfl, rfl⟩
    · refine ⟨hm.setStore _ (Nat.le_refl _), hsync.base_eq, hs, fun q m _ => hfile q m,
        hm.overlay_older p n hs, fun hnone => absurd (hnone.symm.trans (hfile p n hs)) (by simp),
        .inl ⟨hfile p n hs, ?_⟩⟩
      rw [← hsync.tree_eq]
      exact Tree.ext rfl (content_setStore n []) rfl rfl
    · have hs' : d.stat p = none := by
        rcases hsync.stat p with heq | ⟨hnone, -, -⟩
        · exact heq ▸ hs
        · exact hnone
      have hnext : dm.next = d.next := by rw [hsync.same]
      have hpath : ∀ q, dm.is_deleted_path q = d.is_deleted_path q := by
        intro q
        rw [hsync.same]
        rfl
      have hstore := hm.setStore (Function.update dm.store dm.next []) (Nat.le_succ dm.next)
      have hbm : dm.base p = some .dir → dm.is_deleted_path p = true := by
        intro hdir
        rw [hsync.base_eq] at hdir
        rw [hpath]
        exact hb hs' hdir
      obtain ⟨hsound, htree⟩ := hstore.put_file (p := p) (n := dm.next)
        (fun hdir => absurd (hs.symm.trans hdir) (by simp)) hparent hbm (Nat.lt_succ_self _)
      have hroot : p ≠ [] := ne_root_of_stat (d := dm) (by simp [hs])
      have hstat := stat_insert (d := dm) hroot (.file dm.next)
      refine ⟨hsound, hsync.base_eq, ?_, ?_, Nat.lt_succ_self _, fun _ => ?_,
        .inr ⟨hs', hnext, ?_, ?_⟩⟩
      · exact (congrFun hstat p).trans (Function.update_self ..)
      · intro q m hq hqm
        refine hfile q m (Eq.trans ?_ hqm)
        exact ((congrFun hstat q).trans (Function.update_of_ne hq ..)).symm
      · rcases hsync.stat p.dropLast with heq | ⟨-, -, hbase⟩
        · exact .inl (heq ▸ hparent)
        · exact .inr hbase
      · intro hdel
        rw [← hsync.view_eq]
        exact Sound.view_dir_of_stat hparent ((hpath _).trans hdel)
      · rw [← hsync.tree_eq, ← hnext]
        refine htree.trans ?_
        refine Tree.ext rfl ?_ rfl rfl
        exact content_setStore dm.next []

theorem goodFile_made (hn : n < d.next) (hflags : flags ≠ .invalid) :
    Sound.GoodFile d ⟨name, false, .made n, 0, flags, true, false⟩ :=
  ⟨hn, fun _ heq => absurd heq (by simp), fun _ _ => rfl, hflags⟩

/-- A file of the base that nobody has open gets a new inode. -/
theorem relabel_ofBase {p : DosPath} (hview : d.view p = some (.file (.ofBase p)))
    (hheld : ∀ h, ¬d.HeldOpen p h) :
    d.tree.relabel (.ofBase p) = (d.tree.alloc.setNode p (some (.file (.made d.next)))).setContent
      (.made d.next) (d.content (.ofBase p)) := by
  refine Tree.relabel_eq d.tree (fun q => ⟨Sound.view_ofBase, ?_⟩) ?_
  · rintro rfl
    exact hview
  · intro h o ho heq
    obtain ⟨f, hf, rfl⟩ := Option.map_eq_some_iff.mp ho
    exact hheld h ⟨f, hf, heq⟩

theorem fileCreate_follows (h : d.Sound) (hw : d.tree.Wf) (hfree : d.Files n = none)
    (hfine : d.Fine (.FileCreate name n)) :
    Follows d (.create name n) (d.FileCreate name n) := by
  obtain ⟨hdir, hheld⟩ := hfine
  have hnotdir : d.stat name ≠ some .dir → d.view name ≠ some .dir :=
    fun hs hview => hs (hdir (h.testDir_iff.mpr hview))
  have hfree' : d.tree.files n = none := Option.map_eq_none_iff.mpr hfree
  unfold FileCreate
  by_cases hlead : d.check_if_leading_is_deleted name = true
  · rw [if_pos hlead]
    exact follows_failed h
  rw [if_neg hlead]
  have hdeleted : d.stat name = none → d.base name = some .dir → d.is_deleted_path name = true := by
    intro hs hb
    by_contra hdel
    refine hnotdir (by simp [hs]) ?_
    rw [view_base_dir hs hb, if_neg hdel]
  obtain ⟨d', ⟨hcreate, hsound, hbase, htree⟩ | ⟨m, hcreate, hmade⟩⟩ := h.create_file hdeleted
  · rw [hcreate]
    exact ⟨hsound, hbase, fun _ => htree, fun hok => absurd hok (by simp)⟩
  rw [hcreate]
  dsimp only
  -- the file is opened, and the note that it has been removed goes
  obtain ⟨hopen, htreeopen⟩ := hmade.sound.setFile n
    (o := some ⟨name, false, .made m, 0, .OPEN_READWRITE, true, false⟩) (by
      rintro _ ⟨⟩
      exact goodFile_made hmade.older (by simp))
  obtain ⟨hsound, hkeeps, htree⟩ := hopen.remove_deleted_file hmade.stat_self
  rw [htreeopen] at htree
  refine ⟨hsound, hkeeps.base.trans hmade.base, fun hok => absurd hok (by simp), fun _ => ?_⟩
  have hnotdir : d.view name ≠ some .dir := by
    refine hnotdir fun hs => ?_
    rcases hmade.tree with ⟨hfile, -⟩ | ⟨hnone, -⟩
    · exact absurd (hs.symm.trans hfile) (by simp)
    · exact absurd (hs.symm.trans hnone) (by simp)
  rcases hmade.tree with ⟨hs, hcontent⟩ | ⟨hs, rfl, hparent, hnode⟩
  · -- a file of the overlay is cut off
    have hview : d.tree.node name = some (.file (.made m)) := view_overlay_file hs
    refine .inl ⟨⟨hfree', hw.parent name (by simp [hview]), hnotdir⟩, ?_⟩
    rw [Tree.apply_create_file hview, ← hcontent]
    exact htree
  · have hparent' := hparent (Bool.not_eq_true _ ▸ hlead)
    rcases hview : d.view name with _ | _ | i
    · refine .inl ⟨⟨hfree', hparent', hnotdir⟩, ?_⟩
      rw [Tree.apply_create_none hview]
      exact htree.trans (congrArg (Tree.setFile · n _) hnode)
    · exact absurd hview hnotdir
    · -- a file of the base is switched
      have hfrom : d.FromBase name := ⟨hs, h.fileExists_iff.mpr ⟨i, hview⟩⟩
      have hview' := h.fromBase_iff.mp hfrom
      have hself := Tree.relabel_node_self (t := d.tree) hview'
      refine .inr ⟨name, hview', ⟨Tree.relabel_files_none.mpr hfree', Tree.relabel_node_dir.mpr hparent',
        fun heq => hnotdir (Tree.relabel_node_dir.mp heq)⟩, ?_⟩
      have hempty := Tree.setContent_setContent (d.tree.alloc.setNode name (some (.file (.made d.next))))
        (.made d.next) (d.content (.ofBase name)) []
      rw [Tree.apply_create_file hself, relabel_ofBase hview' (hheld hfrom)]
      refine htree.trans (congrArg (Tree.setFile · n _) (hnode.trans ?_))
      exact (hempty.trans (Tree.alloc_setContent_nil d.tree _ _)).symm

theorem fileOpen_follows (h : d.Sound) (hfree : d.Files n = none) :
    Follows d (.openFile name n flags.readable flags.writable) (d.FileOpen name flags n) := by
  have hfree' : d.tree.files n = none := Option.map_eq_none_iff.mpr hfree
  unfold FileOpen
  by_cases hflags : flags = .invalid
  · rw [if_pos hflags]
    exact follows_failed h
  rw [if_neg hflags]
  have hbase : (∀ m, d.stat name ≠ some (.file m)) → Follows d
      (.openFile name n flags.readable flags.writable)
      (if d.is_deleted_file name then (d, false)
        else if d.baseFileExists name then
          (d.setFile n (some ⟨name, true, .ofBase name, 0, flags, false, false⟩), true)
        else (d, false)) := by
    intro hfile
    split
    · exact follows_failed h
    rename_i hdel
    split
    · rename_i hexists
      have hb := baseFileExists_iff.mp hexists
      have hs : d.stat name = none := by
        rcases hs : d.stat name with _ | _ | m
        · rfl
        · exact absurd (is_deleted_file_iff.mpr ⟨hb.ne_root h, h.hidden_file name hs hb⟩) hdel
        · exact absurd hs (hfile m)
      have hview : d.tree.node name = some (.file (.ofBase name)) :=
        (view_base_file hs hb).trans (if_neg hdel)
      obtain ⟨hsound, htree⟩ := h.setFile n
        (o := some ⟨name, true, .ofBase name, 0, flags, false, false⟩) (by
          rintro _ ⟨⟩
          exact ⟨trivial, fun q heq => ⟨by simpa using heq, rfl⟩, fun m heq => absurd heq (by simp),
            hflags⟩)
      refine follows_done hsound rfl ⟨hfree', _, hview⟩ ?_
      rw [Tree.apply_openFile hview]
      exact htree
    · exact follows_failed h
  rcases hs : d.stat name with _ | _ | m
  · exact hbase fun m hm => absurd (hs.symm.trans hm) (by simp)
  · exact hbase fun m hm => absurd (hs.symm.trans hm) (by simp)
  · have hview : d.tree.node name = some (.file (.made m)) := view_overlay_file hs
    obtain ⟨hsound, htree⟩ := h.setFile n (o := some ⟨name, false, .made m, 0, flags, true, false⟩) (by
      rintro _ ⟨⟩
      exact goodFile_made (h.overlay_older name m hs) hflags)
    refine follows_done hsound rfl ⟨hfree', _, hview⟩ ?_
    rw [Tree.apply_openFile hview]
    exact htree

theorem tree_files (hf : d.Files n = some f) :
    d.tree.files n = some f.toOpen := by
  change (d.Files n).map _ = _
  rw [hf]
  rfl

theorem setPos_follows {pos : ℕ} (h : d.Sound) (hf : d.Files n = some f) (hcan : d.tree.Can call)
    (happly : d.tree.apply call = d.tree.setFile n (some { f.toOpen with pos := pos })) :
    Follows d call (d.setFile n (some { f with pos := pos }), true) := by
  obtain ⟨hsound, htree⟩ := h.setFile n (o := some { f with pos := pos }) (by
    rintro _ ⟨⟩
    have hgood := h.goodFile hf
    exact ⟨hgood.older, hgood.base, hgood.made, hgood.flags⟩)
  refine follows_done hsound rfl hcan ?_
  rw [happly]
  exact htree

theorem read_follows {k : ℕ} (h : d.Sound) :
    Follows d (.read n k) ((d.Read n k).1, (d.Read n k).2.isSome) := by
  unfold Read
  rcases hf : d.Files n with _ | f
  · exact follows_failed h
  · dsimp only
    split
    · exact follows_failed h
    · rename_i hflags
      have ho := tree_files hf
      refine setPos_follows h hf ⟨_, ho, ?_⟩ ?_
      · simpa [OverlayFile.toOpen, OpenFlags.readable] using hflags
      · rw [Tree.apply_read ho]
        rfl

theorem seek_follows {pos : ℕ} (h : d.Sound) : Follows d (.seek n pos) (d.Seek n pos) := by
  unfold Seek
  rcases hf : d.Files n with _ | f
  · exact follows_failed h
  · have ho := tree_files hf
    refine setPos_follows h hf (fun hnone => absurd (ho.symm.trans hnone) (by simp)) ?_
    rw [Tree.apply_seek ho]

theorem close_follows (h : d.Sound) (hfine : d.Fine (.Close n)) :
    Follows d (.close n) (d.Close n) := by
  unfold Close
  rcases hf : d.Files n with _ | f
  · exact follows_failed h
  · dsimp only
    -- the archive attribute is set already
    have hsame : (if f.set_archive_on_close = true ∧ f.pathInBase = true then d.setArchive f.name
        else d) = d := by
      split
      · rename_i hset
        obtain ⟨content, hb⟩ := hfine f hf hset.1 hset.2
        unfold setArchive
        rw [hb]
        dsimp only
        rw [← hb, Function.update_eq_self]
      · rfl
    rw [hsame]
    obtain ⟨hsound, htree⟩ := h.setFile n (o := none) fun _ hnone => absurd hnone (by simp)
    exact follows_done hsound rfl
      (fun hnone => absurd ((tree_files hf).symm.trans hnone) (by simp)) htree

theorem localWrite_spec {m : ℕ} (data : List UInt8) (h : d.Sound) (hgood : Sound.GoodFile d f)
    (hm : f.file_handle = .made m) (hwrite : f.flags.writable = true) :
    ∃ d', d.localWrite n f data = (d', true) ∧ d'.Sound ∧ d'.base = d.base ∧
      d'.tree = (d.tree.setContent (.made m) (writeAt (d.content (.made m)) f.pos data)).setFile n
        (some { f.toOpen with pos := f.pos + data.length }) := by
  have hflags : ¬(f.flags = .OPEN_READ ∨ f.flags = .OPEN_READ_NO_MOD) := by
    rintro (hread | hread) <;> simp [hread, OpenFlags.writable] at hwrite
  unfold localWrite
  rw [if_neg hflags]
  refine ⟨_, rfl, ?_⟩
  obtain ⟨name, pathInBase, handle, pos, flags, active, archive⟩ := f
  change handle = .made m at hm
  subst hm
  have hstore := h.setStore (Function.update d.store m (writeAt (d.content (.made m)) pos data))
    (Nat.le_refl _)
  obtain ⟨hsound, htree⟩ := hstore.setFile n
    (o := some ⟨name, pathInBase, .made m, pos + data.length, flags, active, true⟩) (by
      rintro _ ⟨⟩
      exact ⟨hgood.older, hgood.base, hgood.made, hgood.flags⟩)
  refine ⟨hsound, rfl, htree.trans ?_⟩
  refine congrArg (Tree.setFile · n _) (Tree.ext rfl ?_ rfl rfl)
  exact content_setStore m _

theorem read_of_not_writable (hvalid : flags ≠ .invalid) (hwrite : ¬flags.writable = true) :
    flags = .OPEN_READ ∨ flags = .OPEN_READ_NO_MOD := by
  cases flags <;> simp_all [OpenFlags.writable]

theorem write_follows {data : List UInt8} (h : d.Sound) (hfine : d.Fine (.Write n data)) :
    Follows d (.write n data) (d.Write n data) := by
  unfold Write
  rcases hf : d.Files n with _ | f
  · exact follows_failed h
  have ho := tree_files hf
  have hgood := h.goodFile hf
  dsimp only
  split
  · -- the first write to a file of the base
    rename_i hswitch
    obtain ⟨hfrom, hheld⟩ := hfine f hf hswitch.1 hswitch.2
    have hview := h.fromBase_iff.mp hfrom
    have hhandle : f.file_handle = .ofBase f.name := by
      rcases hcase : f.file_handle with p | m
      · rw [(hgood.base p hcase).1]
      · exact absurd (hgood.made m hcase) (by simp [hswitch.1])
    obtain ⟨d', ⟨hcreate, hsound, hbase, htree⟩ | ⟨m, hcreate, hmade⟩⟩ :=
      h.create_file (p := f.name) fun _ hb =>
        absurd hb ((h.isBaseFile_of_view hview).2.ne_dir)
    · unfold create_copy
      rw [hcreate]
      exact ⟨hsound, hbase, fun _ => htree, fun hok => absurd hok (by simp)⟩
    have hnode : m = d.next ∧
        d'.tree = d.tree.alloc.setNode f.name (some (.file (.made d.next))) := by
      rcases hmade.tree with ⟨hs, -⟩ | ⟨-, hm, -, hnode⟩
      · exact absurd (hfrom.1.symm.trans hs) (by simp)
      · exact ⟨hm, hnode⟩
    obtain ⟨rfl, hnode⟩ := hnode
    unfold create_copy
    rw [hcreate]
    dsimp only
    have hcontent : d'.content f.file_handle = d.content f.file_handle := by
      rw [hhandle]
      unfold content
      rw [hmade.base]
    rw [hcontent]
    have hcopy := hmade.sound.setStore (Function.update d'.store d.next (d.content f.file_handle))
      (Nat.le_refl _)
    obtain ⟨d'', hlocal, hsound, hbase, htree⟩ := localWrite_spec (n := n) (m := d.next)
      (f := { f with overlay_active := true, file_handle := .made d.next }) data hcopy
      ⟨hmade.older, fun _ heq => absurd heq (by simp), fun _ _ => rfl, hgood.flags⟩ rfl hswitch.2
    rw [hlocal]
    refine ⟨hsound, hbase.trans hmade.base, fun hok => absurd hok (by simp), fun _ => .inr ?_⟩
    have hopen : (d.tree.relabel (.ofBase f.name)).files n =
        some { f.toOpen with inode := .made d.next } := Tree.relabel_files_self ho hhandle
    refine ⟨f.name, hview, ⟨_, hopen, hswitch.2⟩, ?_⟩
    -- the copy is what the new inode has
    have hrelabel := Tree.relabel_eq_open d.tree (fun q => ⟨Sound.view_ofBase, fun hq => hq ▸ hview⟩)
      ho hhandle fun h' o' ho' hi => by
        obtain ⟨f', hf', rfl⟩ := Option.map_eq_some_iff.mp ho'
        exact hheld h' ⟨f', hf', hi⟩
    have hcopied : tree { d' with
        store := Function.update d'.store d.next (d.content f.file_handle) } =
        (d.tree.alloc.setNode f.name (some (.file (.made d.next)))).setContent (.made d.next)
          (d.content (.ofBase f.name)) := by
      rw [← hhandle, ← hnode]
      exact Tree.ext rfl (content_setStore _ _) rfl rfl
    have hbytes : content { d' with
        store := Function.update d'.store d.next (d.content f.file_handle) } (.made d.next) =
        d.content f.file_handle := Function.update_self ..
    have hread : (d.tree.relabel (.ofBase f.name)).content (.made d.next) = d.content f.file_handle := by
      rw [hhandle]
      exact Function.update_self ..
    rw [Tree.apply_write hopen, hread, hrelabel, Tree.setFile_setContent_setFile, htree, hcopied, hbytes]
    rfl
  · rename_i hstay
    by_cases hwrite : f.flags.writable = true
    · -- a file of the overlay
      have hactive : f.overlay_active = true := by
        by_contra hnot
        exact hstay ⟨Bool.not_eq_true _ ▸ hnot, hwrite⟩
      rcases hcase : f.file_handle with p | m
      · exact absurd (hgood.base p hcase).2 (by simp [hactive])
      · obtain ⟨d', hlocal, hsound, hbase, htree⟩ := localWrite_spec (n := n) data h hgood
          hcase hwrite
        rw [hlocal]
        refine follows_done hsound hbase ⟨_, ho, hwrite⟩ ?_
        rw [Tree.apply_write ho, htree]
        change _ = (d.tree.setContent f.file_handle (writeAt (d.content f.file_handle) f.pos data)).setFile
          n _
        rw [hcase]
        rfl
    · unfold localWrite
      rw [if_pos (read_of_not_writable hgood.flags hwrite)]
      exact follows_failed h

theorem unlink_follows (h : d.Sound) (hw : d.tree.Wf) (hfine : d.Fine (.FileUnlink name)) :
    Follows d (.unlink name) (d.FileUnlink name) := by
  have hlead := fun hview hb => @leading_of_visible d name h hw hview hb
  unfold FileUnlink delete_native_file
  rcases hs : d.stat name with _ | _ | n
  · dsimp only
    rw [if_neg (by simp)]
    split
    · exact follows_failed h
    rename_i hdel
    split
    · exact follows_failed h
    rename_i hbase
    -- a file of the base goes
    have hb : d.IsBaseFile name := by
      rcases d.base_cases name with hb | hb | hb
      · exact absurd hb hbase
      · exact absurd (hfine hs hb) hdel
      · exact hb
    have hview : d.view name = some (.file (.ofBase name)) :=
      (view_base_file hs hb).trans (if_neg hdel)
    obtain ⟨hsound, hkeeps, htree⟩ := h.add_deleted_file hb (hlead (by simp [hview]) hb.ne_none)
    rw [if_pos hs] at htree
    exact follows_done hsound hkeeps.base ⟨_, hview⟩ htree
  · dsimp only
    rw [if_pos (by simp)]
    exact follows_failed h
  · -- a file of the overlay goes, and the one of the base behind it
    dsimp only
    have hview : d.view name = some (.file (.made n)) := view_overlay_file hs
    obtain ⟨hsound, x, htree, hx⟩ := h.erase_file hs
    have hroot : name ≠ [] := ne_root_of_stat (d := d) (by simp [hs])
    by_cases hexists : d.baseFileExists name = true
    · have hb := baseFileExists_iff.mp hexists
      have hlead' : ∀ q ∈ leadingDirs name, d.base q = some .dir ∧
          ∀ m, stat { d with overlay := d.overlay.erase name } q ≠ some (.file m) := by
        intro q hq
        obtain ⟨hbq, hfile⟩ := hlead (by simp [hview]) hb.ne_none q hq
        refine ⟨hbq, fun m hm => ?_⟩
        rw [stat_erase hroot] at hm
        by_cases hqp : q = name
        · rw [hqp, Function.update_self] at hm
          exact absurd hm (by simp)
        · rw [Function.update_of_ne hqp] at hm
          exact hfile m hm
      obtain ⟨hsound', hkeeps, htree'⟩ := hsound.add_deleted_file (p := name) hb hlead'
      have hnone : stat { d with overlay := d.overlay.erase name } name = none := by
        rw [stat_erase hroot, Function.update_self]
      rw [if_pos hnone, htree] at htree'
      have hresult : baseFileExists { d with overlay := d.overlay.erase name } name = true := hexists
      rw [if_pos hresult]
      refine follows_done hsound' hkeeps.base ⟨_, hview⟩ (htree'.trans ?_)
      exact Tree.setNode_setNode ..
    · have hresult : ¬baseFileExists { d with overlay := d.overlay.erase name } name = true := hexists
      rw [if_neg hresult]
      rw [hx fun hb => hexists (baseFileExists_iff.mpr hb)] at htree
      exact follows_done hsound rfl ⟨_, hview⟩ htree

theorem base_add_DOSdir_to_cache (d : OverlayDrive) (name : DosPath) :
    (d.add_DOSdir_to_cache name).base = d.base := by
  unfold add_DOSdir_to_cache
  split
  · rfl
  · split <;> rfl

theorem mkdir_follows (h : d.Sound) (hfine : d.Fine (.MakeDir dir)) :
    Follows d (.mkdir dir) (d.MakeDir dir) := by
  obtain ⟨hfile, hdirs⟩ := hfine
  unfold MakeDir
  by_cases htest : d.TestDir dir = true
  · rw [if_pos htest]
    exact follows_failed h
  rw [if_neg htest]
  by_cases hlead : d.check_if_leading_is_deleted dir = true
  · rw [if_pos hlead]
    exact follows_failed h
  rw [if_neg hlead]
  have hlead' : d.is_deleted_path dir.dropLast = false := Bool.not_eq_true _ ▸ hlead
  by_cases hexists : d.FileExists dir = true
  · -- a file of the overlay is in the way
    obtain ⟨hs, hb⟩ := hfile hexists
    unfold local_drive_create_dir
    rw [if_neg fun hback => hb (baseTestDir_iff.mp hback.2), if_neg fun hcan => hs hcan.1]
    exact follows_failed h
  have hnotfile : ∀ i, d.view dir ≠ some (.file i) :=
    fun i hi => hexists (h.fileExists_iff.mpr ⟨i, hi⟩)
  have hnone : d.view dir = none := by
    rcases hview : d.view dir with _ | _ | i
    · rfl
    · exact absurd (h.testDir_iff.mpr hview) htest
    · exact absurd hview (hnotfile i)
  by_cases hback : d.is_deleted_path dir = true ∧ d.baseTestDir dir = true
  · -- a directory of the base comes back
    rw [if_pos hback]
    obtain ⟨hdel, hb⟩ := hback
    rw [baseTestDir_iff] at hb
    have hmem : dir ∈ d.deleted_paths_in_base := by
      obtain ⟨-, entry, hentry, hle⟩ := is_deleted_path_iff.mp hdel
      by_contra hnot
      have hne : entry ≠ dir := fun heq => hnot (heq ▸ hentry)
      rw [h.leading_deleted hentry hle hne] at hlead'
      exact absurd hlead' (by simp)
    have hstat : ∀ n, d.stat dir ≠ some (.file n) := fun n hn => hnotfile _ (view_overlay_file hn)
    have hparent := h.base_parent dir (by simp [hb])
    obtain ⟨hsound, hbase, htree⟩ := h.remove_deleted_path hmem hstat hlead' (hdirs hmem)
    exact follows_done hsound hbase ⟨hnone, h.view_dir_of_base hparent hlead'⟩ htree
  · rw [if_neg hback]
    unfold local_drive_create_dir
    split
    · rename_i d' hcreate
      split at hcreate
      · rename_i hcan
        obtain rfl := Option.some.inj hcreate
        have hb : d.base dir ≠ some .dir := by
          intro hb
          rw [view_base_dir hcan.1 hb] at hnone
          split at hnone
          · rename_i hdel
            exact hback ⟨hdel, baseTestDir_iff.mpr hb⟩
          · exact absurd hnone (by simp)
        have hdeleted : d.IsBaseFile dir → dir ∈ d.deleted_files_in_base := by
          intro hbf
          rw [view_base_file hcan.1 hbf] at hnone
          split at hnone
          · rename_i hdel
            exact (is_deleted_file_iff.mp hdel).2
          · exact absurd hnone (by simp)
        obtain ⟨hsound, htree⟩ := h.put_dir hcan.1 hcan.2 hb hdeleted
        exact follows_done hsound (base_add_DOSdir_to_cache _ _)
          ⟨hnone, Sound.view_dir_of_stat hcan.2 hlead'⟩ htree
      · exact absurd hcreate (by simp)
    · exact follows_failed h

/-- What is seen in a directory is found there by `FindNext`. -/
theorem found_of_view {name : String} (h : d.Sound) (hview : d.view (dir ++ [name]) ≠ none) :
    d.found dir name = true := by
  unfold found
  rw [decide_eq_true_iff]
  by_cases hs : d.stat (dir ++ [name]) = none
  · refine .inr ?_
    rcases d.base_cases (dir ++ [name]) with hb | hb | hb
    · exact absurd (view_none hs hb) hview
    · rw [view_base_dir hs hb] at hview
      refine ⟨?_, by simp [hb]⟩
      rw [← Bool.not_eq_true, is_deleted_file_iff]
      rintro ⟨-, hmem⟩
      rw [h.deleted_dir _ hmem hb] at hview
      exact hview rfl
    · rw [view_base_file hs hb] at hview
      refine ⟨?_, hb.ne_none⟩
      by_contra hdel
      rw [Bool.not_eq_false] at hdel
      rw [hdel] at hview
      exact hview rfl
  · exact .inl hs

theorem rmdir_follows {listed : Option (List String)} (h : d.Sound) (hw : d.tree.Wf)
    (hfine : d.Fine (.RemoveDir dir listed)) : Follows d (.rmdir dir) (d.RemoveDir dir listed) := by
  obtain ⟨htest, hnotempty, hlisted⟩ := hfine
  have hview := h.testDir_iff.mp htest
  -- what is seen is found, if the drive cache lists anything
  have hfound : ∀ names n, listed = some names →
      d.FileExists (dir ++ [n]) = true ∨ d.TestDir (dir ++ [n]) = true →
      names.any (d.found dir) = true := by
    intro names n hnames hseen
    refine List.any_eq_true.mpr ⟨n, hlisted names hnames n hseen, found_of_view h ?_⟩
    rcases hseen with hseen | hseen
    · obtain ⟨i, hi⟩ := h.fileExists_iff.mp hseen
      simp [hi]
    · simp [h.testDir_iff.mp hseen]
  unfold RemoveDir
  by_cases honly : d.is_dir_only_in_overlay dir = true
  · -- a directory of the overlay goes
    rw [if_pos honly]
    have hroot : dir ≠ [] := (is_dir_only_in_overlay_iff.mp honly).1
    obtain ⟨hs, hb⟩ := (h.dirs_cache dir).mp (is_dir_only_in_overlay_iff.mp honly).2
    unfold local_drive_remove_dir
    split
    · rename_i d' hremove
      split at hremove
      · rename_i hcan
        obtain rfl := Option.some.inj hremove
        obtain ⟨hsound, htree⟩ := h.erase_dir hroot hs hcan.2.2.1 hb
        refine follows_done hsound rfl ⟨hroot, hview, fun n => ?_⟩ htree
        refine view_none ?_ ?_
        · by_contra hne
          refine hcan.2.2.1 (dir ++ [n]) (AList.mem_keys.mp (AList.lookup_isSome.mp ?_))
            List.dropLast_concat
          rw [← stat_lookup (by simp)]
          exact Option.isSome_iff_ne_none.mpr hne
        · by_contra hne
          have hparent := h.base_parent _ hne
          rw [List.dropLast_concat] at hparent
          exact hb hparent
      · exact absurd hremove (by simp)
    · exact follows_failed h
  rw [if_neg honly]
  split
  · exact follows_failed h
  rename_i hdel
  rcases listed with _ | names
  · exact follows_failed h
  dsimp only
  split
  · exact follows_failed h
  · -- a directory of the base is removed from sight
    rename_i hnone
    have hroot : dir ≠ [] := by
      rintro rfl
      obtain ⟨n, hseen⟩ := hnotempty rfl
      exact hnone (hfound names n rfl hseen)
    have hb : d.base dir = some .dir := by
      unfold TestDir at htest
      rw [if_neg honly, if_neg hdel] at htest
      exact baseTestDir_iff.mp htest
    have hempty : ∀ n, d.view (dir ++ [n]) = none := by
      intro n
      by_contra hne
      have hseen : d.FileExists (dir ++ [n]) = true ∨ d.TestDir (dir ++ [n]) = true := by
        rcases hv : d.view (dir ++ [n]) with _ | _ | i
        · exact absurd hv hne
        · exact .inr (h.testDir_iff.mpr hv)
        · exact .inl (h.fileExists_iff.mpr ⟨i, hv⟩)
      exact hnone (hfound names n rfl hseen)
    have hbelow : ∀ q, dir <+: q → q ≠ dir → d.view q = none := by
      rintro _ ⟨rest, rfl⟩ hne
      rcases rest with _ | ⟨m, rest⟩
      · exact absurd (List.append_nil dir) hne
      · by_contra hv
        have hlong : dir ++ [m] <+: dir ++ m :: rest := ⟨rest, by simp⟩
        by_cases hsame : dir ++ [m] = dir ++ m :: rest
        · exact hv (hsame ▸ hempty m)
        · have hdir := Tree.above_of_parent hw.parent hv hlong hsame
          exact absurd (hdir.symm.trans (hempty m)) (by simp)
    obtain ⟨hsound, hbase, htree⟩ := h.add_deleted_path hroot hb hview hbelow
      (leading_of_visible h hw (by simp [hview]) (by simp [hb]))
    exact follows_done hsound hbase ⟨hroot, hview, hempty⟩ htree

theorem afterRename_spec (h : d.Sound) (hs : d.stat name = some (.file n)) :
    (d.afterRename name).Sound ∧ (d.afterRename name).base = d.base ∧
      (d.afterRename name).tree = d.tree := by
  unfold afterRename
  dsimp only
  split
  · obtain ⟨hsound, hkeeps, htree⟩ := h.remove_deleted_file hs
    obtain ⟨hsound', hbase, htree'⟩ := hsound.update_cache
    exact ⟨hsound', hbase.trans hkeeps.base, htree'.trans htree⟩
  · exact h.update_cache

end OverlayDrive

end AugraDosbox
