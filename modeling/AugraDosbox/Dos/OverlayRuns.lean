import AugraDosbox.Dos.OverlayCalls

/-!
# An overlay drive is one writable tree

What is seen through an overlay drive after any calls.

* `rename_follows` — the longest of the calls;
* `step_follows` — one step;
* `OverlayDrive.Complies`, `OverlayDrive.Answers` — the runs in which each call is one that
  the drive carries out as it should, and what it means that a drive answers as a tree;
* **`run_refines`** — in such a run the drive answers as an ordinary tree that started as a
  copy of the base and underwent the calls that have succeeded, and the base is as it was.
-/

namespace AugraDosbox

open FileTree Total

namespace OverlayDrive

variable {d : OverlayDrive}

/-! ## Renaming -/

variable {p oldname newname : DosPath} {link : Inode String → Inode String}
  {known : Set (Inode String)} {t : Tree String UInt8}

/-- A directory of the base that is not seen, and in the place of which the overlay has no
directory, has been removed. -/
theorem deleted_of_unseen (hview : d.view p = none) (hb : d.base p = some .dir) :
    d.is_deleted_path p = true := by
  rcases hs : d.stat p with _ | _ | n
  · rw [view_base_dir hs hb] at hview
    by_contra hdel
    rw [if_neg hdel] at hview
    exact absurd hview (by simp)
  · rw [view_overlay_dir hs] at hview
    by_contra hdel
    rw [if_neg fun hboth => hdel hboth.2] at hview
    exact absurd hview (by simp)
  · rw [view_overlay_file hs] at hview
    exact absurd hview (by simp)

/-- A file of the overlay gets another name. -/
theorem rename_overlay_follows {n : ℕ} (h : d.Sound) (hw : d.tree.Wf)
    (hs : d.stat oldname = some (.file n)) (hnew : d.view newname = none)
    (hparent : d.stat newname.dropLast = some .dir → d.view newname.dropLast = some .dir) :
    ∃ r, d.Rename oldname newname = some r ∧ Follows d (.rename oldname newname) r := by
  have hold : d.view oldname = some (.file (.made n)) := view_overlay_file hs
  have hne : oldname ≠ newname := by
    rintro rfl
    rw [hold] at hnew
    exact absurd hnew (by simp)
  have hroot : oldname ≠ [] := ne_root_of_stat (d := d) (by simp [hs])
  unfold Rename GetFileAttr
  simp only [hs, ne_eq, reduceCtorEq, not_false_eq_true, if_true]
  unfold local_drive_rename_file
  simp only [hs, if_neg hne]
  by_cases hcan : d.stat newname.dropLast = some .dir ∧ d.stat newname ≠ some .dir
  swap
  · rw [if_neg hcan]
    exact ⟨_, rfl, follows_failed h⟩
  rw [if_pos hcan]
  dsimp only
  -- the name goes, and the new one comes
  obtain ⟨herased, x, htree₁, hx⟩ := h.erase_file hs
  have hstat₁ := stat_erase (d := d) hroot
  have hup : newname.dropLast ≠ oldname := by
    intro heq
    have hdir := hcan.1
    rw [heq, hs] at hdir
    exact absurd hdir (by simp)
  obtain ⟨hput, htree₂⟩ := herased.put_file (p := newname) (n := n)
    (by rw [hstat₁, Function.update_of_ne hne.symm]; exact hcan.2)
    (by rw [hstat₁, Function.update_of_ne hup]; exact hcan.1)
    (deleted_of_unseen (d := d) hnew) (h.overlay_older oldname n hs)
  have hrootnew : newname ≠ [] := ne_root_of_stat hcan.2
  have hstat₂ := stat_insert (d := { d with overlay := d.overlay.erase oldname }) hrootnew (.file n)
  generalize hd₂ : ({ d with
    overlay := (d.overlay.erase oldname).insert newname (.file n) } : OverlayDrive) = d₂
  rw [hd₂] at hput htree₂ hstat₂
  have hbase₂ : d₂.base = d.base := by rw [← hd₂]
  have hself : d₂.stat newname = some (.file n) := by rw [hstat₂, Function.update_self]
  have hgone : d₂.stat oldname = none := by
    rw [hstat₂, Function.update_of_ne hne, hstat₁, Function.update_self]
  have hdone : d.tree.Can (.rename oldname newname) :=
    ⟨⟨_, hold⟩, hparent hcan.1, fun hdir => absurd (hnew.symm.trans hdir) (by simp)⟩
  have happly : d.tree.apply (.rename oldname newname) =
      (d.tree.setNode newname (some (.file (.made n)))).setNode oldname none := by
    simp only [Tree.apply, if_neg hne]
    rw [show d.tree.node oldname = _ from hold]
  by_cases hexists : d₂.baseFileExists oldname = true
  · rw [if_pos hexists]
    have hb := baseFileExists_iff.mp hexists
    have hbd : d.base oldname ≠ none := by
      rw [← hbase₂]
      exact hb.ne_none
    have hlead : ∀ q ∈ leadingDirs oldname,
        d₂.base q = some .dir ∧ ∀ m, d₂.stat q ≠ some (.file m) := by
      intro q hq
      obtain ⟨hbq, hfile⟩ := leading_of_visible h hw (by simp [hold]) hbd q hq
      refine ⟨by rw [hbase₂]; exact hbq, fun m hm => ?_⟩
      have hqnew : q ≠ newname := by
        rintro rfl
        have hdir := leading_seen hw (p := oldname) (by simp [hold]) hq
        exact absurd (hnew.symm.trans hdir) (by simp)
      rw [hstat₂, Function.update_of_ne hqnew, hstat₁,
        Function.update_of_ne (leadingDirs_above hq).2] at hm
      exact hfile m hm
    obtain ⟨hsound₃, hkeeps, htree₃⟩ := hput.add_deleted_file hb hlead
    rw [if_pos hgone, htree₂, htree₁] at htree₃
    obtain ⟨hsound, hbase, htree⟩ := afterRename_spec hsound₃ (hkeeps.file _ _ hself)
    refine ⟨_, rfl, follows_done hsound (hbase.trans (hkeeps.base.trans hbase₂)) hdone ?_⟩
    rw [htree, htree₃, happly, Tree.setNode_comm _ hne, Tree.setNode_setNode]
  · rw [if_neg hexists]
    have hnot : ¬d.IsBaseFile oldname := fun hb => hexists (baseFileExists_iff.mpr (by
      rw [IsBaseFile, hbase₂]
      exact hb))
    obtain ⟨hsound, hbase, htree⟩ := afterRename_spec hput hself
    refine ⟨_, rfl, follows_done hsound (hbase.trans hbase₂) hdone ?_⟩
    rw [htree, htree₂, htree₁, happly, hx hnot, Tree.setNode_comm _ hne]

/-- A file of the base gets another name: it is copied to the overlay. -/
theorem rename_base_follows (h : d.Sound) (hw : d.tree.Wf)
    (hold : d.view oldname = some (.file (.ofBase oldname))) (hnew : d.view newname = none)
    (hparent : d.stat newname.dropLast = some .dir ∨ d.base newname.dropLast = some .dir →
      d.view newname.dropLast = some .dir)
    (hheld : ∀ n, ¬d.HeldOpen oldname n) :
    ∃ r, d.Rename oldname newname = some r ∧ Follows d (.rename oldname newname) r := by
  obtain ⟨hs, hb⟩ := h.isBaseFile_of_view hold
  have hne : oldname ≠ newname := by
    rintro rfl
    rw [hold] at hnew
    exact absurd hnew (by simp)
  have hattr : d.GetFileAttr oldname = some false := by
    obtain ⟨content, archive, hbase⟩ := hb
    have hdel : d.is_deleted_file oldname = false := by
      by_contra hdel
      rw [view_base_file hs ⟨content, archive, hbase⟩, if_pos (by simpa using hdel)] at hold
      exact absurd hold (by simp)
    simp [GetFileAttr, hs, hdel, hbase]
  unfold Rename
  rw [hattr]
  simp only [hs, ne_eq, not_true_eq_false, if_false]
  obtain ⟨d', ⟨hcreate, hsound, hbase, htree⟩ | ⟨n, hcreate, hmade⟩⟩ :=
    h.create_file (p := newname) fun _ hdir => deleted_of_unseen hnew hdir
  · rw [hcreate]
    exact ⟨_, rfl, hsound, hbase, fun _ => htree, fun hok => absurd hok (by simp)⟩
  rw [hcreate]
  dsimp only
  have hnode : n = d.next ∧ d.view newname.dropLast = some .dir ∧
      d'.tree = d.tree.alloc.setNode newname (some (.file (.made d.next))) := by
    rcases hmade.tree with ⟨hfile, -⟩ | ⟨hnone, hn, -, hnode⟩
    · rw [view_overlay_file hfile] at hnew
      exact absurd hnew (by simp)
    · exact ⟨hn, hparent (hmade.parent hnone), hnode⟩
  obtain ⟨rfl, hparent, hnode⟩ := hnode
  have hcontent : d'.content (.ofBase oldname) = d.content (.ofBase oldname) := by
    unfold content
    rw [hmade.base]
  rw [hcontent]
  have hcopy := hmade.sound.setStore
    (Function.update d'.store d.next (d.content (.ofBase oldname))) (Nat.le_refl _)
  have htree₂ : tree { d' with
      store := Function.update d'.store d.next (d.content (.ofBase oldname)) } =
      (d.tree.alloc.setNode newname (some (.file (.made d.next)))).setContent (.made d.next)
        (d.content (.ofBase oldname)) := by
    rw [← hnode]
    exact Tree.ext rfl (content_setStore _ _) rfl rfl
  generalize hd₂ : ({ d' with
    store := Function.update d'.store d.next (d.content (.ofBase oldname)) } : OverlayDrive) = d₂
  rw [hd₂] at hcopy htree₂
  have hbase₂ : d₂.base = d.base := by rw [← hd₂]; exact hmade.base
  have hstat₂ : d₂.stat = d'.stat := by rw [← hd₂]; rfl
  have hb₂ : d₂.IsBaseFile oldname := by
    rw [IsBaseFile, hbase₂]
    exact hb
  have hfile₂ : ∀ q m, q ≠ newname → d₂.stat q = some (.file m) → d.stat q = some (.file m) := by
    rw [hstat₂]
    exact hmade.stat_other
  -- nothing of the overlay is in the way of the special file
  have hlead : ∀ q ∈ leadingDirs oldname,
      d₂.base q = some .dir ∧ ∀ m, d₂.stat q ≠ some (.file m) := by
    intro q hq
    obtain ⟨hbq, hfile⟩ := leading_of_visible h hw (by simp [hold]) hb.ne_none q hq
    refine ⟨by rw [hbase₂]; exact hbq, fun m hm => hfile m (hfile₂ q m ?_ hm)⟩
    rintro rfl
    have hdir := leading_seen hw (p := oldname) (by simp [hold]) hq
    exact absurd (hnew.symm.trans hdir) (by simp)
  have hseen : d₂.view oldname = some (.file (.ofBase oldname)) := by
    rw [show d₂.view oldname = d₂.tree.node oldname from rfl, htree₂]
    exact (Function.update_of_ne hne ..).trans hold
  have hs₂ : d₂.stat oldname = none := (hcopy.isBaseFile_of_view hseen).1
  obtain ⟨hsound₃, hkeeps, htree₃⟩ := hcopy.add_deleted_file hb₂ hlead
  rw [if_pos hs₂, htree₂] at htree₃
  have hself : d₂.stat newname = some (.file d.next) := by
    rw [hstat₂]
    exact hmade.stat_self
  obtain ⟨hsound, hbase, htree⟩ := afterRename_spec hsound₃ (hkeeps.file _ _ hself)
  refine ⟨_, rfl, hsound, hbase.trans (hkeeps.base.trans hbase₂), fun hok => absurd hok (by simp),
    fun _ => .inr ⟨oldname, hold, ?_, ?_⟩⟩
  · exact ⟨⟨_, Tree.relabel_node_self (t := d.tree) hold⟩, Tree.relabel_node_dir.mpr hparent,
      fun hdir => absurd (hnew.symm.trans (Tree.relabel_node_dir.mp hdir)) (by simp)⟩
  · rw [htree, htree₃]
    simp only [Tree.apply, if_neg hne]
    rw [Tree.relabel_node_self (t := d.tree) hold, relabel_ofBase hold hheld]
    change ((d.tree.alloc.setNode newname _).setNode oldname none).setContent (.made d.next) _ =
      (((d.tree.alloc.setNode oldname _).setNode newname _).setNode oldname none).setContent
        (.made d.next) _
    rw [Tree.setNode_comm _ hne, Tree.setNode_setNode]
    rfl

theorem rename_follows (h : d.Sound) (hw : d.tree.Wf) (hfine : d.Fine (.Rename oldname newname)) :
    ∃ r, d.Rename oldname newname = some r ∧ Follows d (.rename oldname newname) r := by
  obtain ⟨hexists, hnotfile, hnotdir, hparent, hheld⟩ := hfine
  have hnew : d.view newname = none := by
    rcases hview : d.view newname with _ | _ | i
    · rfl
    · rw [h.testDir_iff.mpr hview] at hnotdir
      exact absurd hnotdir (by simp)
    · rw [h.fileExists_iff.mpr ⟨i, hview⟩] at hnotfile
      exact absurd hnotfile (by simp)
  have hparent' : d.stat newname.dropLast = some .dir ∨ d.base newname.dropLast = some .dir →
      d.view newname.dropLast = some .dir := by
    intro hdir
    by_contra hview
    have htest : d.TestDir newname.dropLast = false := Bool.eq_false_iff.mpr fun htest =>
      hview (h.testDir_iff.mp htest)
    exact hdir.elim (hparent htest).1 (hparent htest).2
  rcases hs : d.stat oldname with _ | _ | n
  · have hfrom : d.FromBase oldname := ⟨hs, hexists⟩
    exact rename_base_follows h hw (h.fromBase_iff.mp hfrom) hnew hparent' (hheld hfrom)
  · obtain ⟨i, hi⟩ := h.fileExists_iff.mp hexists
    rw [view_overlay_dir hs] at hi
    split at hi <;> exact absurd hi (by simp)
  · exact rename_overlay_follows h hw hs hnew fun hdir => hparent' (.inl hdir)

/-! ## Runs -/

/-- What a call of the drive does to the tree that is seen. -/
theorem step_follows {call : DriveCall} (h : d.Sound) (hw : d.tree.Wf) (hfine : d.Fine call) :
    Ends (d.step call) (Follows d call.toCall) := by
  cases call with
  | FileCreate name n =>
    unfold step
    refine Ends.ite (fun hfree => ends_some ?_) fun _ => ends_some (follows_failed h)
    exact fileCreate_follows h hw hfree hfine
  | FileOpen name flags n =>
    unfold step
    refine Ends.ite (fun hfree => ends_some ?_) fun _ => ends_some (follows_failed h)
    exact fileOpen_follows h hfree
  | Read n k => exact ends_some (read_follows h)
  | Write n data => exact ends_some (write_follows h hfine)
  | Seek n pos => exact ends_some (seek_follows h)
  | Close n => exact ends_some (close_follows h hfine)
  | FileUnlink name => exact ends_some (unlink_follows h hw hfine)
  | Rename oldname newname => exact rename_follows h hw hfine
  | MakeDir dir => exact ends_some (mkdir_follows h hfine)
  | RemoveDir dir listed => exact ends_some (rmdir_follows h hw hfine)

/-- What a call does to the tree that is seen, it does to every tree like it. -/
theorem Follows.like {call : Call String UInt8} {r : OverlayDrive × Bool} (h : Follows d call r)
    (hw : d.tree.Wf) (hlike : Like link known d.tree t) :
    r.1.tree.Wf ∧ ∃ t' link' known', Like link' known' r.1.tree t' ∧
      (r.2 = false → t' = t) ∧ (r.2 = true → t.Can call ∧ t' = t.apply call) := by
  rcases hok : r.2 with _ | _
  · rw [h.failed hok]
    exact ⟨hw, t, link, known, hlike, fun _ => rfl, fun hno => absurd hno (by simp)⟩
  · rcases h.done hok with ⟨hcan, htree⟩ | ⟨p, hview, hcan, htree⟩
    · obtain ⟨link', known', hlike'⟩ := hlike.apply hcan
      rw [htree]
      exact ⟨hw.apply hcan, _, link', known', hlike', fun hno => absurd hno (by simp),
        fun _ => ⟨hlike.can hcan, rfl⟩⟩
    · have hrelabel := hlike.relabel (hlike.node_known p _ hview)
      obtain ⟨link', known', hlike'⟩ := hrelabel.apply hcan
      rw [htree]
      exact ⟨(hw.relabel _).apply hcan, _, link', known', hlike', fun hno => absurd hno (by simp),
        fun _ => ⟨hrelabel.can hcan, rfl⟩⟩

/-- Each call is one that is carried out as it should be, when its turn comes. -/
def Complies : OverlayDrive → List DriveCall → Prop
  | _, [] => True
  | d, call :: calls => d.Fine call ∧ ∀ r, d.step call = some r → r.1.Complies calls

/-- A run is one of a tree, as long as the calls comply.  The induction is on the calls. -/
theorem run_like {calls : List DriveCall} (h : d.Sound) (hw : d.tree.Wf)
    (hlike : Like link known d.tree t) (hc : d.Complies calls) :
    Ends (d.run calls) fun r => r.1.Sound ∧ r.1.tree.Wf ∧ r.1.base = d.base ∧
      ∃ t' link' known', t.Performs (r.2.map DriveCall.toCall) t' ∧
        Like link' known' r.1.tree t' := by
  induction calls generalizing d link known t with
  | nil => exact ends_some ⟨h, hw, rfl, t, link, known, rfl, hlike⟩
  | cons call calls ih =>
    obtain ⟨r, hstep, hfollows⟩ := step_follows h hw hc.1
    obtain ⟨hw', t', link', known', hlike', hfailed, hdone⟩ := hfollows.like hw hlike
    unfold run
    rw [hstep]
    refine (ih hfollows.sound hw' hlike' (hc.2 r hstep)).map ?_
    rintro ⟨d'', calls'⟩ ⟨hsound, hwf, hbase, t'', link'', known'', hperforms, hlike''⟩
    refine ⟨hsound, hwf, hbase.trans hfollows.base, t'', link'', known'', ?_, hlike''⟩
    rcases hok : r.2 with _ | _
    · rw [hfailed hok] at hperforms
      exact hperforms
    · obtain ⟨hcan, rfl⟩ := hdone hok
      exact ⟨hcan, hperforms⟩

/-! ## Answers -/

/-- An ordinary tree that is a copy of the base. -/
def copyOf (base : DosPath → Option BaseNode) : Tree String UInt8 where
  node p := (base p).map fun
    | .dir => .dir
    | .file _ _ => .file (.ofBase p)
  content
    | .ofBase p =>
      match base p with
      | some (.file content _) => content
      | _ => []
    | .made _ => []
  files _ := none
  next := 0

/-- The drive answers as a tree, about every path and every file. -/
structure Answers (d : OverlayDrive) (t : Tree String UInt8) : Prop where
  fileExists : ∀ p, d.FileExists p = true ↔ ∃ i, t.node p = some (.file i)
  testDir : ∀ p, d.TestDir p = true ↔ t.node p = some .dir
  fileOpen : ∀ p flags h, flags ≠ .invalid →
    ((d.FileOpen p flags h).2 = true ↔ ∃ i, t.node p = some (.file i))
  read : ∀ h n, (d.Read h n).2 =
    (t.files h).bind fun o => if o.readable then some (t.readBytes o n) else none
  /-- A file that is opened now has the content that it has in the tree. -/
  reads : ∀ p flags h i n, flags ≠ .invalid → flags.readable = true →
    t.node p = some (.file i) → ((d.FileOpen p flags h).1.Read h n).2 = some ((t.content i).take n)
  /-- Nothing is seen below what is not a directory. -/
  below : ∀ p q, p <+: q → p ≠ q → d.TestDir p = false →
    d.FileExists q = false ∧ d.TestDir q = false

theorem fileOpen_eq {flags : OpenFlags} {h : ℕ} (hflags : flags ≠ .invalid) :
    (d.FileOpen p flags h).2 = d.FileExists p := by
  unfold FileOpen FileExists
  rw [if_neg hflags]
  rcases d.stat p with _ | _ | n <;> dsimp only <;> split <;> try rfl
  all_goals
    split
    · rename_i hexists
      exact hexists.symm
    · rename_i hexists
      exact (Bool.not_eq_true _ ▸ hexists).symm

/-- What a file has when it has just been opened. -/
theorem fileOpen_reads {flags : OpenFlags} {h n : ℕ} {i : Inode String} (hd : d.Sound)
    (hflags : flags ≠ .invalid) (hmode : flags.readable = true) (hview : d.view p = some (.file i))
    :
    ((d.FileOpen p flags h).1.Read h n).2 = some ((d.content i).take n) := by
  have hread : ∀ f : OverlayFile, f.file_handle = i → f.pos = 0 → f.flags = flags →
      ((d.setFile h (some f)).Read h n).2 = some ((d.content i).take n) := by
    intro f hhandle hpos hf
    have hfile : (d.setFile h (some f)).Files h = some f := Function.update_self ..
    have hopen : f.flags ≠ .OPEN_WRITE := by
      rw [hf]
      simpa [OpenFlags.readable] using hmode
    unfold Read
    rw [hfile]
    dsimp only
    rw [if_neg hopen, hhandle, hpos]
    rfl
  rcases hs : d.stat p with _ | _ | m
  · -- the file of the base
    have hfrom : d.FromBase p := ⟨hs, hd.fileExists_iff.mpr ⟨i, hview⟩⟩
    have hbase := hd.fromBase_iff.mp hfrom
    obtain rfl : i = .ofBase p := by simpa using hview.symm.trans hbase
    have hb := (hd.isBaseFile_of_view hbase).2
    have hdel : ¬d.is_deleted_file p = true := by
      intro hdel
      rw [view_base_file hs hb, if_pos hdel] at hview
      exact absurd hview (by simp)
    unfold FileOpen
    rw [if_neg hflags]
    simp only [hs]
    rw [if_neg hdel, if_pos (baseFileExists_iff.mpr hb)]
    exact hread _ rfl rfl rfl
  · rw [view_overlay_dir hs] at hview
    split at hview <;> exact absurd hview (by simp)
  · obtain rfl : i = .made m := by simpa using hview.symm.trans (view_overlay_file hs)
    unfold FileOpen
    rw [if_neg hflags]
    simp only [hs]
    exact hread _ rfl rfl rfl

/-- A drive answers as every tree like the one that is seen. -/
theorem answers (h : d.Sound) (hw : d.tree.Wf) (hlike : Like link known d.tree t) :
    d.Answers t := by
  have hfile : ∀ p, (∃ i, d.view p = some (.file i)) ↔ ∃ i, t.node p = some (.file i) := by
    intro p
    rw [hlike.node p]
    change _ ↔ ∃ i, (d.view p).map _ = _
    rcases d.view p with _ | _ | i <;> simp [Node.map]
  constructor
  case fileExists => exact fun p => h.fileExists_iff.trans (hfile p)
  case testDir => exact fun p => h.testDir_iff.trans hlike.node_dir.symm
  case fileOpen =>
    intro p flags n hflags
    rw [fileOpen_eq hflags]
    exact h.fileExists_iff.trans (hfile p)
  case read =>
    intro n k
    rw [hlike.files n]
    unfold Read
    rcases hf : d.Files n with _ | f
    · rw [show d.tree.files n = none from Option.map_eq_none_iff.mpr hf]
      rfl
    · have ho := tree_files hf
      rw [ho]
      dsimp only
      simp only [Option.map_some, Option.bind_some, OpenFile.map, Tree.readBytes]
      rw [hlike.content _ (hlike.files_known n _ ho)]
      by_cases hflags : f.flags = .OPEN_WRITE
      · rw [if_pos hflags, if_neg]
        simp [OverlayFile.toOpen, OpenFlags.readable, hflags]
      · rw [if_neg hflags, if_pos]
        · rfl
        · simpa [OverlayFile.toOpen, OpenFlags.readable] using hflags
  case reads =>
    intro p flags n i k hflags hmode hi
    obtain ⟨j, hj⟩ := (hfile p).mpr ⟨i, hi⟩
    have hij : i = link j := by simpa [hi] using hlike.node_file hj
    rw [fileOpen_reads h hflags hmode hj, hij, hlike.content j (hlike.node_known p j hj)]
    rfl
  case below =>
    intro p q hq hne hdir
    have hnone : d.view q = none := by
      by_contra hseen
      rw [h.testDir_iff.mpr (Tree.above_of_parent hw.parent hseen hq hne)] at hdir
      exact absurd hdir (by simp)
    refine ⟨Bool.eq_false_iff.mpr fun hexists => ?_, Bool.eq_false_iff.mpr fun htest => ?_⟩
    · obtain ⟨i, hi⟩ := h.fileExists_iff.mp hexists
      exact absurd (hnone.symm.trans hi) (by simp)
    · exact absurd (hnone.symm.trans (h.testDir_iff.mp htest)) (by simp)

/-! ## From the mount on -/

section

variable {base : DosPath → Option BaseNode}

theorem mount_stat {p : DosPath} (hp : p ≠ []) : (mount base).stat p = none := by
  rw [stat_lookup hp]
  rfl

/-- In the overlay there is the root only. -/
theorem mount_stat_some {p : DosPath} {x : OverlayNode} (h : (mount base).stat p = some x) :
    p = [] ∧ x = .dir := by
  by_cases hp : p = []
  · subst hp
    exact ⟨rfl, (Option.some.inj h).symm⟩
  · rw [mount_stat hp] at h
    exact absurd h (by simp)

/-- When the drive is mounted, the base is what is seen. -/
theorem tree_mount (hroot : base [] = some .dir) : (mount base).tree = copyOf base := by
  refine Tree.ext (funext fun p => ?_) (funext fun i => ?_) rfl rfl
  · change (mount base).view p = (base p).map _
    by_cases hp : p = []
    · subst hp
      rw [hroot]
      exact Sound.view_dir_of_stat stat_root rfl
    · have hs : (mount base).stat p = none := mount_stat hp
      rcases hb : base p with _ | _ | ⟨content, archive⟩
      · exact view_none hs hb
      · rw [view_base_dir hs hb]
        simp [is_deleted_path, mount]
      · rw [view_base_file hs ⟨content, archive, hb⟩]
        simp [is_deleted_file, mount]
  · cases i <;> rfl

theorem sound_mount (hroot : base [] = some .dir)
    (hparent : ∀ p, base p ≠ none → base p.dropLast = some .dir) : (mount base).Sound where
  base_root := hroot
  base_parent := hparent
  overlay_parent := by
    intro p hp
    obtain ⟨x, hx⟩ := Option.ne_none_iff_exists'.mp hp
    obtain ⟨rfl, -⟩ := mount_stat_some hx
    rfl
  hidden_dir := fun p n hn => absurd (mount_stat_some hn).2 (by simp)
  hidden_file := by
    intro p hp hb
    obtain ⟨rfl, -⟩ := mount_stat_some hp
    exact absurd hroot hb.ne_dir
  dirs_cache := by
    intro p
    refine ⟨fun hp => absurd hp List.not_mem_nil, ?_⟩
    rintro ⟨hp, hb⟩
    obtain ⟨rfl, -⟩ := mount_stat_some hp
    exact absurd hroot hb
  deleted_dir := fun p hp => absurd hp List.not_mem_nil
  path_special := fun p hp => absurd hp List.not_mem_nil
  special_path := fun p hp => absurd hp List.not_mem_nil
  special_file := fun p hp => absurd hp List.not_mem_nil
  file_special := fun p _ => ⟨fun hp => absurd hp List.not_mem_nil, fun hp => absurd hp List.not_mem_nil⟩
  nodup_files := List.nodup_nil
  nodup_paths := List.nodup_nil
  nodup_dirs := List.nodup_nil
  overlay_older := fun p n hn => absurd (mount_stat_some hn).2 (by simp)
  open_older := fun h f hf => absurd hf (by simp [mount])
  open_base := fun h f p hf => absurd hf (by simp [mount])
  open_made := fun h f n hf => absurd hf (by simp [mount])
  open_flags := fun h f hf => absurd hf (by simp [mount])

theorem copyOf_wf (hroot : base [] = some .dir)
    (hparent : ∀ p, base p ≠ none → base p.dropLast = some .dir) : (copyOf base).Wf where
  root := by
    change (base []).map _ = _
    rw [hroot]
    rfl
  parent := by
    intro p hp
    change (base p.dropLast).map _ = _
    rw [hparent p fun hnone => hp (Option.map_eq_none_iff.mpr hnone)]
    rfl

/-- At the beginning all files are those of the base. -/
theorem copyOf_like :
    Like id { i | i.Older (copyOf base).next } (copyOf base) (copyOf base) := by
  refine Like.refl (fun p i hi => ?_) fun h o ho => absurd ho (by simp [copyOf])
  change (base p).map _ = _ at hi
  rcases hb : base p with _ | _ | ⟨content, archive⟩
  · rw [hb] at hi
    exact absurd hi (by simp)
  · rw [hb] at hi
    exact absurd hi (by simp)
  · rw [hb] at hi
    obtain rfl : Inode.ofBase p = i := by simpa using hi
    trivial

end

/-- **An overlay drive answers as one writable tree.**  After any calls that are carried out
as they should be, the base is as it was, and the drive answers as an ordinary tree that
started as a copy of the base and underwent the calls that have succeeded. -/
theorem run_refines (base : DosPath → Option BaseNode) (calls : List DriveCall)
    (hroot : base [] = some .dir) (hparent : ∀ p, base p ≠ none → base p.dropLast = some .dir)
    (hc : (mount base).Complies calls) :
    Ends ((mount base).run calls) fun r => r.1.base = base ∧
      ∃ t, (copyOf base).Performs (r.2.map DriveCall.toCall) t ∧ r.1.Answers t := by
  have hlike : Like id { i | i.Older (copyOf base).next } (mount base).tree (copyOf base) := by
    rw [tree_mount hroot]
    exact copyOf_like
  have hw : (mount base).tree.Wf := by
    rw [tree_mount hroot]
    exact copyOf_wf hroot hparent
  refine (run_like (sound_mount hroot hparent) hw hlike hc).mono ?_
  rintro r ⟨hsound, hwf, hbase, t, link, known, hperforms, hlike'⟩
  exact ⟨hbase, t, hperforms, answers hsound hwf hlike'⟩

/-- A base with one file in the root. -/
def oneFile : DosPath → Option BaseNode
  | [] => some .dir
  | ["F"] => some (.file [1, 2, 3] true)
  | _ => none

theorem oneFile_parent : ∀ p, oneFile p ≠ none → oneFile p.dropLast = some .dir := by
  intro p hp
  unfold oneFile at hp
  split at hp
  · rfl
  · rfl
  · exact absurd rfl hp

/-- A file of the base is opened, written to, closed and removed. -/
def oneFileCalls : List DriveCall :=
  [.FileOpen ["F"] .OPEN_READWRITE 0, .Write 0 [7], .Close 0, .FileUnlink ["F"]]

theorem oneFile_complies : (mount oneFile).Complies oneFileCalls := by
  refine ⟨trivial, fun r hr => ?_⟩
  obtain rfl := Option.some.inj hr
  refine ⟨?_, fun r hr => ?_⟩
  · intro f hf _ _
    obtain rfl := Option.some.inj hf
    refine ⟨⟨rfl, rfl⟩, fun h ⟨g, hg, _⟩ => ?_⟩
    by_contra hne
    have hclosed : Function.update (mount oneFile).Files 0
        (some ⟨["F"], true, .ofBase ["F"], 0, .OPEN_READWRITE, false, false⟩) h = none :=
      Function.update_of_ne hne ..
    exact absurd (hclosed.symm.trans hg) (by simp)
  obtain rfl := Option.some.inj hr
  refine ⟨?_, fun r hr => ?_⟩
  · intro f hf _ _
    obtain rfl := Option.some.inj hf
    exact ⟨_, rfl⟩
  obtain rfl := Option.some.inj hr
  refine ⟨?_, fun _ _ => trivial⟩
  intro _ hb
  exact absurd hb (by decide)

theorem run_refines_oneFile :
    (oneFile [] = some .dir ∧ ∀ p, oneFile p ≠ none → oneFile p.dropLast = some .dir) ∧
      (mount oneFile).Complies oneFileCalls ∧
      Ends ((mount oneFile).run oneFileCalls) fun r => r.1.base = oneFile ∧
        ∃ t, (copyOf oneFile).Performs (r.2.map DriveCall.toCall) t ∧ r.1.Answers t :=
  ⟨⟨rfl, oneFile_parent⟩, oneFile_complies,
    run_refines oneFile oneFileCalls rfl oneFile_parent oneFile_complies⟩

/-- A base with a directory in a directory. -/
def nested : DosPath → Option BaseNode
  | [] => some .dir
  | ["D"] => some .dir
  | ["D", "S"] => some .dir
  | _ => none

/-- Both directories are removed, a file is renamed, and the outer one is made again. -/
def bringBack : List DriveCall :=
  [.RemoveDir ["D", "S"] (some []), .RemoveDir ["D"] (some ["S"]), .FileCreate ["A"] 0, .Close 0,
    .Rename ["A"] ["B"], .MakeDir ["D"]]

/-- **A directory that has been removed comes back with its parent.**  `Rename` reads the
lists again, and a removed directory in a removed directory is then no longer on them. -/
theorem run_not_refined :
    nested [] = some .dir ∧ (∀ p, nested p ≠ none → nested p.dropLast = some .dir) ∧
      ∃ d, (mount nested).run bringBack = some (d, bringBack) ∧ d.TestDir ["D", "S"] = true ∧
        ∀ t, (copyOf nested).Performs (bringBack.map DriveCall.toCall) t → ¬d.Answers t := by
  have hcalls : ((mount nested).run bringBack).map Prod.snd = some bringBack := by decide
  have htest : (((mount nested).run bringBack).map fun r => r.1.TestDir ["D", "S"]) = some true := by
    decide
  refine ⟨rfl, fun p hp => ?_, ?_⟩
  · unfold nested at hp
    split at hp
    · rfl
    · rfl
    · rfl
    · exact absurd rfl hp
  · obtain ⟨⟨d, calls⟩, hrun, hdone⟩ := Option.map_eq_some_iff.mp hcalls
    obtain rfl : calls = bringBack := hdone
    rw [hrun] at htest
    have htest' : d.TestDir ["D", "S"] = true := by simpa using htest
    refine ⟨d, hrun, htest', fun t ht hanswers => ?_⟩
    -- on the tree the directory has gone for good
    obtain ⟨-, -, -, -, -, -, rfl⟩ := ht
    have hdir := (hanswers.testDir ["D", "S"]).mp htest'
    revert hdir
    decide

end OverlayDrive

end AugraDosbox
