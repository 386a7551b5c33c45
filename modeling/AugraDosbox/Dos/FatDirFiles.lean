import AugraDosbox.Dos.FatDirCalls

/-!
# New files

* `found_new` — what a search finds after a new entry has been written;
* `Unseen`, `reopened_iff` — a new file that is not found by its path;
* `Kept` — the table and the entries are as before; `kept_of_added_iff` — what a new entry leaves
  behind;
* `newFile_spec` — a new entry and the search for it;
* **`Rename_spec`**, **`FileCreate_spec`** — calls that fail have changed nothing, except where
  `RenameTraces` and `CreateTraces` say so.
-/

namespace AugraDosbox.Fat

open ByteMemory FirstMatch

/-- The entries with such a name count as deleted. -/
def Name83.MarksDeleted (n : Name83) : Prop := n.entryname[0]? = some 0xe5

namespace Tree

variable {v : Volume} {disk : Disk} {t : Tree v disk} {c c' i fuel : ℕ} {n : Name83}
  {names rest : List Name83} {e x : Direntry} {d d' : Drive} {attrs : UInt8} {L : List ℕ}
  {es : List Direntry}

/-! ## New entries -/

theorem isDeleted_of_name (hname : x.entryname = n.entryname) :
    x.isDeleted = true ↔ n.MarksDeleted := by
  rw [Direntry.isDeleted, hname, Name83.MarksDeleted, decide_eq_true_iff,
    Vector.getElem?_eq_getElem (by decide), Option.some_inj]

theorem isFound_of_name (hname : x.entryname = n.entryname) :
    Volume.isFound attrs (searchPattern n.text) x = true ↔
      ¬ n.MarksDeleted ∧ Volume.passes attrs x = true := by
  have hmatch : wild_file_cmp (findName x.entryname) (searchPattern n.text) = true := by
    rw [hname]
    exact (matches_iff (.name n)).2 rfl
  rw [Volume.isFound, hmatch, Bool.and_true, Bool.and_eq_true, Bool.not_eq_true',
    ← isDeleted_of_name hname, Bool.not_eq_true]

/-- **What a search finds** after a new entry with the name has been written: the new entry when
no other one with this name is in front of it. -/
theorem found_new (hc : t.isDir c) (hname : x.entryname = n.entryname)
    (hattrs : ∀ e, Volume.passes attrs e = true → e.has FatAttributeFlags.Volume = false) :
    ((¬ n.MarksDeleted ∧ Volume.passes attrs x = true ∧
        ∀ e i, Named (t.entries c) n e i → Volume.passes attrs e = true →
          firstFree (t.entries c) ≤ i) ∧
      Volume.found (insertAt (t.entries c) (firstFree (t.entries c)) x) attrs n.text
        = some (x, firstFree (t.entries c))) ∨
    ((n.MarksDeleted ∨ Volume.passes attrs x = false ∨
        ∃ e i, Named (t.entries c) n e i ∧ Volume.passes attrs e = true ∧
          i < firstFree (t.entries c)) ∧
      Volume.found (insertAt (t.entries c) (firstFree (t.entries c)) x) attrs n.text
        = Volume.found (t.entries c) attrs n.text) := by
  have hold : ∀ b, (t.entries c)[firstFree (t.entries c)]? = some b →
      Volume.isFound attrs (searchPattern n.text) b = false := by
    intro b hb
    rw [Volume.isFound, Volume.isDeleted_firstFree hb]
    rfl
  have hfirst := firstMatch_insertAt (a := x) (firstFree_le (t.entries c)) hold
  -- the entries in front of the new one
  have hfront : (∀ j < firstFree (t.entries c), ∀ b, (t.entries c)[j]? = some b →
      Volume.isFound attrs (searchPattern n.text) b = false) ↔
      ∀ e i, Named (t.entries c) n e i → Volume.passes attrs e = true →
        firstFree (t.entries c) ≤ i := by
    constructor
    · intro hno e i hnamed hpasses
      by_contra hlt
      have hnot := hno i (by omega) e hnamed.get
      rw [(isFound_iff hc hnamed.get (hattrs e)).2 ⟨hnamed, hpasses⟩] at hnot
      cases hnot
    · intro hno j hj b hb
      rw [Bool.eq_false_iff]
      intro hfound
      obtain ⟨hnamed, hpasses⟩ := (isFound_iff hc hb (hattrs b)).1 hfound
      have hle := hno b j hnamed hpasses
      omega
  split_ifs at hfirst with hall
  · obtain ⟨⟨hlive, hpasses⟩, hno⟩ := and_congr (isFound_of_name hname) hfront |>.1 hall
    exact .inl ⟨⟨hlive, hpasses, hno⟩, hfirst⟩
  · rw [isFound_of_name hname, hfront] at hall
    refine .inr ⟨?_, hfirst⟩
    by_contra hnone
    push Not at hnone
    exact hall ⟨⟨hnone.1, Bool.eq_true_of_not_eq_false hnone.2.1⟩, hnone.2.2⟩

/-- A new entry that `getFileDirEntry` does not find by its path: it counts as deleted or is a
label, or the search goes on in a directory with the same name. -/
def Unseen (t : Tree v disk) (c : ℕ) (n : Name83) (x : Direntry) : Prop :=
  n.MarksDeleted ∨ x.has FatAttributeFlags.Volume = true ∨
    ∃ e i, Named (t.entries c) n e i ∧ e.IsPlainDir ∧
      (x.has FatAttributeFlags.Hidden = true ∨ x.has FatAttributeFlags.System = true ∨
        i < firstFree (t.entries c))

/-- A directory without a file of the name. -/
theorem found_file_eq_none (hc : t.isDir c)
    (hno : ∀ e i, Named (t.entries c) n e i → e.has FatAttributeFlags.Directory = true) :
    Volume.found (t.entries c) (fileAttributes false) n.text = none := by
  cases hfound : Volume.found (t.entries c) (fileAttributes false) n.text with
  | none => rfl
  | some y =>
    obtain ⟨hnamed, hpasses⟩ := (found_iff (i := y.2) hc no_label_of_file).1 hfound
    exact absurd ((passes_fileAttributes.1 hpasses).2 (hno _ _ hnamed)) (by decide)

/-- The new entry is not found behind a directory of the same name. -/
theorem found_new_file_iff (hc : t.isDir c) (hname : x.entryname = n.entryname)
    (hfile : x.has FatAttributeFlags.Directory = false)
    (hno : ∀ e i, Named (t.entries c) n e i → e.has FatAttributeFlags.Directory = true) :
    Volume.found (insertAt (t.entries c) (firstFree (t.entries c)) x) (fileAttributes false) n.text
      = none ↔ n.MarksDeleted ∨ x.has FatAttributeFlags.Volume = true := by
  have hpasses : Volume.passes (fileAttributes false) x = true ↔
      x.has FatAttributeFlags.Volume = false := by
    rw [passes_fileAttributes, hfile]
    simp
  have hnot : ∀ e i, Named (t.entries c) n e i → Volume.passes (fileAttributes false) e = false :=
    fun e i hnamed => Bool.eq_false_iff.2 fun h =>
      absurd ((passes_fileAttributes.1 h).2 (hno e i hnamed)) (by decide)
  rcases found_new hc hname (@no_label_of_file false) with
    ⟨⟨hlive, hpass, -⟩, hfound⟩ | ⟨hwhy, hfound⟩
  · rw [hfound]
    refine iff_of_false (by simp) ?_
    rintro (hdeleted | hlabel)
    · exact hlive hdeleted
    · rw [hpasses.1 hpass] at hlabel
      cases hlabel
  · rw [hfound]
    refine iff_of_true (found_file_eq_none hc hno) ?_
    rcases hwhy with hdeleted | hpass | ⟨e, i, hnamed, hpass, -⟩
    · exact .inl hdeleted
    · refine .inr ?_
      rw [← Bool.not_eq_false, ← hpasses, hpass]
      decide
    · rw [hnot e i hnamed] at hpass
      cases hpass

/-- **When a new file is not found** by its path. -/
theorem reopened_iff (hleads : t.Leads 0 names c) (hnew : ∀ r, ¬ t.Opens (names ++ [n]) r)
    (hname : x.entryname = n.entryname) (hfile : x.has FatAttributeFlags.Directory = false)
    (hd : v.Coherent d)
    (hothers : ∀ y, t.isDir y → y ≠ c → v.Holds d.disk y (t.chain y) (t.entries y))
    (hadded : v.Holds d.disk c L (insertAt (t.entries c) (firstFree (t.entries c)) x))
    (hlen : (pathText (names ++ [n])).length < DOS_PATHLENGTH) :
    ∃ res d', Reads v d d' ∧ (res = none ↔ t.Unseen c n x) ∧ ∃ N, ∀ fuel ≥ N,
      v.getFileDirEntry fuel (pathText (names ++ [n])) false d = some (res, d') := by
  have hc : t.isDir c := (hleads.isDir t.root).1
  have hsame : ∀ y, t.isDir y → t.depth y < t.depth c →
      v.Holds d.disk y (t.chain y) (t.entries y) := by
    intro y hy hlt
    refine hothers y hy ?_
    rintro rfl
    exact lt_irrefl _ hlt
  have hpasses : Volume.passes FatAttributeFlags.Directory x = false →
      x.has FatAttributeFlags.Volume = true ∨ x.has FatAttributeFlags.Hidden = true ∨
        x.has FatAttributeFlags.System = true := by
    intro hpass
    by_contra hnone
    push Not at hnone
    rw [passes_directory.2 (by simpa using hnone)] at hpass
    cases hpass
  by_cases hdir : ∃ e i, Named (t.entries c) n e i ∧ e.IsPlainDir
  · obtain ⟨e, i, hnamed, hplain⟩ := hdir
    obtain ⟨hchild, hlt⟩ := t.child c hc n e i hnamed hplain.1
    have hne : e.loFirstClust.toNat ≠ c := by
      rintro heq
      rw [heq] at hlt
      exact lt_irrefl _ hlt
    -- no file of the name is in that directory
    have hno : ∀ f j, Named (t.entries e.loFirstClust.toNat) n f j →
        f.has FatAttributeFlags.Directory = true := by
      intro f j hin
      by_contra hflag
      exact hnew (f, e.loFirstClust.toNat, j) ⟨_, n,
        hleads.stops (.inside rfl hnamed hplain), rfl, hin, fun h => absurd h hflag⟩
    have hfinds : Volume.found (t.entries c) FatAttributeFlags.Directory n.text = some (e, i) :=
      (found_iff hc no_label_of_directory).2
        ⟨hnamed, passes_directory.2 ⟨hnamed.no_label, hplain.2⟩⟩
    rcases found_new hc hname no_label_of_directory with
      ⟨⟨hlive, hpass, hfirst⟩, hfound⟩ | ⟨hwhy, hfound⟩
    · -- the new entry is found in front of the directory
      have hlast : lastDir (insertAt (t.entries c) (firstFree (t.entries c)) x) c n = c := by
        rw [lastDir, hfound]
        simp [hfile]
      obtain ⟨res, d', hreads, hres, hrun⟩ := getFileDirEntry_of_leads hleads hd hsame hadded
        (by rw [hlast]; exact hadded) hlen
      obtain ⟨hlabel, hhidden, hsystem⟩ := passes_directory.1 hpass
      have hle := hfirst e i hnamed (passes_directory.2 ⟨hnamed.no_label, hplain.2⟩)
      refine ⟨res, d', hreads, ?_, hrun⟩
      rw [hres, found_new_file_iff hc hname hfile ?_]
      · refine iff_of_false ?_ ?_
        · rintro (h | h)
          · exact hlive h
          · rw [hlabel] at h
            cases h
        · rintro (h | h | ⟨e', i', hnamed', -, h | h | h⟩)
          · exact hlive h
          · rw [hlabel] at h
            cases h
          · rw [hhidden] at h
            cases h
          · rw [hsystem] at h
            cases h
          · have hsame' := (eq_of_named hc hnamed hnamed').1
            omega
      · intro f j hin
        rw [← (eq_of_named hc hnamed hin).2]
        exact hplain.1
    · -- the search goes on in the directory
      have hlast : lastDir (insertAt (t.entries c) (firstFree (t.entries c)) x) c n
          = e.loFirstClust.toNat := by
        rw [lastDir, hfound, hfinds]
        simp [hplain.1]
      obtain ⟨res, d', hreads, hres, hrun⟩ := getFileDirEntry_of_leads hleads hd hsame hadded
        (by rw [hlast]; exact hothers _ hchild hne) hlen
      refine ⟨res, d', hreads, ?_, hrun⟩
      rw [hres]
      refine iff_of_true (found_file_eq_none hchild hno) ?_
      rcases hwhy with hdeleted | hpass | ⟨e', i', hnamed', -, hlt'⟩
      · exact .inl hdeleted
      · rcases hpasses hpass with hlabel | hhidden | hsystem
        · exact .inr (.inl hlabel)
        · exact .inr (.inr ⟨e, i, hnamed, hplain, .inl hhidden⟩)
        · exact .inr (.inr ⟨e, i, hnamed, hplain, .inr (.inl hsystem)⟩)
      · rw [← (eq_of_named hc hnamed hnamed').1] at hlt'
        exact .inr (.inr ⟨e, i, hnamed, hplain, .inr (.inr hlt')⟩)
  · -- the last search is in the directory itself
    have hstop : ∀ f j, Named (t.entries c) n f j → ¬ f.IsPlainDir :=
      fun f j hnamed hplain => hdir ⟨f, j, hnamed, hplain⟩
    have hno : ∀ f j, Named (t.entries c) n f j → f.has FatAttributeFlags.Directory = true := by
      intro f j hin
      by_contra hflag
      exact hnew (f, c, j) ⟨c, n, hleads.stops (.stop hstop), rfl, hin, fun h => absurd h hflag⟩
    have hnone : Volume.found (t.entries c) FatAttributeFlags.Directory n.text = none := by
      cases hfound : Volume.found (t.entries c) FatAttributeFlags.Directory n.text with
      | none => rfl
      | some y =>
        obtain ⟨hnamed, hpass⟩ := (found_iff (i := y.2) hc no_label_of_directory).1 hfound
        exact absurd ⟨hno _ _ hnamed, (passes_directory.1 hpass).2⟩ (hstop _ _ hnamed)
    have hlast : lastDir (insertAt (t.entries c) (firstFree (t.entries c)) x) c n = c := by
      rw [lastDir]
      rcases found_new hc hname no_label_of_directory with
        ⟨-, hfound⟩ | ⟨-, hfound⟩
      · rw [hfound]
        simp [hfile]
      · rw [hfound, hnone]
    obtain ⟨res, d', hreads, hres, hrun⟩ := getFileDirEntry_of_leads hleads hd hsame hadded
      (by rw [hlast]; exact hadded) hlen
    refine ⟨res, d', hreads, ?_, hrun⟩
    rw [hres, found_new_file_iff hc hname hfile hno]
    constructor
    · rintro (h | h)
      · exact .inl h
      · exact .inr (.inl h)
    · rintro (h | h | ⟨e, i, hnamed, hplain, -⟩)
      · exact .inl h
      · exact .inr h
      · exact absurd hplain (hstop e i hnamed)

/-! ## What is kept -/

/-- The entry at a position unless it has been deleted. -/
def live (es : List Direntry) (i : ℕ) : Option Direntry := es[i]?.filter fun e => !e.isDeleted

/-- The table and the entries of all directories are as they were. -/
structure Kept (t : Tree v disk) (disk' : Disk) : Prop where
  table : ∀ y, v.InTable y → v.fatValue disk' y = v.fatValue disk y
  entries : ∀ c, t.isDir c → ∀ i, live (v.entries disk' c (t.chain c)) i = live (t.entries c) i

theorem Kept.of_reads (hdisk : d.disk = disk) (h : Reads v d d') : t.Kept d'.disk := by
  rw [h.disk, hdisk]
  exact ⟨fun _ _ => rfl, fun _ _ _ => rfl⟩

theorem not_kept_of_used {m : ℕ} {disk' : Disk} (hs : v.Sound) (hfree : v.Free disk m)
    (hused : v.fatValue disk' m ≠ 0) : ¬ t.Kept disk' := by
  intro h
  rw [h.table m (hs.inTable m hfree.1)] at hused
  exact hused hfree.2

theorem live_insertAt (es : List Direntry) (x : Direntry) (i : ℕ) :
    live (insertAt es (firstFree es) x) i =
      if i = firstFree es then (if x.isDeleted then none else some x) else live es i := by
  rw [live, getElem?_insertAt (firstFree_le es)]
  split_ifs with hi hdeleted
  · simp [hdeleted]
  · simp [hdeleted]
  · rfl

theorem live_firstFree (es : List Direntry) : live es (firstFree es) = none := by
  rw [live, Option.filter_eq_none_iff]
  intro e he
  simp [Volume.isDeleted_firstFree he]

/-- **What a new entry leaves behind**: nothing is different when it has not been written, and
also when it counts as deleted and no cluster was needed for it. -/
theorem kept_of_added_iff {ok : Bool} (hs : v.Sound) (hc : t.isDir c) (hdisk : d.disk = disk)
    (h : v.Added c (t.chain c) (t.entries c) x d d' ok)
    (hothers : ∀ y, t.isDir y → y ≠ c → v.Holds d'.disk y (t.chain y) (t.entries y)) :
    t.Kept d'.disk ↔ ok = false ∨ (x.isDeleted = true ∧
      firstFree (t.entries c) < v.slots c (t.chain c)) := by
  cases h with
  | full _ _ hreads => exact iff_of_true (.of_reads hdisk hreads) (.inl rfl)
  | inside hroom htable hnew _ =>
    rw [hdisk] at htable
    constructor
    · intro hkept
      refine .inr ⟨?_, hroom⟩
      have hlive := hkept.entries c hc (firstFree (t.entries c))
      rw [hnew.entries, live_insertAt, if_pos rfl, live_firstFree] at hlive
      by_contra hnot
      rw [if_neg hnot] at hlive
      cases hlive
    · rintro (hok | ⟨hdeleted, -⟩)
      · cases hok
      · refine ⟨htable, fun y hy i => ?_⟩
        by_cases hyc : y = c
        · subst hyc
          rw [hnew.entries, live_insertAt]
          split_ifs with hi
          · rw [hi, live_firstFree]
          · rfl
        · rw [(hothers y hy hyc).entries]
  | longer hfull _ hfree hused _ _ =>
    rw [hdisk] at hfree
    refine iff_of_false (not_kept_of_used hs hfree hused) ?_
    rintro (hok | ⟨-, hroom⟩)
    · cases hok
    · omega

/-! ## Files -/

/-- A new entry that is not found afterwards and that is written, or needs a cluster. -/
def Traced (t : Tree v disk) (c : ℕ) (n : Name83) (x : Direntry) : Prop :=
  t.Unseen c n x ∧
    ((¬ n.MarksDeleted ∧ firstFree (t.entries c) < v.slots c (t.chain c)) ∨
      (v.slots c (t.chain c) ≤ firstFree (t.entries c) ∧ c ≠ 0 ∧ ∃ m, v.Free disk m))

/-- **A new file**: when it is not found afterwards, everything is as it was, except where
`Traced` says so. -/
theorem newFile_spec (h : t.Tidy) (hd : v.Coherent d) (hdisk : d.disk = disk)
    (hleads : t.Leads 0 names c) (hnew : ∀ r, ¬ t.Opens (names ++ [n]) r)
    (hname : x.entryname = n.entryname) (hfile : x.has FatAttributeFlags.Directory = false)
    (hend : x.isEnd = false) (hlen : (pathText (names ++ [n])).length < DOS_PATHLENGTH) :
    ∃ ok d₁ res d₂,
      (∃ N, ∀ fuel ≥ N, v.addDirectoryEntry fuel c x d = some (ok, d₁) ∧
        v.getFileDirEntry fuel (pathText (names ++ [n])) false d₁ = some (res, d₂)) ∧
      ((res = none → t.Kept d₂.disk) ↔ ¬ t.Traced c n x) := by
  have hc : t.isDir c := (hleads.isDir t.root).1
  have hsees := h.sees hd hdisk
  obtain ⟨hholds, hclean⟩ := hsees.shows c hc
  obtain ⟨ok, d₁, ⟨N, hrun⟩, hadded, hd₁, helse⟩ := Volume.addDirectoryEntry_spec (x := x) h.sound
    (h.clusters c hc) hd hholds hclean (h.roomy c hc) hend
  have hothers : ∀ y, t.isDir y → y ≠ c → v.Holds d₁.disk y (t.chain y) (t.entries y) :=
    fun y hy hne => (helse y _ _ hne (h.disjoint y c hy hc hne) (h.clusters y hy)
      (hsees.shows y hy).1 (hsees.shows y hy).2).1
  have hkept := kept_of_added_iff h.sound hc hdisk hadded hothers
  -- in the two cases in which the entry has been written
  have hwritten : ∀ L, v.Holds d₁.disk c L (insertAt (t.entries c) (firstFree (t.entries c)) x) →
      ∃ res d₂, Reads v d₁ d₂ ∧ (res = none ↔ t.Unseen c n x) ∧ ∃ N, ∀ fuel ≥ N,
        v.getFileDirEntry fuel (pathText (names ++ [n])) false d₁ = some (res, d₂) :=
    fun L hL => reopened_iff hleads hnew hname hfile hd₁ hothers hL hlen
  cases hadded with
  | full hfull hnone hreads =>
    obtain ⟨res, d₂, hreads₂, hres, N', hrun'⟩ := getFileDirEntry_spec
      (t := t) (hreads.disk.trans hdisk) hd₁
      (List.append_ne_nil_of_right_ne_nil names (List.cons_ne_nil n [])) hlen
    refine ⟨false, d₁, res, d₂, ⟨max N N', fun fuel hfuel => ⟨hrun fuel (by omega),
      hrun' fuel (by omega)⟩⟩, iff_of_true (fun _ => .of_reads hdisk (hreads.trans hreads₂)) ?_⟩
    rw [hdisk] at hnone
    rintro ⟨-, ⟨-, hroom⟩ | ⟨-, hc0, m, hfree⟩⟩
    · omega
    · rcases hnone with hzero | hnone
      · exact hc0 hzero
      · exact hnone m hfree
  | inside hroom _ hholds₁ _ =>
    obtain ⟨res, d₂, hreads₂, hres, N', hrun'⟩ := hwritten _ hholds₁
    refine ⟨true, d₁, res, d₂, ⟨max N N', fun fuel hfuel => ⟨hrun fuel (by omega),
      hrun' fuel (by omega)⟩⟩, ?_⟩
    rw [hreads₂.disk, hkept, hres, isDeleted_of_name hname, Traced]
    simp [hroom, Nat.not_le.2 hroom]
  | longer hfull hc0 hfree _ hholds₁ _ =>
    rw [hdisk] at hfree
    obtain ⟨res, d₂, hreads₂, hres, N', hrun'⟩ := hwritten _ hholds₁
    refine ⟨true, d₁, res, d₂, ⟨max N N', fun fuel hfuel => ⟨hrun fuel (by omega),
      hrun' fuel (by omega)⟩⟩, ?_⟩
    have hex : ∃ m, v.Free disk m := ⟨_, hfree⟩
    rw [hreads₂.disk, hkept, hres, isDeleted_of_name hname, Traced]
    simp [hfull, Nat.not_lt.2 hfull, hc0, hex]

theorem isEnd_of_name (hname : x.entryname = n.entryname) : x.isEnd = false := by
  obtain ⟨c, rest, hcons, hc⟩ := n.exists_head
  have hhead : n.entryname[0] = c := by
    rw [Name83.entryname, fields, hcons]
    rfl
  rw [Direntry.isEnd, hname, hhead]
  exact decide_eq_false hc.ne.1

/-- `Rename` that fails and leaves a trace. -/
def RenameTraces (t : Tree v disk) (oldname newname : List Name83) : Prop :=
  ∃ r names n c, newname = names ++ [n] ∧ t.Opens oldname r ∧ (∀ r', ¬ t.Opens newname r') ∧
    t.Leads 0 names c ∧ t.Traced c n { r.1 with entryname := n.entryname }

/-- **`Rename`** either succeeds or leaves everything as it was, except where `RenameTraces` says
so. -/
theorem Rename_spec {oldname newname : List Name83} (IsReadOnly : Bool) (h : t.Tidy)
    (hd : v.Coherent d) (hdisk : d.disk = disk) (hold : oldname ≠ []) (hnew : newname ≠ [])
    (holdlen : (pathText oldname).length < DOS_PATHLENGTH)
    (hnewlen : (pathText newname).length < DOS_PATHLENGTH) :
    ∃ ok d', (∃ N, ∀ fuel ≥ N,
        v.Rename fuel IsReadOnly (pathText oldname) (pathText newname) d = some (ok, d')) ∧
      ((ok = false → t.Kept d'.disk) ↔ ¬ (IsReadOnly = false ∧ t.RenameTraces oldname newname)) := by
  cases IsReadOnly with
  | true =>
    exact ⟨false, d, ⟨0, fun fuel _ => rfl⟩,
      iff_of_true (fun _ => .of_reads hdisk (.refl d)) (by simp)⟩
  | false =>
    obtain ⟨file1, d₁, hreads₁, hfile1, N₁, hrun₁⟩ :=
      getFileDirEntry_spec (t := t) hdisk hd hold holdlen
    cases file1 with
    | none =>
      refine ⟨false, d₁, ⟨N₁, fun fuel hfuel => ?_⟩,
        iff_of_true (fun _ => .of_reads hdisk hreads₁) ?_⟩
      · simp [Volume.Rename, hrun₁ fuel hfuel]
      · rintro ⟨-, r, names, n, c, -, hopens, -⟩
        cases (hfile1 r).2 hopens
    | some r =>
      obtain ⟨fileEntry1, dirClust1, subEntry1⟩ := r
      have hopens := (hfile1 _).1 rfl
      obtain ⟨file2, d₂, hreads₂, hfile2, N₂, hrun₂⟩ := getFileDirEntry_spec (t := t)
        (hreads₁.disk.trans hdisk) (hreads₁.table hd) hnew hnewlen
      have hreads₁₂ := hreads₁.trans hreads₂
      cases file2 with
      | some r₂ =>
        refine ⟨false, d₂, ⟨max N₁ N₂, fun fuel hfuel => ?_⟩,
          iff_of_true (fun _ => .of_reads hdisk hreads₁₂) ?_⟩
        · simp [Volume.Rename, hrun₁ fuel (by omega), hrun₂ fuel (by omega)]
        · rintro ⟨-, r, names, n, c, -, -, hnone, -⟩
          exact hnone r₂ ((hfile2 r₂).1 rfl)
      | none =>
        have hnone : ∀ r', ¬ t.Opens newname r' := fun r' hr' => nomatch (hfile2 r').2 hr'
        obtain ⟨names, n, rfl⟩ : ∃ names n, newname = names ++ [n] :=
          ⟨_, _, (List.dropLast_append_getLast hnew).symm⟩
        have hsees := h.sees (hreads₁₂.table hd) (hreads₁₂.disk.trans hdisk)
        obtain ⟨dirClust2, d₃, hreads₃, hdirClust2, N₃, hrun₃⟩ :=
          getDirClustNum_parent hsees hnewlen
        have hreads := hreads₁₂.trans hreads₃
        cases dirClust2 with
        | none =>
          refine ⟨false, d₃, ⟨max N₁ (max N₂ N₃), fun fuel hfuel => ?_⟩,
            iff_of_true (fun _ => .of_reads hdisk hreads) ?_⟩
          · simp [Volume.Rename, Volume.renameFile, hrun₁ fuel (by omega), hrun₂ fuel (by omega),
              hrun₃ fuel (by omega)]
          · rintro ⟨-, r, names', n', c, heq, -, -, hleads, -⟩
            obtain ⟨rfl, -⟩ := List.append_inj' heq rfl
            cases (hdirClust2 c).2 hleads
        | some c =>
          have hleads := (hdirClust2 c).1 rfl
          have hplain : fileEntry1.has FatAttributeFlags.Directory = false := by
            obtain ⟨-, -, -, -, -, hflag⟩ := hopens
            rw [Bool.eq_false_iff]
            exact fun hdir => absurd (hflag hdir) (by decide)
          obtain ⟨ok, d₄, res, d₅, ⟨N₄, hrun₄⟩, hkept⟩ :=
            newFile_spec (x := { fileEntry1 with entryname := n.entryname }) h
              (hreads.table hd) (hreads.disk.trans hdisk) hleads hnone rfl hplain
              (isEnd_of_name rfl) hnewlen
          have htraces : t.RenameTraces oldname (names ++ [n]) ↔
              t.Traced c n { fileEntry1 with entryname := n.entryname } := by
            constructor
            · rintro ⟨r, names', n', c', heq, hopens', -, hleads', htraced⟩
              obtain ⟨rfl, hn⟩ := List.append_inj' heq rfl
              obtain rfl := (List.cons.inj hn).1
              obtain rfl := Option.some.inj ((hdirClust2 c').2 hleads')
              obtain rfl := Option.some.inj ((hfile1 r).2 hopens')
              exact htraced
            · exact fun htraced => ⟨_, names, n, c, rfl, hopens, hnone, hleads, htraced⟩
          have hname := convToDirFile_getEntryName hnewlen
          cases res with
          | none =>
            refine ⟨false, d₅, ⟨max (max N₁ N₂) (max N₃ N₄), fun fuel hfuel => ?_⟩, ?_⟩
            · obtain ⟨hadd, hagain⟩ := hrun₄ fuel (by omega)
              simp [Volume.Rename, Volume.renameFile, hrun₁ fuel (by omega), hrun₂ fuel (by omega),
                hrun₃ fuel (by omega), hname, hadd, hagain]
            · rw [htraces, and_iff_right rfl, ← hkept]
              simp
          | some r₂ =>
            refine ⟨true,
              (v.directoryChange dirClust1 fileEntry1.markDeleted (i32 subEntry1) d₅).2,
              ⟨max (max N₁ N₂) (max N₃ N₄), fun fuel hfuel => ?_⟩, ?_⟩
            · obtain ⟨hadd, hagain⟩ := hrun₄ fuel (by omega)
              simp [Volume.Rename, Volume.renameFile, hrun₁ fuel (by omega), hrun₂ fuel (by omega),
                hrun₃ fuel (by omega), hname, hadd, hagain]
            · rw [htraces, and_iff_right rfl, ← hkept]
              simp

theorem directory_archive {attributes : UInt8}
    (h : attributes &&& FatAttributeFlags.Directory = 0) :
    (attributes ||| FatAttributeFlags.Archive) &&& FatAttributeFlags.Directory = 0 := by
  have hbits : ∀ b : BitVec 8, (⟨b⟩ : UInt8) &&& FatAttributeFlags.Directory = 0 →
      ((⟨b⟩ : UInt8) ||| FatAttributeFlags.Archive) &&& FatAttributeFlags.Directory = 0 := by
    decide
  exact hbits attributes.toBitVec h

/-- `FileCreate` for a new file that fails and leaves a trace. -/
def CreateTraces (t : Tree v disk) (name : List Name83) (attributes : UInt8)
    (modTime modDate : UInt16) : Prop :=
  ∃ names n c, name = names ++ [n] ∧ t.Leads 0 names c ∧ t.Traced c n
    (Volume.newFile n.entryname (attributes ||| FatAttributeFlags.Archive) modTime modDate)

/-- **`FileCreate`** for a new file either succeeds or leaves everything as it was, except where
`CreateTraces` says so. -/
theorem FileCreate_spec {name : List Name83} (IsReadOnly : Bool) (attributes : UInt8)
    (modTime modDate : UInt16) (h : t.Tidy) (hd : v.Coherent d) (hdisk : d.disk = disk)
    (hne : name ≠ []) (hlen : (pathText name).length < DOS_PATHLENGTH)
    (hattributes : attributes &&& FatAttributeFlags.Directory = 0)
    (hnew : ∀ r, ¬ t.Opens name r) :
    ∃ file d', (∃ N, ∀ fuel ≥ N, v.FileCreate fuel IsReadOnly (pathText name) attributes modTime
        modDate d = some (file, d')) ∧
      ((file = none → t.Kept d'.disk) ↔
        ¬ (IsReadOnly = false ∧ t.CreateTraces name attributes modTime modDate)) := by
  cases IsReadOnly with
  | true =>
    exact ⟨none, d, ⟨0, fun fuel _ => rfl⟩,
      iff_of_true (fun _ => .of_reads hdisk (.refl d)) (by simp)⟩
  | false =>
    obtain ⟨file, d₁, hreads₁, hfile, N₁, hrun₁⟩ :=
      getFileDirEntry_spec (t := t) hdisk hd hne hlen
    obtain rfl : file = none := Option.eq_none_iff_forall_not_mem.2 fun r hr =>
      hnew r ((hfile r).1 hr)
    obtain ⟨names, n, rfl⟩ : ∃ names n, name = names ++ [n] :=
      ⟨_, _, (List.dropLast_append_getLast hne).symm⟩
    have hsees := h.sees (hreads₁.table hd) (hreads₁.disk.trans hdisk)
    obtain ⟨dirClust, d₂, hreads₂, hdirClust, N₂, hrun₂⟩ := getDirClustNum_parent hsees hlen
    have hreads := hreads₁.trans hreads₂
    cases dirClust with
    | none =>
      refine ⟨none, d₂, ⟨max N₁ N₂, fun fuel hfuel => ?_⟩,
        iff_of_true (fun _ => .of_reads hdisk hreads) ?_⟩
      · simp [Volume.FileCreate, Volume.createFile, hrun₁ fuel (by omega), hrun₂ fuel (by omega)]
      · rintro ⟨-, names', n', c, heq, hleads, -⟩
        obtain ⟨rfl, -⟩ := List.append_inj' heq rfl
        cases (hdirClust c).2 hleads
    | some c =>
      have hleads := (hdirClust c).1 rfl
      set x := Volume.newFile n.entryname (attributes ||| FatAttributeFlags.Archive) modTime modDate
        with hx
      obtain ⟨ok, d₃, res, d₄, ⟨N₃, hrun₃⟩, hkept⟩ := newFile_spec (x := x) h (hreads.table hd)
        (hreads.disk.trans hdisk) hleads hnew rfl
        (decide_eq_false (not_not.2 (directory_archive hattributes)))
        (isEnd_of_name rfl) hlen
      have htraces : t.CreateTraces (names ++ [n]) attributes modTime modDate ↔
          t.Traced c n x := by
        constructor
        · rintro ⟨names', n', c', heq, hleads', htraced⟩
          obtain ⟨rfl, hn⟩ := List.append_inj' heq rfl
          obtain rfl := (List.cons.inj hn).1
          obtain rfl := Option.some.inj ((hdirClust c').2 hleads')
          exact htraced
        · exact fun htraced => ⟨names, n, c, rfl, hleads, htraced⟩
      rw [and_iff_right rfl, htraces, ← hkept]
      cases res with
      | none =>
        refine ⟨none, d₄, ⟨max N₁ (max N₂ N₃), fun fuel hfuel => ?_⟩, by simp⟩
        obtain ⟨hadd, hagain⟩ := hrun₃ fuel (by omega)
        simp [Volume.FileCreate, Volume.createFile, hrun₁ fuel (by omega), hrun₂ fuel (by omega),
          convToDirFile_getEntryName hlen, ← hx, hadd, hagain]
      | some r =>
        refine ⟨(v.openCreated r d₄).1, (v.openCreated r d₄).2,
          ⟨max N₁ (max N₂ N₃), fun fuel hfuel => ?_⟩, by simp [Volume.openCreated]⟩
        obtain ⟨hadd, hagain⟩ := hrun₃ fuel (by omega)
        simp [Volume.FileCreate, Volume.createFile, hrun₁ fuel (by omega), hrun₂ fuel (by omega),
          convToDirFile_getEntryName hlen, ← hx, hadd, hagain]

end Tree

end AugraDosbox.Fat
