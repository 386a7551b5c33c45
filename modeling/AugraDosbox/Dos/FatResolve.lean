import AugraDosbox.Dos.FatSearch
import AugraDosbox.Dos.FatShortNames

/-!
# Paths on a volume

* `pathText` — a path of valid names; `tokens_pathText` — the names that are found in it;
* `Tree` — the directories of a volume: no name occurs twice in a directory, and the entries of
  subdirectories lead to other directories;
* `Resolves` — the entry that a path names, and where it is;
* `lookup_spec` — a search for a name in a directory;
* `fileDirLoop_spec` — the directory and the name with which the walk over a path stops;
* `Deviates` — the paths that are not resolved as they should be;
* **`getFileDirEntry_resolves_iff`** — `getFileDirEntry` returns the entry that a path names,
  except for these paths.
-/

namespace AugraDosbox.Fat

/-! ## Paths -/

/-- The names with backslashes between them. -/
def pathText (names : List Name83) : CString := [backslash].intercalate (names.map Name83.text)

theorem pathText_cons {n m : Name83} {names : List Name83} :
    pathText (n :: m :: names) = n.text ++ backslash :: pathText (m :: names) := by
  simp [pathText, List.intercalate]

theorem pathText_getLast {names : List Name83} (hne : names ≠ []) :
    pathText names ≠ [] ∧ (pathText names).getLast? ≠ some backslash := by
  induction names with
  | nil => exact absurd rfl hne
  | cons n names ih =>
    cases names with
    | nil =>
      have htext : pathText [n] = n.text := by simp [pathText, List.intercalate]
      rw [htext]
      refine ⟨n.text_ne_nil, fun h => n.backslash_not_mem_text ?_⟩
      exact List.mem_of_getLast? h
    | cons m names =>
      obtain ⟨hrest, hlast⟩ := ih (List.cons_ne_nil m names)
      rw [pathText_cons]
      refine ⟨by simp, ?_⟩
      rw [List.getLast?_append_of_ne_nil _ (List.cons_ne_nil _ _),
        List.getLast?_cons_of_ne_nil hrest]
      exact hlast

/-- **The names of a path** are found again in it. -/
theorem tokens_pathText {names : List Name83} (hne : names ≠ [])
    (hlen : (pathText names).length < DOS_PATHLENGTH) :
    tokens (pathText names) = names.map Name83.text := by
  have hsplit : (pathText names).splitOn backslash = names.map Name83.text := by
    refine List.splitOn_intercalate backslash ?_ (by simpa using hne)
    intro s hs
    obtain ⟨n, -, rfl⟩ := List.mem_map.1 hs
    exact n.backslash_not_mem_text
  rw [tokens, List.take_of_length_le (Nat.le_sub_one_of_lt hlen), hsplit, List.filter_eq_self]
  intro s hs
  obtain ⟨n, -, rfl⟩ := List.mem_map.1 hs
  exact decide_eq_true n.text_ne_nil

theorem namesRoot_pathText {names : List Name83} (hne : names ≠ [])
    (hlen : (pathText names).length < DOS_PATHLENGTH) : namesRoot (pathText names) = false := by
  obtain ⟨htext, hlast⟩ := pathText_getLast hne
  rw [namesRoot, List.take_of_length_le hlen.le]
  simp [htext, hlast]

/-! ## Attributes -/

/-- A directory that the searches on the way along a path find. -/
def Direntry.IsPlainDir (e : Direntry) : Prop :=
  e.has FatAttributeFlags.Directory = true ∧ e.has FatAttributeFlags.Hidden = false ∧
    e.has FatAttributeFlags.System = false

instance (e : Direntry) : Decidable e.IsPlainDir := inferInstanceAs (Decidable (_ ∧ _))

/-- The attributes of the last search of `getFileDirEntry`. -/
def fileAttributes (dir_ok : Bool) : UInt8 :=
  FatAttributeFlags.ReadOnly ||| FatAttributeFlags.Hidden |||
    FatAttributeFlags.System ||| (if dir_ok then FatAttributeFlags.Directory else 0)

theorem and_or_eq_zero (x a b : UInt8) : x &&& (a ||| b) = 0 ↔ x &&& a = 0 ∧ x &&& b = 0 := by
  rw [← UInt8.toBitVec_inj, ← UInt8.toBitVec_inj, ← UInt8.toBitVec_inj]
  simp [BitVec.and_or_distrib_left, BitVec.or_eq_zero_iff]

theorem has_eq_false {e : Direntry} {flag : UInt8} : e.has flag = false ↔ e.attrib &&& flag = 0 := by
  simp [Direntry.has]

/-- The attributes that a search without a label leaves out. -/
theorem passes_iff {attrs : UInt8} {e : Direntry} (mask : UInt8) (hattrs : attrs ≠ FatAttributeFlags.Volume)
    (hmask : ~~~attrs &&& (FatAttributeFlags.Directory ||| FatAttributeFlags.Volume |||
      FatAttributeFlags.System ||| FatAttributeFlags.Hidden) = mask) :
    Volume.passes attrs e = true ↔ e.attrib &&& mask = 0 := by
  rw [Volume.passes, if_neg hattrs, decide_eq_true_iff, UInt8.and_comm (~~~_), UInt8.and_assoc,
    hmask]

theorem passes_directory {e : Direntry} :
    Volume.passes FatAttributeFlags.Directory e = true ↔
      e.has FatAttributeFlags.Volume = false ∧ e.has FatAttributeFlags.Hidden = false ∧
        e.has FatAttributeFlags.System = false := by
  rw [passes_iff (FatAttributeFlags.Volume ||| (FatAttributeFlags.Hidden |||
    FatAttributeFlags.System)) (by decide) (by decide), and_or_eq_zero, and_or_eq_zero,
    has_eq_false, has_eq_false, has_eq_false]

theorem passes_fileAttributes {dir_ok : Bool} {e : Direntry} :
    Volume.passes (fileAttributes dir_ok) e = true ↔
      e.has FatAttributeFlags.Volume = false ∧
        (e.has FatAttributeFlags.Directory = true → dir_ok = true) := by
  rw [has_eq_false]
  cases dir_ok with
  | true =>
    rw [passes_iff FatAttributeFlags.Volume (by decide) (by decide)]
    simp
  | false =>
    rw [passes_iff (FatAttributeFlags.Volume ||| FatAttributeFlags.Directory) (by decide)
      (by decide), and_or_eq_zero, ← @has_eq_false e FatAttributeFlags.Directory]
    simp

/-! ## Directories -/

/-- The entry at position `i` of a directory is there and has the name, and it is no label. -/
structure Named (es : List Direntry) (n : Name83) (e : Direntry) (i : ℕ) : Prop where
  get : es[i]? = some e
  live : e.isDeleted = false
  no_label : e.has FatAttributeFlags.Volume = false
  name : HasName n e.entryname

/-- **The directories of a volume**, by their first clusters: the root directory and those that
it leads to.  A directory is not inside of itself. -/
structure Tree (v : Volume) (disk : Disk) where
  isDir : ℕ → Prop
  chain : ℕ → List ℕ
  depth : ℕ → ℕ
  root : isDir 0
  directory : ∀ c, isDir c → v.Directory disk c (chain c)
  short : ∀ c, isDir c → (v.entries disk c (chain c)).length < 2 ^ 16
  wellNamed : ∀ c, isDir c → ∀ e ∈ v.entries disk c (chain c), e.isDeleted = false →
    e.has FatAttributeFlags.Volume = false → WellNamed e.entryname
  unique : ∀ c, isDir c → ∀ n e i e' i', Named (v.entries disk c (chain c)) n e i →
    Named (v.entries disk c (chain c)) n e' i' → i = i'
  child : ∀ c, isDir c → ∀ n e i, Named (v.entries disk c (chain c)) n e i →
    e.has FatAttributeFlags.Directory = true →
    isDir e.loFirstClust.toNat ∧ depth c < depth e.loFirstClust.toNat

namespace Tree

variable {v : Volume} {disk : Disk} (t : Tree v disk)

/-- The entries of a directory. -/
def entries (c : ℕ) : List Direntry := v.entries disk c (t.chain c)

/-- **What a path names**, from the directory `c` on: an entry, the cluster of its directory
and its number there. -/
inductive Resolves (dir_ok : Bool) : ℕ → List Name83 → Direntry × ℕ × ℕ → Prop
  | last {c i : ℕ} {n : Name83} {e : Direntry} (hnamed : Named (t.entries c) n e i)
      (hfile : e.has FatAttributeFlags.Directory = true → dir_ok = true) :
      Resolves dir_ok c [n] (e, c, i)
  | step {c i : ℕ} {n : Name83} {e : Direntry} {names : List Name83} {r : Direntry × ℕ × ℕ}
      (hnamed : Named (t.entries c) n e i) (hdir : e.has FatAttributeFlags.Directory = true)
      (hrest : Resolves dir_ok e.loFirstClust.toNat names r) : Resolves dir_ok c (n :: names) r

/-- **The paths that are not resolved as they should be**: behind directories that are not
hidden there is a file in the middle of the path, or a hidden directory through which the path
could go on or which is itself accepted, or a directory at the end of the path with a file of
the same name in it. -/
inductive Deviates (dir_ok : Bool) : ℕ → List Name83 → Prop
  | file {c i : ℕ} {n m : Name83} {e : Direntry} {names : List Name83}
      (hnamed : Named (t.entries c) n e i) (hfile : e.has FatAttributeFlags.Directory = false) :
      Deviates dir_ok c (n :: m :: names)
  | hidden {c i : ℕ} {n m : Name83} {e : Direntry} {names : List Name83}
      (hnamed : Named (t.entries c) n e i) (hdir : e.has FatAttributeFlags.Directory = true)
      (hhidden : ¬ e.IsPlainDir)
      (hgoes : dir_ok = true ∨
        ∃ r, t.Resolves dir_ok e.loFirstClust.toNat (m :: names) r) :
      Deviates dir_ok c (n :: m :: names)
  | same {c i j : ℕ} {n : Name83} {e f : Direntry} (hok : dir_ok = false)
      (hnamed : Named (t.entries c) n e i) (hplain : e.IsPlainDir)
      (hsame : Named (t.entries e.loFirstClust.toNat) n f j)
      (hfile : f.has FatAttributeFlags.Directory = false) : Deviates dir_ok c [n]
  | step {c i : ℕ} {n : Name83} {e : Direntry} {names : List Name83}
      (hnamed : Named (t.entries c) n e i) (hplain : e.IsPlainDir)
      (hrest : Deviates dir_ok e.loFirstClust.toNat names) : Deviates dir_ok c (n :: names)

variable {t} {c c' i j fuel : ℕ} {n n' m : Name83} {names : List Name83} {e f : Direntry}
  {dir_ok : Bool} {d d' : Drive} {r : Direntry × ℕ × ℕ} {attrs : UInt8}

theorem eq_of_named (hc : t.isDir c) (h : Named (t.entries c) n e i)
    (h' : Named (t.entries c) n f j) : i = j ∧ e = f := by
  have hpos : i = j := t.unique c hc n e i f j h h'
  have hget := h.get.symm.trans (hpos ▸ h'.get)
  exact ⟨hpos, Option.some.inj hget⟩

/-- The entries that a search without wildcards finds. -/
theorem isFound_iff (hc : t.isDir c) (hget : (t.entries c)[i]? = some e)
    (hattrs : Volume.passes attrs e = true → e.has FatAttributeFlags.Volume = false) :
    Volume.isFound attrs (searchPattern n.text) e = true ↔
      Named (t.entries c) n e i ∧ Volume.passes attrs e = true := by
  have hmem : e ∈ t.entries c := List.mem_of_getElem? hget
  rw [Volume.isFound, Bool.and_eq_true, Bool.and_eq_true, Bool.not_eq_true']
  constructor
  · rintro ⟨⟨hlive, hpasses⟩, hmatch⟩
    have hwell := t.wellNamed c hc e hmem hlive (hattrs hpasses)
    exact ⟨⟨hget, hlive, hattrs hpasses, (matches_iff hwell).1 hmatch⟩, hpasses⟩
  · rintro ⟨hnamed, hpasses⟩
    have hwell := t.wellNamed c hc e hmem hnamed.live hnamed.no_label
    exact ⟨⟨hnamed.live, hpasses⟩, (matches_iff hwell).2 hnamed.name⟩

/-- What a search for a name returns. -/
inductive Finds (t : Tree v disk) (c : ℕ) (attrs : UInt8) (n : Name83) :
    Option Direntry → DTA → Prop
  | missing {dta : DTA}
      (hnone : ∀ e i, Named (t.entries c) n e i → Volume.passes attrs e = false) :
      Finds t c attrs n none dta
  | found {e : Direntry} {i : ℕ} {dta : DTA} (hnamed : Named (t.entries c) n e i)
      (hpasses : Volume.passes attrs e = true) (hdirID : dta.dirID.toNat = i + 1)
      (hattr : dta.attr = e.attrib) : Finds t c attrs n (some e) dta

/-- **A search for a name** in a directory. -/
theorem lookup_spec (hdisk : d.disk = disk) (hd : v.Coherent d) (hc : t.isDir c) (n : Name83)
    (hattrs : ∀ e, Volume.passes attrs e = true → e.has FatAttributeFlags.Volume = false) :
    ∃ res dta d', Reads v d d' ∧ Finds t c attrs n res dta ∧
      ∃ N, ∀ fuel ≥ N, v.lookup fuel c attrs n.text d = some (res, dta, d') := by
  subst hdisk
  have hes : v.entries d.disk c (t.chain c) = [] ++ t.entries c := rfl
  obtain ⟨res, dta, d', hreads, -, hsearched, hrun⟩ :=
    Volume.FindNextInternal_eq ((imgDTA.SetupSearch attrs n.text).SetDirID 0) hd
      (t.directory c hc) (t.short c hc) hes rfl
  refine ⟨res, dta, d', hreads, ?_, (t.entries c).length + 1, fun fuel hfuel => hrun fuel hfuel⟩
  rw [getSearchParams_setupSearch] at hsearched
  generalize hall : t.entries c = es at hsearched
  cases hsearched with
  | notFound hnone =>
    refine .missing fun e i hnamed => ?_
    have hmiss := hnone e (hall ▸ List.mem_of_getElem? hnamed.get)
    rw [Bool.eq_false_iff] at hmiss ⊢
    exact fun hpasses => hmiss ((isFound_iff hc hnamed.get (hattrs e)).2 ⟨hnamed, hpasses⟩)
  | @found skipped rest e _ _ hfound hdirID hresult =>
    have hget : (t.entries c)[skipped.length]? = some e := by simp [hall]
    obtain ⟨hnamed, hpasses⟩ := (isFound_iff hc hget (hattrs e)).1 hfound
    have hpos : dta.dirID.toNat = skipped.length + 1 := by simpa using hdirID
    exact .found hnamed hpasses hpos (congrArg Result.attr hresult)

/-! ## The walk over a path -/

/-- Where the walk over a path stops: the directory and the name. -/
inductive Stops (t : Tree v disk) (dir_ok : Bool) : ℕ → List Name83 → ℕ → Name83 → Prop
  | stop {c : ℕ} {n : Name83} {names : List Name83}
      (hstop : ∀ e i, Named (t.entries c) n e i → ¬ e.IsPlainDir) :
      Stops t dir_ok c (n :: names) c n
  | dir {c i : ℕ} {n : Name83} {e : Direntry} (hok : dir_ok = true)
      (hnamed : Named (t.entries c) n e i) : Stops t dir_ok c [n] c n
  | inside {c i : ℕ} {n : Name83} {e : Direntry} (hok : dir_ok = false)
      (hnamed : Named (t.entries c) n e i) (hplain : e.IsPlainDir) :
      Stops t dir_ok c [n] e.loFirstClust.toNat n
  | step {c i c' : ℕ} {n m n' : Name83} {e : Direntry} {names : List Name83}
      (hnamed : Named (t.entries c) n e i) (hplain : e.IsPlainDir)
      (hrest : Stops t dir_ok e.loFirstClust.toNat (m :: names) c' n') :
      Stops t dir_ok c (n :: m :: names) c' n'

theorem Stops.unique {c₁ c₂ : ℕ} {n₁ n₂ : Name83} (hc : t.isDir c)
    (h₁ : Stops t dir_ok c names c₁ n₁) (h₂ : Stops t dir_ok c names c₂ n₂) :
    c₁ = c₂ ∧ n₁ = n₂ := by
  induction h₁ with
  | stop hstop =>
    cases h₂ with
    | stop _ => exact ⟨rfl, rfl⟩
    | dir _ _ => exact ⟨rfl, rfl⟩
    | inside _ hnamed hplain => exact absurd hplain (hstop _ _ hnamed)
    | step hnamed hplain _ => exact absurd hplain (hstop _ _ hnamed)
  | dir hok _ =>
    cases h₂ with
    | stop _ => exact ⟨rfl, rfl⟩
    | dir _ _ => exact ⟨rfl, rfl⟩
    | inside hnok _ _ => exact absurd (hok.symm.trans hnok) (by decide)
  | inside hok hnamed hplain =>
    cases h₂ with
    | stop hstop => exact absurd hplain (hstop _ _ hnamed)
    | dir hnok _ => exact absurd (hnok.symm.trans hok) (by decide)
    | inside _ hnamed' _ =>
      rw [(eq_of_named hc hnamed hnamed').2]
      exact ⟨rfl, rfl⟩
  | step hnamed hplain _ ih =>
    cases h₂ with
    | stop hstop => exact absurd hplain (hstop _ _ hnamed)
    | step hnamed' _ hrest =>
      rw [← (eq_of_named hc hnamed hnamed').2] at hrest
      exact ih (t.child _ hc _ _ _ hnamed hplain.1).1 hrest

variable {dta : DTA}

theorem Finds.isPlainDir (h : Finds t c FatAttributeFlags.Directory n (some e) dta) :
    (∃ i, Named (t.entries c) n e i) ∧ (dta.isDirectory = true ↔ e.IsPlainDir) := by
  cases h with
  | found hnamed hpasses hdirID hattr =>
    refine ⟨⟨_, hnamed⟩, ?_⟩
    obtain ⟨-, hhidden, hsystem⟩ := passes_directory.1 hpasses
    have hdir : dta.isDirectory = e.has FatAttributeFlags.Directory := by
      rw [DTA.isDirectory, hattr]
      rfl
    rw [hdir]
    exact ⟨fun h => ⟨h, hhidden, hsystem⟩, fun h => h.1⟩

theorem Finds.none_stop (h : Finds t c FatAttributeFlags.Directory n none dta) :
    ∀ e i, Named (t.entries c) n e i → ¬ e.IsPlainDir := by
  cases h with
  | missing hnone =>
    intro e i hnamed hplain
    have hpasses := passes_directory.2 ⟨hnamed.no_label, hplain.2⟩
    rw [hnone e i hnamed] at hpasses
    exact absurd hpasses (by decide)

/-- One step of the walk, into a directory. -/
theorem fileDirLoop_of_isDirectory {findDir findFile : CString} {rest : List CString}
    (hfind : v.lookup fuel c FatAttributeFlags.Directory findDir d = some (some e, dta, d'))
    (hdir : dta.isDirectory = true) :
    v.fileDirLoop fuel dir_ok (findDir :: rest) findFile c d
      = if rest = [] ∧ dir_ok = true then some (c, findDir, d')
        else v.fileDirLoop fuel dir_ok rest findDir e.loFirstClust.toNat d' := by
  rw [Volume.fileDirLoop, hfind]
  simp [hdir]

/-- **The walk over a path** that starts in the directory `c`. -/
theorem fileDirLoop_spec (dir_ok : Bool) (names : List Name83) (hne : names ≠ [])
    (findFile : CString) (c : ℕ) (hdisk : d.disk = disk) (hd : v.Coherent d) (hc : t.isDir c) :
    ∃ c' n d', Reads v d d' ∧ Stops t dir_ok c names c' n ∧ t.isDir c' ∧
      ∃ N, ∀ fuel ≥ N, v.fileDirLoop fuel dir_ok (names.map Name83.text) findFile c d
        = some (c', n.text, d') := by
  induction names generalizing findFile c d with
  | nil => exact absurd rfl hne
  | cons n names ih =>
    obtain ⟨res, dta, d₁, hreads, hfinds, N, hrun⟩ :=
      lookup_spec hdisk hd hc n fun e he => (passes_directory.1 he).1
    cases res with
    | none =>
      refine ⟨c, n, d₁, hreads, .stop hfinds.none_stop, hc, N, fun fuel hfuel => ?_⟩
      rw [List.map_cons, Volume.fileDirLoop, hrun fuel hfuel]
      rfl
    | some e =>
      obtain ⟨⟨i, hnamed⟩, hisdir⟩ := hfinds.isPlainDir
      by_cases hplain : e.IsPlainDir
      · cases names with
        | nil =>
          cases dir_ok with
          | true =>
            refine ⟨c, n, d₁, hreads, .dir rfl hnamed, hc, N, fun fuel hfuel => ?_⟩
            rw [List.map_cons, fileDirLoop_of_isDirectory (hrun fuel hfuel) (hisdir.2 hplain)]
            rfl
          | false =>
            refine ⟨e.loFirstClust.toNat, n, d₁, hreads, .inside rfl hnamed hplain,
              (t.child c hc n e i hnamed hplain.1).1, N, fun fuel hfuel => ?_⟩
            rw [List.map_cons, fileDirLoop_of_isDirectory (hrun fuel hfuel) (hisdir.2 hplain)]
            rfl
        | cons m names =>
          have hchild := (t.child c hc n e i hnamed hplain.1).1
          obtain ⟨c', n', d₂, hreads', hstops, hc', N', hrest⟩ :=
            ih (List.cons_ne_nil m names) n.text e.loFirstClust.toNat (hreads.disk.trans hdisk)
              (hreads.table hd) hchild
          refine ⟨c', n', d₂, hreads.trans hreads', .step hnamed hplain hstops, hc', max N N',
            fun fuel hfuel => ?_⟩
          have hfirst := hrun fuel (le_trans (le_max_left N N') hfuel)
          have hnext := hrest fuel (le_trans (le_max_right N N') hfuel)
          rw [List.map_cons, fileDirLoop_of_isDirectory hfirst (hisdir.2 hplain),
            if_neg (by simp), hnext]
      · have hstop : ∀ f j, Named (t.entries c) n f j → ¬ f.IsPlainDir := by
          intro f j hnamed'
          rwa [← (eq_of_named hc hnamed hnamed').2]
        refine ⟨c, n, d₁, hreads, .stop hstop, hc, N, fun fuel hfuel => ?_⟩
        have hnot : dta.isDirectory = false := Bool.eq_false_iff.2 fun h => hplain (hisdir.1 h)
        simp [Volume.fileDirLoop, hrun fuel hfuel, hnot]

/-! ## What is returned, and what should be -/

/-- What the last search returns when the walk has stopped with the name `n` in `c`. -/
def IsLast (t : Tree v disk) (dir_ok : Bool) (c : ℕ) (n : Name83) (r : Direntry × ℕ × ℕ) : Prop :=
  r.2.1 = c ∧ Named (t.entries c) n r.1 r.2.2 ∧
    (r.1.has FatAttributeFlags.Directory = true → dir_ok = true)

theorem not_resolves_nil : ¬ t.Resolves dir_ok c [] r := nofun

theorem resolves_singleton : t.Resolves dir_ok c [n] r ↔ IsLast t dir_ok c n r := by
  constructor
  · intro h
    cases h with
    | last hnamed hfile => exact ⟨rfl, hnamed, hfile⟩
    | step _ _ hrest => exact absurd hrest not_resolves_nil
  · obtain ⟨e, c', i⟩ := r
    rintro ⟨rfl, hnamed, hfile⟩
    exact .last hnamed hfile

/-- Behind an entry with the first name, a path names what the rest of it names there. -/
theorem resolves_cons (hc : t.isDir c) (hnamed : Named (t.entries c) n e i) :
    t.Resolves dir_ok c (n :: m :: names) r ↔ e.has FatAttributeFlags.Directory = true ∧
      t.Resolves dir_ok e.loFirstClust.toNat (m :: names) r := by
  constructor
  · intro h
    cases h with
    | step hnamed' hdir hrest =>
      obtain rfl := (eq_of_named hc hnamed hnamed').2
      exact ⟨hdir, hrest⟩
  · rintro ⟨hdir, hrest⟩
    exact .step hnamed hdir hrest

/-- What a path names is in the directory from which it starts, or further inside. -/
theorem Resolves.depth_le (h : t.Resolves dir_ok c names r) (hc : t.isDir c) :
    t.depth c ≤ t.depth r.2.1 := by
  induction h with
  | last => exact le_rfl
  | step hnamed hdir _ ih =>
    obtain ⟨hchild, hlt⟩ := t.child _ hc _ _ _ hnamed hdir
    exact hlt.le.trans (ih hchild)

theorem not_deviates_nil : ¬ t.Deviates dir_ok c [] := nofun

theorem deviates_step (hc : t.isDir c) (hnamed : Named (t.entries c) n e i)
    (hplain : e.IsPlainDir) :
    t.Deviates dir_ok c (n :: m :: names) ↔
      t.Deviates dir_ok e.loFirstClust.toNat (m :: names) := by
  constructor
  · intro h
    cases h with
    | file hnamed' hfile =>
      obtain rfl := (eq_of_named hc hnamed hnamed').2
      rw [hplain.1] at hfile
      exact absurd hfile (by decide)
    | hidden hnamed' _ hhidden _ =>
      obtain rfl := (eq_of_named hc hnamed hnamed').2
      exact absurd hplain hhidden
    | step hnamed' _ hrest =>
      obtain rfl := (eq_of_named hc hnamed hnamed').2
      exact hrest
  · exact fun h => .step hnamed hplain h

/-- **A walk that stops too early** is right only where nothing is returned and nothing is
named. -/
theorem stop_iff (hc : t.isDir c)
    (hstop : ∀ e i, Named (t.entries c) n e i → ¬ e.IsPlainDir) :
    (∀ r, IsLast t dir_ok c n r ↔ t.Resolves dir_ok c (n :: m :: names) r) ↔
      ¬ t.Deviates dir_ok c (n :: m :: names) := by
  -- the rest of the path leads further inside, and not to the entry itself
  have hnot : ∀ {e i}, Named (t.entries c) n e i →
      ¬ t.Resolves dir_ok c (n :: m :: names) (e, c, i) := by
    intro e i hnamed hres
    obtain ⟨hdir, hrest⟩ := (resolves_cons hc hnamed).1 hres
    obtain ⟨hchild, hlt⟩ := t.child c hc n e i hnamed hdir
    exact absurd (hrest.depth_le hchild) (Nat.not_le.2 hlt)
  constructor
  · intro hiff hdev
    cases hdev with
    | @file _ i _ _ e _ hnamed hfile =>
      have hfile' : e.has FatAttributeFlags.Directory = true → dir_ok = true := by
        rw [hfile]
        exact fun h => absurd h (by decide)
      exact hnot hnamed ((hiff (e, c, i)).1 ⟨rfl, hnamed, hfile'⟩)
    | @hidden _ i _ _ e _ hnamed hdir _ hgoes =>
      have hok : dir_ok = true := by
        rcases hgoes with hok | ⟨r, hres⟩
        · exact hok
        · obtain ⟨-, hnamed', hfile⟩ := (hiff r).2 ((resolves_cons hc hnamed).2 ⟨hdir, hres⟩)
          exact hfile ((eq_of_named hc hnamed hnamed').2 ▸ hdir)
      exact hnot hnamed ((hiff (e, c, i)).1 ⟨rfl, hnamed, fun _ => hok⟩)
    | step hnamed hplain _ => exact hstop _ _ hnamed hplain
  · intro hdev r
    constructor
    · rintro ⟨-, hnamed, hfile⟩
      by_cases hdir : r.1.has FatAttributeFlags.Directory = true
      · exact absurd (.hidden hnamed hdir (hstop _ _ hnamed) (.inl (hfile hdir))) hdev
      · exact absurd (.file hnamed (Bool.eq_false_iff.2 hdir)) hdev
    · intro hres
      cases hres with
      | step hnamed hdir hrest =>
        exact absurd (.hidden hnamed hdir (hstop _ _ hnamed) (.inr ⟨r, hrest⟩)) hdev

/-- **Where the walk stops decides** whether the path is resolved as it should be. -/
theorem Stops.agrees_iff (h : Stops t dir_ok c names c' n) (hc : t.isDir c) :
    (∀ r, IsLast t dir_ok c' n r ↔ t.Resolves dir_ok c names r) ↔ ¬ t.Deviates dir_ok c names := by
  induction h with
  | @stop c n names hstop =>
    cases names with
    | nil =>
      refine iff_of_true (fun r => resolves_singleton.symm) fun hdev => ?_
      cases hdev with
      | same _ hnamed hplain _ _ => exact hstop _ _ hnamed hplain
      | step hnamed hplain _ => exact hstop _ _ hnamed hplain
    | cons m names => exact stop_iff hc hstop
  | dir hok _ =>
    refine iff_of_true (fun r => resolves_singleton.symm) fun hdev => ?_
    cases hdev with
    | same hnok _ _ _ _ => exact absurd (hok.symm.trans hnok) (by decide)
    | step _ _ hrest => exact not_deviates_nil hrest
  | @inside c i n e hok hnamed hplain =>
    have hnone : ∀ r, ¬ t.Resolves dir_ok c [n] r := by
      intro r hres
      obtain ⟨-, hnamed', hfile⟩ := resolves_singleton.1 hres
      obtain rfl := (eq_of_named hc hnamed hnamed').2
      exact absurd (hok.symm.trans (hfile hplain.1)) (by decide)
    constructor
    · intro hiff hdev
      cases hdev with
      | @same _ _ j _ e' f _ hnamed' _ hsame hfile =>
        obtain rfl := (eq_of_named hc hnamed hnamed').2
        refine hnone (f, e.loFirstClust.toNat, j) ((hiff _).1 ⟨rfl, hsame, ?_⟩)
        rw [hfile]
        exact fun h => absurd h (by decide)
      | step _ _ hrest => exact not_deviates_nil hrest
    · intro hdev r
      refine iff_of_false ?_ (hnone r)
      rintro ⟨-, hsame, hfile⟩
      have hnot : r.1.has FatAttributeFlags.Directory = false := by
        rw [Bool.eq_false_iff]
        exact fun h => absurd (hok.symm.trans (hfile h)) (by decide)
      exact hdev (.same hok hnamed hplain hsame hnot)
  | step hnamed hplain _ ih =>
    have hchild := (t.child _ hc _ _ _ hnamed hplain.1).1
    rw [deviates_step hc hnamed hplain, ← ih hchild]
    refine forall_congr' fun r => ?_
    rw [resolves_cons hc hnamed]
    simp [hplain.1]

/-! ## The entry of a path -/

/-- **The last search** of `getFileDirEntry`. -/
theorem isLast_iff {res : Option Direntry} (hc : t.isDir c)
    (hfinds : Finds t c (fileAttributes dir_ok) n res dta) :
    (res.map fun e => (e, c, u32 (dta.dirID.toNat + 2 ^ 32 - 1))) = some r ↔
      IsLast t dir_ok c n r := by
  cases hfinds with
  | missing hnone =>
    refine iff_of_false (by simp) ?_
    rintro ⟨-, hnamed, hfile⟩
    have hpasses := passes_fileAttributes.2 ⟨hnamed.no_label, hfile⟩
    rw [hnone _ _ hnamed] at hpasses
    exact absurd hpasses (by decide)
  | @found e i _ hnamed hpasses hdirID _ =>
    have hpos : u32 (dta.dirID.toNat + 2 ^ 32 - 1) = i := by
      have hlt := dta.dirID.toNat_lt
      rw [hdirID, u32]
      omega
    rw [hpos, Option.map_some, Option.some.injEq]
    constructor
    · rintro rfl
      exact ⟨rfl, hnamed, (passes_fileAttributes.1 hpasses).2⟩
    · obtain ⟨f, c', j⟩ := r
      rintro ⟨rfl, hnamed', -⟩
      obtain ⟨rfl, rfl⟩ := eq_of_named hc hnamed hnamed'
      rfl

end Tree

open Tree in
/-- **What `getFileDirEntry` returns**: the entry that the last search finds in the directory in
which the walk has stopped. -/
theorem getFileDirEntry_stops {v : Volume} {disk : Disk} (t : Tree v disk) {d : Drive}
    {names : List Name83} (dir_ok : Bool) (hdisk : d.disk = disk) (hd : v.Coherent d)
    (hne : names ≠ []) (hlen : (pathText names).length < DOS_PATHLENGTH) :
    ∃ result d' c n, Reads v d d' ∧ Stops t dir_ok 0 names c n ∧
      (∃ N, ∀ fuel ≥ N, v.getFileDirEntry fuel (pathText names) dir_ok d = some (result, d')) ∧
      ∀ r, result = some r ↔ IsLast t dir_ok c n r := by
  obtain ⟨c, n, d₁, hreads, hstops, hc, N, hwalk⟩ :=
    fileDirLoop_spec dir_ok names hne [] 0 (t := t) hdisk hd t.root
  obtain ⟨res, dta, d₂, hreads', hfinds, N', hlast⟩ :=
    lookup_spec (t := t) (hreads.disk.trans hdisk) (hreads.table hd) hc n
      fun _ he => (passes_fileAttributes.1 he).1
  refine ⟨res.map fun e => (e, c, u32 (dta.dirID.toNat + 2 ^ 32 - 1)), d₂, c, n,
    hreads.trans hreads', hstops, ⟨max N N', fun fuel hfuel => ?_⟩, fun r => isLast_iff hc hfinds⟩
  have hfirst := hwalk fuel (le_trans (le_max_left N N') hfuel)
  have hsecond := hlast fuel (le_trans (le_max_right N N') hfuel)
  rw [fileAttributes] at hsecond
  rw [Volume.getFileDirEntry, namesRoot_pathText hne hlen, tokens_pathText hne hlen]
  simp only [Bool.false_eq_true, if_false, hfirst, Option.bind_eq_bind, Option.bind_some, hsecond]
  cases res <;> rfl

/-- **Paths are resolved** to the entry that they name, with the cluster of its directory and its
number there, except for the paths that have a file or a hidden directory in the middle and for
those of directories that have a file of their own name in them. -/
theorem getFileDirEntry_resolves_iff (v : Volume) (d : Drive) (t : Tree v d.disk)
    (names : List Name83) (dir_ok : Bool) (hd : v.Coherent d) (hne : names ≠ [])
    (hlen : (pathText names).length < DOS_PATHLENGTH) :
    ∃ result d', d'.disk = d.disk ∧
      (∃ N, ∀ fuel ≥ N, v.getFileDirEntry fuel (pathText names) dir_ok d = some (result, d')) ∧
      ((∀ r, result = some r ↔ t.Resolves dir_ok 0 names r) ↔ ¬ t.Deviates dir_ok 0 names) := by
  obtain ⟨result, d', c, n, hreads, hstops, hrun, hresult⟩ :=
    getFileDirEntry_stops t dir_ok rfl hd hne hlen
  refine ⟨result, d', hreads.disk, hrun, ?_⟩
  rw [← hstops.agrees_iff t.root]
  exact forall_congr' fun r => iff_congr (hresult r) Iff.rfl

/-! ## A small volume -/

theorem Named.unique_of_nodup {es : List Direntry}
    (h : (es.map fun e => e.entryname.toList.map toupper).Nodup) {n : Name83} {e f : Direntry}
    {i j : ℕ}
    (hi : Named es n e i) (hj : Named es n f j) : i = j := by
  obtain ⟨hilt, hget⟩ := List.getElem?_eq_some_iff.1 hi.get
  obtain ⟨hjlt, hget'⟩ := List.getElem?_eq_some_iff.1 hj.get
  have hname : e.entryname.toList.map toupper = f.entryname.toList.map toupper :=
    hi.name.trans hj.name.symm
  have hilt' : i < (es.map fun e => e.entryname.toList.map toupper).length := by simpa using hilt
  have hjlt' : j < (es.map fun e => e.entryname.toList.map toupper).length := by simpa using hjlt
  have hinj := List.nodup_iff_injective_get.1 h
  have heq := @hinj ⟨i, hilt'⟩ ⟨j, hjlt'⟩ (by simpa [hget, hget'] using hname)
  exact congrArg Fin.val heq

def nameA : Name83 :=
  ⟨[0x41], [], by decide, by decide, by decide, List.forall_mem_singleton.2 (by decide),
    List.forall_mem_nil _⟩
def nameD : Name83 :=
  ⟨[0x44], [], by decide, by decide, by decide, List.forall_mem_singleton.2 (by decide),
    List.forall_mem_nil _⟩
def nameF : Name83 :=
  ⟨[0x46], [], by decide, by decide, by decide, List.forall_mem_singleton.2 (by decide),
    List.forall_mem_nil _⟩

def fileA : Direntry := { Direntry.empty with entryname := nameA.entryname }
def dirD : Direntry :=
  { Direntry.empty with
    entryname := nameD.entryname, attrib := FatAttributeFlags.Directory, loFirstClust := 2 }
def fileF : Direntry := { Direntry.empty with entryname := nameF.entryname }
def selfD : Direntry := { dirD with entryname := dotName }
def parentD : Direntry := { dirD with entryname := dotDotName, loFirstClust := 0 }

/-- A sector with these entries. -/
def sectorOf (es : List Direntry) : ByteMemory.Memory := fun k =>
  ((es.getD (k / 32) .empty).encode 0 fun _ => 0) (k % 32)

/-- A disk with a file `A` and a directory `D` in its root directory, and a file `F` in `D`. -/
def sampleDisk : Disk := fun sect =>
  if sect = 1 ∨ sect = 10 then fun k => if k = 3 then 0xff else if k = 4 then 0x0f else 0
  else if sect = 19 then sectorOf [fileA, dirD]
  else if sect = 33 then sectorOf [selfD, parentD, fileF]
  else fun _ => 0

theorem sample_root : Volume.entries floppy1440 sampleDisk 0 [] = [fileA, dirD] := by decide

theorem sample_dir : Volume.entries floppy1440 sampleDisk 2 [2] = [selfD, parentD, fileF] := by
  have hsector : ∀ p < 16, floppy1440.slotSector 2 [2] p = 33 := by decide
  have hslots : (List.range 16).map (floppy1440.slot sampleDisk 2 [2]) =
      (List.range 16).map (Volume.sectorEntry (sectorOf [selfD, parentD, fileF])) := by
    refine List.map_congr_left fun p hp => ?_
    rw [Volume.slot, hsector p (List.mem_range.1 hp)]
    rfl
  rw [Volume.entries, show floppy1440.slots 2 [2] = 16 from rfl, hslots]
  decide

theorem named_sample_root {n : Name83} {e : Direntry} {i : ℕ} (h : Named [fileA, dirD] n e i) :
    e = fileA ∨ e = dirD := by
  simpa using List.mem_of_getElem? h.get

/-- The directories of the disk. -/
def sampleTree : Tree floppy1440 sampleDisk where
  isDir c := c = 0 ∨ c = 2
  chain c := if c = 0 then [] else [2]
  depth c := c
  root := .inl rfl
  directory := by
    rintro c (rfl | rfl)
    · exact ⟨fun h => absurd rfl h, fun h => absurd rfl h⟩
    · have hsector : ∀ s < 1, floppy1440.chainSector [2] s ≠ 0 := by decide
      have hend : Volume.next floppy1440 sampleDisk 2 = none := by decide
      have htable : ∀ x ∈ [2], floppy1440.InTable x := by decide
      exact ⟨fun _ => ⟨rfl, hend, htable⟩, fun _ => hsector⟩
  short := by
    rintro c (rfl | rfl)
    · rw [if_pos rfl, sample_root]
      decide
    · rw [if_neg (by decide), sample_dir]
      decide
  wellNamed := by
    rintro c (rfl | rfl) e he - -
    · rw [if_pos rfl, sample_root] at he
      simp only [List.mem_cons, List.not_mem_nil, or_false] at he
      rcases he with rfl | rfl
      · exact .name nameA
      · exact .name nameD
    · rw [if_neg (by decide), sample_dir] at he
      simp only [List.mem_cons, List.not_mem_nil, or_false] at he
      rcases he with rfl | rfl | rfl
      · exact .dotName
      · exact .dotDotName
      · exact .name nameF
  unique := by
    rintro c (rfl | rfl) n e i f j hi hj
    · rw [if_pos rfl, sample_root] at hi hj
      exact hi.unique_of_nodup (by decide) hj
    · rw [if_neg (by decide), sample_dir] at hi hj
      exact hi.unique_of_nodup (by decide) hj
  child := by
    rintro c (rfl | rfl) n e i h hdir
    · rw [if_pos rfl, sample_root] at h
      rcases named_sample_root h with rfl | rfl
      · exact absurd hdir (by decide)
      · exact ⟨.inr rfl, by decide⟩
    · rw [if_neg (by decide), sample_dir] at h
      have hmem := List.mem_of_getElem? h.get
      simp only [List.mem_cons, List.not_mem_nil, or_false] at hmem
      rcases hmem with rfl | rfl | rfl
      · exact absurd h.name (not_hasName_of_head (by decide))
      · exact absurd h.name (not_hasName_of_head (by decide))
      · exact absurd hdir (by decide)

theorem getFileDirEntry_resolves_iff_sample :
    ∃ result d', d'.disk = sampleDisk ∧
      (∃ N, ∀ fuel ≥ N, floppy1440.getFileDirEntry fuel (pathText [nameD, nameF]) false
        (.mounted sampleDisk) = some (result, d')) ∧
      ((∀ r, result = some r ↔ sampleTree.Resolves false 0 [nameD, nameF] r) ↔
        ¬ sampleTree.Deviates false 0 [nameD, nameF]) :=
  getFileDirEntry_resolves_iff floppy1440 (.mounted sampleDisk) sampleTree [nameD, nameF] false
    (Volume.mounted_coherent _ (by decide)) (by decide) (by decide)

/-- **A file in the middle of a path**: `A\F` is resolved to the file `A`, and names nothing. -/
theorem resolved_to_file_in_middle :
    (∀ fuel, (floppy1440.getFileDirEntry (fuel + 1) (pathText [nameA, nameF]) false
        (.mounted sampleDisk)).map Prod.fst = some (some (fileA, 0, 0))) ∧
      ∀ r, ¬ sampleTree.Resolves false 0 [nameA, nameF] r := by
  constructor
  · intro fuel
    rfl
  · intro r hres
    cases hres with
    | step hnamed hdir _ =>
      have hes : sampleTree.entries 0 = [fileA, dirD] := sample_root
      rw [hes] at hnamed
      rcases named_sample_root hnamed with rfl | rfl
      · exact absurd hdir (by decide)
      · exact absurd hnamed.name (by decide)

end AugraDosbox.Fat
