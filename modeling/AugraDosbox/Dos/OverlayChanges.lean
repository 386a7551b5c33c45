import AugraDosbox.Dos.OverlayView

/-!
# What the calls do to an overlay drive

The other changes that calls are made of, each with what becomes of the invariant and of the
tree that is seen.

* `Sound.remove_deleted_path` — a directory of the base comes back;
* `Sound.update_cache` — the lists are read again: nobody sees that, although the list of
  removed paths may have become shorter;
* `Sound.put_file`, `Sound.put_dir`, `Sound.erase_file`, `Sound.erase_dir` — changes of the
  overlay;
* `Sound.setFile`, `Sound.setStore` — changes of the open files and of what is in the files.
-/

namespace AugraDosbox

open FileTree

namespace OverlayDrive

variable {d : OverlayDrive}

/-! ## A directory of the base comes back -/

/-- The drive without the note that a directory of the base has been removed. -/
def forgetPath (d : OverlayDrive) (p : DosPath) : OverlayDrive :=
  { d with
    deleted_paths_in_base := d.deleted_paths_in_base.erase p
    deleted_files_in_base := d.deleted_files_in_base.erase p
    specials := d.specials.filter (· ≠ (SpecialOperation.RMD, p)) }

theorem remove_deleted_path_eq {p : DosPath} (hmem : p ∈ d.deleted_paths_in_base) :
    d.remove_deleted_path p true = d.forgetPath p := by
  unfold remove_deleted_path remove_deleted_file
  simp only [if_pos hmem, if_true]
  split
  · rfl
  · rename_i hnot
    have herase : d.deleted_files_in_base.erase p = d.deleted_files_in_base :=
      List.erase_of_not_mem hnot
    unfold forgetPath
    rw [herase]
    rfl

theorem mem_forgetPath_specials {p : DosPath} {s : SpecialOperation × DosPath} :
    s ∈ (d.forgetPath p).specials ↔ s ∈ d.specials ∧ s ≠ (.RMD, p) := by
  simp [forgetPath]

namespace Sound

variable {p : DosPath}

theorem mem_forgetPath_paths (h : d.Sound) {q : DosPath} :
    q ∈ (d.forgetPath p).deleted_paths_in_base ↔ q ≠ p ∧ q ∈ d.deleted_paths_in_base :=
  h.nodup_paths.mem_erase_iff

theorem mem_forgetPath_files (h : d.Sound) {q : DosPath} :
    q ∈ (d.forgetPath p).deleted_files_in_base ↔ q ≠ p ∧ q ∈ d.deleted_files_in_base :=
  h.nodup_files.mem_erase_iff

/-- The other directories of the base are noted as before, when those in `p` are all noted
themselves. -/
theorem is_deleted_path_forgetPath (h : d.Sound)
    (hdirs : ∀ n, d.base (p ++ [n]) = some .dir → p ++ [n] ∈ d.deleted_paths_in_base)
    {q : DosPath} (hq : q ≠ p) (hb : d.base q = some .dir) :
    (d.forgetPath p).is_deleted_path q = d.is_deleted_path q := by
  rw [Bool.eq_iff_iff, is_deleted_path_iff, is_deleted_path_iff]
  constructor
  · rintro ⟨hne, entry, hentry, hle⟩
    exact ⟨hne, entry, (h.mem_forgetPath_paths.mp hentry).2, hle⟩
  · rintro ⟨hne, entry, hentry, hle⟩
    by_cases hep : entry = p
    · -- then `q` is below `p`, and what leads to it from there is noted
      subst hep
      obtain ⟨rest, rfl⟩ := hle
      rcases rest with _ | ⟨m, rest⟩
      · exact absurd (List.append_nil entry) hq
      · have hlong : entry ++ [m] <+: entry ++ m :: rest := ⟨rest, by simp⟩
        have hchild : d.base (entry ++ [m]) = some .dir := by
          by_cases hrest : entry ++ [m] = entry ++ m :: rest
          · rw [hrest]
            exact hb
          · exact Tree.above_of_parent h.base_parent (by simp [hb]) hlong hrest
        exact ⟨hne, entry ++ [m], h.mem_forgetPath_paths.mpr ⟨by simp, hdirs m hchild⟩, hlong⟩
    · exact ⟨hne, entry, h.mem_forgetPath_paths.mpr ⟨hep, hentry⟩, hle⟩

/-- A removed path that leads to `p`, and is not `p`, leads to its parent. -/
theorem leading_deleted (h : d.Sound) {entry : DosPath} (hentry : entry ∈ d.deleted_paths_in_base)
    (hle : entry <+: p) (hne : entry ≠ p) : d.is_deleted_path p.dropLast = true := by
  have hroot : p ≠ [] := by
    rintro rfl
    exact hne (List.prefix_nil.mp hle)
  have hsplit := List.dropLast_concat_getLast hroot
  rw [← hsplit] at hle
  have hup : entry <+: p.dropLast := (List.prefix_concat_iff.mp hle).resolve_left
    (by rw [hsplit]; exact hne)
  refine is_deleted_path_iff.mpr ⟨?_, entry, hentry, hup⟩
  intro hnil
  rw [hnil] at hup
  have hdel := (h.special_path entry (h.path_special entry hentry)).1
  rw [List.prefix_nil.mp hup] at hdel
  exact absurd hdel (by simp [is_deleted_path_root])

/-- A directory of the base that has been removed comes back, empty. -/
theorem remove_deleted_path (h : d.Sound) (hmem : p ∈ d.deleted_paths_in_base)
    (hfile : ∀ n, d.stat p ≠ some (.file n)) (hlead : d.is_deleted_path p.dropLast = false)
    (hdirs : ∀ n, d.base (p ++ [n]) = some .dir → p ++ [n] ∈ d.deleted_paths_in_base) :
    (d.remove_deleted_path p true).Sound ∧ (d.remove_deleted_path p true).base = d.base ∧
      (d.remove_deleted_path p true).tree = d.tree.setNode p (some .dir) := by
  obtain ⟨hdel, hb⟩ := h.special_path p (h.path_special p hmem)
  have hroot : p ≠ [] := (is_deleted_path_iff.mp hdel).1
  have hkept := fun q => @is_deleted_path_forgetPath d p h hdirs q
  rw [remove_deleted_path_eq hmem]
  refine ⟨?_, rfl, ?_⟩
  · exact { h with
      hidden_dir := by
        intro q n hn hbq
        rw [hkept q ?_ hbq]
        · exact h.hidden_dir q n hn hbq
        · rintro rfl
          exact hfile n hn
      hidden_file := by
        intro q hq hbq
        refine h.mem_forgetPath_files.mpr ⟨?_, h.hidden_file q hq hbq⟩
        rintro rfl
        exact IsBaseFile.ne_dir hbq hb
      deleted_dir := by
        intro q hq hbq
        obtain ⟨hqp, hq⟩ := h.mem_forgetPath_files.mp hq
        rw [hkept q hqp hbq]
        exact h.deleted_dir q hq hbq
      path_special := by
        intro q hq
        obtain ⟨hqp, hq⟩ := h.mem_forgetPath_paths.mp hq
        exact mem_forgetPath_specials.mpr ⟨h.path_special q hq, by simpa using hqp⟩
      special_path := by
        intro q hq
        obtain ⟨hq, hqp⟩ := mem_forgetPath_specials.mp hq
        obtain ⟨hdelq, hbq⟩ := h.special_path q hq
        exact ⟨(hkept q (by simpa using hqp) hbq).trans hdelq, hbq⟩
      special_file := fun q hq => h.special_file q (mem_forgetPath_specials.mp hq).1
      file_special := by
        intro q hbq
        have hqp : q ≠ p := by
          rintro rfl
          exact IsBaseFile.ne_dir hbq hb
        rw [h.mem_forgetPath_files, mem_forgetPath_specials, h.file_special q hbq]
        simp [hqp]
      nodup_files := h.nodup_files.erase p
      nodup_paths := h.nodup_paths.erase p }
  · refine tree_setNode ?_ ?_ rfl rfl rfl
    · have hback : (d.forgetPath p).is_deleted_path p = false := by
        by_contra hne
        rw [Bool.not_eq_false] at hne
        obtain ⟨-, entry, hentry, hle⟩ := is_deleted_path_iff.mp hne
        obtain ⟨hep, hentry⟩ := h.mem_forgetPath_paths.mp hentry
        rw [h.leading_deleted hentry hle hep] at hlead
        exact absurd hlead (by simp)
      rcases hs : d.stat p with _ | _ | n
      · rw [view_base_dir (d := d.forgetPath p) hs hb, hback]
        rfl
      · rw [view_overlay_dir (d := d.forgetPath p) hs, hback]
        simp
      · exact absurd hs (hfile n)
    · intro q hq
      refine view_congr rfl rfl (fun _ => ?_) fun hbq => hkept q hq hbq
      rw [Bool.eq_iff_iff, is_deleted_file_iff, is_deleted_file_iff, h.mem_forgetPath_files]
      simp [hq]

end Sound

/-! ## The lists are read again -/

/-- `r` is `d` after the special files `l` have been read. -/
structure HasRead (l : List (SpecialOperation × DosPath)) (d r : OverlayDrive) : Prop where
  same : r = { d with
    deleted_files_in_base := r.deleted_files_in_base
    deleted_paths_in_base := r.deleted_paths_in_base }
  path_iff : ∀ q, r.is_deleted_path q = true ↔
    d.is_deleted_path q = true ∨ (q ≠ [] ∧ ∃ entry, (.RMD, entry) ∈ l ∧ entry <+: q)
  paths : ∀ q ∈ r.deleted_paths_in_base, q ∈ d.deleted_paths_in_base ∨ (.RMD, q) ∈ l
  files : ∀ q ∈ r.deleted_files_in_base,
    q ∈ d.deleted_files_in_base ∨ (.DEL, q) ∈ l ∨ (.RMD, q) ∈ l
  kept : ∀ q ∈ d.deleted_files_in_base, q ∈ r.deleted_files_in_base
  read : ∀ q, (.DEL, q) ∈ l → q ∈ r.deleted_files_in_base
  nodup_files : d.deleted_files_in_base.Nodup → r.deleted_files_in_base.Nodup
  nodup_paths : d.deleted_paths_in_base.Nodup → r.deleted_paths_in_base.Nodup

theorem HasRead.refl (d : OverlayDrive) : HasRead [] d d where
  same := rfl
  path_iff := by simp
  paths := fun _ hq => .inl hq
  files := fun _ hq => .inl hq
  kept := fun _ hq => hq
  read := by simp
  nodup_files := id
  nodup_paths := id

theorem HasRead.trans {l l' : List (SpecialOperation × DosPath)} {r r' : OverlayDrive}
    (h : HasRead l d r) (h' : HasRead l' r r') : HasRead (l ++ l') d r' where
  same := by
    have hsame := h'.same
    rw [h.same] at hsame
    exact hsame
  path_iff := by
    intro q
    rw [h'.path_iff, h.path_iff, or_assoc]
    refine or_congr_right ?_
    simp only [List.mem_append, or_and_right, exists_or, and_or_left]
  paths := by
    intro q hq
    rw [List.mem_append]
    rcases h'.paths q hq with hq | hq
    · exact (h.paths q hq).imp_right .inl
    · exact .inr (.inr hq)
  files := by
    intro q hq
    simp only [List.mem_append]
    rcases h'.files q hq with hq | hq | hq
    · exact (h.files q hq).imp_right (Or.imp .inl .inl)
    · exact .inr (.inl (.inr hq))
    · exact .inr (.inr (.inr hq))
  kept := fun q hq => h'.kept q (h.kept q hq)
  read := by
    intro q hq
    rcases List.mem_append.mp hq with hq | hq
    · exact h'.kept q (h.read q hq)
    · exact h'.read q hq
  nodup_files := fun hn => h'.nodup_files (h.nodup_files hn)
  nodup_paths := fun hn => h'.nodup_paths (h.nodup_paths hn)

/-- A path that is put on the list of removed files, unless it is there. -/
theorem mem_noted {l : List DosPath} {p q : DosPath} :
    q ∈ (if p ∈ l then l else l ++ [p]) ↔ q ∈ l ∨ q = p := by
  split
  · rename_i hmem
    exact ⟨.inl, fun hq => hq.elim id fun heq => heq ▸ hmem⟩
  · rw [List.mem_append, List.mem_singleton]

theorem nodup_noted {l : List DosPath} {p : DosPath} (hl : l.Nodup) :
    (if p ∈ l then l else l ++ [p]).Nodup := by
  split
  · exact hl
  · rename_i hnot
    exact nodup_snoc hl hnot

theorem hasRead_file {p : DosPath} (hroot : p ≠ []) :
    HasRead [(.DEL, p)] d (readSpecial d (.DEL, p)) := by
  have hread : readSpecial d (.DEL, p) = _ := add_deleted_file_false hroot
  rw [hread]
  constructor
  case same => rfl
  case path_iff => simp [is_deleted_path]
  case paths => exact fun q hq => .inl hq
  case files =>
    intro q hq
    rcases mem_noted.mp hq with hq | rfl
    · exact .inl hq
    · exact .inr (.inl (List.mem_singleton_self _))
  case kept => exact fun q hq => mem_noted.mpr (.inl hq)
  case read =>
    intro q hq
    exact mem_noted.mpr (.inr (Prod.ext_iff.mp (List.mem_singleton.mp hq)).2)
  case nodup_files => exact nodup_noted
  case nodup_paths => exact id

theorem hasRead_path {p : DosPath} (hroot : p ≠ []) :
    HasRead [(.RMD, p)] d (readSpecial d (.RMD, p)) := by
  change HasRead _ d (d.add_deleted_path p false)
  unfold add_deleted_path
  rw [if_neg hroot]
  by_cases hdel : d.is_deleted_path p = true
  · -- something that leads to the path has been read before, and it is left out
    rw [if_pos hdel]
    constructor
    case same => rfl
    case path_iff =>
      intro q
      refine ⟨.inl, fun hq => hq.elim id ?_⟩
      rintro ⟨hne, entry, hentry, hle⟩
      obtain rfl : entry = p := (Prod.ext_iff.mp (List.mem_singleton.mp hentry)).2
      obtain ⟨-, entry', hentry', hle'⟩ := is_deleted_path_iff.mp hdel
      exact is_deleted_path_iff.mpr ⟨hne, entry', hentry', hle'.trans hle⟩
    case paths => exact fun q hq => .inl hq
    case files => exact fun q hq => .inl hq
    case kept => exact fun q hq => hq
    case read => simp
    case nodup_files => exact id
    case nodup_paths => exact id
  · rw [if_neg hdel]
    simp only [Bool.false_eq_true, if_false]
    rw [add_deleted_file_false hroot]
    constructor
    case same => rfl
    case path_iff =>
      intro q
      refine (is_deleted_path_notePath (d := d) (p := p)).trans (or_congr_right ?_)
      simp
    case paths =>
      intro q hq
      refine (List.mem_append.mp hq).imp_right fun hq => ?_
      rw [List.mem_singleton.mp hq]
      exact List.mem_singleton_self _
    case files =>
      intro q hq
      rcases mem_noted.mp hq with hq | rfl
      · exact .inl hq
      · exact .inr (.inr (List.mem_singleton_self _))
    case kept => exact fun q hq => mem_noted.mpr (.inl hq)
    case read => simp
    case nodup_files => exact nodup_noted
    case nodup_paths =>
      intro hn
      exact nodup_snoc hn fun hmem =>
        hdel (is_deleted_path_iff.mpr ⟨hroot, p, hmem, List.prefix_rfl⟩)

/-- All special files are read.  The induction is on the list of them. -/
theorem hasRead_all (l : List (SpecialOperation × DosPath)) (d : OverlayDrive)
    (hroot : ∀ s ∈ l, s.2 ≠ []) : HasRead l d (l.foldl readSpecial d) := by
  induction l generalizing d with
  | nil => exact .refl d
  | cons s l ih =>
    have hrest := ih (readSpecial d s) fun s' hs' => hroot s' (List.mem_cons_of_mem _ hs')
    have hne := hroot s List.mem_cons_self
    obtain ⟨operation, p⟩ := s
    cases operation with
    | DEL => exact (hasRead_file hne).trans hrest
    | RMD => exact (hasRead_path hne).trans hrest

/-- The directories that only the overlay has. -/
theorem readDirs (l : List DosPath) (d : OverlayDrive) (hn : d.DOSdirs_cache.Nodup) :
    ∃ dirs : List DosPath, dirs.Nodup ∧
      (∀ p, p ∈ dirs ↔ p ∈ d.DOSdirs_cache ∨ (p ∈ l ∧ p ≠ [] ∧ d.base p ≠ some .dir)) ∧
      l.foldl (fun d dir => if d.baseTestDir dir then d else d.add_DOSdir_to_cache dir) d =
        { d with DOSdirs_cache := dirs } := by
  induction l generalizing d with
  | nil => exact ⟨d.DOSdirs_cache, hn, by simp, rfl⟩
  | cons dir l ih =>
    have hstep : ∃ dirs : List DosPath, dirs.Nodup ∧
        (∀ p, p ∈ dirs ↔ p ∈ d.DOSdirs_cache ∨ (p = dir ∧ p ≠ [] ∧ d.base p ≠ some .dir)) ∧
        (if d.baseTestDir dir then d else d.add_DOSdir_to_cache dir) =
          { d with DOSdirs_cache := dirs } := by
      by_cases hb : d.base dir = some .dir
      · rw [if_pos (baseTestDir_iff.mpr hb)]
        refine ⟨d.DOSdirs_cache, hn, fun p => ⟨.inl, fun hp => hp.elim id ?_⟩, rfl⟩
        rintro ⟨rfl, -, hne⟩
        exact absurd hb hne
      · rw [if_neg fun hdir => hb (baseTestDir_iff.mp hdir)]
        unfold add_DOSdir_to_cache
        by_cases hroot : dir = []
        · rw [if_pos hroot]
          refine ⟨d.DOSdirs_cache, hn, fun p => ⟨.inl, fun hp => hp.elim id ?_⟩, rfl⟩
          rintro ⟨rfl, hne, -⟩
          exact absurd hroot hne
        · rw [if_neg hroot]
          by_cases honly : d.is_dir_only_in_overlay dir = true
          · rw [if_pos honly]
            refine ⟨d.DOSdirs_cache, hn, fun p => ⟨.inl, fun hp => hp.elim id ?_⟩, rfl⟩
            rintro ⟨rfl, -, -⟩
            exact (is_dir_only_in_overlay_iff.mp honly).2
          · rw [if_neg honly]
            refine ⟨_, nodup_snoc hn fun hmem =>
              honly (is_dir_only_in_overlay_iff.mpr ⟨hroot, hmem⟩), fun p => ?_, rfl⟩
            rw [List.mem_append, List.mem_singleton]
            refine or_congr_right ⟨?_, fun hp => hp.1⟩
            rintro rfl
            exact ⟨rfl, hroot, hb⟩
    obtain ⟨dirs, hdirs, hmem, hstep⟩ := hstep
    obtain ⟨dirs', hdirs', hmem', hrest⟩ := ih { d with DOSdirs_cache := dirs } hdirs
    refine ⟨dirs', hdirs', fun p => ?_, ?_⟩
    · rw [hmem', hmem, or_assoc, List.mem_cons, or_and_right]
    · rw [List.foldl_cons, hstep]
      exact hrest

theorem mem_specialsRead {s : SpecialOperation × DosPath} : s ∈ d.specialsRead ↔ s ∈ d.specials :=
  (List.perm_insertionSort _ d.specials).mem_iff

theorem mem_overlayDirs {p : DosPath} (hroot : p ≠ []) :
    p ∈ d.overlayDirs ↔ d.stat p = some .dir := by
  unfold overlayDirs
  rw [List.mem_filter, decide_eq_true_iff]
  refine ⟨fun h => h.2, fun h => ⟨?_, h⟩⟩
  have hlookup : d.overlay.lookup p = some .dir := by
    unfold stat at h
    rwa [if_neg hroot] at h
  refine AList.mem_keys.mp (AList.lookup_isSome.mp ?_)
  rw [hlookup]
  rfl

namespace Sound

theorem special_ne_root (h : d.Sound) : ∀ s ∈ d.specials, s.2 ≠ [] := by
  rintro ⟨operation, p⟩ hs
  cases operation with
  | DEL => exact (h.special_file p hs).ne_root h
  | RMD => exact (is_deleted_path_iff.mp (h.special_path p hs).1).1

theorem update_cache_eq (h : d.Sound) :
    ∃ dirs files paths : List DosPath,
      d.update_cache = { d with
        DOSdirs_cache := dirs, deleted_files_in_base := files, deleted_paths_in_base := paths } ∧
      dirs.Nodup ∧ (∀ p, p ∈ dirs ↔ d.stat p = some .dir ∧ d.base p ≠ some .dir) ∧
      files.Nodup ∧ paths.Nodup ∧ (∀ p ∈ paths, (.RMD, p) ∈ d.specials) ∧
      (∀ p ∈ files, (.DEL, p) ∈ d.specials ∨ (.RMD, p) ∈ d.specials) ∧
      (∀ p, (.DEL, p) ∈ d.specials → p ∈ files) ∧
      ∀ p, d.update_cache.is_deleted_path p = true ↔
        p ≠ [] ∧ ∃ entry, (.RMD, entry) ∈ d.specials ∧ entry <+: p := by
  obtain ⟨dirs, hdirs, hmem, hread⟩ := readDirs d.overlayDirs { d with
    DOSdirs_cache := [], deleted_files_in_base := [], deleted_paths_in_base := [] } List.nodup_nil
  have hall := hasRead_all d.specialsRead { d with
    DOSdirs_cache := dirs, deleted_files_in_base := [], deleted_paths_in_base := [] }
    fun s hs => h.special_ne_root s (mem_specialsRead.mp hs)
  have hupdate : d.update_cache = d.specialsRead.foldl readSpecial { d with
      DOSdirs_cache := dirs, deleted_files_in_base := [], deleted_paths_in_base := [] } := by
    unfold OverlayDrive.update_cache
    dsimp only
    rw [hread]
  rw [← hupdate] at hall
  refine ⟨dirs, d.update_cache.deleted_files_in_base, d.update_cache.deleted_paths_in_base,
    hall.same, hdirs, ?_, hall.nodup_files List.nodup_nil, hall.nodup_paths List.nodup_nil, ?_, ?_, ?_, ?_⟩
  · intro p
    rw [hmem]
    constructor
    · rintro (hp | ⟨hp, hroot, hb⟩)
      · exact absurd hp List.not_mem_nil
      · exact ⟨(mem_overlayDirs hroot).mp hp, hb⟩
    · rintro ⟨hs, hb⟩
      have hroot : p ≠ [] := by
        rintro rfl
        exact hb h.base_root
      exact .inr ⟨(mem_overlayDirs hroot).mpr hs, hroot, hb⟩
  · intro p hp
    exact mem_specialsRead.mp ((hall.paths p hp).resolve_left List.not_mem_nil)
  · intro p hp
    rw [← mem_specialsRead, ← mem_specialsRead]
    exact (hall.files p hp).resolve_left List.not_mem_nil
  · exact fun p hp => hall.read p (mem_specialsRead.mpr hp)
  · intro p
    rw [hall.path_iff]
    simp only [mem_specialsRead]
    refine or_iff_right ?_
    simp [is_deleted_path]

/-- The drive reads its lists again, and nobody sees that. -/
theorem update_cache (h : d.Sound) :
    d.update_cache.Sound ∧ d.update_cache.base = d.base ∧ d.update_cache.tree = d.tree := by
  obtain ⟨dirs, files, paths, heq, hdirs, hdirsmem, hfiles, hpaths, hpathsmem, hfilesmem, hfilesread,
    hcovered⟩ := h.update_cache_eq
  -- the same paths count as removed
  have hpath : ∀ p, d.update_cache.is_deleted_path p = d.is_deleted_path p := by
    intro p
    rw [Bool.eq_iff_iff, hcovered, is_deleted_path_iff]
    refine and_congr_right fun hroot => ⟨?_, ?_⟩
    · rintro ⟨entry, hentry, hle⟩
      obtain ⟨-, entry', hentry', hle'⟩ := is_deleted_path_iff.mp (h.special_path entry hentry).1
      exact ⟨entry', hentry', hle'.trans hle⟩
    · rintro ⟨entry, hentry, hle⟩
      exact ⟨entry, h.path_special entry hentry, hle⟩
  have hfile : ∀ p, d.IsBaseFile p → (p ∈ files ↔ p ∈ d.deleted_files_in_base) := by
    intro p hb
    rw [h.file_special p hb]
    refine ⟨fun hp => (hfilesmem p hp).resolve_right fun hrmd => ?_, hfilesread p⟩
    exact hb.ne_dir (h.special_path p hrmd).2
  rw [heq] at hpath ⊢
  refine ⟨?_, rfl, ?_⟩
  · exact { h with
      hidden_dir := by
        intro p n hn hb
        rw [hpath]
        exact h.hidden_dir p n hn hb
      hidden_file := fun p hs hb => (hfile p hb).mpr (h.hidden_file p hs hb)
      dirs_cache := hdirsmem
      deleted_dir := by
        intro p hp hb
        rw [hpath]
        refine (h.special_path p ((hfilesmem p hp).resolve_left fun hdel => ?_)).1
        exact (h.special_file p hdel).ne_dir hb
      path_special := hpathsmem
      special_path := by
        intro p hp
        rw [hpath]
        exact h.special_path p hp
      file_special := fun p hb => (hfile p hb).trans (h.file_special p hb)
      nodup_files := hfiles
      nodup_paths := hpaths
      nodup_dirs := hdirs }
  · refine Tree.ext (funext fun p => ?_) rfl rfl rfl
    refine view_congr rfl rfl (fun hb => ?_) fun _ => hpath p
    rw [Bool.eq_iff_iff, is_deleted_file_iff, is_deleted_file_iff]
    exact and_congr_right fun _ => hfile p hb

end Sound

/-! ## The overlay changes -/

theorem stat_lookup {p : DosPath} (hroot : p ≠ []) : d.stat p = d.overlay.lookup p := if_neg hroot

theorem tree_stat {d' : OverlayDrive} {p : DosPath} {x : Option (Node (Inode String))}
    (hp : d'.view p = x) (hstat : ∀ q, q ≠ p → d'.stat q = d.stat q) (hbase : d'.base = d.base)
    (hfiles : d'.deleted_files_in_base = d.deleted_files_in_base)
    (hpaths : d'.deleted_paths_in_base = d.deleted_paths_in_base) (hcontent : d'.content = d.content)
    (hFiles : d'.Files = d.Files) (hnext : d'.next = d.next) : d'.tree = d.tree.setNode p x := by
  refine tree_setNode hp (fun q hq => ?_) hcontent hFiles hnext
  refine view_congr (hstat q hq) (congrFun hbase q) (fun _ => ?_) fun _ => ?_
  · unfold is_deleted_file
    rw [hfiles]
  · unfold is_deleted_path
    rw [hpaths]

namespace Sound

variable {p : DosPath}

/-- Something else is at one path of the overlay, and the list of the directories that only
the overlay has is brought up to date. -/
theorem restat (h : d.Sound) (hroot : p ≠ []) {overlay : AList fun _ : DosPath => OverlayNode}
    {dirs : List DosPath} {x : Option OverlayNode}
    (hstat : stat { d with overlay := overlay, DOSdirs_cache := dirs } = Function.update d.stat p x)
    (hup : x ≠ none → d.stat p.dropLast = some .dir)
    (hdown : x ≠ some .dir → ∀ q, q ≠ [] → q.dropLast = p → d.stat q = none)
    (hfile : ∀ n, x = some (.file n) → n < d.next ∧
      (d.base p = some .dir → d.is_deleted_path p = true))
    (hdir : x = some .dir → d.IsBaseFile p → p ∈ d.deleted_files_in_base)
    (hself : p ∈ dirs ↔ x = some .dir ∧ d.base p ≠ some .dir)
    (hcache : ∀ q, q ≠ p → (q ∈ dirs ↔ q ∈ d.DOSdirs_cache)) (hnodup : dirs.Nodup) :
    Sound { d with overlay := overlay, DOSdirs_cache := dirs } := by
  generalize hd' : { d with overlay := overlay, DOSdirs_cache := dirs } = d' at hstat
  have hat : d'.stat p = x := by
    rw [hstat, Function.update_self]
  have hother : ∀ q, q ≠ p → d'.stat q = d.stat q := by
    intro q hq
    rw [hstat, Function.update_of_ne hq]
  subst hd'
  exact { h with
    overlay_parent := by
      intro q hq
      by_cases hqp : q = p
      · subst hqp
        rw [hat] at hq
        have hne : q.dropLast ≠ q := by
          intro heq
          have hlength := congrArg List.length heq
          rw [List.length_dropLast] at hlength
          have hpos := List.length_pos_iff.mpr hroot
          omega
        rw [hother _ hne]
        exact hup hq
      · rw [hother q hqp] at hq
        by_cases hparent : q.dropLast = p
        · rw [hparent, hat]
          by_contra hx
          refine hq (hdown hx q ?_ hparent)
          rintro rfl
          exact hroot hparent.symm
        · rw [hother _ hparent]
          exact h.overlay_parent q hq
    hidden_dir := by
      intro q n hn hb
      by_cases hqp : q = p
      · subst hqp
        exact (hfile n (hat ▸ hn)).2 hb
      · rw [hother q hqp] at hn
        exact h.hidden_dir q n hn hb
    hidden_file := by
      intro q hq hb
      by_cases hqp : q = p
      · subst hqp
        exact hdir (hat ▸ hq) hb
      · rw [hother q hqp] at hq
        exact h.hidden_file q hq hb
    dirs_cache := by
      intro q
      by_cases hqp : q = p
      · subst hqp
        rw [hat]
        exact hself
      · rw [hother q hqp]
        exact (hcache q hqp).trans (h.dirs_cache q)
    nodup_dirs := hnodup
    overlay_older := by
      intro q n hn
      by_cases hqp : q = p
      · subst hqp
        exact (hfile n (hat ▸ hn)).1
      · rw [hother q hqp] at hn
        exact h.overlay_older q n hn }

/-- In the overlay there is nothing below what is not a directory. -/
theorem overlay_below (h : d.Sound) (hs : d.stat p ≠ some .dir) :
    ∀ q, q ≠ [] → q.dropLast = p → d.stat q = none := by
  intro q _ hq
  by_contra hne
  exact hs (hq ▸ h.overlay_parent q hne)

theorem put_file {n : ℕ} (h : d.Sound) (hs : d.stat p ≠ some .dir)
    (hparent : d.stat p.dropLast = some .dir)
    (hb : d.base p = some .dir → d.is_deleted_path p = true) (hn : n < d.next) :
    Sound { d with overlay := d.overlay.insert p (.file n) } ∧
      tree { d with overlay := d.overlay.insert p (.file n) } =
        d.tree.setNode p (some (.file (.made n))) := by
  have hroot : p ≠ [] := ne_root_of_stat hs
  have hstat := stat_insert (d := d) hroot (.file n)
  refine ⟨h.restat hroot hstat (fun _ => hparent) (fun _ => h.overlay_below hs) ?_ ?_ ?_
    (fun _ _ => Iff.rfl) h.nodup_dirs, tree_stat ?_ ?_ rfl rfl rfl rfl rfl rfl⟩
  · intro m hm
    obtain rfl : n = m := by simpa using hm
    exact ⟨hn, hb⟩
  · exact fun hx => absurd hx (by simp)
  · refine (h.dirs_cache p).trans ⟨fun hdir => absurd hdir.1 hs, fun hdir => ?_⟩
    exact absurd hdir.1 (by simp)
  · exact view_overlay_file (hstat ▸ Function.update_self ..)
  · exact fun q hq => hstat ▸ Function.update_of_ne hq ..

/-- A directory is put into the overlay, where the base has none. -/
theorem put_dir (h : d.Sound) (hs : d.stat p = none) (hparent : d.stat p.dropLast = some .dir)
    (hb : d.base p ≠ some .dir) (hfile : d.IsBaseFile p → p ∈ d.deleted_files_in_base) :
    Sound (add_DOSdir_to_cache { d with overlay := d.overlay.insert p .dir } p) ∧
      tree (add_DOSdir_to_cache { d with overlay := d.overlay.insert p .dir } p) =
        d.tree.setNode p (some .dir) := by
  have hroot : p ≠ [] := ne_root_of_stat (d := d) (by simp [hs])
  have hnot : p ∉ d.DOSdirs_cache := by
    rw [h.dirs_cache, hs]
    simp
  have hafter : add_DOSdir_to_cache { d with overlay := d.overlay.insert p .dir } p = { d with
      overlay := d.overlay.insert p .dir, DOSdirs_cache := d.DOSdirs_cache ++ [p] } := by
    unfold add_DOSdir_to_cache
    rw [if_neg hroot, if_neg]
    exact fun honly => hnot (is_dir_only_in_overlay_iff.mp honly).2
  have hstat : stat { d with
      overlay := d.overlay.insert p .dir, DOSdirs_cache := d.DOSdirs_cache ++ [p] } =
      Function.update d.stat p (some .dir) := stat_insert (d := d) hroot .dir
  rw [hafter]
  refine ⟨h.restat hroot hstat (fun _ => hparent) ?_ ?_ (fun _ => hfile) ?_ ?_
    (nodup_snoc h.nodup_dirs hnot), tree_stat ?_ ?_ rfl rfl rfl rfl rfl rfl⟩
  · exact fun hne => absurd rfl hne
  · exact fun m hm => absurd hm (by simp)
  · exact ⟨fun _ => ⟨rfl, hb⟩, fun _ => by simp⟩
  · intro q hq
    rw [List.mem_append, List.mem_singleton, or_iff_left hq]
  · exact (view_overlay_dir (hstat ▸ Function.update_self ..)).trans (if_neg fun hboth => hb hboth.1)
  · exact fun q hq => hstat ▸ Function.update_of_ne hq ..

/-- A file of the overlay goes.  What is seen then is what the base has. -/
theorem erase_file {n : ℕ} (h : d.Sound) (hs : d.stat p = some (.file n)) :
    Sound { d with overlay := d.overlay.erase p } ∧
      ∃ x, tree { d with overlay := d.overlay.erase p } = d.tree.setNode p x ∧
        (¬d.IsBaseFile p → x = none) := by
  have hnot : d.stat p ≠ some .dir := by simp [hs]
  have hroot : p ≠ [] := ne_root_of_stat hnot
  have hstat := stat_erase (d := d) hroot
  have hself : stat { d with overlay := d.overlay.erase p } p = none := by
    rw [hstat, Function.update_self]
  refine ⟨h.restat hroot hstat (fun hne => absurd rfl hne) (fun _ => h.overlay_below hnot) ?_ ?_ ?_
    (fun _ _ => Iff.rfl) h.nodup_dirs, _, tree_stat rfl ?_ rfl rfl rfl rfl rfl rfl, fun hbase => ?_⟩
  · exact fun m hm => absurd hm (by simp)
  · exact fun hx => absurd hx (by simp)
  · refine (h.dirs_cache p).trans ?_
    rw [hs]
    simp
  · exact fun q hq => hstat ▸ Function.update_of_ne hq ..
  · rcases d.base_cases p with hb | hb | hb
    · exact view_none (d := { d with overlay := d.overlay.erase p }) hself hb
    · refine (view_base_dir (d := { d with overlay := d.overlay.erase p }) hself hb).trans (if_pos ?_)
      exact h.hidden_dir p n hs hb
    · exact absurd hb hbase

/-- An empty directory of the overlay goes, where the base has none. -/
theorem erase_dir (h : d.Sound) (hroot : p ≠ []) (hs : d.stat p = some .dir)
    (hempty : ∀ q ∈ d.overlay.keys, q.dropLast ≠ p) (hb : d.base p ≠ some .dir) :
    Sound (remove_DOSdir_from_cache { d with overlay := d.overlay.erase p } p) ∧
      tree (remove_DOSdir_from_cache { d with overlay := d.overlay.erase p } p) =
        d.tree.setNode p none := by
  have hstat : stat (remove_DOSdir_from_cache { d with overlay := d.overlay.erase p } p) =
      Function.update d.stat p none := stat_erase (d := d) hroot
  have hself : stat (remove_DOSdir_from_cache { d with overlay := d.overlay.erase p } p) p = none := by
    rw [hstat, Function.update_self]
  refine ⟨h.restat hroot hstat (fun hne => absurd rfl hne) ?_ ?_ ?_ ?_ ?_ (h.nodup_dirs.erase p),
    tree_stat ?_ ?_ rfl rfl rfl rfl rfl rfl⟩
  · intro _ q hne hq
    by_contra hq'
    refine hempty q (AList.mem_keys.mp (AList.lookup_isSome.mp ?_)) hq
    rw [← stat_lookup hne]
    exact Option.isSome_iff_ne_none.mpr hq'
  · exact fun m hm => absurd hm (by simp)
  · exact fun hx => absurd hx (by simp)
  · rw [h.nodup_dirs.mem_erase_iff]
    simp
  · intro q hq
    exact h.nodup_dirs.mem_erase_iff.trans (and_iff_right hq)
  · rcases d.base_cases p with hbase | hbase | hbase
    · exact view_none (d := remove_DOSdir_from_cache _ p) hself hbase
    · exact absurd hbase hb
    · refine (view_base_file (d := remove_DOSdir_from_cache _ p) hself hbase).trans (if_pos ?_)
      exact is_deleted_file_iff.mpr ⟨hroot, h.hidden_file p hs hbase⟩
  · exact fun q hq => hstat ▸ Function.update_of_ne hq ..

/-! ## Open files and contents -/

/-- The invariant says this of an open file. -/
structure GoodFile (d : OverlayDrive) (f : OverlayFile) : Prop where
  older : f.file_handle.Older d.next
  base : ∀ p, f.file_handle = .ofBase p → f.name = p ∧ f.overlay_active = false
  made : ∀ n, f.file_handle = .made n → f.overlay_active = true
  flags : f.flags ≠ .invalid

theorem goodFile (h : d.Sound) {n : ℕ} {f : OverlayFile} (hf : d.Files n = some f) : GoodFile d f :=
  ⟨h.open_older n f hf, fun q => h.open_base n f q hf, fun m => h.open_made n f m hf,
    h.open_flags n f hf⟩

theorem setFile (h : d.Sound) (n : ℕ) {o : Option OverlayFile} (ho : ∀ f, o = some f → GoodFile d f) :
    (d.setFile n o).Sound ∧ (d.setFile n o).tree = d.tree.setFile n (o.map OverlayFile.toOpen) := by
  have hgood : ∀ m f, (d.setFile n o).Files m = some f → GoodFile d f := by
    intro m f hf
    change Function.update d.Files n o m = some f at hf
    by_cases hm : m = n
    · subst hm
      rw [Function.update_self] at hf
      exact ho f hf
    · rw [Function.update_of_ne hm] at hf
      exact h.goodFile hf
  refine ⟨?_, Tree.ext rfl rfl (funext fun m => ?_) rfl⟩
  · exact { h with
      open_older := fun m f hf => (hgood m f hf).older
      open_base := fun m f q hf => (hgood m f hf).base q
      open_made := fun m f k hf => (hgood m f hf).made k
      open_flags := fun m f hf => (hgood m f hf).flags }
  · change (Function.update d.Files n o m).map _ = Function.update (fun m => (d.Files m).map _) n _ m
    by_cases hm : m = n
    · subst hm
      rw [Function.update_self, Function.update_self]
    · rw [Function.update_of_ne hm, Function.update_of_ne hm]

/-- Neither what is in the files nor the numbers that are left matter. -/
theorem setStore (h : d.Sound) (store : ℕ → List UInt8) {next : ℕ} (hnext : d.next ≤ next) :
    Sound { d with store := store, next := next } :=
  { h with
    overlay_older := fun q m hm => Nat.lt_of_lt_of_le (h.overlay_older q m hm) hnext
    open_older := fun m f hf => (h.open_older m f hf).mono hnext }

end Sound

end OverlayDrive

end AugraDosbox
