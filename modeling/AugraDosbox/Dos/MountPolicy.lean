import AugraDosbox.Lib.PosixPath

/-!
# The mount policy of `dos/programs/mount_policy.cpp`

What host paths `MOUNT`, `IMGMOUNT` and the REST API can reach, as compiled on
POSIX hosts.  The file system is a parameter: canonicalisation, the type tests and
the content of files.

* `IsUnderAnyRoot_exact_iff` — when the separator check is the prefix relation of components.
* `directory_sound`, `image_sound` — an allowed path is inside the whitelist.
* `verdicts_sound` — both entry points, and every refusal has a reason.
-/

namespace AugraDosbox

open Posix

namespace MountPolicy

/-- `DenyReason`, without the reason that only Windows hosts give. -/
inductive DenyReason where
  | None
  | DoesNotResolve
  | NotRegularFile
  | SymlinkComponent
  | SystemPath
  | OutsideWhitelist
  | NotADiskImage
  | NotADirectory
  deriving DecidableEq, Repr

structure MountVerdict where
  allowed : Bool := false
  reason : DenyReason := .None
  resolved : Path := []
  deriving DecidableEq, Repr

inductive MountOrigin where
  | GuestCommand
  | Api
  deriving DecidableEq, Repr

inductive DirMountPolicy where
  | WhitelistEnforced
  | OwnerTrusted
  deriving DecidableEq, Repr

/-- The file system as the policy sees it.  The tests are `none` when the path
cannot be examined. -/
structure FileSystem where
  /-- `CanonicalizeExisting`, that is `std::filesystem::canonical`. -/
  canonical : Path → Option Path
  is_symlink : Path → Option Bool
  is_directory : Path → Option Bool
  is_regular_file : Path → Option Bool
  /-- The content of a file, if it can be read. -/
  content : Path → Option (List UInt8)

variable (fs : FileSystem)

/-! ## Primitives -/

/-- The loop of `HasSymlinkComponent`. -/
def symlinkLoop (root : Path) : List Path → Path → Bool
  | [], _ => false
  | component :: rest, accumulated =>
      let accumulated := append accumulated component
      -- root components are never symlinks
      if same accumulated root then symlinkLoop root rest accumulated
      else
        match fs.is_symlink accumulated with
        | some false => symlinkLoop root rest accumulated
        | _ => true

/-- `HasSymlinkComponent`.  A component that cannot be examined counts as one. -/
def HasSymlinkComponent (path : Path) : Bool :=
  symlinkLoop fs (root_path path) (components path) []

def IsBareRoot (canonical_path : Path) : Bool := same canonical_path ['/']

/-- The separator check of `IsUnderSystemPath` and `IsUnderAnyRoot`: the path is
`dir`, or starts with it and goes on with a separator. -/
def isUnder (canonical_str dir : Path) : Bool :=
  canonical_str == dir ||
    (decide (dir.length < canonical_str.length) && dir.isPrefixOf canonical_str &&
      canonical_str[dir.length]? == some '/')

def SystemPaths : List Path :=
  ["/", "/bin", "/boot", "/dev", "/etc", "/lib", "/lib32", "/lib64", "/libx32", "/proc", "/root",
    "/run", "/sbin", "/snap", "/sys", "/usr", "/var"].map String.toList

def IsUnderSystemPath (canonical_path : Path) : Bool :=
  IsBareRoot canonical_path || SystemPaths.any (isUnder canonical_path)

def IsUnderAnyRoot (canonical_path : Path) (roots : List Path) : Bool :=
  roots.any (isUnder canonical_path)

/-- The roots of both entry points: the conf anchor, unless it is empty, and the
configured ones. -/
def allRoots (conf_anchor : Path) (roots : List Path) : List Path :=
  (if conf_anchor ≠ [] then [conf_anchor] else []) ++ roots

/-! ## Disk images -/

def IsKnownFloppySize (size : ℕ) : Bool :=
  size ∈ [163840, 184320, 204800, 327680, 368640, 409600, 737280, 1228800, 1474560, 1556480,
    1720320, 1761280, 1884160, 2949120]

/-- Reading `n` bytes at an offset, which fails behind the end of the file. -/
def readAt (content : List UInt8) (offset n : ℕ) : Option (List UInt8) :=
  let buf := (content.drop offset).take n
  if buf.length = n then some buf else none

/-- `CheckIso9660`: the letters CD001 in the primary volume descriptor. -/
def CheckIso9660 (content : List UInt8) : Bool :=
  readAt content 0x8001 5 == some [0x43, 0x44, 0x30, 0x30, 0x31]

def CheckFatBootSector (content : List UInt8) : Bool :=
  readAt content 510 2 == some [0x55, 0xAA]

/-- `CheckCueSheet`: some line starts with FILE behind blanks and tabs. -/
def CheckCueSheet (content : List UInt8) : Bool :=
  (content.splitOn 10).any fun line =>
    (line.dropWhile fun c => c == 32 || c == 9).take 4 == [0x46, 0x49, 0x4C, 0x45]

/-- The extension of the last component, with its dot. -/
def extension (path : Path) : Path :=
  let name := ((components path).getLast?).getD []
  let tail := name.reverse.takeWhile (· != '.')
  if name = ['.'] ∨ name = ['.', '.'] ∨ name.length ≤ tail.length + 1 then []
  else '.' :: tail.reverse

def ValidateDiskImageStructure (host_path : Path) : Bool :=
  match fs.content host_path with
  | none => false
  | some content =>
      if content.length = 0 then false
      else if extension host_path = ".cue".toList ∨ extension host_path = ".CUE".toList then
        CheckCueSheet content
      else if IsKnownFloppySize content.length then true
      else CheckIso9660 content || CheckFatBootSector content

/-! ## Policy entry points -/

def ValidateDirectoryMount (raw_path conf_anchor : Path) (allowed_bases : List Path)
    (policy : DirMountPolicy) : MountVerdict :=
  match fs.canonical raw_path with
  | none => { reason := .DoesNotResolve }
  | some canonical =>
      if HasSymlinkComponent fs raw_path then { reason := .SymlinkComponent, resolved := canonical }
      else if IsUnderSystemPath canonical then { reason := .SystemPath, resolved := canonical }
      else if fs.is_directory canonical ≠ some true then
        { reason := .NotADirectory, resolved := canonical }
      else if policy = .OwnerTrusted then { allowed := true, resolved := canonical }
      else if IsUnderAnyRoot canonical (allRoots conf_anchor allowed_bases) then
        { allowed := true, resolved := canonical }
      else { reason := .OutsideWhitelist, resolved := canonical }

/-- `ValidateImagePath`; `injection_possible` is the value of `IsInjectionPossible`. -/
def ValidateImagePath (injection_possible : Bool) (raw_path : Path) (origin : MountOrigin)
    (allowed_image_roots : List Path) (conf_anchor : Path) : MountVerdict :=
  match fs.canonical raw_path with
  | none => { reason := .DoesNotResolve }
  | some canonical =>
      if fs.is_regular_file canonical ≠ some true then
        { reason := .NotRegularFile, resolved := canonical }
      else if HasSymlinkComponent fs raw_path then
        { reason := .SymlinkComponent, resolved := canonical }
      else if IsUnderSystemPath canonical then { reason := .SystemPath, resolved := canonical }
      else
        let all_roots := allRoots conf_anchor allowed_image_roots
        if (origin = .Api ∨ injection_possible) ∧
            (all_roots = [] ∨ ¬ IsUnderAnyRoot canonical all_roots) then
          { reason := .OutsideWhitelist, resolved := canonical }
        else if !ValidateDiskImageStructure fs canonical then
          { reason := .NotADiskImage, resolved := canonical }
        else { allowed := true, resolved := canonical }

/-! ## What the checks mean for components -/

section Checks

variable {fs} {c : Path}

/-- No component of the path is a symlink, apart from the root, which is not one. -/
def NoSymlink (fs : FileSystem) (path : Path) : Prop :=
  ∀ A, A <+: components path → A ≠ [] →
    same (joined A) (root_path path) = true ∨ fs.is_symlink (joined A) = some false

theorem symlinkLoop_spec {root : Path} : ∀ {L : List Path} {accumulated : Path},
    symlinkLoop fs root L accumulated = false → ∀ A, A <+: L → A ≠ [] →
      same (A.foldl append accumulated) root = true ∨
        fs.is_symlink (A.foldl append accumulated) = some false := by
  intro L
  induction L with
  | nil =>
    intro accumulated _ A hA hne
    exact absurd (List.prefix_nil.1 hA) hne
  | cons component L ih =>
    intro accumulated h A hA hne
    obtain ⟨a, A, rfl⟩ := List.exists_cons_of_ne_nil hne
    rw [List.cons_prefix_cons] at hA
    obtain ⟨rfl, hA⟩ := hA
    -- the first component passes its test, and so do the ones behind it
    have hstep : (same (append accumulated a) root = true ∨
        fs.is_symlink (append accumulated a) = some false) ∧
        symlinkLoop fs root L (append accumulated a) = false := by
      simp only [symlinkLoop] at h
      split at h
      · rename_i hroot
        exact ⟨Or.inl hroot, h⟩
      · split at h
        · rename_i hs
          exact ⟨Or.inr hs, h⟩
        · exact absurd h (by decide)
    by_cases hA0 : A = []
    · subst hA0
      exact hstep.1
    · exact ih hstep.2 A hA hA0

theorem noSymlink_of_check {path : Path} (h : HasSymlinkComponent fs path = false) :
    NoSymlink fs path := symlinkLoop_spec h

theorem isUnder_iff {dir : Path} :
    isUnder c dir = true ↔ c = dir ∨ ∃ rest, c = dir ++ '/' :: rest := by
  simp only [isUnder, Bool.or_eq_true, beq_iff_eq, Bool.and_eq_true, decide_eq_true_eq,
    List.isPrefixOf_iff_prefix]
  refine or_congr_right ⟨?_, ?_⟩
  · rintro ⟨⟨-, rest, rfl⟩, hnext⟩
    rw [List.getElem?_append_right le_rfl, Nat.sub_self] at hnext
    cases rest with
    | nil => simp at hnext
    | cons a rest =>
      obtain rfl : a = '/' := by simpa using hnext
      exact ⟨rest, rfl⟩
  · rintro ⟨rest, rfl⟩
    exact ⟨⟨by simp, List.prefix_append _ _⟩, by simp⟩

/-- A path that passes the separator check has the components of the directory
as a prefix. -/
theorem prefix_of_isUnder (hc : Normal c) {dir : Path} (h : isUnder c dir = true) :
    components dir <+: components c := by
  rcases isUnder_iff.1 h with rfl | ⟨rest, rfl⟩
  · exact List.prefix_rfl
  · exact hc.prefix_of_append

/-- Every system path but the root is a file name below the root. -/
theorem systemPaths_absolute {p : Path} (hp : p ∈ SystemPaths) (hroot : p ≠ ['/']) :
    ∃ n, FileName n ∧ p = absolute [n] := by
  have hall : ∀ p ∈ SystemPaths, p = ['/'] ∨
      (p.tail ≠ [] ∧ '/' ∉ p.tail) ∧ p = absolute [p.tail] := by decide
  rcases hall p hp with h | ⟨h, heq⟩
  · exact absurd h hroot
  · exact ⟨p.tail, h, heq⟩

theorem not_prefix_of_check (hc : Normal c) (h : IsUnderSystemPath c = false) {p : Path}
    (hp : p ∈ SystemPaths) (hroot : p ≠ ['/']) : ¬ components p <+: components c := by
  intro hpre
  obtain ⟨n, hn, rfl⟩ := systemPaths_absolute hp hroot
  have hunder : isUnder c (absolute [n]) = true :=
    isUnder_iff.2 (hc.eq_or_continues (by simpa using hn) (by simp) hpre)
  rw [IsUnderSystemPath, Bool.or_eq_false_iff, List.any_eq_false] at h
  exact h.2 _ hp hunder

theorem ne_root_of_check (h : IsUnderSystemPath c = false) : components c ≠ [['/']] := by
  intro hroot
  rw [IsUnderSystemPath, Bool.or_eq_false_iff, IsBareRoot, same, components_root] at h
  simp [hroot] at h

end Checks

/-! ## Paths below a root -/

section Roots

variable {c dir : Path} {roots : List Path}

/-- Two separators in a row are not canonical. -/
theorem not_normal_of_doubled {rest : Path} : ¬ Normal ('/' :: '/' :: rest) := by
  rintro (h | ⟨L, hne, hL, h⟩)
  · simp at h
  · obtain ⟨n, L, rfl⟩ := List.exists_cons_of_ne_nil hne
    obtain ⟨hn, hsep⟩ := hL n List.mem_cons_self
    obtain ⟨x, n, rfl⟩ := List.exists_cons_of_ne_nil hn
    have hx : '/' = x := by
      simp only [absolute, List.flatMap_cons, List.cons_append, List.cons.injEq, true_and] at h
      exact h.1
    rw [← hx] at hsep
    exact hsep List.mem_cons_self

/-- The separator check is the prefix relation of components, but for the root directory, which
has itself below it only. -/
theorem isUnder_iff_prefix (hc : Normal c) (hdir : Normal dir) :
    isUnder c dir = true ↔ components dir <+: components c ∧ (dir = ['/'] → c = ['/']) := by
  constructor
  · intro h
    refine ⟨prefix_of_isUnder hc h, fun hroot => ?_⟩
    rcases isUnder_iff.1 h with heq | ⟨rest, heq⟩
    · rw [heq, hroot]
    · rw [hroot, List.singleton_append] at heq
      rw [heq] at hc
      exact absurd hc not_normal_of_doubled
  · rintro ⟨hpre, hroot⟩
    rcases hdir with h | ⟨L, hne, hL, rfl⟩
    · exact isUnder_iff.2 (Or.inl (by rw [hroot h, h]))
    · exact isUnder_iff.2 (hc.eq_or_continues hL hne hpre)

theorem IsUnderAnyRoot_iff (hc : Normal c) (hroots : ∀ root ∈ roots, Normal root) :
    IsUnderAnyRoot c roots = true ↔
      ∃ root ∈ roots, components root <+: components c ∧ (root = ['/'] → c = ['/']) := by
  rw [IsUnderAnyRoot, List.any_eq_true]
  refine exists_congr fun root => and_congr_right fun hmem => ?_
  exact isUnder_iff_prefix hc (hroots root hmem)

/-- The root directory is above every canonical path. -/
theorem root_prefix (hc : Normal c) : components ['/'] <+: components c := by
  rw [components_root]
  rcases hc with rfl | ⟨L, hne, hL, rfl⟩
  · rw [components_root]
  · rw [components_absolute hL hne]
    exact ⟨L, rfl⟩

/-- **`IsUnderAnyRoot` is the prefix relation of components exactly when the root directory does not
decide it**: it is no root, or the path itself, or there is a longer root. -/
theorem IsUnderAnyRoot_exact_iff (hc : Normal c) (hroots : ∀ root ∈ roots, Normal root) :
    (IsUnderAnyRoot c roots = true ↔ ∃ root ∈ roots, components root <+: components c) ↔
      (['/'] ∈ roots → c = ['/'] ∨
        ∃ root ∈ roots, root ≠ ['/'] ∧ components root <+: components c) := by
  rw [IsUnderAnyRoot_iff hc hroots]
  constructor
  · intro hexact hmem
    obtain ⟨root, hroot, hpre, heq⟩ := hexact.2 ⟨['/'], hmem, root_prefix hc⟩
    by_cases h : root = ['/']
    · exact Or.inl (heq h)
    · exact Or.inr ⟨root, hroot, h, hpre⟩
  · intro hcond
    constructor
    · rintro ⟨root, hroot, hpre, -⟩
      exact ⟨root, hroot, hpre⟩
    · rintro ⟨root, hroot, hpre⟩
      by_cases h : root = ['/']
      · rw [h] at hroot
        rcases hcond hroot with hself | ⟨longer, hlonger, hne, hpre'⟩
        · exact ⟨['/'], hroot, root_prefix hc, fun _ => hself⟩
        · exact ⟨longer, hlonger, hpre', fun heq => absurd heq hne⟩
      · exact ⟨root, hroot, hpre, fun heq => absurd heq h⟩

/-- `/home` is below `/home`, whatever other roots there are. -/
theorem IsUnderAnyRoot_exact_home :
    IsUnderAnyRoot "/home".toList ["/".toList, "/home".toList] = true ↔
      ∃ root ∈ ["/".toList, "/home".toList],
        components root <+: components "/home".toList := by
  have hhome : Normal "/home".toList := Or.inr ⟨["home".toList], by simp, by
    unfold FileName
    decide, rfl⟩
  refine (IsUnderAnyRoot_exact_iff hhome ?_).2 fun _ => Or.inr ⟨"/home".toList, by simp, by decide,
    List.prefix_rfl⟩
  intro root hroot
  simp only [List.mem_cons, List.not_mem_nil, or_false] at hroot
  rcases hroot with rfl | rfl
  · exact Or.inl rfl
  · exact hhome

/-- Nothing but the root directory itself is below the root directory. -/
theorem not_below_root_directory :
    IsUnderAnyRoot "/home".toList ["/".toList] = false ∧
      components "/".toList <+: components "/home".toList := by
  decide

end Roots

/-! ## Soundness -/

/-- The path has no symlink in it and resolves to a path below the conf anchor
or a configured root, outside of the system directories. -/
structure Contained (fs : FileSystem) (raw_path conf_anchor : Path) (roots : List Path) : Prop where
  noSymlink : NoSymlink fs raw_path
  resolves : ∃ c, fs.canonical raw_path = some c ∧
    (∃ root, (root = conf_anchor ∧ conf_anchor ≠ [] ∨ root ∈ roots) ∧
      components root <+: components c) ∧
    components c ≠ [['/']] ∧
    ∀ p ∈ SystemPaths, p ≠ ['/'] → ¬ components p <+: components c

section Soundness

variable {fs} (hcanonical : ∀ p c, fs.canonical p = some c → Normal c)
variable {raw_path conf_anchor : Path} {roots : List Path}

include hcanonical in
theorem contained_of_checks {c : Path} (hc : fs.canonical raw_path = some c)
    (hsym : HasSymlinkComponent fs raw_path = false) (hsys : IsUnderSystemPath c = false)
    (hroot : IsUnderAnyRoot c (allRoots conf_anchor roots) = true) :
    Contained fs raw_path conf_anchor roots := by
  have hn := hcanonical raw_path c hc
  obtain ⟨root, hmem, hunder⟩ := List.any_eq_true.1 hroot
  refine ⟨noSymlink_of_check hsym, c, hc, ⟨root, ?_, prefix_of_isUnder hn hunder⟩,
    ne_root_of_check hsys, fun p hp hp' => not_prefix_of_check hn hsys hp hp'⟩
  rcases List.mem_append.1 hmem with h | h
  · left
    split at h
    · rename_i hne
      exact ⟨by simpa using h, hne⟩
    · simp at h
  · exact Or.inr h

include hcanonical in
/-- What `ValidateDirectoryMount` allows under the whitelist is contained. -/
theorem directory_sound
    (h : (ValidateDirectoryMount fs raw_path conf_anchor roots .WhitelistEnforced).allowed = true) :
    Contained fs raw_path conf_anchor roots := by
  cases hc : fs.canonical raw_path with
  | none => simp [ValidateDirectoryMount, hc] at h
  | some c =>
    simp only [ValidateDirectoryMount, hc, reduceCtorEq, if_false] at h
    split at h
    · exact absurd h Bool.false_ne_true
    · rename_i hsym
      split at h
      · exact absurd h Bool.false_ne_true
      · rename_i hsys
        split at h
        · exact absurd h Bool.false_ne_true
        · split at h
          · rename_i hroot
            exact contained_of_checks hcanonical hc (by simpa using hsym) (by simpa using hsys)
              hroot
          · exact absurd h Bool.false_ne_true

include hcanonical in
/-- What `ValidateImagePath` allows to the API, or to anyone while injection is
possible, is contained. -/
theorem image_sound {injection_possible : Bool} {origin : MountOrigin}
    (ho : origin = .Api ∨ injection_possible = true)
    (h : (ValidateImagePath fs injection_possible raw_path origin roots conf_anchor).allowed =
      true) :
    Contained fs raw_path conf_anchor roots := by
  cases hc : fs.canonical raw_path with
  | none => simp [ValidateImagePath, hc] at h
  | some c =>
    simp only [ValidateImagePath, hc] at h
    split at h
    · exact absurd h Bool.false_ne_true
    · split at h
      · exact absurd h Bool.false_ne_true
      · rename_i hsym
        split at h
        · exact absurd h Bool.false_ne_true
        · rename_i hsys
          split at h
          · exact absurd h Bool.false_ne_true
          · rename_i hroot
            rw [not_and] at hroot
            have hroot := hroot ho
            rw [not_or, not_not] at hroot
            exact contained_of_checks hcanonical hc (by simpa using hsym) (by simpa using hsys)
              hroot.2

theorem directory_reason {policy : DirMountPolicy}
    (h : (ValidateDirectoryMount fs raw_path conf_anchor roots policy).allowed = false) :
    (ValidateDirectoryMount fs raw_path conf_anchor roots policy).reason ≠ .None := by
  unfold ValidateDirectoryMount at h ⊢
  grind

theorem image_reason {injection_possible : Bool} {origin : MountOrigin}
    (h : (ValidateImagePath fs injection_possible raw_path origin roots conf_anchor).allowed =
      false) :
    (ValidateImagePath fs injection_possible raw_path origin roots conf_anchor).reason ≠
      .None := by
  unfold ValidateImagePath at h ⊢
  grind

include hcanonical in
/-- **Mount whitelist soundness.**  Where the whitelist applies, a path that is
allowed is contained, and a path that is not allowed is refused with a reason. -/
theorem verdicts_sound (raw_path conf_anchor : Path) (roots : List Path) :
    ((ValidateDirectoryMount fs raw_path conf_anchor roots .WhitelistEnforced).allowed = true →
      Contained fs raw_path conf_anchor roots) ∧
    (∀ injection_possible origin, origin = .Api ∨ injection_possible = true →
      (ValidateImagePath fs injection_possible raw_path origin roots conf_anchor).allowed = true →
      Contained fs raw_path conf_anchor roots) ∧
    (∀ policy, (ValidateDirectoryMount fs raw_path conf_anchor roots policy).allowed = false →
      (ValidateDirectoryMount fs raw_path conf_anchor roots policy).reason ≠ .None) ∧
    ∀ injection_possible origin,
      (ValidateImagePath fs injection_possible raw_path origin roots conf_anchor).allowed = false →
      (ValidateImagePath fs injection_possible raw_path origin roots conf_anchor).reason ≠ .None :=
  ⟨directory_sound hcanonical, fun _ _ => image_sound hcanonical, fun _ => directory_reason,
    fun _ _ => image_reason⟩

end Soundness

/-- The directory `/home/user/games`. -/
def games : Path := absolute ["home".toList, "user".toList, "games".toList]

/-- A host on which that directory is all there is. -/
def gamesHost : FileSystem where
  canonical p := if p = games then some games else none
  is_symlink _ := some false
  is_directory _ := some true
  is_regular_file _ := some false
  content _ := none

theorem gamesHost_canonical (p c : Path) (h : gamesHost.canonical p = some c) : Normal c := by
  have hc : c = games := by
    simp only [gamesHost] at h
    split at h
    · exact (Option.some.inj h).symm
    · cases h
  rw [hc]
  refine Or.inr ⟨_, by simp, ?_, rfl⟩
  unfold FileName
  decide

/-- The directory is allowed with its parent as the conf anchor, and refused
without a root. -/
theorem verdicts_sound_games :
    Contained gamesHost games "/home/user".toList [] ∧
      (ValidateDirectoryMount gamesHost games [] [] .WhitelistEnforced).reason ≠ .None := by
  obtain ⟨hallowed, -, -, -⟩ := verdicts_sound gamesHost_canonical games "/home/user".toList []
  obtain ⟨-, -, hreason, -⟩ := verdicts_sound gamesHost_canonical games [] []
  exact ⟨hallowed (by decide), hreason _ (by decide)⟩

/-- **The bare root is a system path and a component-wise prefix of every path
that is allowed.** -/
theorem root_prefix_of_allowed :
    (ValidateDirectoryMount gamesHost games "/home/user".toList [] .WhitelistEnforced).allowed =
      true ∧ ['/'] ∈ SystemPaths ∧ components ['/'] <+: components games := by
  decide

end MountPolicy

end AugraDosbox
