import Mathlib.Algebra.GroupWithZero.Nat
import Mathlib.Data.List.DropRight
import Mathlib.Tactic.Common

/-!
# Names in directories and in paths

The strings of `src/dos/drive_fat.cpp`, and `wild_file_cmp` of `src/misc/cross.cpp`.

* `CString` — the bytes of a C string in front of its final zero;
* `findName` — the name of a directory entry, as it is compared and shown;
* `wild_file_cmp` — a name against a pattern, the form with `long_compare` off.  Letters are
  those of the C locale;
* `convToDirFile`, `getEntryName`, `tokens` — the names in a path.  A path that names nothing
  leaves the name of `getEntryName` as it was: here it is empty, and no caller uses it.
-/

namespace AugraDosbox.Fat

abbrev CString := List UInt8

def DOS_NAMELENGTH_ASCII : ℕ := 13
def DOS_PATHLENGTH : ℕ := 80
def LFN_NAMELENGTH : ℕ := 255
def DOS_MFNLENGTH : ℕ := 8
def DOS_EXTLENGTH : ℕ := 3

def space : UInt8 := 0x20
def dot : UInt8 := 0x2e
def star : UInt8 := 0x2a
def questionMark : UInt8 := 0x3f
def backslash : UInt8 := 0x5c

/-- The C string at the beginning of some bytes. -/
def cstr (bytes : List UInt8) : CString := bytes.takeWhile (· ≠ 0)

def trimString (s : CString) : CString := (s.dropWhile (· = space)).rdropWhile (· = space)

def toupper (c : UInt8) : UInt8 := if 0x61 ≤ c ∧ c ≤ 0x7a then c - 0x20 else c

/-- What is in front of the first `c` of a string and what is behind it. -/
def strchr (c : UInt8) : CString → Option (CString × CString)
  | [] => none
  | x :: s => if x = c then some ([], s) else (strchr c s).map fun (pre, post) => (x :: pre, post)

/-- What is in front of the last `c` of a string and what is behind it. -/
def strrchr (c : UInt8) : CString → Option (CString × CString)
  | [] => none
  | x :: s =>
    match strrchr c s with
    | some (pre, post) => some (x :: pre, post)
    | none => if x = c then some ([], s) else none

variable {c : UInt8} {s pre post : CString}

theorem strchr_some (h : strchr c s = some (pre, post)) :
    s = pre ++ c :: post ∧ c ∉ pre := by
  induction s generalizing pre with
  | nil => simp [strchr] at h
  | cons x s ih =>
    rw [strchr] at h
    split at h
    · rename_i hx
      obtain ⟨rfl, rfl⟩ : [] = pre ∧ s = post := by simpa using h
      simp [hx]
    · rename_i hx
      cases hs : strchr c s with
      | none => simp [hs] at h
      | some found =>
        obtain ⟨pre', post'⟩ := found
        obtain ⟨rfl, rfl⟩ : x :: pre' = pre ∧ post' = post := by simpa [hs] using h
        obtain ⟨hs', hpre'⟩ := ih hs
        exact ⟨by rw [hs', List.cons_append], by simp [hpre', Ne.symm hx]⟩

theorem strchr_none (h : strchr c s = none) : c ∉ s := by
  induction s with
  | nil => simp
  | cons x s ih =>
    rw [strchr] at h
    split at h
    · cases h
    · rename_i hx
      have hs : strchr c s = none := by simpa using h
      simp only [List.mem_cons, not_or]
      exact ⟨Ne.symm hx, ih hs⟩

theorem strchr_of_not_mem (h : c ∉ pre) :
    strchr c (pre ++ c :: post) = some (pre, post) := by
  induction pre with
  | nil => simp [strchr]
  | cons x pre ih =>
    simp only [List.mem_cons, not_or] at h
    rw [List.cons_append, strchr, if_neg (Ne.symm h.1), ih h.2]
    rfl

theorem strchr_isSome (h : c ∈ s) :
    ∃ pre post, strchr c s = some (pre, post) := by
  cases hs : strchr c s with
  | none => exact absurd h (strchr_none hs)
  | some found => exact ⟨found.1, found.2, rfl⟩

theorem strchr_eq_none (h : c ∉ s) : strchr c s = none := by
  cases hs : strchr c s with
  | none => rfl
  | some found =>
    refine absurd ?_ h
    rw [(strchr_some hs).1]
    exact List.mem_append_right _ List.mem_cons_self

theorem strrchr_none (h : strrchr c s = none) : c ∉ s := by
  induction s with
  | nil => simp
  | cons x s ih =>
    rw [strrchr] at h
    cases hs : strrchr c s with
    | some found =>
      rw [hs] at h
      cases h
    | none =>
      rw [hs] at h
      simp only [ite_eq_right_iff] at h
      simp only [List.mem_cons, not_or]
      exact ⟨fun hx => (nomatch h hx.symm), ih hs⟩

theorem strrchr_some (h : strrchr c s = some (pre, post)) :
    s = pre ++ c :: post ∧ c ∉ post := by
  induction s generalizing pre with
  | nil => cases h
  | cons x s ih =>
    rw [strrchr] at h
    cases hs : strrchr c s with
    | some found =>
      obtain ⟨pre', post'⟩ := found
      rw [hs] at h
      cases h
      obtain ⟨rfl, hpost⟩ := ih hs
      exact ⟨rfl, hpost⟩
    | none =>
      rw [hs] at h
      dsimp only at h
      split at h
      · rename_i hx
        cases h
        exact ⟨by rw [hx]; rfl, strrchr_none hs⟩
      · cases h

theorem strrchr_of_not_mem (h : c ∉ post) :
    strrchr c (pre ++ c :: post) = some (pre, post) := by
  have hpost : strrchr c post = none := by
    cases hs : strrchr c post with
    | none => rfl
    | some found =>
      refine absurd ?_ h
      rw [(strrchr_some hs).1]
      exact List.mem_append_right _ List.mem_cons_self
  induction pre with
  | nil => rw [List.nil_append, strrchr, hpost]; exact if_pos rfl
  | cons x pre ih => rw [List.cons_append, strrchr, ih]

theorem strrchr_eq_none (h : c ∉ s) : strrchr c s = none := by
  cases hs : strrchr c s with
  | none => rfl
  | some found =>
    refine absurd ?_ h
    rw [(strrchr_some hs).1]
    exact List.mem_append_right _ List.mem_cons_self

/-- The name of an entry: the name and the extension without their spaces. -/
def findName (entryname : Vector UInt8 11) : CString :=
  let find_name := trimString (cstr (entryname.toList.take 8))
  let extension := trimString (cstr (entryname.toList.drop 8))
  if extension ≠ [] then find_name ++ dot :: extension else find_name

/-! ## Patterns -/

/-- At most `n + 1` bytes copied over a string of `n` spaces. -/
def overSpaces (n : ℕ) (s : CString) : List UInt8 :=
  s.take (n + 1) ++ (List.replicate n space ++ [0]).drop (min s.length (n + 1))

/-- Hidden files of other systems are skipped when a pattern has wildcards. -/
def wildcard_matches_hidden_file (filename wildcard : CString) : Bool :=
  wildcard.any (fun c => c = questionMark ∨ c = star) && 5 ≤ filename.length &&
    filename.head? = some dot

/-- A part of a pattern against a part of a name that has been filled up with spaces. -/
def partMatches : List UInt8 → List UInt8 → Bool
  | [], _ => true
  | w :: _, [] => w = 0 ∨ w = star
  | w :: wild, f :: file =>
    if w = star then true
    else if w ≠ questionMark ∧ w ≠ f then false
    else partMatches wild file

/-- The name and the extension of a string. -/
def splitExt (s : CString) : CString × CString := (strrchr dot s).getD (s, [])

def wild_file_cmp (file wild : CString) : Bool :=
  if (file ≠ [] ∧ wild = []) ∨ LFN_NAMELENGTH < wild.length then
    false
  else if wildcard_matches_hidden_file file wild then
    false
  else
    let (fileName, fileExt) := splitExt file
    let (wildName, wildExt) := splitExt wild
    let file_name := (overSpaces DOS_MFNLENGTH (fileName.take DOS_MFNLENGTH)).map toupper
    let file_ext := (overSpaces DOS_EXTLENGTH (fileExt.take DOS_EXTLENGTH)).map toupper
    let wild_name := (overSpaces DOS_MFNLENGTH wildName).map toupper
    let wild_ext := (overSpaces DOS_EXTLENGTH wildExt).map toupper
    partMatches wild_name (file_name.take DOS_MFNLENGTH) &&
      partMatches wild_ext (file_ext.take DOS_EXTLENGTH)

/-! ## Paths -/

/-- The loop of `convToDirFile`: `charidx` is where the next character goes. -/
def convLoop : CString → ℕ → Vector UInt8 11 → Vector UInt8 11
  | [], _, filearray => filearray
  | c :: filename, charidx, filearray =>
    if 11 ≤ charidx then filearray
    else if c ≠ dot then convLoop filename (charidx + 1) (filearray.set! charidx c)
    else convLoop filename 8 filearray

def convToDirFile (filename : CString) : Vector UInt8 11 :=
  convLoop (filename.take DOS_NAMELENGTH_ASCII) 0 (Vector.replicate 11 space)

/-- The names in a path, as `strtok` finds them. -/
def tokens (path : CString) : List CString :=
  ((path.take (DOS_PATHLENGTH - 1)).splitOn backslash).filter (· ≠ [])

/-- Paths that are empty or end in a backslash stand for the root directory. -/
def namesRoot (path : CString) : Bool :=
  path = [] || (path.take DOS_PATHLENGTH).getLast? = some backslash

def getEntryName (fullname : CString) : CString :=
  ((tokens fullname).getLast?.getD []).take (DOS_NAMELENGTH_ASCII - 1)

end AugraDosbox.Fat
