import Mathlib.Tactic.Common
import Mathlib.Data.List.Infix

/-!
# POSIX path strings and their components

A path is its string, as `std::filesystem::path::string` returns it.  This file
has the component list that iterating over a path visits, appending with `/=`,
comparing with `==`, and the form of the paths that `canonical` returns.

* `Normal.prefix_of_append` — a normal path that continues a string behind a
  separator has the components of that string as a prefix.
* `Normal.eq_or_continues` — a normal path whose components start with those of
  another normal path is that path, or continues it behind a separator.
-/

namespace Posix

/-- A path, as a string. -/
abbrev Path := List Char

/-- The file names of a path: what is between the separators. -/
def names (p : Path) : List Path := (p.splitOn '/').filter (· ≠ [])

/-- The components that iterating over a path visits: the root directory, the
file names, and an empty one for a separator behind the last name. -/
def components (p : Path) : List Path :=
  (if p.head? = some '/' then [['/']] else []) ++ names p ++
    (if names p ≠ [] ∧ (p.splitOn '/').getLast? = some [] then [[]] else [])

/-- The root of a path: the root directory, or nothing for a relative path. -/
def root_path (p : Path) : Path := if p.head? = some '/' then ['/'] else []

/-- Comparing two paths with `==`. -/
def same (p q : Path) : Bool := components p = components q

/-- Appending a component with `/=`. -/
def append (p component : Path) : Path :=
  if component.head? = some '/' then component
  else if p = [] ∨ p.getLast? = some '/' then p ++ component
  else p ++ '/' :: component

/-- A component list, appended from left to right. -/
def joined (L : List Path) : Path := L.foldl append []

/-! ## The paths that canonicalisation returns -/

/-- The absolute path with the given file names. -/
def absolute (L : List Path) : Path := L.flatMap ('/' :: ·)

/-- A file name is not empty and has no separator in it. -/
def FileName (n : Path) : Prop := n ≠ [] ∧ '/' ∉ n

/-- The path is the root directory, or absolute without redundant separators. -/
def Normal (p : Path) : Prop :=
  p = ['/'] ∨ ∃ L, L ≠ [] ∧ (∀ n ∈ L, FileName n) ∧ p = absolute L

theorem intercalate_cons_absolute (n : Path) (L : List Path) :
    ['/'].intercalate (n :: L) = n ++ absolute L := by
  induction L generalizing n with
  | nil => simp [absolute]
  | cons m L ih =>
    rw [List.intercalate_cons_cons, ih]
    simp [absolute]

variable {L : List Path}

theorem splitOn_absolute (h : ∀ n ∈ L, FileName n) :
    (absolute L).splitOn '/' = [] :: L := by
  rw [← List.nil_append (absolute L), ← intercalate_cons_absolute]
  refine List.splitOn_intercalate '/' (fun n hn => ?_) (by simp)
  rcases List.mem_cons.1 hn with rfl | hn
  · simp
  · exact (h n hn).2

theorem absolute_append (L M : List Path) : absolute (L ++ M) = absolute L ++ absolute M :=
  List.flatMap_append

/-- The components of an absolute path are the root directory and its names. -/
theorem components_absolute (h : ∀ n ∈ L, FileName n) (hne : L ≠ []) :
    components (absolute L) = ['/'] :: L := by
  have hnames : names (absolute L) = L := by
    rw [names, splitOn_absolute h, List.filter_cons_of_neg (by simp)]
    exact List.filter_eq_self.2 fun n hn => by simpa using (h n hn).1
  have hhead : (absolute L).head? = some '/' := by
    cases L with
    | nil => exact absurd rfl hne
    | cons n L => simp [absolute]
  have hlast : ([] :: L).getLast? ≠ some [] := by
    rw [List.getLast?_cons_of_ne_nil hne]
    intro hl
    exact (h [] (List.mem_of_mem_getLast? hl)).1 rfl
  simp [components, hnames, hhead, splitOn_absolute h, hlast]

theorem components_root : components ['/'] = [['/']] := by decide

/-- A normal path that continues a string behind a separator has the components
of that string as a prefix. -/
theorem Normal.prefix_of_append {r rest : Path} (h : Normal (r ++ '/' :: rest)) :
    components r <+: components (r ++ '/' :: rest) := by
  rcases h with h | ⟨L, hne, hL, h⟩
  · have hr : r = [] := by
      cases r with
      | nil => rfl
      | cons c r => simp at h
    subst hr
    exact ⟨_, rfl⟩
  · have hsplit : r.splitOn '/' ++ rest.splitOn '/' = [] :: L := by
      rw [← List.splitOn_append_cons_self, h, splitOn_absolute hL]
    obtain ⟨q, A, hA⟩ := List.exists_cons_of_ne_nil (List.splitOn_ne_nil '/' r)
    rw [hA, List.cons_append, List.cons.injEq] at hsplit
    obtain ⟨rfl, rfl⟩ := hsplit
    have hAn : ∀ n ∈ A, FileName n := fun n hn => hL n (by simp [hn])
    have hr : r = absolute A := by
      have : ['/'].intercalate (r.splitOn '/') = r := List.intercalate_splitOn '/'
      rw [hA, intercalate_cons_absolute, List.nil_append] at this
      exact this.symm
    rw [h, components_absolute hL hne, hr]
    by_cases hA0 : A = []
    · rw [hA0]
      exact ⟨_, rfl⟩
    · rw [components_absolute hAn hA0, List.cons_prefix_cons]
      exact ⟨rfl, List.prefix_append _ _⟩

/-- A normal path whose components start with those of an absolute path is that
path, or continues it behind a separator. -/
theorem Normal.eq_or_continues {c : Path} (h : Normal c) (hL : ∀ n ∈ L, FileName n) (hne : L ≠ [])
    (hpre : components (absolute L) <+: components c) :
    c = absolute L ∨ ∃ rest, c = absolute L ++ '/' :: rest := by
  rw [components_absolute hL hne] at hpre
  rcases h with rfl | ⟨M, hM0, hM, rfl⟩
  · rw [components_root, List.cons_prefix_cons] at hpre
    exact absurd (List.prefix_nil.1 hpre.2) hne
  · rw [components_absolute hM hM0, List.cons_prefix_cons] at hpre
    obtain ⟨K, rfl⟩ := hpre.2
    cases K with
    | nil => exact Or.inl (by rw [List.append_nil])
    | cons n K =>
      right
      exact ⟨n ++ absolute K, by rw [absolute_append]; simp [absolute]⟩

end Posix
