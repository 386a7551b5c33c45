import Mathlib.Data.List.TakeDrop
import Mathlib.Data.List.TakeWhile
import Mathlib.Tactic.Common

/-!
# Regular expressions that backtrack

A regular expression is run the way a backtracking matcher does it: `run` lists everything it can
match at the start of a text, what the matcher tries first in front. `exec` is what it finds, and
`pieces` cuts a text into the leftmost matches and the single characters between them.

* `exec_alt`, `exec_seq`, `exec_group`, `exec_many`, `exec_many_seq_cons` — what is found, for
  each way to build an expression;
* `text_append_rest` — a match is the start of the text;
* `pieces_of_exec`, `pieces_cons_of_none` — the next piece of a text.
-/

/-- A regular expression over the classes of characters `α → Bool`. -/
inductive Regex (α : Type*) where
  /-- One character of a class. -/
  | one (p : α → Bool)
  /-- As many characters of a class as there are, greedily. -/
  | many (p : α → Bool)
  | seq (r t : Regex α)
  /-- Ordered: the second branch is tried after the first. -/
  | alt (r t : Regex α)
  /-- A numbered group. -/
  | group (i : ℕ) (r : Regex α)

namespace Regex

/-- What a match took, what its groups took, and what it left of the text. -/
structure Match (α : Type*) where
  text : List α
  groups : List (ℕ × List α)
  rest : List α
  deriving DecidableEq, Repr

variable {α : Type*} {p : α → Bool} {r t : Regex α} {a : α} {s : List α}

namespace Match

/-- What a group took, if it took part. -/
def get? (m : Match α) (i : ℕ) : Option (List α) := m.groups.lookup i

/-- A match behind one character. -/
def cons (a : α) (m : Match α) : Match α := { m with text := a :: m.text }

/-- A match that goes on where another one ended. -/
def andThen (m n : Match α) : Match α := ⟨m.text ++ n.text, m.groups ++ n.groups, n.rest⟩

end Match

/-- What a greedy repetition can take, the longest first. -/
def taken (p : α → Bool) : List α → List (Match α)
  | [] => [⟨[], [], []⟩]
  | a :: s => (if p a then (taken p s).map (.cons a) else []) ++ [⟨[], [], a :: s⟩]

/-- All matches at the start of a text, in the order in which they are tried. -/
def run : Regex α → List α → List (Match α)
  | .one _, [] => []
  | .one p, a :: s => if p a then [⟨[a], [], s⟩] else []
  | .many p, s => taken p s
  | .seq r t, s => (r.run s).flatMap fun m => (t.run m.rest).map m.andThen
  | .alt r t, s => r.run s ++ t.run s
  | .group i r, s => (r.run s).map fun m => { m with groups := (i, m.text) :: m.groups }

/-- The match that is found at the start of a text. -/
def exec (r : Regex α) (s : List α) : Option (Match α) := (r.run s).head?

@[simp] theorem taken_cons : taken p (a :: s) =
    (if p a then (taken p s).map (.cons a) else []) ++ [⟨[], [], a :: s⟩] := rfl

@[simp] theorem run_one_cons : (one p).run (a :: s) = if p a then [⟨[a], [], s⟩] else [] := rfl

@[simp] theorem run_many : (many p).run s = taken p s := rfl

theorem run_seq : (seq r t).run s =
    (r.run s).flatMap fun m => (t.run m.rest).map m.andThen := rfl

theorem run_alt : (alt r t).run s = r.run s ++ t.run s := rfl

theorem run_group {i : ℕ} : (group i r).run s =
    (r.run s).map fun m => { m with groups := (i, m.text) :: m.groups } := rfl

variable {m : Match α}

theorem mem_run_one (h : m ∈ (one p).run s) : ∃ a, p a ∧ m.text = [a] := by
  cases s with
  | nil => exact absurd h List.not_mem_nil
  | cons a s =>
    rw [run_one_cons] at h
    split at h
    · next ha => exact ⟨a, ha, by rw [List.mem_singleton.1 h]⟩
    · exact absurd h List.not_mem_nil

theorem mem_run_seq :
    m ∈ (seq r t).run s ↔ ∃ n ∈ r.run s, ∃ k ∈ t.run n.rest, n.andThen k = m := by
  simp only [run_seq, List.mem_flatMap, List.mem_map]

/-! ## What is found -/

@[simp] theorem exec_one_nil : (one p).exec [] = none := rfl

theorem exec_alt : (alt r t).exec s = (r.exec s).or (t.exec s) := by
  rw [exec, run_alt, List.head?_append]
  rfl

theorem exec_group {i : ℕ} : (group i r).exec s =
    (r.exec s).map fun m => { m with groups := (i, m.text) :: m.groups } := by
  rw [exec, run_group, List.head?_map]
  rfl

theorem exec_many : (many p).exec s = some ⟨s.takeWhile p, [], s.dropWhile p⟩ := by
  induction s with
  | nil => rfl
  | cons a s ih =>
    by_cases h : p a
    · rw [exec, run_many] at ih
      simp [exec, h, ih, Match.cons]
    · simp [exec, h]

/-- The second half is tried behind each match of the first. -/
theorem exec_seq_eq_findSome? :
    (seq r t).exec s = (r.run s).findSome? fun m => (t.exec m.rest).map m.andThen := by
  rw [exec, run_seq, List.head?_flatMap]
  congr 1
  funext m
  rw [List.head?_map]
  rfl

/-- A first half that can match in one way only. -/
theorem exec_seq (h : r.run s = [m]) :
    (seq r t).exec s = (t.exec m.rest).map m.andThen := by
  rw [exec_seq_eq_findSome?, h, List.findSome?_singleton]

/-- The first try of the second half succeeds. -/
theorem exec_seq_of_some {n : Match α} (hm : r.exec s = some m) (hn : t.exec m.rest = some n) :
    (seq r t).exec s = some (m.andThen n) := by
  obtain ⟨ms, hms⟩ := List.head?_eq_some_iff.1 hm
  rw [exec_seq_eq_findSome?, hms, List.findSome?_cons, hn]
  rfl

theorem exec_seq_eq_none (h : ∀ m ∈ r.run s, t.exec m.rest = none) :
    (seq r t).exec s = none := by
  rw [exec_seq_eq_findSome?, List.findSome?_eq_none_iff]
  intro m hm
  rw [h m hm, Option.map_none]

theorem exec_seq_of_nil (h : r.run s = []) : (seq r t).exec s = none := by
  rw [exec_seq_eq_findSome?, h]
  rfl

theorem exec_one_seq (h : p a) : (seq (one p) t).exec (a :: s) =
    (t.exec s).map (.cons a) :=
  exec_seq (m := ⟨[a], [], s⟩) (by rw [run_one_cons, if_pos h])

theorem exec_one_seq_of_not (h : ¬ p a) : (seq (one p) t).exec (a :: s) = none :=
  exec_seq_of_nil (by rw [run_one_cons, if_neg h])

theorem exec_many_seq_of_not (h : ∀ a ∈ s.head?, ¬ p a) : (seq (many p) t).exec s = t.exec s := by
  have hrun : (many p).run s = [⟨[], [], s⟩] := by
    cases s with
    | nil => rfl
    | cons a s => rw [run_many, taken_cons, if_neg (h a rfl), List.nil_append]
  rw [exec_seq hrun]
  cases t.exec s <;> rfl

/-- A repetition in front gives a character back only when what follows finds nothing behind
it. -/
theorem exec_many_seq_cons (h : p a) : (seq (many p) t).exec (a :: s) =
    (((seq (many p) t).exec s).map (.cons a)).or (t.exec (a :: s)) := by
  rw [exec_seq_eq_findSome?, run_many, taken_cons, if_pos h, List.findSome?_append,
    List.findSome?_map, exec_seq_eq_findSome?, run_many, List.findSome?_singleton]
  congr 1
  · rw [List.map_findSome?]
    congr 1
    funext m
    change (t.exec m.rest).map _ = ((t.exec m.rest).map m.andThen).map (Match.cons a)
    cases t.exec m.rest <;> rfl
  · cases t.exec (a :: s) <;> rfl

/-! ## A match is the start of the text -/

theorem taken_append (h : m ∈ taken p s) : m.text ++ m.rest = s := by
  induction s generalizing m with
  | nil =>
    rw [List.mem_singleton.1 h]
    rfl
  | cons a s ih =>
    rw [taken_cons, List.mem_append, List.mem_singleton] at h
    rcases h with h | rfl
    · split at h
      · obtain ⟨n, hn, rfl⟩ := List.mem_map.1 h
        exact congrArg (a :: ·) (ih hn)
      · exact absurd h List.not_mem_nil
    · rfl

theorem run_append (h : m ∈ r.run s) : m.text ++ m.rest = s := by
  induction r generalizing s m with
  | one p =>
    cases s with
    | nil => exact absurd h List.not_mem_nil
    | cons a s =>
      rw [run_one_cons] at h
      split at h
      · rw [List.mem_singleton.1 h]
        rfl
      · exact absurd h List.not_mem_nil
  | many p => exact taken_append h
  | seq r t hr ht =>
    obtain ⟨n, hn, k, hk, rfl⟩ := mem_run_seq.1 h
    rw [Match.andThen, List.append_assoc, ht hk, hr hn]
  | alt r t hr ht => exact (List.mem_append.1 h).elim hr ht
  | group i r hr =>
    obtain ⟨n, hn, rfl⟩ := List.mem_map.1 h
    exact hr (m := n) hn

theorem text_append_rest (h : r.exec s = some m) : m.text ++ m.rest = s :=
  run_append (List.mem_of_mem_head? h)

/-! ## Cutting a text -/

/-- A character outside of every match, or a match. -/
inductive Piece (α : Type*) where
  | lone (a : α)
  | hit (m : Match α)
  deriving DecidableEq, Repr

/-- Cuts a text from the left, with so many characters of the last match still to skip. An
expression is meant that takes at least one character. -/
def cut (r : Regex α) : ℕ → List α → List (Piece α)
  | _, [] => []
  | n + 1, _ :: s => cut r n s
  | 0, a :: s =>
      match r.exec (a :: s) with
      | some m => .hit m :: cut r (m.text.length - 1) s
      | none => .lone a :: cut r 0 s

/-- The pieces of a text. -/
def pieces (r : Regex α) (s : List α) : List (Piece α) := cut r 0 s

theorem cut_eq_drop (n : ℕ) (s : List α) : cut r n s = cut r 0 (s.drop n) := by
  induction n generalizing s with
  | zero => rfl
  | succ n ih =>
    cases s with
    | nil => rfl
    | cons a s => rw [cut, ih, List.drop_succ_cons]

@[simp] theorem pieces_nil : r.pieces [] = [] := rfl

theorem pieces_cons_of_none (h : r.exec (a :: s) = none) :
    r.pieces (a :: s) = .lone a :: r.pieces s := by
  rw [pieces, cut, h]
  rfl

theorem pieces_of_exec (h : r.exec s = some m) (htext : m.text ≠ []) :
    r.pieces s = .hit m :: r.pieces m.rest := by
  obtain ⟨a, l, hal⟩ := List.exists_cons_of_ne_nil htext
  have hs : s = a :: (l ++ m.rest) := by rw [← text_append_rest h, hal, List.cons_append]
  rw [pieces, hs, cut, ← hs, h]
  dsimp only
  rw [cut_eq_drop, hal, List.length_cons, Nat.add_sub_cancel, List.drop_left]
  rfl

end Regex
