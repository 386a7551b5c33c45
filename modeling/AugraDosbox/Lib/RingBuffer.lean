import Mathlib.Algebra.GroupWithZero.Nat
import Mathlib.Data.List.Rotate
import Mathlib.Tactic.Common

/-!
# Queues in a ring of cells

The entries of a queue lie in a list of cells, from a position on and around the end of the list.

* `contents` — the entries, oldest first;
* `next` — the cell that lies some places behind another;
* `contents_push`, `contents_replace`, `contents_pop` — writing the first free cell, writing the
  newest entry's cell again, and going on by one cell.
-/

namespace RingBuffer

variable {α : Type*} {cells : List α} {pos used i : ℕ} {a : α}

/-- The entries of a queue of `used` entries that begins at `pos`. -/
def contents (cells : List α) (pos used : ℕ) : List α := (cells.rotate pos).take used

/-- The cell `i` places behind `pos`, for both less than or equal to the number of cells. -/
def next (cells : List α) (pos i : ℕ) : ℕ :=
  if pos + i < cells.length then pos + i else pos + i - cells.length

theorem next_eq_mod (hpos : pos < cells.length) (hi : i ≤ cells.length) :
    next cells pos i = (i + pos) % cells.length := by
  rw [next, Nat.add_comm i]
  split
  · rw [Nat.mod_eq_of_lt ‹_›]
  · rw [Nat.mod_eq_sub_mod (by omega), Nat.mod_eq_of_lt (by omega)]

theorem next_lt (hpos : pos < cells.length) (hi : i ≤ cells.length) :
    next cells pos i < cells.length := by
  unfold next
  split <;> omega

@[simp] theorem contents_zero : contents cells pos 0 = [] := List.take_zero

theorem length_contents (h : used ≤ cells.length) : (contents cells pos used).length = used := by
  rw [contents, List.length_take, List.length_rotate, Nat.min_eq_left h]

theorem getElem?_contents (hpos : pos < cells.length) (h : used ≤ cells.length) (hi : i < used) :
    (contents cells pos used)[i]? = cells[next cells pos i]? := by
  rw [contents, List.getElem?_take_of_lt hi, List.getElem?_rotate (by omega),
    next_eq_mod hpos (by omega)]

theorem getElem?_contents_eq_none (h : used ≤ cells.length) (hi : used ≤ i) :
    (contents cells pos used)[i]? = none :=
  List.getElem?_eq_none (by rwa [length_contents h])

theorem next_inj {j : ℕ} (hi : i < cells.length)
    (hj : j < cells.length) (h : next cells pos i = next cells pos j) : i = j := by
  unfold next at h
  split at h <;> split at h <;> omega

@[simp] theorem next_set (i' : ℕ) : next (cells.set i a) pos i' = next cells pos i' := by
  rw [next, next, List.length_set]

theorem contents_push (hpos : pos < cells.length) (h : used < cells.length) :
    contents (cells.set (next cells pos used) a) pos (used + 1) =
      contents cells pos used ++ [a] := by
  have hlen : (contents cells pos used).length = used := length_contents h.le
  refine List.ext_getElem? fun i => ?_
  have hset : (cells.set (next cells pos used) a).length = cells.length := List.length_set
  rcases Nat.lt_trichotomy i used with hi | rfl | hi
  · rw [getElem?_contents (by omega) (by omega) (by omega), next_set,
      List.getElem?_append_left (by omega), getElem?_contents hpos (by omega) hi,
      List.getElem?_set_ne]
    intro heq
    have := next_inj h (by omega) heq
    omega
  · rw [getElem?_contents (by omega) (by omega) (by omega), next_set,
      List.getElem?_append_right (by omega), hlen, Nat.sub_self,
      List.getElem?_set_self (next_lt hpos h.le)]
    rfl
  · rw [getElem?_contents_eq_none (by omega) (by omega), List.getElem?_eq_none]
    rw [List.length_append, hlen]
    exact hi

theorem contents_replace (hpos : pos < cells.length) (h : used < cells.length) :
    contents (cells.set (next cells pos used) a) pos (used + 1) =
      (contents cells pos (used + 1)).dropLast ++ [a] := by
  have hlen : (contents cells pos (used + 1)).length = used + 1 := length_contents h
  rw [contents_push hpos h, List.dropLast_eq_take, hlen, Nat.add_sub_cancel, contents, contents,
    List.take_take, Nat.min_eq_left (Nat.le_succ used)]

theorem contents_succ (hpos : pos < cells.length) (h : used < cells.length) :
    contents cells pos (used + 1) = cells[pos] :: contents cells (next cells pos 1) used := by
  have hlen : 0 < cells.length := by omega
  have hnext := next_lt hpos (Nat.succ_le_of_lt hlen)
  refine List.ext_getElem? fun i => ?_
  rcases Nat.lt_or_ge used i with hi | hi
  · rw [getElem?_contents_eq_none h hi, List.getElem?_eq_none]
    rw [List.length_cons, length_contents h.le]
    exact hi
  · rw [getElem?_contents hpos h (Nat.lt_succ_of_le hi)]
    cases i with
    | zero =>
      rw [List.getElem?_cons_zero, next, Nat.add_zero, if_pos hpos, List.getElem?_eq_getElem hpos]
    | succ i =>
      rw [List.getElem?_cons_succ, getElem?_contents hnext h.le hi]
      congr 1
      unfold next
      split <;> split <;> split <;> omega

theorem contents_pop (hpos : pos < cells.length) (h : used < cells.length) :
    contents cells (next cells pos 1) used = (contents cells pos (used + 1)).tail := by
  rw [contents_succ hpos h, List.tail_cons]

end RingBuffer
