import Mathlib.Data.List.Basic
import Mathlib.Logic.Function.Basic
import Mathlib.Tactic.Common

/-!
# Singly linked lists

Lists whose nodes carry a pointer to the next node, with a null pointer at the
end, as a function `next : α → Option α`.

* `Seg next o L e` — the nodes met from pointer `o` until pointer `e` are those of
  `L`; a whole list ends at `none`;
* `Seg.congr` — the frame rule: a list depends on the pointers of its own nodes;
* `Seg.link_after`, `Seg.unlink_after`, `Seg.push` — hooking a node in behind
  another one, unhooking the one behind, and putting one in front;
* `follow` — the list that a walk of bounded length reads, and **`Seg.follow_eq`**:
  it reads the whole list.
-/

namespace LinkedList

variable {α : Type*} {next next' : α → Option α} {o e m : Option α} {A B L : List α} {x y : α}

/-- The nodes met from pointer `o` on, until pointer `e`. -/
def Seg (next : α → Option α) : Option α → List α → Option α → Prop
  | o, [], e => o = e
  | o, x :: L, e => o = some x ∧ Seg next (next x) L e

@[simp] theorem seg_nil : Seg next o [] e ↔ o = e := Iff.rfl

@[simp] theorem seg_cons : Seg next o (x :: L) e ↔ o = some x ∧ Seg next (next x) L e := Iff.rfl

theorem seg_append : Seg next o (A ++ B) e ↔ ∃ m, Seg next o A m ∧ Seg next m B e := by
  induction A generalizing o with
  | nil => simp
  | cons a A ih => simp only [List.cons_append, seg_cons, ih, and_assoc, exists_and_left]

/-- **The frame rule.**  A list depends on the pointers of its own nodes only. -/
theorem Seg.congr (h : Seg next o L e) (heq : ∀ x ∈ L, next' x = next x) :
    Seg next' o L e := by
  induction L generalizing o with
  | nil => exact h
  | cons x L ih =>
    refine ⟨h.1, ?_⟩
    rw [heq x List.mem_cons_self]
    exact ih h.2 fun z hz => heq z (List.mem_cons_of_mem x hz)

theorem Seg.update [DecidableEq α] (h : Seg next o L e) (hx : x ∉ L) (v : Option α) :
    Seg (Function.update next x v) o L e := by
  refine h.congr fun z hz => ?_
  have hzx : z ≠ x := by
    rintro rfl
    exact hx hz
  rw [Function.update_of_ne hzx]

theorem Seg.head_eq (h : Seg next o L none) : o = L.head? := by
  cases L with
  | nil => exact h
  | cons x L => exact h.1

/-- The pointer of a node names the node after it. -/
theorem Seg.next_eq (h : Seg next o (A ++ x :: B) none) : next x = B.head? := by
  obtain ⟨m, -, -, hB⟩ := seg_append.1 h
  exact hB.head_eq

theorem Seg.push [DecidableEq α] (h : Seg next o L none) (hx : x ∉ L) :
    Seg (Function.update next x o) (some x) (x :: L) none := by
  refine ⟨rfl, ?_⟩
  rw [Function.update_self]
  exact h.update hx o

theorem Seg.link_after [DecidableEq α] (h : Seg next o (A ++ x :: B) none)
    (hnd : (A ++ x :: B).Nodup) (hy : y ∉ A ++ x :: B) :
    Seg (Function.update (Function.update next y (next x)) x (some y)) o
      (A ++ x :: y :: B) none := by
  obtain ⟨m, hA, hm, hB⟩ := seg_append.1 h
  obtain ⟨-, hxB, hdisj⟩ := List.nodup_append.1 hnd
  have hxA : x ∉ A := fun hxA => hdisj x hxA x List.mem_cons_self rfl
  have hxB : x ∉ B := (List.nodup_cons.1 hxB).1
  have hyx : y ≠ x := fun heq => hy (by simp [heq])
  have hyA : y ∉ A := fun hyA => hy (List.mem_append_left _ hyA)
  have hyB : y ∉ B := fun hyB => hy (by simp [hyB])
  refine seg_append.2 ⟨m, (hA.update hyA _).update hxA _, hm, ?_⟩
  rw [Function.update_self]
  refine ⟨rfl, ?_⟩
  rw [Function.update_of_ne hyx, Function.update_self]
  exact (hB.update hyB _).update hxB _

theorem Seg.unlink_after [DecidableEq α] (h : Seg next o (A ++ x :: y :: B) none)
    (hnd : (A ++ x :: y :: B).Nodup) :
    Seg (Function.update next x (next y)) o (A ++ x :: B) none := by
  obtain ⟨m, hA, hm, -, hB⟩ := seg_append.1 h
  obtain ⟨-, hxB, hdisj⟩ := List.nodup_append.1 hnd
  have hxA : x ∉ A := fun hxA => hdisj x hxA x List.mem_cons_self rfl
  have hxB : x ∉ B := fun hin => (List.nodup_cons.1 hxB).1 (List.mem_cons_of_mem y hin)
  refine seg_append.2 ⟨m, hA.update hxA _, hm, ?_⟩
  rw [Function.update_self]
  exact hB.update hxB _

/-! ## Reading a list -/

/-- The nodes that a walk of at most `n` steps reads. -/
def follow (next : α → Option α) : ℕ → Option α → List α
  | 0, _ => []
  | _ + 1, none => []
  | n + 1, some x => x :: follow next n (next x)

/-- **A walk that is long enough reads the whole list.** -/
theorem Seg.follow_eq (h : Seg next o L none) {n : ℕ} (hn : L.length ≤ n) :
    follow next n o = L := by
  induction L generalizing o n with
  | nil =>
    cases h
    cases n <;> rfl
  | cons x L ih =>
    cases n with
    | zero => simp at hn
    | succ n =>
      rw [h.1, follow, ih h.2 (by simpa using hn)]

end LinkedList
