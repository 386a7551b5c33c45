import Mathlib.Logic.Function.Basic
import Mathlib.Data.List.Nodup
import Mathlib.Data.List.Range

/-!
# Chains threaded through a table

Page tables and file allocation tables keep their linked lists in the table
itself: entry `x` holds the number of the element after `x`, and the entry of
the last element holds an end mark.  This file is the theory of such lists, for
a table `f : ℕ → V` over any type of entries, an injection `link : ℕ → V` that
says how an element number is written into an entry, and a predicate `stop` for
the end marks.

* `Linked link stop f L` — the list `L` is threaded through `f`.
* `Linked.congr` — a chain only depends on its own entries: the frame rule.
* `Linked.suffix`, `Linked.splice` — dropping a front part, and hooking a new
  continuation onto an element; `Linked.cut` ends a chain early and
  `Linked.join` puts one chain behind another.
* `Linked.unique`, `Linked.nodup` — the table determines the chain of an
  element, and no chain meets itself.
-/

namespace Threaded

variable {V : Type*} {link : ℕ → V} {stop : V → Prop} {f g : ℕ → V}

/-- The list is threaded through the table: every entry names the next element,
and the entry of the last element is an end mark. -/
def Linked (link : ℕ → V) (stop : V → Prop) (f : ℕ → V) : List ℕ → Prop
  | [] => False
  | [x] => stop (f x)
  | x :: y :: l => f x = link y ∧ Linked link stop f (y :: l)

@[simp] theorem not_linked_nil : ¬ Linked link stop f [] := id

variable {x : ℕ} {A B : List ℕ}

@[simp] theorem linked_singleton : Linked link stop f [x] ↔ stop (f x) := Iff.rfl

@[simp] theorem linked_cons_cons {y : ℕ} {l : List ℕ} :
    Linked link stop f (x :: y :: l) ↔ f x = link y ∧ Linked link stop f (y :: l) := Iff.rfl

/-- **The frame rule.**  A chain depends on the entries of its own elements
only. -/
theorem Linked.congr {L : List ℕ} (h : Linked link stop f L) (hfg : ∀ x ∈ L, g x = f x) :
    Linked link stop g L := by
  induction L with
  | nil => exact h
  | cons x l ih =>
    cases l with
    | nil => simpa [hfg x (by simp)] using h
    | cons y l =>
      obtain ⟨hx, hl⟩ := h
      exact ⟨(hfg x (by simp)).trans hx, ih hl fun z hz => hfg z (List.mem_cons_of_mem _ hz)⟩

theorem Linked.update {L : List ℕ} {v : V} (h : Linked link stop f L) (hx : x ∉ L) :
    Linked link stop (Function.update f x v) L := by
  refine h.congr fun y hy => Function.update_of_ne ?_ v f
  rintro rfl
  exact hx hy

/-- The rest of a chain is a chain. -/
theorem Linked.suffix (h : Linked link stop f (A ++ B)) (hB : B ≠ []) :
    Linked link stop f B := by
  induction A with
  | nil => exact h
  | cons x A ih =>
    refine ih ?_
    cases hAB : A ++ B with
    | nil => exact absurd (List.append_eq_nil_iff.1 hAB).2 hB
    | cons y l =>
      rw [List.cons_append, hAB] at h
      exact h.2

/-- The entry of an inner element names the element after it. -/
theorem Linked.entry {y : ℕ} (h : Linked link stop f (A ++ x :: y :: B)) :
    f x = link y :=
  (h.suffix (by simp)).1

/-- The entry of the last element is an end mark. -/
theorem Linked.last (h : Linked link stop f (A ++ [x])) : stop (f x) :=
  h.suffix (by simp)

/-- **Splicing.**  A new continuation may be hooked onto any element of a chain,
as long as the entries before that element stay as they were. -/
theorem Linked.splice {C : List ℕ} (h : Linked link stop f (A ++ x :: B))
    (h' : Linked link stop g (x :: C)) (hA : ∀ y ∈ A, g y = f y) :
    Linked link stop g (A ++ x :: C) := by
  induction A with
  | nil => exact h'
  | cons a A ih =>
    have hrec := ih (h.suffix (A := [a]) (by simp)) fun y hy => hA y (List.mem_cons_of_mem _ hy)
    have ha := hA a (by simp)
    cases A with
    | nil => exact ⟨ha.trans h.1, hrec⟩
    | cons b A => exact ⟨ha.trans h.1, hrec⟩

/-- Writing an end mark into an element ends its chain there. -/
theorem Linked.cut {v : V} (h : Linked link stop f (A ++ x :: B)) (hx : x ∉ A) (hv : stop v) :
    Linked link stop (Function.update f x v) (A ++ [x]) := by
  refine h.splice (by simpa using hv) fun y hy => Function.update_of_ne ?_ v f
  rintro rfl
  exact hx hy

/-- Hooking a chain onto the last element of another. -/
theorem Linked.join {y : ℕ} (hA : Linked link stop f (A ++ [x])) (hB : Linked link stop f (y :: B))
    (hxA : x ∉ A) (hxB : x ∉ y :: B) :
    Linked link stop (Function.update f x (link y)) (A ++ x :: y :: B) := by
  refine hA.splice ⟨by simp, hB.update hxB⟩ fun z hz => Function.update_of_ne ?_ _ f
  rintro rfl
  exact hxA hz

/-! ## The table determines the chain -/

section Deterministic

variable (hlink : Function.Injective link) (hstop : ∀ x, ¬ stop (link x))

include hlink hstop

/-- The chain of an element is determined by the table. -/
theorem Linked.unique {x : ℕ} {A B : List ℕ} (hA : Linked link stop f (x :: A))
    (hB : Linked link stop f (x :: B)) : A = B := by
  induction A generalizing x B with
  | nil =>
    cases B with
    | nil => rfl
    | cons y B =>
      have hx : stop (f x) := hA
      rw [hB.1] at hx
      exact absurd hx (hstop y)
  | cons a A ih =>
    cases B with
    | nil =>
      have hx : stop (f x) := hB
      rw [hA.1] at hx
      exact absurd hx (hstop a)
    | cons b B =>
      obtain rfl : a = b := hlink (hA.1.symm.trans hB.1)
      rw [ih hA.2 hB.2]

/-- Two chains that meet share everything from there on. -/
theorem Linked.meet {x : ℕ} {A A' B B' : List ℕ} (h : Linked link stop f (A ++ x :: B))
    (h' : Linked link stop f (A' ++ x :: B')) : B = B' :=
  (h.suffix (by simp)).unique hlink hstop (h'.suffix (by simp))

/-- No chain meets itself: one that did would never end. -/
theorem Linked.nodup {L : List ℕ} (h : Linked link stop f L) : L.Nodup := by
  induction L with
  | nil => exact List.nodup_nil
  | cons x l ih =>
    cases l with
    | nil => simp
    | cons y l =>
      refine List.nodup_cons.2 ⟨fun hx => ?_, ih h.2⟩
      obtain ⟨A, B, hAB⟩ := List.append_of_mem hx
      have hx2 : Linked link stop f ((x :: A) ++ x :: B) := by
        rw [List.cons_append, ← hAB]; exact h
      have hlen := congrArg List.length (Linked.meet (A := []) hlink hstop h hx2)
      rw [hAB] at hlen
      simp only [List.length_append, List.length_cons] at hlen
      omega

end Deterministic

end Threaded
