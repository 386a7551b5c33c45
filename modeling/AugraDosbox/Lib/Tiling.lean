import Mathlib.Algebra.GroupWithZero.Nat
import Mathlib.Algebra.BigOperators.Group.List.Basic
import Mathlib.Tactic.Common
import Mathlib.Data.List.Basic

/-!
# Blocks that tile a region

A region is cut into blocks, and the start of each block holds a header from which
its extent is read.  The next block starts where the extent ends, so a header is
found only by walking over the ones before it.

* `Tiles` — the blocks read from a position on are those of a list, and end at a
  given position.
* `Tiles.replace` — changing a run of blocks into another one of the same extent
  leaves the rest of the tiling alone.
-/

namespace Tiling

variable {β : Type*} (extent : β → ℕ)

/-- The paragraphs that a list of blocks takes up. -/
def total (L : List β) : ℕ := (L.map extent).sum

/-- The blocks read from `start` on are those of the list, and end at `stop`. -/
def Tiles (read : ℕ → β) : ℕ → List β → ℕ → Prop
  | start, [], stop => start = stop
  | start, b :: L, stop => read start = b ∧ Tiles read (start + extent b) L stop

/-- Reading all blocks decides whether they are those of a list. -/
instance decidableTiles [DecidableEq β] (read : ℕ → β) :
    (start : ℕ) → (L : List β) → (stop : ℕ) → Decidable (Tiles extent read start L stop)
  | start, [], stop => inferInstanceAs (Decidable (start = stop))
  | start, b :: L, stop =>
    have := decidableTiles read (start + extent b) L stop
    inferInstanceAs (Decidable (read start = b ∧ Tiles extent read (start + extent b) L stop))

/-- The blocks of a list with their positions. -/
def placed : ℕ → List β → List (ℕ × β)
  | _, [] => []
  | start, b :: L => (start, b) :: placed (start + extent b) L

section

variable {extent} {read read' : ℕ → β} {start stop : ℕ} {A B L X Y : List β} {b : β}

@[simp] theorem total_nil : total extent ([] : List β) = 0 := rfl

@[simp] theorem total_cons : total extent (b :: L) = extent b + total extent L := by
  simp [total]

@[simp] theorem total_append : total extent (A ++ B) = total extent A + total extent B := by
  simp [total]

theorem Tiles.stop_eq (h : Tiles extent read start L stop) : stop = start + total extent L := by
  induction L generalizing start with
  | nil => exact h.symm
  | cons b L ih =>
    rw [ih h.2, total_cons, Nat.add_assoc]

theorem tiles_append : Tiles extent read start (A ++ B) stop ↔
    Tiles extent read start A (start + total extent A) ∧
      Tiles extent read (start + total extent A) B stop := by
  induction A generalizing start with
  | nil => simp [Tiles]
  | cons a A ih =>
    simp only [List.cons_append, Tiles, ih, total_cons, Nat.add_assoc, and_assoc]

variable {p : ℕ}

theorem mem_placed :
    (p, b) ∈ placed extent start L ↔ ∃ A B, L = A ++ b :: B ∧ p = start + total extent A := by
  induction L generalizing start with
  | nil => simp [placed]
  | cons c L ih =>
    simp only [placed, List.mem_cons, Prod.mk.injEq, ih]
    constructor
    · rintro (⟨rfl, rfl⟩ | ⟨A, B, rfl, rfl⟩)
      · exact ⟨[], L, rfl, by simp⟩
      · exact ⟨c :: A, B, rfl, by simp [Nat.add_assoc]⟩
    · rintro ⟨A, B, hL, rfl⟩
      cases A with
      | nil =>
        simp only [List.nil_append, List.cons.injEq] at hL
        exact Or.inl ⟨by simp, hL.1.symm⟩
      | cons a A =>
        simp only [List.cons_append, List.cons.injEq] at hL
        exact Or.inr ⟨A, B, hL.2, by simp [hL.1, Nat.add_assoc]⟩

theorem placed_append : placed extent start (A ++ B) =
    placed extent start A ++ placed extent (start + total extent A) B := by
  induction A generalizing start with
  | nil => simp [placed]
  | cons a A ih => simp [placed, ih, Nat.add_assoc]

theorem Tiles.read_placed (h : Tiles extent read start L stop)
    (hp : (p, b) ∈ placed extent start L) : read p = b := by
  obtain ⟨A, B, rfl, rfl⟩ := mem_placed.1 hp
  exact (tiles_append.1 h).2.1

theorem Tiles.placed_bounds (h : Tiles extent read start L stop)
    (hp : (p, b) ∈ placed extent start L) : start ≤ p ∧ p + extent b ≤ stop := by
  obtain ⟨A, B, rfl, rfl⟩ := mem_placed.1 hp
  have := h.stop_eq
  rw [total_append, total_cons] at this
  omega

/-- A tiling only depends on what is read where its blocks start. -/
theorem Tiles.congr_placed (h : Tiles extent read start L stop)
    (hread : ∀ {p b}, (p, b) ∈ placed extent start L → read' p = read p) :
    Tiles extent read' start L stop := by
  induction L generalizing start with
  | nil => exact h
  | cons b L ih =>
    refine ⟨?_, ih h.2 fun hp => hread (List.mem_cons_of_mem _ hp)⟩
    rw [hread List.mem_cons_self]
    exact h.1

/-- A tiling only depends on what is read inside of it. -/
theorem Tiles.congr (hpos : ∀ b, 0 < extent b) (h : Tiles extent read start L stop)
    (hread : ∀ p, start ≤ p → p < stop → read' p = read p) :
    Tiles extent read' start L stop := by
  refine h.congr_placed fun {p b} hp => ?_
  have hb := hpos b
  have hbounds := h.placed_bounds hp
  exact hread p hbounds.1 (by omega)

/-- **Replacing a run of blocks.**  The new blocks have the extent of the old
ones, and nothing else is written. -/
theorem Tiles.replace (hpos : ∀ b, 0 < extent b)
    (h : Tiles extent read start (A ++ X ++ B) stop)
    (hY : Tiles extent read' (start + total extent A) Y (start + total extent A + total extent X))
    (hread : ∀ p, p < start + total extent A ∨ start + total extent A + total extent X ≤ p →
      read' p = read p) :
    Tiles extent read' start (A ++ Y ++ B) stop := by
  rw [tiles_append, tiles_append] at h
  obtain ⟨⟨hA, -⟩, hB⟩ := h
  have hYlen := hY.stop_eq
  rw [tiles_append, tiles_append, total_append]
  rw [total_append, ← Nat.add_assoc] at hB
  refine ⟨⟨hA.congr hpos fun p _ hp => hread p (by omega), ?_⟩, ?_⟩
  · rwa [← Nat.add_assoc, ← hYlen]
  · rw [← Nat.add_assoc, ← hYlen]
    exact hB.congr hpos fun p hp _ => hread p (by omega)

theorem eq_nil_of_total (hpos : ∀ b, 0 < extent b) (h : total extent L = 0) : L = [] := by
  cases L with
  | nil => rfl
  | cons b L =>
    have hb := hpos b
    rw [total_cons] at h
    omega

/-- A list is split at a position in one way only. -/
theorem split_unique (hpos : ∀ b, 0 < extent b) (h : A ++ X = B ++ Y)
    (htotal : total extent A = total extent B) : A = B ∧ X = Y := by
  rcases List.append_eq_append_iff.1 h with ⟨K, rfl, rfl⟩ | ⟨K, rfl, rfl⟩
  · rw [total_append] at htotal
    obtain rfl := eq_nil_of_total hpos (L := K) (by omega)
    simp
  · rw [total_append] at htotal
    obtain rfl := eq_nil_of_total hpos (L := K) (by omega)
    simp

/-- Two blocks are the same, or do not overlap. -/
theorem placed_disjoint {q : ℕ} {c : β} (hp : (p, b) ∈ placed extent start L)
    (hq : (q, c) ∈ placed extent start L) :
    (p = q ∧ b = c) ∨ p + extent b ≤ q ∨ q + extent c ≤ p := by
  induction L generalizing start with
  | nil => simp [placed] at hp
  | cons a L ih =>
    have hbound : ∀ {r : ℕ} {d : β}, (r, d) ∈ placed extent (start + extent a) L →
        start + extent a ≤ r := by
      intro r d hr
      obtain ⟨A, B, -, rfl⟩ := mem_placed.1 hr
      omega
    simp only [placed, List.mem_cons, Prod.mk.injEq] at hp hq
    rcases hp with ⟨rfl, rfl⟩ | hp <;> rcases hq with ⟨rfl, rfl⟩ | hq
    · exact Or.inl ⟨rfl, rfl⟩
    · exact Or.inr (Or.inl (hbound hq))
    · exact Or.inr (Or.inr (hbound hp))
    · exact ih hp hq

end

end Tiling
