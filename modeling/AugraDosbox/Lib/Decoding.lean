import Mathlib.Tactic.Common
import Mathlib.Data.List.Basic

/-!
# Decoders over lists

* `scan` — a loop over the positions of a string whose body may read it, and may move on;
* `decode` — items one after the other, each as long as its first element says;
* `scan_value` — the rule for such loops;
* `Local` — decoders that do not look behind an item;
* **`Local.decode_append`** — what stands before the start of an item does not matter to it;
* `decode_flatMap` — the rule for round trips.
-/

namespace Decoding

variable {α β σ τ : Type*}

/-- `for (; i < size; ++i) body`, where the body may move `i` on: `none` when the body fails, or
when the loop is not through after `fuel` rounds. -/
def scan (size : ℕ) (body : ℕ → σ → Option (ℕ × σ)) : ℕ → ℕ → σ → Option σ
  | 0, i, s => if i < size then none else some s
  | fuel + 1, i, s =>
    if i < size then (body i s).bind fun next => scan size body fuel (next.1 + 1) next.2
    else some s

/-- `one a rest` is the item that starts with `a`, and how many elements of `rest` belong to it. -/
def decode (one : α → List α → β × ℕ) : List α → List β
  | [] => []
  | a :: rest => (one a rest).1 :: decode one (rest.drop (one a rest).2)
termination_by l => l.length
decreasing_by
  rw [List.length_drop, List.length_cons]
  omega

variable {one : α → List α → β × ℕ} {str a b : List α}

@[simp] theorem decode_nil : decode one [] = [] := by rw [decode]

theorem decode_cons (x : α) (rest : List α) :
    decode one (x :: rest) = (one x rest).1 :: decode one (rest.drop (one x rest).2) := by
  rw [decode]

/-! ## Loops -/

/-- **The rule for loops**: a value of the state and of what is still to be read, which no round
changes. -/
theorem scan_value {body : ℕ → σ → Option (ℕ × σ)} (value : σ → List α → τ)
    (hbody : ∀ i s x rest, str.drop i = x :: rest →
      ∃ n s', body i s = some (i + n, s') ∧ value s' (rest.drop n) = value s (x :: rest))
    {fuel i : ℕ} (s : σ) (hfuel : str.length ≤ i + fuel) :
    ∃ s', scan str.length body fuel i s = some s' ∧ value s' [] = value s (str.drop i) := by
  induction fuel generalizing i s with
  | zero =>
    have hend : str.drop i = [] := List.drop_eq_nil_of_le hfuel
    exact ⟨s, if_neg (by omega), by rw [hend]⟩
  | succ fuel ih =>
    cases hdrop : str.drop i with
    | nil =>
      have hend : str.length ≤ i := List.drop_eq_nil_iff.1 hdrop
      exact ⟨s, if_neg (by omega), rfl⟩
    | cons x rest =>
      have hlt : i < str.length := by
        by_contra hle
        rw [List.drop_eq_nil_of_le (by omega)] at hdrop
        cases hdrop
      obtain ⟨n, s', hnext, hvalue⟩ := hbody i s x rest hdrop
      obtain ⟨t, hscan, ht⟩ := @ih (i + n + 1) s' (by omega)
      have hrest : str.drop (i + n + 1) = rest.drop n := by
        rw [show i + n + 1 = i + (1 + n) by omega, ← List.drop_drop, hdrop, Nat.add_comm 1,
          List.drop_succ_cons]
      refine ⟨t, ?_, ?_⟩
      · rw [scan, if_pos hlt, hnext]
        exact hscan
      · rw [ht, hrest, hvalue]

/-! ## Items -/

theorem forall_mem_decode {P : β → Prop} (h : ∀ x rest, P (one x rest).1) :
    ∀ item ∈ decode one str, P item := by
  induction str using decode.induct one with
  | case1 =>
    rw [decode_nil]
    exact fun item hitem => absurd hitem List.not_mem_nil
  | case2 x rest ih =>
    rw [decode_cons]
    exact List.forall_mem_cons.2 ⟨h x rest, ih⟩

/-- An item ends where another one can start. -/
structure Local (one : α → List α → β × ℕ) (Starts : α → Prop) : Prop where
  le_length : ∀ x rest, (one x rest).2 ≤ rest.length
  append : ∀ x rest b, (∀ y ∈ b.head?, Starts y) → one x (rest ++ b) = one x rest

/-- **What stands before the start of an item does not matter to it.** -/
theorem Local.decode_append {Starts : α → Prop} (h : Local one Starts)
    (hb : ∀ y ∈ b.head?, Starts y) : decode one (a ++ b) = decode one a ++ decode one b := by
  induction a using decode.induct one with
  | case1 => rw [decode_nil, List.nil_append, List.nil_append]
  | case2 x rest ih =>
    rw [List.cons_append, decode_cons, h.append x rest b hb,
      List.drop_append_of_le_length (h.le_length x rest), ih, decode_cons, List.cons_append]

/-- **The rule for round trips**: each code is one item, whatever comes behind it. -/
theorem decode_flatMap {enc : β → List α} {items : List β}
    (h : ∀ item ∈ items, ∃ x tail, enc item = x :: tail ∧
      ∀ rest, one x (tail ++ rest) = (item, tail.length)) :
    decode one (items.flatMap enc) = items := by
  induction items with
  | nil => exact decode_nil
  | cons item items ih =>
    obtain ⟨x, tail, henc, hone⟩ := h item List.mem_cons_self
    have hrest := ih fun other hother => h other (List.mem_cons_of_mem item hother)
    rw [List.flatMap_cons, henc, List.cons_append, decode_cons, hone, List.drop_left, hrest]

end Decoding
