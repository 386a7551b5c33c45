import Mathlib.Data.List.Basic
import Mathlib.Order.Nat
import Mathlib.Tactic.Common

/-!
# The first element with a property

`firstMatch p l` is the first element of a list with the property `p`, and its position.
`insertAt l k a` puts an element at a position of a list or behind its end.

* `firstMatch_eq_some_iff`, `firstMatch_eq_none_iff` — what is found;
* `getElem?_insertAt` — the elements afterwards;
* **`firstMatch_insertAt`** — what is found after one element has been put in the place of one
  that was not searched for.
-/

namespace FirstMatch

variable {α : Type*} {p : α → Bool} {l : List α} {a b : α} {i k : ℕ}

/-- The first element with the property, and its position. -/
def firstMatch (p : α → Bool) (l : List α) : Option (α × ℕ) := l.zipIdx.find? fun x => p x.1

theorem mem_zipIdx_iff {x : α × ℕ} : x ∈ l.zipIdx ↔ l[x.2]? = some x.1 :=
  List.mk_mem_zipIdx_iff_getElem?

theorem firstMatch_eq_none_iff :
    firstMatch p l = none ↔ ∀ (i : ℕ) (a : α), l[i]? = some a → p a = false := by
  rw [firstMatch, List.find?_eq_none]
  constructor
  · intro h i a hget
    have hnot := h (a, i) (mem_zipIdx_iff.2 hget)
    simpa using hnot
  · rintro h ⟨a, i⟩ hmem
    simpa using h i a (mem_zipIdx_iff.1 hmem)

theorem firstMatch_eq_some_iff : firstMatch p l = some (a, i) ↔
    l[i]? = some a ∧ p a = true ∧ ∀ j < i, ∀ b : α, l[j]? = some b → p b = false := by
  rw [firstMatch, List.find?_eq_some_iff_getElem]
  constructor
  · rintro ⟨hpa, j, hj, hget, hbefore⟩
    rw [List.getElem_zipIdx, Prod.mk.injEq, Nat.zero_add] at hget
    obtain ⟨rfl, rfl⟩ := hget
    have hlen : j < l.length := by simpa using hj
    refine ⟨List.getElem?_eq_getElem hlen, hpa, fun k hk b hb => ?_⟩
    obtain ⟨hklt, rfl⟩ := List.getElem?_eq_some_iff.1 hb
    simpa using hbefore k hk
  · rintro ⟨hget, hpa, hbefore⟩
    obtain ⟨hlt, rfl⟩ := List.getElem?_eq_some_iff.1 hget
    refine ⟨hpa, i, by simpa using hlt, by simp, fun j hj => ?_⟩
    simpa using hbefore j hj _ (List.getElem?_eq_getElem (Nat.lt_trans hj hlt))

/-- Puts an element at a position, or behind the end. -/
def insertAt (l : List α) (k : ℕ) (a : α) : List α := l.take k ++ a :: l.drop (k + 1)

theorem getElem?_insertAt (hk : k ≤ l.length) (i : ℕ) :
    (insertAt l k a)[i]? = if i = k then some a else l[i]? := by
  have hlen : (l.take k).length = k := List.length_take_of_le hk
  rcases Nat.lt_trichotomy i k with hlt | rfl | hgt
  · rw [insertAt, List.getElem?_append_left (by omega), if_neg (by omega),
      List.getElem?_take_of_lt hlt]
  · rw [insertAt, List.getElem?_append_right hlen.le, hlen, Nat.sub_self, if_pos rfl]
    rfl
  · obtain ⟨j, rfl⟩ := Nat.exists_eq_add_of_lt hgt
    rw [insertAt, List.getElem?_append_right (by omega), hlen, if_neg (by omega)]
    have hidx : k + j + 1 - k = j + 1 := by omega
    rw [hidx, List.getElem?_cons_succ, List.getElem?_drop]
    congr 1
    omega

theorem length_insertAt (hk : k ≤ l.length) : (insertAt l k a).length = max l.length (k + 1) := by
  rw [insertAt, List.length_append, List.length_cons, List.length_take_of_le hk, List.length_drop]
  omega

/-- **The first element afterwards** is the new one when it is searched for and no element in front
of it is; otherwise it is the one from before. -/
theorem firstMatch_insertAt (hk : k ≤ l.length) (hold : ∀ b, l[k]? = some b → p b = false) :
    firstMatch p (insertAt l k a) =
      if p a = true ∧ (∀ j < k, ∀ b, l[j]? = some b → p b = false) then some (a, k)
      else firstMatch p l := by
  split_ifs with hfirst
  · rw [firstMatch_eq_some_iff]
    refine ⟨by rw [getElem?_insertAt hk, if_pos rfl], hfirst.1, fun j hj b hb => ?_⟩
    rw [getElem?_insertAt hk, if_neg (Nat.ne_of_lt hj)] at hb
    exact hfirst.2 j hj b hb
  · refine Option.ext fun ⟨b, i⟩ => ?_
    rw [firstMatch_eq_some_iff, firstMatch_eq_some_iff]
    constructor
    · rintro ⟨hget, hpb, hbefore⟩
      rw [getElem?_insertAt hk] at hget
      by_cases hi : i = k
      · -- then the new element would be the first one
        rw [if_pos hi] at hget
        obtain rfl := Option.some.inj hget
        refine absurd ⟨hpb, fun j hj c hc => hbefore j (hi ▸ hj) c ?_⟩ hfirst
        rwa [getElem?_insertAt hk, if_neg (Nat.ne_of_lt hj)]
      · rw [if_neg hi] at hget
        refine ⟨hget, hpb, fun j hj c hc => ?_⟩
        by_cases hjk : j = k
        · exact hold c (hjk ▸ hc)
        · exact hbefore j hj c (by rwa [getElem?_insertAt hk, if_neg hjk])
    · rintro ⟨hget, hpb, hbefore⟩
      have hi : i ≠ k := by
        rintro rfl
        rw [hold b hget] at hpb
        exact absurd hpb (by decide)
      refine ⟨by rwa [getElem?_insertAt hk, if_neg hi], hpb, fun j hj c hc => ?_⟩
      rw [getElem?_insertAt hk] at hc
      by_cases hjk : j = k
      · rw [if_pos hjk] at hc
        obtain rfl := Option.some.inj hc
        rw [Bool.eq_false_iff]
        exact fun hpa => hfirst ⟨hpa, fun m hm => hbefore m (Nat.lt_trans hm (hjk ▸ hj))⟩
      · rw [if_neg hjk] at hc
        exact hbefore j hj c hc

end FirstMatch
