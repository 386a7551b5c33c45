import Mathlib.Data.List.DropRight
import Mathlib.Tactic.Common

/-!
# Trimming

What `trim` leaves of a list when it takes the elements with a property off both ends.

* `rdropWhile_append_cons` — it stops at an element without the property;
* `trim_eq_self_iff` — what is trimmed already;
* `trim_blank_cons`, `trim_append` — a blank in front of that, and a front that stays.
-/

namespace Trimming

variable {α : Type*} {p : α → Bool} {s t : List α} {c d : α}

theorem rdropWhile_append_cons (hc : p c = false) :
    (s ++ c :: t).rdropWhile p = s ++ c :: t.rdropWhile p := by
  have hreverse : (s ++ c :: t).reverse = t.reverse ++ c :: s.reverse := by
    rw [List.reverse_append, List.reverse_cons, List.append_assoc]
    rfl
  rw [List.rdropWhile, List.rdropWhile, hreverse, List.dropWhile_append]
  split
  · rename_i hall
    rw [List.isEmpty_iff] at hall
    rw [hall, List.dropWhile_cons_of_neg (by rw [hc]; exact Bool.false_ne_true),
      List.reverse_cons, List.reverse_reverse, List.reverse_nil]
  · rw [List.reverse_append, List.reverse_cons, List.reverse_reverse, List.append_assoc]
    rfl

def trim (p : α → Bool) (s : List α) : List α := (s.rdropWhile p).dropWhile p

theorem rdropWhile_eq_self (h : ∀ c ∈ s.getLast?, p c = false) : s.rdropWhile p = s := by
  rw [List.rdropWhile_eq_self_iff]
  intro hne hlast
  rw [h _ (List.getLast?_eq_some_getLast hne)] at hlast
  exact Bool.false_ne_true hlast

theorem dropWhile_eq_self (h : ∀ c ∈ s.head?, p c = false) : s.dropWhile p = s := by
  cases s with
  | nil => rfl
  | cons c s =>
    rw [List.dropWhile_cons_of_neg]
    rw [h c rfl]
    exact Bool.false_ne_true

/-- **What is trimmed already**: no end has the property. -/
theorem trim_eq_self_iff : trim p s = s ↔
    (∀ c ∈ s.head?, p c = false) ∧ ∀ c ∈ s.getLast?, p c = false := by
  constructor
  · intro h
    have hdrop := (List.dropWhile_sublist (l := s.rdropWhile p) p).length_le
    have hlength : (trim p s).length = s.length := congrArg List.length h
    have hr : s.rdropWhile p = s :=
      (List.rdropWhile_prefix p s).eq_of_length_le (hlength ▸ hdrop)
    rw [trim, hr] at h
    constructor
    · intro c hc
      cases s with
      | nil => cases hc
      | cons d s =>
        obtain rfl := Option.some.inj hc
        by_contra hd
        have hshort := (List.dropWhile_sublist (l := s) p).length_le
        rw [List.dropWhile_cons_of_pos (eq_true_of_ne_false hd)] at h
        rw [h, List.length_cons] at hshort
        omega
    · intro c hc
      have hne : s ≠ [] := by
        rintro rfl
        cases hc
      have hlast := List.rdropWhile_eq_self_iff.1 hr hne
      rw [List.getLast?_eq_some_getLast hne] at hc
      obtain rfl := Option.some.inj hc
      exact eq_false_of_ne_true hlast
  · rintro ⟨hfirst, hlast⟩
    rw [trim, rdropWhile_eq_self hlast, dropWhile_eq_self hfirst]

/-- A blank in front of what is trimmed already. -/
theorem trim_blank_cons (hc : p c = true) (hs : trim p s = s) : trim p (c :: s) = s := by
  cases s with
  | nil =>
    have hnone : [c].rdropWhile p = [] := List.rdropWhile_eq_nil_iff.2 fun d hd => by
      rw [List.mem_singleton.1 hd]
      exact hc
    rw [trim, hnone, List.dropWhile_nil]
  | cons d s =>
    obtain ⟨hfirst, hlast⟩ := trim_eq_self_iff.1 hs
    have hr : (c :: d :: s).rdropWhile p = c :: d :: s := rdropWhile_eq_self hlast
    rw [trim, hr, List.dropWhile_cons_of_pos hc, dropWhile_eq_self hfirst]

/-- The front stays when its elements do not have the property. -/
theorem trim_append (hfirst : p c = false) (hd : p d = false) :
    trim p (c :: s ++ d :: t) = c :: s ++ d :: t.rdropWhile p := by
  rw [trim, rdropWhile_append_cons hd]
  exact dropWhile_eq_self fun e he => Option.some.inj he ▸ hfirst

end Trimming
