import Mathlib.Logic.Function.Basic
import Mathlib.Data.List.Basic

/-!
# Moving and exchanging ranges of memory

A memory is a function, and a range of it is a function from positions to addresses, so a range
may be scattered over the memory.

* `load`, `store` — reading a range into a buffer and writing a buffer to a range.
* `Distinct` — two ranges name no address twice.
* `Transferred` — the one range was moved to the other, or exchanged with it.
* `transferred_store` — one buffer of each range is enough.
* `Transferred.append` — ranges may be transferred piece by piece.
-/

namespace Transfer

variable {α β : Type*}

/-- The contents of the first `n` positions of a range. -/
def load (m : α → β) (f : ℕ → α) (n : ℕ) : List β := (List.range n).map fun i => m (f i)

/-- Writing a buffer to a range, from the first position on. -/
def store [DecidableEq α] (m : α → β) (f : ℕ → α) : List β → α → β
  | [] => m
  | b :: l => store (Function.update m (f 0) b) (fun i => f (i + 1)) l

variable {m m' m'' : α → β} {f S D : ℕ → α} {n k : ℕ} {exchange : Bool}

@[simp] theorem length_load : (load m f n).length = n := by simp [load]

theorem getElem?_load {i : ℕ} (hi : i < n) : (load m f n)[i]? = some (m (f i)) := by
  rw [load, List.getElem?_map, List.getElem?_range hi]
  rfl

theorem load_add (k : ℕ) : load m f (n + k) = load m f n ++ load m (fun i => f (n + i)) k := by
  rw [load, load, load, List.range_add, List.map_append, List.map_map]
  rfl

theorem load_congr {g : ℕ → α} (h : ∀ i, i < n → f i = g i) : load m f n = load m g n :=
  List.map_congr_left fun i hi => by rw [h i (List.mem_range.mp hi)]

variable [DecidableEq α]

variable {l : List β}

theorem store_append : ∀ {m : α → β} {f : ℕ → α} {l' : List β},
    store m f (l ++ l') = store (store m f l) (fun i => f (l.length + i)) l' := by
  induction l with
  | nil =>
    intro m f l'
    simp only [List.nil_append, List.length_nil, Nat.zero_add]
    rfl
  | cons b l ih =>
    intro m f l'
    rw [List.cons_append, store, ih, store]
    congr 1
    funext i
    rw [List.length_cons, Nat.add_assoc, Nat.add_comm i 1, Nat.add_assoc]

theorem store_congr : ∀ {m : α → β} {f g : ℕ → α},
    (∀ i, i < l.length → f i = g i) → store m f l = store m g l := by
  induction l with
  | nil => exact fun _ => rfl
  | cons b l ih =>
    intro m f g h
    rw [store, store, h 0 (Nat.succ_pos _)]
    exact ih fun i hi => h (i + 1) (Nat.succ_lt_succ hi)

theorem store_of_ne {a : α} : ∀ {m : α → β} {f : ℕ → α},
    (∀ i, i < l.length → f i ≠ a) → store m f l a = m a := by
  induction l with
  | nil => exact fun _ => rfl
  | cons b l ih =>
    intro m f h
    rw [store, ih fun i hi => h (i + 1) (Nat.succ_lt_succ hi)]
    exact Function.update_of_ne (h 0 (Nat.succ_pos _)).symm ..

/-- A range that names no address twice holds what was written to it. -/
theorem store_at : ∀ {m : α → β} {f : ℕ → α} {i : ℕ} {b : β},
    (∀ i j, i < l.length → j < l.length → f i = f j → i = j) → l[i]? = some b →
    store m f l (f i) = b := by
  induction l with
  | nil => exact fun _ h => nomatch h
  | cons c l ih =>
    intro m f i b hinj hb
    cases i with
    | zero =>
      obtain rfl : c = b := by simpa using hb
      rw [store, store_of_ne fun j hj heq => ?_]
      · exact Function.update_self ..
      · exact absurd (hinj (j + 1) 0 (Nat.succ_lt_succ hj) (Nat.succ_pos _) heq) (by omega)
    | succ i =>
      refine ih (fun j k hj hk heq => ?_) (by simpa using hb)
      exact Nat.succ.inj (hinj (j + 1) (k + 1) (Nat.succ_lt_succ hj) (Nat.succ_lt_succ hk) heq)

/-- Two ranges of `n` positions that name no address twice. -/
structure Distinct (S D : ℕ → α) (n : ℕ) : Prop where
  source : ∀ i j, i < n → j < n → S i = S j → i = j
  dest : ∀ i j, i < n → j < n → D i = D j → i = j
  apart : ∀ i j, i < n → j < n → S i ≠ D j

omit [DecidableEq α] in
theorem Distinct.mono (h : Distinct S D n) (hk : k ≤ n) : Distinct S D k :=
  ⟨fun i j hi hj => h.source i j (by omega) (by omega),
    fun i j hi hj => h.dest i j (by omega) (by omega),
    fun i j hi hj => h.apart i j (by omega) (by omega)⟩

omit [DecidableEq α] in
theorem Distinct.shift (h : Distinct S D n) (hk : k ≤ n) :
    Distinct (fun i => S (k + i)) (fun i => D (k + i)) (n - k) := by
  refine ⟨fun i j hi hj heq => ?_, fun i j hi hj heq => ?_, fun i j hi hj => ?_⟩
  · exact Nat.add_left_cancel (h.source _ _ (by omega) (by omega) heq)
  · exact Nat.add_left_cancel (h.dest _ _ (by omega) (by omega) heq)
  · exact h.apart _ _ (by omega) (by omega)

/-- The range `S` was moved to the range `D`, or exchanged with it, and nothing else changed. -/
structure Transferred (exchange : Bool) (m m' : α → β) (S D : ℕ → α) (n : ℕ) : Prop where
  dest : ∀ i, i < n → m' (D i) = m (S i)
  source : ∀ i, i < n → m' (S i) = if exchange then m (D i) else m (S i)
  frame : ∀ a, (∀ i, i < n → S i ≠ a ∧ D i ≠ a) → m' a = m a

omit [DecidableEq α] in
theorem transferred_zero : Transferred exchange m m S D 0 :=
  ⟨fun _ hi => absurd hi (Nat.not_lt_zero _), fun _ hi => absurd hi (Nat.not_lt_zero _),
    fun _ _ => rfl⟩

/-- **Transferring through buffers**: both are filled before anything is written. -/
theorem transferred_store (h : Distinct S D n) :
    Transferred exchange m
      (store (if exchange then store m S (load m D n) else m) D (load m S n)) S D n := by
  refine ⟨fun i hi => ?_, fun i hi => ?_, fun a ha => ?_⟩
  · refine store_at (fun j k hj hk => ?_) (getElem?_load hi)
    rw [length_load] at hj hk
    exact h.dest j k hj hk
  · rw [store_of_ne fun j hj heq => ?_]
    · cases exchange with
      | false => rfl
      | true =>
        refine store_at (fun j k hj hk => ?_) (getElem?_load hi)
        rw [length_load] at hj hk
        exact h.source j k hj hk
    · rw [length_load] at hj
      exact h.apart i j hi hj heq.symm
  · rw [store_of_ne fun j hj => ?_]
    · cases exchange with
      | false => rfl
      | true =>
        refine store_of_ne fun j hj => ?_
        rw [length_load] at hj
        exact (ha j hj).1
    · rw [length_load] at hj
      exact (ha j hj).2

omit [DecidableEq α] in
/-- **Piece by piece**: the first `k` positions, and then the others. -/
theorem Transferred.append (h : Distinct S D n) (hk : k ≤ n)
    (hfirst : Transferred exchange m m' S D k)
    (hrest : Transferred exchange m' m'' (fun i => S (k + i)) (fun i => D (k + i)) (n - k)) :
    Transferred exchange m m'' S D n := by
  -- a position of the one piece is not touched by the other piece
  have hsource : ∀ i, i < n → ∀ j, j < n → i ≠ j → S j ≠ S i ∧ D j ≠ S i := fun i hi j hj hij =>
    ⟨fun heq => hij (h.source j i hj hi heq).symm, fun heq => h.apart i j hi hj heq.symm⟩
  have hdest : ∀ i, i < n → ∀ j, j < n → i ≠ j → S j ≠ D i ∧ D j ≠ D i := fun i hi j hj hij =>
    ⟨fun heq => h.apart j i hj hi heq, fun heq => hij (h.dest j i hj hi heq).symm⟩
  have hsplit : ∀ i, k ≤ i → k + (i - k) = i := fun i hi => by omega
  refine ⟨fun i hi => ?_, fun i hi => ?_, fun a ha => ?_⟩
  · by_cases hik : i < k
    · rw [hrest.frame _ fun j hj => hdest i hi (k + j) (by omega) (by omega), hfirst.dest i hik]
    · have hi' := hrest.dest (i - k) (by omega)
      rw [hsplit i (by omega)] at hi'
      rw [hi', hfirst.frame _ fun j hj => hsource i hi j (by omega) (by omega)]
  · by_cases hik : i < k
    · rw [hrest.frame _ fun j hj => hsource i hi (k + j) (by omega) (by omega),
        hfirst.source i hik]
    · have hi' := hrest.source (i - k) (by omega)
      rw [hsplit i (by omega)] at hi'
      rw [hi', hfirst.frame _ fun j hj => hsource i hi j (by omega) (by omega),
        hfirst.frame _ fun j hj => hdest i hi j (by omega) (by omega)]
  · rw [hrest.frame a fun j hj => ha (k + j) (by omega),
      hfirst.frame a fun j hj => ha j (by omega)]

end Transfer
