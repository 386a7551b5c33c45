import AugraDosbox.Lib.Transfer

/-!
# Blocks of terminated strings

A memory is a function from addresses.  A string ends with a terminator, which is the zero of its
characters; a block is a sequence of strings that are not empty, and ends with an empty one.

* `At` — a list of characters is in the memory.
* `readString`, `readStrings` — reading a string, up to a number of characters, and reading strings
  up to the empty one.
* `encode`, `Block` — the characters of a sequence of strings, and of a block.
* `readStrings_of_block` — what is read from a block.
-/

namespace StringBlock

variable {β : Type*} {m m' : ℕ → β} {a b : ℕ} {s t : List β}

/-- The characters are in the memory from an address on. -/
def At (m : ℕ → β) (a : ℕ) (s : List β) : Prop := ∀ i, (h : i < s.length) → m (a + i) = s[i]

theorem At.nil (m : ℕ → β) (a : ℕ) : At m a [] := fun i hi => absurd hi (Nat.not_lt_zero i)

theorem at_append : At m a (s ++ t) ↔ At m a s ∧ At m (a + s.length) t := by
  constructor
  · intro h
    refine ⟨fun i hi => ?_, fun i hi => ?_⟩
    · rw [h i (by rw [List.length_append]; omega), List.getElem_append_left hi]
    · rw [Nat.add_assoc, h (s.length + i) (by rw [List.length_append]; omega),
        List.getElem_append_right (Nat.le_add_right _ _)]
      simp
  · rintro ⟨hs, ht⟩ i hi
    by_cases hlt : i < s.length
    · rw [hs i hlt, List.getElem_append_left hlt]
    · obtain ⟨k, rfl⟩ := Nat.exists_eq_add_of_le (Nat.le_of_not_lt hlt)
      rw [List.length_append] at hi
      rw [← Nat.add_assoc, ht k (by omega), List.getElem_append_right (Nat.le_add_right _ _)]
      simp

theorem at_singleton {c : β} : At m a [c] ↔ m a = c := by
  constructor
  · intro h
    exact h 0 (by simp)
  · intro h i hi
    obtain rfl : i = 0 := by simpa using hi
    exact h

theorem at_cons {c : β} : At m a (c :: s) ↔ m a = c ∧ At m (a + 1) s := by
  rw [← List.singleton_append, at_append, at_singleton]
  rfl

/-- Characters that are not written to stay. -/
theorem At.congr (h : At m a s) (heq : ∀ i, i < s.length → m' (a + i) = m (a + i)) : At m' a s :=
  fun i hi => (heq i hi).trans (h i hi)

theorem at_store (m : ℕ → β) (a : ℕ) (s : List β) :
    At (Transfer.store m (fun i => a + i) s) a s := by
  intro i hi
  exact Transfer.store_at (fun i j _ _ h => by omega) (List.getElem?_eq_getElem hi)

theorem store_outside {x : ℕ} (h : x < a ∨ a + s.length ≤ x) :
    Transfer.store m (fun i => a + i) s x = m x :=
  Transfer.store_of_ne fun i hi => by omega

/-! ## Reading -/

section reading

variable [Zero β] {ss : List (List β)} {n k : ℕ}

/-- The characters of a sequence of strings with their terminators. -/
def encode (ss : List (List β)) : List β := ss.flatMap (· ++ [0])

@[simp] theorem encode_nil : encode ([] : List (List β)) = [] := rfl

@[simp] theorem encode_cons (s : List β) (ss : List (List β)) :
    encode (s :: ss) = s ++ [0] ++ encode ss := rfl

@[simp] theorem encode_append (ss ts : List (List β)) :
    encode (ss ++ ts) = encode ss ++ encode ts := List.flatMap_append

theorem at_encode_cons : At m a (encode (s :: ss) ++ t) ↔
    At m a (s ++ [0]) ∧ At m (a + s.length + 1) (encode ss ++ t) := by
  rw [encode_cons, List.append_assoc, at_append]
  simp [Nat.add_assoc]

variable [DecidableEq β]

/-- Up to `n` characters, as far as a terminator. -/
def readString (m : ℕ → β) : ℕ → ℕ → List β
  | 0, _ => []
  | n + 1, a => if m a = 0 then [] else m a :: readString m n (a + 1)

theorem readString_of_at (h : At m a (s ++ [0])) (hs : 0 ∉ s) (hn : s.length ≤ n) :
    readString m n a = s := by
  induction s generalizing n a with
  | nil =>
    cases n with
    | zero => rfl
    | succ n =>
      have hzero : m a = 0 := at_singleton.1 h
      rw [readString, if_pos hzero]
  | cons c s ih =>
    cases n with
    | zero => exact absurd hn (Nat.not_succ_le_zero _)
    | succ n =>
      obtain ⟨hc, hrest⟩ := at_cons.1 h
      have hne : m a ≠ 0 := by
        rw [hc]
        exact fun h0 => hs (h0 ▸ List.mem_cons_self)
      rw [readString, if_neg hne, hc,
        ih hrest (fun h0 => hs (List.mem_cons_of_mem _ h0)) (Nat.le_of_succ_le_succ hn)]

/-- Strings of up to `n` characters as far as an empty one, with fuel for their number. -/
def readStrings (m : ℕ → β) (n : ℕ) : ℕ → ℕ → Option (List (List β))
  | 0, _ => none
  | k + 1, a =>
      let s := readString m n a
      if s = [] then some []
      else (readStrings m n k (a + s.length + 1)).map (s :: ·)

/-- The strings and the empty one are in the memory. -/
def Block (m : ℕ → β) (a : ℕ) (ss : List (List β)) : Prop := At m a (encode ss ++ [0])

/-- A string that can be read: it is not empty, has no terminator inside and is not too long. -/
structure Readable (n : ℕ) (s : List β) : Prop where
  ne_nil : s ≠ []
  no_zero : (0 : β) ∉ s
  length_le : s.length ≤ n

theorem Readable.readString_eq (hs : Readable n s) (h : At m a (s ++ [0])) :
    readString m n a = s :=
  readString_of_at h hs.no_zero hs.length_le

/-- **The strings of a block are read from it.** -/
theorem readStrings_of_block (h : Block m a ss) (hs : ∀ s ∈ ss, Readable n s) (hk : ss.length < k) :
    readStrings m n k a = some ss := by
  induction ss generalizing a k with
  | nil =>
    obtain ⟨k, rfl⟩ := Nat.exists_eq_add_of_lt hk
    have hempty : readString m n a = [] :=
      readString_of_at (s := []) h List.not_mem_nil (Nat.zero_le n)
    rw [readStrings, hempty]
    rfl
  | cons s ss ih =>
    obtain ⟨k, rfl⟩ := Nat.exists_eq_add_of_lt (Nat.lt_of_le_of_lt (Nat.zero_le _) hk)
    obtain ⟨hhead, htail⟩ := at_encode_cons.1 h
    have hread := hs s List.mem_cons_self
    rw [Nat.zero_add, readStrings, hread.readString_eq hhead, if_neg hread.ne_nil,
      ih htail (fun s hs' => hs s (List.mem_cons_of_mem _ hs'))
      (by rw [List.length_cons] at hk; omega), Option.map_some]

/-- Strings that are in the memory are read first, whatever comes after them. -/
theorem prefix_of_readStrings (h : At m a (encode ss)) (hs : ∀ s ∈ ss, Readable n s)
    {l : List (List β)} (hl : readStrings m n k a = some l) : ss <+: l := by
  induction ss generalizing a k l with
  | nil => exact List.nil_prefix
  | cons s ss ih =>
    rw [← List.append_nil (encode (s :: ss))] at h
    obtain ⟨hhead, htail⟩ := at_encode_cons.1 h
    rw [List.append_nil] at htail
    have hread := hs s List.mem_cons_self
    cases k with
    | zero => exact nomatch hl
    | succ k =>
      rw [readStrings, hread.readString_eq hhead, if_neg hread.ne_nil,
        Option.map_eq_some_iff] at hl
      obtain ⟨l', hl', rfl⟩ := hl
      obtain ⟨rest, rfl⟩ := ih htail (fun s hs' => hs s (List.mem_cons_of_mem _ hs')) hl'
      exact ⟨rest, rfl⟩

/-- A block has one sequence of strings. -/
theorem Block.unique {ts : List (List β)} (h₁ : Block m a ss) (h₂ : Block m a ts)
    (hs : ∀ s ∈ ss, Readable n s) (ht : ∀ t ∈ ts, Readable n t) : ss = ts := by
  have hlt₁ : ss.length < ss.length + ts.length + 1 := by omega
  have hlt₂ : ts.length < ss.length + ts.length + 1 := by omega
  exact Option.some.inj
    ((readStrings_of_block h₁ hs hlt₁).symm.trans (readStrings_of_block h₂ ht hlt₂))

end reading

end StringBlock
