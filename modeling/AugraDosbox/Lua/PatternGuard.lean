import Mathlib.Data.UInt
import Mathlib.Tactic.Common

/-!
# The guard in front of the Lua pattern matcher

`CountUnboundedQuantifiers` reads a pattern with two states, inside a set and outside of one.
The matcher's own reading of a pattern, `classend` and the cases of `match`, is in `next`.

* `Item`, `next`, `Accepts` — the items of a pattern that the matcher takes, whatever the
  subject;
* `count` — the guard's loop; `next_le_count` — it keeps in step over one item, except for a
  `%b` whose delimiters it reads as a set or as an escape (`Desyncs`);
* **`guard_counts_iff`** — for which delimiters the guard never counts too few.
-/

namespace AugraDosbox

namespace Lua

/-- A character of a pattern. -/
def chr (c : Char) : UInt8 := c.toUInt8

/-! ## The matcher's items -/

/-- What one turn of `match` is about. -/
inductive Item where
  /-- `(` with the position capture told apart, and `)`. -/
  | capture (position : Bool)
  | close
  /-- `$` at the end of the pattern. -/
  | endAnchor
  /-- `%b` with its two delimiters. -/
  | balance (b e : UInt8)
  /-- `%f` with a set. -/
  | frontier
  /-- `%0` to `%9`. -/
  | back (l : UInt8)
  /-- One character or class, and the suffix that follows it. -/
  | single (suffix : Option UInt8)
  deriving DecidableEq, Repr

/-- The end of a set: `do ... while (*p != ']')` after its first turn. -/
def setRest : List UInt8 → Option (List UInt8)
  | [] => none
  | c :: p =>
      if c = chr ']' then some p
      else if c = chr '%' then
        match p with
        | [] => none
        | _ :: p => setRest p
      else setRest p

/-- The first turn of that loop, which takes a `]` like any other character. -/
def setEnd : List UInt8 → Option (List UInt8)
  | [] => none
  | c :: p => if c = chr '%' then setRest p.tail else setRest p

/-- `classend`: what follows the class at the head of the pattern. -/
def classend : List UInt8 → Option (List UInt8)
  | [] => none
  | c :: p =>
      if c = chr '%' then
        match p with
        | [] => none
        | _ :: p => some p
      else if c = chr '[' then
        if p.head? = some (chr '^') then setEnd p.tail else setEnd p
      else some p

/-- `*`, `+`, `-` or `?`. -/
def IsSuffix (c : UInt8) : Prop := c = chr '*' ∨ c = chr '+' ∨ c = chr '-' ∨ c = chr '?'

instance (c : UInt8) : Decidable (IsSuffix c) := inferInstanceAs (Decidable (_ ∨ _))

/-- The default case of `match`: a class and its optional suffix. -/
def dflt (p : List UInt8) : Option (Item × List UInt8) :=
  (classend p).map fun ep =>
    match ep with
    | [] => (.single none, [])
    | c :: rest => if IsSuffix c then (.single (some c), rest) else (.single none, ep)

/-- The item at the head of a pattern and what `match` goes on with after it. -/
def next : List UInt8 → Option (Item × List UInt8)
  | [] => none
  | c :: p =>
      if c = chr '(' then
        if p.head? = some (chr ')') then some (.capture true, p.tail) else some (.capture false, p)
      else if c = chr ')' then some (.close, p)
      else if c = chr '$' ∧ p = [] then some (.endAnchor, [])
      else if c = chr '%' then
        match p with
        | [] => none
        | l :: q =>
            if l = chr 'b' then
              match q with
              | b :: e :: rest => some (.balance b e, rest)
              | _ => none
            else if l = chr 'f' then
              if q.head? = some (chr '[') then (classend q).map fun ep => (.frontier, ep) else none
            else if chr '0' ≤ l ∧ l ≤ chr '9' then some (.back l, q)
            else dflt (c :: p)
      else dflt (c :: p)

/-- A pattern that the matcher accepts to its end, with its items. -/
inductive Items : List UInt8 → List Item → Prop where
  | nil : Items [] []
  | cons {p rest : List UInt8} {item : Item} {items : List Item}
      (hnext : next p = some (item, rest)) (hrest : Items rest items) : Items p (item :: items)

/-- An accepted pattern.  `find`, `match` and `gsub` skip a `^` in front of it. -/
def Accepts (pattern : List UInt8) (items : List Item) : Prop :=
  Items pattern items ∨ ∃ rest, pattern = chr '^' :: rest ∧ Items rest items

/-- `*`, `+` and `-` repeat without a bound. -/
def IsUnbounded (c : UInt8) : Prop := c = chr '*' ∨ c = chr '+' ∨ c = chr '-'

instance (c : UInt8) : Decidable (IsUnbounded c) := inferInstanceAs (Decidable (_ ∨ _))

/-- The unbounded quantifiers of an item. -/
def Item.unbounded : Item → ℕ
  | .single (some c) => if IsUnbounded c then 1 else 0
  | _ => 0

/-- The single-character items with an unbounded quantifier. -/
def quantified (items : List Item) : ℕ := (items.map Item.unbounded).sum

/-! ## The guard -/

/-- The characters that the guard skips after a `[`: a `^` and a leading `]`. -/
def opening (p : List UInt8) : ℕ :=
  if p.head? = some (chr '^') then if p[1]? = some (chr ']') then 2 else 1
  else if p.head? = some (chr ']') then 1
  else 0

/-- The loop of `CountUnboundedQuantifiers`; `skip` is how often `++i` passes over a character. -/
def count (in_set : Bool) : ℕ → List UInt8 → ℕ
  | _, [] => 0
  | skip + 1, _ :: p => count in_set skip p
  | 0, c :: p =>
      if c = chr '%' then count in_set 1 p
      else if in_set then
        if c = chr ']' then count false 0 p else count true 0 p
      else if c = chr '[' then count true (opening p) p
      else if IsUnbounded c then count false 0 p + 1
      else count false 0 p

def CountUnboundedQuantifiers (p : List UInt8) : ℕ := count false 0 p

def MaxPatternSubjectLen : ℕ := 64 * 1024
def MaxPatternLen : ℕ := 1024
def MaxPatternCostBits : ℕ := 24

def BitLength (n : ℕ) : ℕ := if n = 0 then 0 else BitLength (n / 2) + 1

/-- `CheckPatternComplexity` for a subject of the given length. -/
def CheckPatternComplexity (subject_len : ℕ) (pattern : List UInt8) : Except String Unit :=
  let pattern_len := pattern.length
  let quantifiers := CountUnboundedQuantifiers pattern
  if MaxPatternSubjectLen < subject_len then
    .error (s!"string too long for pattern operation ({subject_len} bytes, " ++
      s!"limit {MaxPatternSubjectLen})")
  else if MaxPatternLen < pattern_len then
    .error s!"pattern too long ({pattern_len} bytes, limit {MaxPatternLen})"
  else if MaxPatternCostBits < quantifiers * BitLength subject_len then
    .error (s!"pattern too complex for subject length ({quantifiers} quantifiers " ++
      s!"over {subject_len} bytes)")
  else .ok ()

/-! ## One item -/

variable {p rest : List UInt8} {c : UInt8} {b : Bool} {k : ℕ} {item : Item} {items : List Item}

theorem count_cons : count b 0 (c :: p) =
    if c = chr '%' then count b 1 p
    else if b then
      if c = chr ']' then count false 0 p else count true 0 p
    else if c = chr '[' then count true (opening p) p
    else if IsUnbounded c then count false 0 p + 1
    else count false 0 p := rfl

theorem count_skip : count b k p = count b 0 (p.drop k) := by
  induction k generalizing p with
  | zero => rfl
  | succ k ih =>
    cases p with
    | nil => rfl
    | cons c p => exact ih

/-- Inside a set the guard comes out where the matcher does. -/
theorem count_setRest (h : setRest p = some rest) : count true 0 p = count false 0 rest := by
  fun_induction setRest p with
  | case1 => cases h
  | case2 p =>
    obtain rfl := Option.some.inj h
    rfl
  | case3 => cases h
  | case4 x p hset ih =>
    exact ih h
  | case5 c p hset hesc ih =>
    rw [count_cons, if_neg hesc, if_pos rfl, if_neg hset]
    exact ih h

/-- The guard skips a leading `]`, the matcher takes any first character. -/
theorem count_setEnd (h : setEnd p = some rest) :
    count true 0 (p.drop (if p.head? = some (chr ']') then 1 else 0)) = count false 0 rest := by
  cases p with
  | nil => cases h
  | cons c p =>
    rw [setEnd] at h
    by_cases hclose : c = chr ']'
    · rw [if_neg (by rw [hclose]; decide)] at h
      rw [if_pos (by rw [hclose]; rfl)]
      exact count_setRest h
    · rw [if_neg (by simpa using hclose), List.drop_zero, count_cons]
      split
      · rename_i hesc
        rw [if_pos hesc] at h
        rw [count_skip, List.drop_one]
        exact count_setRest h
      · rename_i hesc
        rw [if_neg hesc] at h
        rw [if_pos rfl]
        exact count_setRest h

theorem count_set (h : classend (chr '[' :: p) = some rest) :
    count false 0 (chr '[' :: p) = count false 0 rest := by
  unfold classend at h
  dsimp only at h
  rw [if_neg (by decide), if_pos rfl] at h
  rw [count_cons, if_neg (by decide), if_neg Bool.false_ne_true, if_pos rfl, count_skip]
  by_cases hneg : p.head? = some (chr '^')
  · rw [if_pos hneg] at h
    obtain ⟨q, rfl⟩ : ∃ q, p = chr '^' :: q := List.head?_eq_some_iff.1 hneg
    rw [← count_setEnd h, opening, if_pos hneg]
    cases q with
    | nil => rfl
    | cons c q =>
      by_cases hclose : c = chr ']'
      · subst hclose
        rfl
      · rw [if_neg (by simpa using hclose), if_neg (by simpa using hclose)]
        rfl
  · rw [if_neg hneg] at h
    rw [← count_setEnd h, opening, if_neg hneg]

/-- Over one class the guard counts nothing or the class itself. -/
theorem count_classend (h : classend p = some rest) : count false 0 rest ≤ count false 0 p := by
  cases p with
  | nil => cases h
  | cons c p =>
    by_cases hset : c = chr '['
    · subst hset
      exact (count_set h).ge
    · unfold classend at h
      dsimp only at h
      rw [count_cons]
      split
      · rename_i hesc
        rw [if_pos hesc] at h
        cases p with
        | nil => cases h
        | cons x p =>
          obtain rfl := Option.some.inj h
          exact le_rfl
      · rename_i hesc
        rw [if_neg hesc, if_neg hset] at h
        obtain rfl := Option.some.inj h
        rw [if_neg Bool.false_ne_true]
        split
        · exact Nat.le_succ _
        · exact le_rfl

theorem count_unbounded (h : IsUnbounded c) : count false 0 (c :: p) = count false 0 p + 1 := by
  have hesc : c ≠ chr '%' := by
    rintro rfl
    exact absurd h (by decide)
  have hset : c ≠ chr '[' := by
    rintro rfl
    exact absurd h (by decide)
  rw [count_cons, if_neg hesc, if_neg Bool.false_ne_true, if_neg hset, if_pos h]

/-- A character that is neither an escape nor the beginning of a set. -/
theorem count_plain (hesc : c ≠ chr '%') (hset : c ≠ chr '[') :
    count false 0 p ≤ count false 0 (c :: p) := by
  rw [count_cons, if_neg hesc, if_neg Bool.false_ne_true, if_neg hset]
  split
  · exact Nat.le_succ _
  · exact le_rfl

theorem count_escape : count false 0 (chr '%' :: c :: p) = count false 0 p := rfl

theorem dflt_le_count (h : dflt p = some (item, rest)) :
    item.unbounded + count false 0 rest ≤ count false 0 p := by
  obtain ⟨ep, hep, hitem⟩ := Option.map_eq_some_iff.1 h
  refine le_trans ?_ (count_classend hep)
  cases ep with
  | nil =>
    obtain ⟨rfl, rfl⟩ := Prod.mk.inj hitem
    exact (Nat.zero_add _).le
  | cons c ep =>
    dsimp only at hitem
    split at hitem
    · rename_i hsuffix
      obtain ⟨rfl, rfl⟩ := Prod.mk.inj hitem
      rw [Item.unbounded]
      split
      · rename_i hunbounded
        rw [count_unbounded hunbounded, Nat.add_comm]
      · rw [Nat.zero_add]
        refine count_plain ?_ ?_
        · rintro rfl
          exact absurd hsuffix (by decide)
        · rintro rfl
          exact absurd hsuffix (by decide)
    · obtain ⟨rfl, rfl⟩ := Prod.mk.inj hitem
      exact (Nat.zero_add _).le

/-! ## The delimiters of a balanced match -/

/-- The guard is in a set or in front of an escaped character when it has passed over `%b` and
these delimiters. -/
def Desyncs (x y : UInt8) : Prop := x = chr '[' ∨ (x ≠ chr '%' ∧ (y = chr '[' ∨ y = chr '%'))

instance (x y : UInt8) : Decidable (Desyncs x y) := inferInstanceAs (Decidable (_ ∨ _))

theorem balance_le_count {x y : UInt8} (h : ¬Desyncs x y) :
    count false 0 p ≤ count false 0 (x :: y :: p) := by
  obtain ⟨hset, hy⟩ := not_or.1 h
  by_cases hesc : x = chr '%'
  · subst hesc
    exact count_escape.ge
  · obtain ⟨hyset, hyesc⟩ := not_or.1 (not_and.1 hy hesc)
    exact (count_plain hyesc hyset).trans (count_plain hesc hset)

/-- **One item**: the guard counts its quantifier and is outside of sets again after it. -/
theorem next_le_count (h : next p = some (item, rest))
    (hsync : ∀ x y, item = .balance x y → ¬Desyncs x y) :
    item.unbounded + count false 0 rest ≤ count false 0 p := by
  cases p with
  | nil => cases h
  | cons c p =>
    unfold next at h
    dsimp only at h
    split at h
    · rename_i hopen
      subst hopen
      split at h
      · rename_i hclose
        obtain ⟨q, rfl⟩ := List.head?_eq_some_iff.1 hclose
        obtain ⟨rfl, rfl⟩ := Prod.mk.inj (Option.some.inj h)
        exact (Nat.zero_add _).le
      · obtain ⟨rfl, rfl⟩ := Prod.mk.inj (Option.some.inj h)
        exact (Nat.zero_add _).le
    split at h
    · rename_i hclose
      subst hclose
      obtain ⟨rfl, rfl⟩ := Prod.mk.inj (Option.some.inj h)
      exact (Nat.zero_add _).le
    split at h
    · obtain ⟨rfl, rfl⟩ := Prod.mk.inj (Option.some.inj h)
      exact Nat.zero_le _
    split at h
    · rename_i hesc
      subst hesc
      cases p with
      | nil => cases h
      | cons l q =>
        dsimp only at h
        split at h
        · match q, h with
          | x :: y :: q, h =>
            obtain ⟨rfl, rfl⟩ := Prod.mk.inj (Option.some.inj h)
            exact (Nat.zero_add _).trans_le (balance_le_count (hsync x y rfl))
        split at h
        · split at h
          · obtain ⟨ep, hep, hitem⟩ := Option.map_eq_some_iff.1 h
            obtain ⟨rfl, rfl⟩ := Prod.mk.inj hitem
            exact (Nat.zero_add _).trans_le ((count_classend hep).trans count_escape.ge)
          · cases h
        split at h
        · obtain ⟨rfl, rfl⟩ := Prod.mk.inj (Option.some.inj h)
          exact (Nat.zero_add _).le
        · exact dflt_le_count h
    · exact dflt_le_count h

/-! ## A whole pattern -/

theorem Items.quantified_le (h : Items p items)
    (hsync : ∀ x y, Item.balance x y ∈ items → ¬Desyncs x y) :
    quantified items ≤ count false 0 p := by
  induction h with
  | nil => exact Nat.zero_le _
  | @cons p rest item items hnext _ ih =>
    have hrest := ih fun x y hmem => hsync x y (List.mem_cons_of_mem _ hmem)
    have hitem := next_le_count hnext fun x y heq => hsync x y (heq ▸ List.mem_cons_self)
    rw [quantified, List.map_cons, List.sum_cons]
    exact (Nat.add_le_add_left hrest _).trans hitem

/-- `%bxy%[a*a*`: behind such delimiters the guard takes the escaped bracket for one that opens a
set. -/
def misread (x y : UInt8) : List UInt8 :=
  [chr '%', chr 'b', x, y, chr '%', chr '[', chr 'a', chr '*', chr 'a', chr '*']

def misreadItems (x y : UInt8) : List Item :=
  [.balance x y, .single none, .single (some (chr '*')), .single (some (chr '*'))]

theorem accepts_misread (x y : UInt8) : Accepts (misread x y) (misreadItems x y) := by
  have hlast : next [chr 'a', chr '*'] = some (.single (some (chr '*')), []) := by decide
  have hstar : next [chr 'a', chr '*', chr 'a', chr '*'] =
      some (.single (some (chr '*')), [chr 'a', chr '*']) := by decide
  have hbracket : next [chr '%', chr '[', chr 'a', chr '*', chr 'a', chr '*'] =
      some (.single none, [chr 'a', chr '*', chr 'a', chr '*']) := by decide
  exact .inl (.cons rfl (.cons hbracket (.cons hstar (.cons hlast .nil))))

/-- In a set the guard passes over all of it. -/
theorem count_misread {x y : UInt8} (h : Desyncs x y) :
    CountUnboundedQuantifiers (misread x y) ≤ 1 := by
  have hset : count true 0 [chr '%', chr '[', chr 'a', chr '*', chr 'a', chr '*'] = 0 := by decide
  have hset1 : count true 1 [chr '%', chr '[', chr 'a', chr '*', chr 'a', chr '*'] = 0 := by decide
  have hout1 : count false 1 [chr '%', chr '[', chr 'a', chr '*', chr 'a', chr '*'] = 0 := by decide
  have hstart : CountUnboundedQuantifiers (misread x y) = count false 0
      (x :: y :: [chr '%', chr '[', chr 'a', chr '*', chr 'a', chr '*']) := rfl
  rw [hstart]
  rcases h with rfl | ⟨hesc, hy⟩
  · have hescaped : (y :: [chr '%', chr '[', chr 'a', chr '*', chr 'a', chr '*'])[1]? ≠
        some (chr ']') := show some (chr '%') ≠ some (chr ']') by decide
    rw [count_cons, if_neg (by decide), if_neg Bool.false_ne_true, if_pos rfl, opening,
      if_neg hescaped]
    split
    · exact hset.trans_le (Nat.zero_le 1)
    · split
      · exact hset.trans_le (Nat.zero_le 1)
      · rename_i hclose
        rw [count_cons]
        split
        · exact hset1.trans_le (Nat.zero_le 1)
        · rw [if_pos rfl, if_neg (by simpa using hclose)]
          exact hset.trans_le (Nat.zero_le 1)
  · have hrest : count false 0
        (y :: [chr '%', chr '[', chr 'a', chr '*', chr 'a', chr '*']) = 0 := by
      rcases hy with rfl | rfl
      · exact hset
      · exact hout1
    rw [count_cons, if_neg hesc, if_neg Bool.false_ne_true]
    split
    · rename_i hopen
      subst hopen
      rcases hy with rfl | rfl
      · decide
      · decide
    · split
      · rw [hrest]
      · exact hrest.trans_le (Nat.zero_le 1)

/-- **The guard and the delimiters.**  The guard counts every quantified item of every accepted
pattern, and bounds its cost, exactly when no `%b` of the pattern has delimiters that it reads
as a set or as an escape. -/
theorem guard_counts_iff (Delimiters : UInt8 → UInt8 → Prop) :
    (∀ pattern items, Accepts pattern items →
      (∀ x y, .balance x y ∈ items → Delimiters x y) →
      quantified items ≤ CountUnboundedQuantifiers pattern ∧
        ∀ subject_len, CheckPatternComplexity subject_len pattern = .ok () →
          quantified items * BitLength subject_len ≤ MaxPatternCostBits) ↔
    ∀ x y, Delimiters x y → ¬Desyncs x y := by
  constructor
  · intro hcounts x y hxy hdesync
    have hle := (hcounts _ _ (accepts_misread x y) ?_).1
    · have htwo : quantified (misreadItems x y) = 2 := rfl
      rw [htwo] at hle
      exact absurd (hle.trans (count_misread hdesync)) (by decide)
    · intro x' y' hmem
      simp only [misreadItems, List.mem_cons, Item.balance.injEq, List.not_mem_nil, or_false,
        reduceCtorEq] at hmem
      exact hmem.1 ▸ hmem.2 ▸ hxy
  · intro hfine pattern items haccepts hdelims
    have hsync : ∀ x y, Item.balance x y ∈ items → ¬Desyncs x y :=
      fun x y hmem => hfine x y (hdelims x y hmem)
    have hcount : quantified items ≤ CountUnboundedQuantifiers pattern := by
      rcases haccepts with hitems | ⟨rest, rfl, hitems⟩
      · exact hitems.quantified_le hsync
      · exact hitems.quantified_le hsync
    refine ⟨hcount, fun subject_len hcheck => ?_⟩
    refine (Nat.mul_le_mul_right _ hcount).trans ?_
    unfold CheckPatternComplexity at hcheck
    dsimp only at hcheck
    split at hcheck
    · cases hcheck
    · split at hcheck
      · cases hcheck
      · split at hcheck
        · cases hcheck
        · exact not_lt.1 ‹_›

/-- `%b[].*.*.*` has three quantified items, of which the guard counts none. -/
def unguarded : List UInt8 :=
  [chr '%', chr 'b', chr '[', chr ']', chr '.', chr '*', chr '.', chr '*', chr '.', chr '*']

theorem unguarded_passes :
    Accepts unguarded [.balance (chr '[') (chr ']'), .single (some (chr '*')),
      .single (some (chr '*')), .single (some (chr '*'))] ∧
    CountUnboundedQuantifiers unguarded = 0 ∧
    CheckPatternComplexity 65536 unguarded = .ok () := by
  have hcount : CountUnboundedQuantifiers unguarded = 0 := by decide
  refine ⟨?_, hcount, ?_⟩
  swap
  · unfold CheckPatternComplexity
    dsimp only
    rw [if_neg (by decide), if_neg (by decide), hcount, Nat.zero_mul, if_neg (by decide)]
  have h1 : next [chr '.', chr '*'] = some (.single (some (chr '*')), []) := by decide
  have h2 : next [chr '.', chr '*', chr '.', chr '*'] =
      some (.single (some (chr '*')), [chr '.', chr '*']) := by decide
  have h3 : next [chr '.', chr '*', chr '.', chr '*', chr '.', chr '*'] =
      some (.single (some (chr '*')), [chr '.', chr '*', chr '.', chr '*']) := by decide
  exact .inl (.cons rfl (.cons h3 (.cons h2 (.cons h1 .nil))))

end Lua

end AugraDosbox
