import Mathlib.Data.List.Perm.Subperm
import AugraDosbox.Lib.Chain
import AugraDosbox.Hardware.Pages

/-!
# What one call does to the page table

`Owned m live` says that the table of `m` is the disjoint union of the chains in
`live`, a map from handles to the pages of their allocations, and that every
other page is free.  Each function of the allocator gets one lemma saying what
it does to the table, and from it one saying how it changes `live`.
-/

namespace AugraDosbox

open Threaded

namespace MemoryBlock

/-- The pages of the list are chained in the table and the last one is marked
with -1. -/
abbrev Chained (mhandles : ℕ → ℤ) (L : List ℕ) : Prop :=
  Linked (fun p : ℕ => (p : ℤ)) (fun v => v = -1) mhandles L

theorem entry_injective : Function.Injective (fun p : ℕ => (p : ℤ)) :=
  fun _ _ h => Int.ofNat.inj h

theorem entry_ne_stop (p : ℕ) : ¬ (fun v : ℤ => v = -1) ((fun p : ℕ => (p : ℤ)) p) := by
  simp only
  omega

variable {f : ℕ → ℤ} {L : List ℕ}

theorem Chained.nodup (h : Chained f L) : L.Nodup :=
  Linked.nodup entry_injective entry_ne_stop h

theorem Chained.last {A : List ℕ} {p : ℕ} (h : Chained f (A ++ [p])) : f p = -1 := by
  have hlast := Linked.last h
  exact hlast

/-- The entry of a chained page is not 0 when the chain avoids page 0. -/
theorem Chained.entry_ne_zero (h : Chained f L) (hpos : ∀ p ∈ L, p ≠ 0) {p : ℕ} (hp : p ∈ L) :
    f p ≠ 0 := by
  obtain ⟨A, B, rfl⟩ := List.append_of_mem hp
  cases B with
  | nil =>
    have hlast := h.last
    omega
  | cons q B =>
    have hq : f p = (q : ℤ) := Linked.entry h
    have := hpos q (by simp)
    omega

/-! ## Searching -/

/-- The loop of `BestMatch` only ever returns the start of a free run that is
long enough: the run noted in `best_first`, or the one it is inside of. -/
theorem bestMatchLoop_spec {size b : ℕ} :
    ∀ {n index first best best_first i : ℕ},
      bestMatchLoop f size n index first best best_first = i → i ≠ 0 →
      index + n ≤ b → XMS_START ≤ index →
      (first ≠ 0 → XMS_START ≤ first ∧ first ≤ index ∧ ∀ p, first ≤ p → p < index → f p = 0) →
      (best_first ≠ 0 → XMS_START ≤ best_first ∧ best_first + size ≤ b ∧
        ∀ p, best_first ≤ p → p < best_first + size → f p = 0) →
      XMS_START ≤ i ∧ i + size ≤ b ∧ ∀ p, i ≤ p → p < i + size → f p = 0 := by
  intro n
  induction n with
  | zero =>
    intro index first best best_first i h hi hbound hstart hfirst hbest
    simp only [bestMatchLoop] at h
    split at h
    · rename_i hc
      subst h
      obtain ⟨h1, h2, h3⟩ := hfirst hc.1
      exact ⟨h1, by omega, fun p hp hp' => h3 p hp (by omega)⟩
    · subst h
      exact hbest hi
  | succ n ih =>
    intro index first best best_first i h hi hbound hstart hfirst hbest
    simp only [bestMatchLoop] at h
    split at h
    · rename_i hf0
      refine ih h hi (by omega) (by omega) ?_ hbest
      intro hne
      by_cases hfree : f index = 0
      · rw [if_pos hfree]
        exact ⟨hstart, by omega, fun p hp hp' => by rwa [show p = index by omega]⟩
      · rw [if_neg hfree] at hne
        exact absurd hf0 hne
    · rename_i hf0
      obtain ⟨h1, h2, h3⟩ := hfirst hf0
      split at h
      · split at h
        · subst h
          exact ⟨h1, by omega, fun p hp hp' => h3 p hp (by omega)⟩
        · split at h
          · rename_i hlt
            refine ih h hi (by omega) (by omega) (fun h0 => absurd rfl h0) fun _ => ?_
            exact ⟨h1, by omega, fun p hp hp' => h3 p hp (by omega)⟩
          · exact ih h hi (by omega) (by omega) (fun h0 => absurd rfl h0) hbest
      · rename_i hfree
        rw [not_not] at hfree
        refine ih h hi (by omega) (by omega) (fun _ => ⟨h1, by omega, fun p hp hp' => ?_⟩) hbest
        by_cases hpi : p = index
        · rw [hpi]; exact hfree
        · exact h3 p hp (by omega)

/-- **`BestMatch` finds free pages inside the table**, or returns 0. -/
theorem BestMatch_spec {m : MemoryBlock} {size : ℕ} (h : BestMatch m size ≠ 0) :
    XMS_START ≤ BestMatch m size ∧ BestMatch m size + size ≤ m.pages ∧
      ∀ p, BestMatch m size ≤ p → p < BestMatch m size + size → m.mhandles p = 0 := by
  by_cases hp : XMS_START ≤ m.pages
  · exact bestMatchLoop_spec (b := m.pages) rfl h (by omega) le_rfl
      (fun h0 => absurd rfl h0) (fun h0 => absurd rfl h0)
  · refine absurd ?_ h
    simp [BestMatch, show m.pages - XMS_START = 0 by omega, bestMatchLoop]

/-! ## Allocating a run of pages -/

theorem allocateSequence_spec {n : ℕ} : ∀ {i j : ℕ} {r : ℤ × MemoryBlock}, j < i →
    (allocateSequence n i (some j) r).1 = r.1 ∧
    (allocateSequence n i (some j) r).2.pages = r.2.pages ∧
    (allocateSequence n i (some j) r).2.bytes = r.2.bytes ∧
    (∀ p, p ≠ j → (p < i ∨ i + n ≤ p) →
      (allocateSequence n i (some j) r).2.mhandles p = r.2.mhandles p) ∧
    Chained (allocateSequence n i (some j) r).2.mhandles (j :: List.range' i n) := by
  induction n with
  | zero =>
    intro i j r _
    refine ⟨rfl, rfl, rfl, fun p hp _ => Function.update_of_ne hp _ _, ?_⟩
    simp [allocateSequence, writeNext]
  | succ n ih =>
    intro i j r hj
    obtain ⟨h1, h2, h3, h4, h5⟩ :=
      ih (i := i + 1) (j := i) (r := writeNext (some j) i r) (by omega)
    refine ⟨h1, h2, h3, fun p hp hout => ?_, ?_⟩
    · rw [allocateSequence, h4 p (by omega) (by omega)]
      exact Function.update_of_ne hp _ _
    · rw [List.range'_succ]
      refine ⟨?_, h5⟩
      rw [allocateSequence, h4 j (by omega) (by omega)]
      simp [writeNext]

/-- What the sequential branch does once a place is found. -/
theorem allocateSequence_none {n i : ℕ} {m : MemoryBlock} (hn : 0 < n) :
    (allocateSequence n i none (0, m)).1 = i ∧
    (allocateSequence n i none (0, m)).2.pages = m.pages ∧
    (allocateSequence n i none (0, m)).2.bytes = m.bytes ∧
    (∀ p, (p < i ∨ i + n ≤ p) →
      (allocateSequence n i none (0, m)).2.mhandles p = m.mhandles p) ∧
    Chained (allocateSequence n i none (0, m)).2.mhandles (List.range' i n) := by
  obtain ⟨n, rfl⟩ : ∃ k, n = k + 1 := ⟨n - 1, by omega⟩
  obtain ⟨h1, h2, h3, h4, h5⟩ := allocateSequence_spec (n := n) (i := i + 1) (j := i)
    (r := writeNext none i (0, m)) (by omega)
  refine ⟨h1, h2, h3, fun p hp => h4 p (by omega) (by omega), ?_⟩
  rw [List.range'_succ]
  exact h5

/-! ## Walking and releasing a chain -/

theorem releaseLoop_spec : ∀ {k h : ℕ} {m : MemoryBlock},
    L.length ≤ k → Chained m.mhandles (h :: L.tail) → L.head? = some h →
    (∀ p ∈ L, p ≠ 0 ∧ p < m.pages) →
    ∃ m', releaseLoop k h m = .ok m' ∧ m'.pages = m.pages ∧ m'.bytes = m.bytes ∧
      ∀ p, m'.mhandles p = if p ∈ L then 0 else m.mhandles p := by
  induction L with
  | nil => intro fuel h m _ _ hh; simp at hh
  | cons x T ih =>
    intro fuel h m hfuel hch hh hb
    obtain rfl : x = h := by simpa using hh
    simp only [List.tail_cons] at hch
    obtain ⟨fuel, rfl⟩ : ∃ k, fuel = k + 1 := ⟨fuel - 1, by simp at hfuel; omega⟩
    obtain ⟨hx0, hxlt⟩ := hb x (by simp)
    have hpos : ¬ (x : ℤ) ≤ 0 := by omega
    have hin : ¬ (m.pages : ℤ) ≤ x := by omega
    have hxT : x ∉ T := (List.nodup_cons.1 (Chained.nodup hch)).1
    cases T with
    | nil =>
      have hlast : m.mhandles x = -1 := hch
      refine ⟨m.setEntry x 0, ?_, rfl, rfl, fun p => ?_⟩
      · rw [releaseLoop, if_neg hpos, if_neg hin, Int.toNat_natCast, hlast,
          releaseLoop_of_nonpos (by omega)]
      · by_cases hp : p = x <;> simp [hp]
    | cons y T =>
      obtain ⟨hxy, hT⟩ := hch
      obtain ⟨m', hm', h1, h2, h3⟩ := ih (k := fuel) (h := y) (m := m.setEntry x 0)
        (by simpa using hfuel) (hT.update hxT) rfl
        (fun p hp => hb p (List.mem_cons_of_mem _ hp))
      refine ⟨m', ?_, h1, h2, fun p => ?_⟩
      · rw [releaseLoop, if_neg hpos, if_neg hin, Int.toNat_natCast, hxy]
        exact hm'
      · rw [h3 p]
        by_cases hp : p = x
        · simp [hp, hxT]
        · simp [hp]

theorem countLoop_spec {m : MemoryBlock} : ∀ {fuel h c : ℕ} {last : ℤ},
    L.length < fuel → Chained m.mhandles (h :: L) → (∀ p ∈ h :: L, p ≠ 0 ∧ p < m.pages) →
    countLoop m fuel h c last =
      .ok (c + (L.length + 1), ((h :: L).getLast (List.cons_ne_nil h L) : ℤ)) := by
  induction L with
  | nil =>
    intro fuel h c last hfuel hch hb
    obtain ⟨fuel, rfl⟩ : ∃ k, fuel = k + 1 := ⟨fuel - 1, by simp at hfuel; omega⟩
    obtain ⟨h0, hlt⟩ := hb h (by simp)
    have hlast : m.mhandles h = -1 := hch
    rw [countLoop, if_neg (by omega), if_neg (by omega), Int.toNat_natCast, hlast,
      countLoop_of_nonpos (by omega)]
    simp
  | cons x T ih =>
    intro fuel h c last hfuel hch hb
    obtain ⟨fuel, rfl⟩ : ∃ k, fuel = k + 1 := ⟨fuel - 1, by simp at hfuel; omega⟩
    obtain ⟨h0, hlt⟩ := hb h (by simp)
    obtain ⟨hhx, hT⟩ := hch
    rw [countLoop, if_neg (by omega), if_neg (by omega), Int.toNat_natCast, hhx,
      ih (by simpa using hfuel) hT fun p hp => hb p (List.mem_cons_of_mem _ hp),
      List.getLast_cons_cons]
    congr 2
    simp only [List.length_cons]
    omega

/-- Walking `n` steps from the head of a chain ends at its `n`-th page. -/
theorem skipLoop_spec {m : MemoryBlock} {A : List ℕ} : ∀ {h x : ℕ} {B : List ℕ},
    Chained m.mhandles (A ++ x :: B) → (A ++ [x]).head? = some h →
    skipLoop m A.length h = x := by
  induction A with
  | nil => intro h x B _ hh; simp at hh; simp [skipLoop, hh]
  | cons a A ih =>
    intro h x B hch hh
    obtain rfl : a = h := by simpa using hh
    obtain ⟨b, hb⟩ : ∃ b, (A ++ [x]).head? = some b := by cases A <;> simp
    have hab : m.mhandles a = (b : ℤ) ∧ Chained m.mhandles (A ++ x :: B) := by
      cases A with
      | nil => simp at hb; subst hb; exact hch
      | cons c A => simp at hb; subst hb; exact hch
    rw [List.length_cons, skipLoop, Int.toNat_natCast, hab.1]
    exact ih hab.2 hb

theorem dropLoop_spec : ∀ {h : ℕ} {m : MemoryBlock},
    Chained m.mhandles (h :: L) →
    (dropLoop (L.length + 1) h m).pages = m.pages ∧
    (dropLoop (L.length + 1) h m).bytes = m.bytes ∧
    ∀ p, (dropLoop (L.length + 1) h m).mhandles p = if p ∈ h :: L then 0 else m.mhandles p := by
  induction L with
  | nil =>
    intro h m _
    refine ⟨rfl, rfl, fun p => ?_⟩
    by_cases hp : p = h <;> simp [dropLoop, hp]
  | cons x T ih =>
    intro h m hch
    have hnd : h ∉ x :: T := (List.nodup_cons.1 (Chained.nodup hch)).1
    obtain ⟨hhx, hT⟩ := hch
    have hrec : dropLoop (T.length + 1 + 1) h m = dropLoop (T.length + 1) x (m.setEntry h 0) := by
      rw [dropLoop, Int.toNat_natCast, hhx]
    obtain ⟨h1, h2, h3⟩ := ih (h := x) (m := m.setEntry h 0) (hT.update hnd)
    rw [List.length_cons, hrec]
    refine ⟨h1, h2, fun p => ?_⟩
    rw [h3 p]
    by_cases hp : p = h
    · simp [hp]
    · simp [hp]

/-! ## Growing in place -/

theorem freeBehind_spec : ∀ {n i c p : ℕ}, i ≤ p →
    p + c < i + freeBehind f n i c → f p = 0 := by
  intro n
  induction n with
  | zero => intro i c p _ hp; simp only [freeBehind] at hp; omega
  | succ n ih =>
    intro i c p hip hp
    simp only [freeBehind] at hp
    split at hp
    · rename_i h0
      by_cases hpi : p = i
      · rw [hpi]; exact h0
      · exact ih (i := i + 1) (c := c + 1) (by omega) (by omega)
    · omega

theorem freeBehind_le : ∀ {n i c : ℕ}, freeBehind f n i c ≤ c + n := by
  intro n
  induction n with
  | zero => intro i c; simp [freeBehind]
  | succ n ih =>
    intro i c
    simp only [freeBehind]
    split
    · have := ih (i := i + 1) (c := c + 1)
      omega
    · omega

theorem growLoop_spec {n : ℕ} : ∀ {j : ℕ} {m : MemoryBlock},
    (growLoop n j m).pages = m.pages ∧ (growLoop n j m).bytes = m.bytes ∧
    (∀ p, (p < j ∨ j + n < p) → (growLoop n j m).mhandles p = m.mhandles p) ∧
    Chained (growLoop n j m).mhandles (List.range' j (n + 1)) := by
  induction n with
  | zero =>
    intro j m
    refine ⟨rfl, rfl, fun p hp => Function.update_of_ne (by omega) _ _, ?_⟩
    simp [growLoop]
  | succ n ih =>
    intro j m
    obtain ⟨h1, h2, h3, h4⟩ := ih (j := j + 1) (m := m.setEntry j (j + 1))
    refine ⟨h1, h2, fun p hp => ?_, ?_⟩
    · rw [growLoop, h3 p (by omega)]
      exact Function.update_of_ne (by omega) _ _
    · rw [List.range'_succ, List.range'_succ]
      rw [List.range'_succ] at h4
      refine ⟨?_, h4⟩
      rw [growLoop, h3 j (by omega)]
      simp

/-! ## Copying -/

theorem MEM_BlockCopy_out {bytes : ℕ → UInt8} {dest src a : ℕ} : ∀ {size : ℕ},
    (a < dest ∨ dest + size ≤ a) → MEM_BlockCopy bytes dest src size a = bytes a := by
  intro size
  induction size with
  | zero => intro _; rfl
  | succ size ih =>
    intro ha
    rw [MEM_BlockCopy, Function.update_of_ne (by omega)]
    exact ih (by omega)

/-- A copy between ranges that do not meet is a copy. -/
theorem MEM_BlockCopy_spec {bytes : ℕ → UInt8} {dest src : ℕ} : ∀ {size : ℕ},
    (dest + size ≤ src ∨ src + size ≤ dest) →
    ∀ i, i < size → MEM_BlockCopy bytes dest src size (dest + i) = bytes (src + i) := by
  intro size
  induction size with
  | zero => intro _ i hi; omega
  | succ size ih =>
    intro hov i hi
    rw [MEM_BlockCopy]
    by_cases his : i = size
    · subst his
      rw [Function.update_self]
      exact MEM_BlockCopy_out (by omega)
    · rw [Function.update_of_ne (by omega)]
      exact ih (by omega) i (by omega)

/-! ## Ownership -/

/-- The table is the disjoint union of the chains in `live`, which maps a handle
to the pages of its allocation, and every other page is free. -/
structure Owned (m : MemoryBlock) (live : ℕ → Option (List ℕ)) : Prop where
  /-- The handle of an allocation is its first page. -/
  head : ∀ {h L}, live h = some L → L.head? = some h
  /-- The pages of an allocation are chained. -/
  chain : ∀ {h L}, live h = some L → Chained m.mhandles L
  /-- Only pages of the table, from `XMS_START` up, are handed out. -/
  bounds : ∀ {h L}, live h = some L → ∀ p ∈ L, XMS_START ≤ p ∧ p < m.pages
  /-- No page belongs to two allocations. -/
  disjoint : ∀ {h h' L L'}, live h = some L → live h' = some L' → h ≠ h' → L.Disjoint L'
  /-- A page of no allocation is free. -/
  free : ∀ p, XMS_START ≤ p → p < m.pages → (∀ h L, live h = some L → p ∉ L) → m.mhandles p = 0

namespace Owned

variable {m m' : MemoryBlock} {live : ℕ → Option (List ℕ)}

variable {h p k : ℕ}

theorem entry_ne_zero (ho : Owned m live) {L : List ℕ} (hL : live h = some L) (hp : p ∈ L) :
    m.mhandles p ≠ 0 := by
  refine Chained.entry_ne_zero (ho.chain hL) (fun q hq => ?_) hp
  have hq' := (ho.bounds hL q hq).1
  have : XMS_START = 0x110 := rfl
  omega

theorem not_mem_of_free (ho : Owned m live) (hp : m.mhandles p = 0) {L : List ℕ}
    (hL : live h = some L) : p ∉ L := fun hpL => ho.entry_ne_zero hL hpL hp

/-- **The one way ownership changes.**  A call that gives handle `k` the pages
`o`, taken from its old pages and from free ones, frees the pages it drops and
touches no other entry, keeps the table a disjoint union of chains. -/
theorem change (ho : Owned m live) {o : Option (List ℕ)} (hpages : m'.pages = m.pages)
    (hnew : ∀ L, o = some L → L.head? = some k ∧ Chained m'.mhandles L ∧
      (∀ p ∈ L, XMS_START ≤ p ∧ p < m.pages) ∧ ∀ p ∈ L, p ∈ (live k).getD [] ∨ m.mhandles p = 0)
    (hframe : ∀ p, p ∉ (live k).getD [] → p ∉ o.getD [] → m'.mhandles p = m.mhandles p)
    (hdrop : ∀ p ∈ (live k).getD [], p ∉ o.getD [] → m'.mhandles p = 0) :
    Owned m' (Function.update live k o) := by
  -- a page of the new list is in no other allocation
  have hsep : ∀ {h L}, h ≠ k → live h = some L → ∀ p ∈ L, p ∉ (live k).getD [] ∧ p ∉ o.getD [] := by
    intro h L hk hL p hp
    have hold : p ∉ (live k).getD [] := by
      cases hlk : live k with
      | none => simp
      | some K => exact fun hpK => ho.disjoint hL hlk hk hp hpK
    refine ⟨hold, fun hpo => ?_⟩
    cases o with
    | none => simp at hpo
    | some K =>
      rcases (hnew K rfl).2.2.2 p hpo with hpk | hp0
      · exact hold hpk
      · exact ho.entry_ne_zero hL hp hp0
  have hother : ∀ {h L}, h ≠ k → Function.update live k o h = some L → live h = some L := by
    intro h L hk hL
    rwa [Function.update_of_ne hk] at hL
  have hself : ∀ {L}, Function.update live k o k = some L → o = some L := by
    intro L hL
    rwa [Function.update_self] at hL
  constructor
  · intro h L hL
    by_cases hk : h = k
    · subst hk
      exact (hnew L (hself hL)).1
    · exact ho.head (hother hk hL)
  · intro h L hL
    by_cases hk : h = k
    · subst hk
      exact (hnew L (hself hL)).2.1
    · refine Linked.congr (ho.chain (hother hk hL)) fun p hp => ?_
      obtain ⟨h1, h2⟩ := hsep hk (hother hk hL) p hp
      exact hframe p h1 h2
  · intro h L hL
    rw [hpages]
    by_cases hk : h = k
    · subst hk
      exact (hnew L (hself hL)).2.2.1
    · exact ho.bounds (hother hk hL)
  · intro h h' L L' hL hL' hne
    by_cases hk : h = k
    · subst hk
      have hoL := hself hL
      intro p hp hp'
      refine (hsep (Ne.symm hne) (hother (Ne.symm hne) hL') p hp').2 ?_
      rwa [hoL]
    · by_cases hk' : h' = k
      · subst hk'
        have hoL := hself hL'
        intro p hp hp'
        refine (hsep hk (hother hk hL) p hp).2 ?_
        rwa [hoL]
      · exact ho.disjoint (hother hk hL) (hother hk' hL') hne
  · intro p hp hp' hno
    rw [hpages] at hp'
    have hpo : p ∉ o.getD [] := by
      cases o with
      | none => simp
      | some K => exact hno k K (by simp)
    by_cases hpk : p ∈ (live k).getD []
    · exact hdrop p hpk hpo
    · rw [hframe p hpk hpo]
      refine ho.free p hp hp' fun h L hL hpL => ?_
      by_cases hk : h = k
      · subst hk
        rw [hL] at hpk
        exact hpk hpL
      · exact hno h L (by rwa [Function.update_of_ne hk]) hpL

/-! ### The calls -/

/-- `MEM_AllocatePages` with `sequence` set fails without a trace or hands out a
run of free pages. -/
theorem allocate (ho : Owned m live) (n : ℕ) :
    MEM_AllocatePages m n true = .ok (0, m) ∨
    ∃ (k : ℕ) (m' : MemoryBlock), MEM_AllocatePages m n true = .ok ((k : ℤ), m') ∧ 0 < n ∧
      BestMatch m n = k ∧ XMS_START ≤ k ∧ k + n ≤ m.pages ∧ (∀ p ∈ List.range' k n, m.mhandles p = 0) ∧
      live k = none ∧ m'.pages = m.pages ∧ m'.bytes = m.bytes ∧
      Owned m' (Function.update live k (some (List.range' k n))) := by
  by_cases hn : n = 0
  · exact Or.inl (by simp [MEM_AllocatePages, hn])
  by_cases hb : BestMatch m n = 0
  · exact Or.inl (by simp [MEM_AllocatePages, hn, hb])
  obtain ⟨hstart, hend, hfree⟩ := BestMatch_spec hb
  obtain ⟨h1, h2, h3, h4, h5⟩ :=
    allocateSequence_none (n := n) (i := BestMatch m n) (m := m) (by omega)
  have hrange : ∀ p ∈ List.range' (BestMatch m n) n, m.mhandles p = 0 := by
    intro p hp
    rw [List.mem_range'_1] at hp
    exact hfree p hp.1 hp.2
  have hmem : BestMatch m n ∈ List.range' (BestMatch m n) n := by
    rw [List.mem_range'_1]
    omega
  have hnone : live (BestMatch m n) = none := by
    cases hl : live (BestMatch m n) with
    | none => rfl
    | some L =>
      have hhead : BestMatch m n ∈ L := List.mem_of_mem_head? (ho.head hl)
      exact absurd hhead (ho.not_mem_of_free (hrange _ hmem) hl)
  refine Or.inr ⟨BestMatch m n, (allocateSequence n (BestMatch m n) none (0, m)).2, ?_, by omega,
    rfl, hstart, hend, hrange, hnone, h2, h3, ?_⟩
  · simp only [MEM_AllocatePages, hn, hb, if_true, if_false]
    rw [← h1]
  · refine ho.change h2 ?_ ?_ (by simp [hnone])
    · intro L hL
      obtain rfl : List.range' (BestMatch m n) n = L := by simpa using hL
      refine ⟨?_, h5, fun p hp => ?_, fun p hp => Or.inr (hrange p hp)⟩
      · obtain ⟨n, rfl⟩ : ∃ j, n = j + 1 := ⟨n - 1, by omega⟩
        rw [List.range'_succ]
        rfl
      · rw [List.mem_range'_1] at hp
        omega
    · intro p _ hp
      refine h4 p ?_
      rw [Option.getD_some, List.mem_range'_1] at hp
      omega

theorem length_le (ho : Owned m live) {L : List ℕ} (hL : live h = some L) :
    L.length ≤ m.pages := by
  have hsub : L ⊆ List.range m.pages := fun p hp => List.mem_range.2 (ho.bounds hL p hp).2
  calc L.length ≤ (List.range m.pages).length :=
        ((Chained.nodup (ho.chain hL)).subperm hsub).length_le
    _ = m.pages := List.length_range

theorem eq_cons (ho : Owned m live) {L : List ℕ} (hL : live h = some L) :
    L = h :: L.tail := by
  have := ho.head hL
  cases L with
  | nil => simp at this
  | cons x T => simpa using this

theorem pos_lt (ho : Owned m live) {L : List ℕ} (hL : live h = some L) :
    ∀ p ∈ L, p ≠ 0 ∧ p < m.pages := by
  intro p hp
  obtain ⟨h1, h2⟩ := ho.bounds hL p hp
  have : XMS_START = 0x110 := rfl
  exact ⟨by omega, h2⟩

/-- `MEM_ReleasePages` frees the pages of the handle and nothing else. -/
theorem release (ho : Owned m live) {L : List ℕ} (hL : live h = some L) :
    ∃ m', MEM_ReleasePages m h = .ok m' ∧ m'.pages = m.pages ∧ m'.bytes = m.bytes ∧
      Owned m' (Function.update live h none) := by
  have hcons := ho.eq_cons hL
  obtain ⟨m', hm', h1, h2, h3⟩ := releaseLoop_spec (L := L) (k := m.pages + 1) (h := h) (m := m)
    (by have := ho.length_le hL; omega) (by rw [← hcons]; exact ho.chain hL) (ho.head hL)
    (ho.pos_lt hL)
  refine ⟨m', hm', h1, h2, ho.change h1 (by simp) ?_ ?_⟩
  · intro p hp _
    rw [hL, Option.getD_some] at hp
    rw [h3 p, if_neg hp]
  · intro p hp _
    rw [hL, Option.getD_some] at hp
    rw [h3 p, if_pos hp]

/-- An allocation is cut behind one of its pages. -/
theorem cut (ho : Owned m live) {x y : ℕ} {A B : List ℕ} (hL : live h = some (A ++ x :: y :: B)) :
    let i := skipLoop m A.length h
    let m' := dropLoop (B.length + 1) (m.mhandles i.toNat) (m.setEntry i.toNat (-1))
    m'.pages = m.pages ∧ m'.bytes = m.bytes ∧
      Owned m' (Function.update live h (some (A ++ [x]))) := by
  have hch := ho.chain hL
  have hhead : (A ++ [x]).head? = some h := by
    have := ho.head hL
    cases A <;> simpa using this
  have hi : skipLoop m A.length h = (x : ℤ) := skipLoop_spec hch hhead
  have hnext : m.mhandles x = (y : ℤ) := Linked.entry hch
  have hnd : (A ++ [x] ++ y :: B).Nodup := by simpa using Chained.nodup hch
  have hxB : x ∉ y :: B := fun hx => (List.nodup_append.1 hnd).2.2 x (by simp) x hx rfl
  have hxA : x ∉ A := by
    have := (List.nodup_append.1 hnd).1
    exact fun hx => (List.nodup_append.1 this).2.2 x hx x (by simp) rfl
  have htail : Chained (m.setEntry x (-1)).mhandles (y :: B) := by
    refine Linked.update (Linked.suffix (A := A ++ [x]) ?_ (by simp)) hxB
    simpa using hch
  obtain ⟨h1, h2, h3⟩ := dropLoop_spec htail
  intro i m'
  have hm' : m' = dropLoop (B.length + 1) (y : ℤ) (m.setEntry x (-1)) := by
    simp only [m', i, hi, Int.toNat_natCast, hnext]
  rw [hm']
  have hkept : ∀ p ∈ A ++ [x], p ∉ y :: B := fun p hp hp' =>
    (List.nodup_append.1 hnd).2.2 p hp p hp' rfl
  have hsub : ∀ p ∈ A ++ [x], p ∈ A ++ x :: y :: B := by
    intro p hp
    rcases List.mem_append.1 hp with hp | hp
    · exact List.mem_append_left _ hp
    · rw [List.mem_singleton.1 hp]
      simp
  refine ⟨h1, h2, ho.change h1 ?_ ?_ ?_⟩
  · intro L hLn
    obtain rfl : A ++ [x] = L := by simpa using hLn
    refine ⟨hhead, ?_, fun p hp => ho.bounds hL p (hsub p hp), fun p hp => Or.inl ?_⟩
    · refine Linked.congr (Linked.cut (v := (-1 : ℤ)) hch hxA rfl) fun p hp => ?_
      rw [h3 p, if_neg (hkept p hp), setEntry_mhandles]
    · rw [hL]
      exact hsub p hp
  · intro p hp hp'
    rw [hL, Option.getD_some] at hp
    have hpx : p ≠ x := fun hpx => hp (by simp [hpx])
    rw [h3 p, if_neg fun hpB => hp (by simp [List.mem_cons.1 hpB]), setEntry_mhandles,
      Function.update_of_ne hpx]
  · intro p hp hp'
    rw [hL, Option.getD_some] at hp
    rw [Option.getD_some] at hp'
    rw [h3 p, if_pos]
    rcases List.mem_append.1 (show p ∈ (A ++ [x]) ++ y :: B by simpa using hp) with hp | hp
    · exact absurd hp hp'
    · exact hp

/-- A run of pages, cut after its first `n`. -/
theorem shrink (ho : Owned m live) {n : ℕ} (hL : live h = some (List.range' h k)) (hn : 0 < n)
    (hnk : n < k) :
    let i := skipLoop m (n - 1) h
    let m' := dropLoop (k - n) (m.mhandles i.toNat) (m.setEntry i.toNat (-1))
    m'.pages = m.pages ∧ m'.bytes = m.bytes ∧
      Owned m' (Function.update live h (some (List.range' h n))) := by
  -- the run is: the pages kept before the last, the last one kept, the first one dropped, the rest
  have hsplit : List.range' h k = List.range' h (n - 1) ++ (h + (n - 1)) ::
      (h + n) :: List.range' (h + n + 1) (k - n - 1) := by
    rw [← List.range'_succ, show k - n - 1 + 1 = k - n by omega,
      show h + n = h + (n - 1) + 1 by omega, ← List.range'_succ, List.range'_append_1]
    congr 1
    omega
  have hkeep : List.range' h (n - 1) ++ [h + (n - 1)] = List.range' h n := by
    rw [← List.range'_1_concat]
    congr 1
    omega
  rw [hsplit] at hL
  have hcut := ho.cut hL
  rwa [List.length_range', List.length_range', show k - n - 1 + 1 = k - n by omega, hkeep] at hcut

/-- A run of pages, extended into the free pages behind it. -/
theorem grow (ho : Owned m live) {n : ℕ} (hL : live h = some (List.range' h k)) (hk : 0 < k)
    (hkn : k < n) (hfree : n - k ≤ freeBehind m.mhandles (m.pages - (h + k)) (h + k) 0) :
    let m' := growLoop (n - k) (h + k - 1) m
    m'.pages = m.pages ∧ m'.bytes = m.bytes ∧
      Owned m' (Function.update live h (some (List.range' h n))) := by
  obtain ⟨h1, h2, h3, h4⟩ := growLoop_spec (n := n - k) (j := h + k - 1) (m := m)
  have hend := (ho.bounds hL (h + k - 1) (by rw [List.mem_range'_1]; omega)).2
  have hstart := (ho.bounds hL h (by rw [List.mem_range'_1]; omega)).1
  have hroom := freeBehind_le (f := m.mhandles) (n := m.pages - (h + k)) (i := h + k) (c := 0)
  refine ⟨h1, h2, ho.change h1 ?_ ?_ ?_⟩
  · intro L hLn
    obtain rfl : List.range' h n = L := by simpa using hLn
    refine ⟨?_, ?_, fun p hp => ?_, fun p hp => ?_⟩
    · obtain ⟨n, rfl⟩ : ∃ j, n = j + 1 := ⟨n - 1, by omega⟩
      rw [List.range'_succ]
      rfl
    · have hold : Chained m.mhandles (List.range' h (k - 1) ++ [h + k - 1]) := by
        have := ho.chain hL
        rwa [show List.range' h k = List.range' h (k - 1) ++ [h + k - 1] by
          rw [show h + k - 1 = h + (k - 1) by omega, ← List.range'_1_concat]
          congr 1
          omega] at this
      have htail : Chained (growLoop (n - k) (h + k - 1) m).mhandles
          ((h + k - 1) :: List.range' (h + k) (n - k)) := by
        rw [List.range'_succ] at h4
        rwa [show h + k - 1 + 1 = h + k by omega] at h4
      have hfull := Linked.splice hold htail fun p hp => h3 p (by
        rw [List.mem_range'_1] at hp
        omega)
      have heq : List.range' h n = List.range' h (k - 1) ++ (h + k - 1) ::
          List.range' (h + k) (n - k) := by
        have h1' := List.range'_append_1 (s := h) (m := k - 1) (n := n - k + 1)
        rw [List.range'_succ, show h + (k - 1) = h + k - 1 by omega,
          show h + k - 1 + 1 = h + k by omega, show k - 1 + (n - k + 1) = n by omega] at h1'
        exact h1'.symm
      rw [heq]
      exact hfull
    · rw [List.mem_range'_1] at hp
      omega
    · rw [List.mem_range'_1] at hp
      by_cases hpk : p < h + k
      · left
        rw [hL, Option.getD_some, List.mem_range'_1]
        omega
      · right
        exact freeBehind_spec (n := m.pages - (h + k)) (i := h + k) (c := 0)
          (by omega) (by omega)
  · intro p _ hp'
    rw [Option.getD_some, List.mem_range'_1] at hp'
    exact h3 p (by omega)
  · intro p hp hp'
    rw [hL, Option.getD_some, List.mem_range'_1] at hp
    rw [Option.getD_some, List.mem_range'_1] at hp'
    omega

theorem pageAddress_eq (ho : Owned m live) {L : List ℕ} (hL : live h = some L) :
    pageAddress h = h * MemPageSize := by
  have hlt := (ho.pos_lt hL h (List.mem_of_mem_head? (ho.head hL))).2
  have hle := m.pages_le
  rw [pageAddress, Int.toNat_natCast, Nat.mod_eq_of_lt]
  simp only [MaxPages, MemPageSize] at hle ⊢
  omega

/-- `MEM_ReAllocatePages` with `sequence` set, on a run of `k` pages.  It fails
without a trace, releases the run (`n = 0`), or leaves a run of `n` pages that
starts with the bytes of the old one. -/
theorem reallocate (ho : Owned m live) (hL : live h = some (List.range' h k)) (n : ℕ) :
    MEM_ReAllocatePages m h n true = .ok (false, (h : ℤ), m) ∨
    (n = 0 ∧ ∃ m', MEM_ReAllocatePages m h n true = .ok (true, -1, m') ∧ m'.pages = m.pages ∧
      m'.bytes = m.bytes ∧ Owned m' (Function.update live h none)) ∨
    (0 < n ∧ ∃ (j : ℕ) (m' : MemoryBlock),
      MEM_ReAllocatePages m h n true = .ok (true, (j : ℤ), m') ∧ m'.pages = m.pages ∧
      (j = h ∨ live j = none) ∧
      (∀ i, i < min k n * MemPageSize →
        m'.bytes (j * MemPageSize + i) = m.bytes (h * MemPageSize + i)) ∧
      (∀ a, (a < j * MemPageSize ∨ (j + n) * MemPageSize ≤ a) → m'.bytes a = m.bytes a) ∧
      Owned m' (Function.update (Function.update live h none) j (some (List.range' j n)))) := by
  have hk : 0 < k := by
    have := ho.head hL
    cases k with
    | zero => simp at this
    | succ k => omega
  have hhead := ho.pos_lt hL h (by rw [List.mem_range'_1]; omega)
  have hpos : ¬ (h : ℤ) ≤ 0 := by omega
  by_cases hn : n = 0
  · subst hn
    obtain ⟨m', hm', h1, h2, h3⟩ := ho.release hL
    refine Or.inr (Or.inl ⟨rfl, m', ?_, h1, h2, h3⟩)
    simp only [MEM_ReAllocatePages, hpos, hm', bind, Except.bind, if_true, if_false]
  have hupd : ∀ o : Option (List ℕ),
      Function.update (Function.update live h none) h o = Function.update live h o := by
    intro o
    rw [Function.update_idem]
  have hcount : countLoop m m.pages h 0 0 = .ok (k, ((h + k - 1 : ℕ) : ℤ)) := by
    have hcons : List.range' h k = h :: List.range' (h + 1) (k - 1) := by
      rw [← List.range'_succ]
      congr 1
      omega
    have hch := ho.chain hL
    have hlen := ho.length_le hL
    have hpl := ho.pos_lt hL
    rw [hcons] at hch hpl
    rw [List.length_range'] at hlen
    rw [countLoop_spec (by rw [List.length_range']; omega) hch hpl, List.length_range',
      List.getLast_eq_getElem]
    congr 2
    · omega
    · simp only [← hcons, List.length_range', List.getElem_range']
      omega
  by_cases heq : k = n
  · subst heq
    refine Or.inr (Or.inr ⟨hk, h, m, ?_, rfl, Or.inl rfl, fun i _ => rfl, fun a _ => rfl, ?_⟩)
    · simp only [MEM_ReAllocatePages, hpos, hcount, hn, bind, Except.bind, if_true, if_false]
    · rw [hupd, ← hL, Function.update_eq_self]
      exact ho
  by_cases hlt : n < k
  · obtain ⟨h1, h2, h3⟩ := ho.shrink hL (by omega) hlt
    refine Or.inr (Or.inr ⟨by omega, h, _, ?_, h1, Or.inl rfl, fun i _ => by rw [h2],
      fun a _ => by rw [h2], by rw [hupd]; exact h3⟩)
    simp only [MEM_ReAllocatePages, hpos, hcount, hn, heq, hlt, bind, Except.bind, if_true,
      if_false]
  have hlast : (((h + k - 1 : ℕ) : ℤ) + 1).toNat = h + k := by omega
  have hlast' : (((h + k - 1 : ℕ) : ℤ)).toNat = h + k - 1 := by omega
  by_cases hfree : n - k ≤ freeBehind m.mhandles (m.pages - (h + k)) (h + k) 0
  · obtain ⟨h1, h2, h3⟩ := ho.grow hL hk (by omega) hfree
    refine Or.inr (Or.inr ⟨by omega, h, _, ?_, h1, Or.inl rfl, fun i _ => by rw [h2],
      fun a _ => by rw [h2], by rw [hupd]; exact h3⟩)
    simp only [MEM_ReAllocatePages, hpos, hcount, hn, heq, hlt, hfree, hlast, hlast', bind,
      Except.bind, if_true, if_false]
  · have hmain : ∀ r, MEM_AllocatePages m n true = .ok r →
        MEM_ReAllocatePages m h n true =
          (if r.1 = 0 then .ok (false, (h : ℤ), r.2)
          else do
            let m' ← MEM_ReleasePages (r.2.moveBytes r.1 h k) h
            .ok (true, r.1, m')) := by
      intro r hr
      simp only [MEM_ReAllocatePages, hpos, hcount, hn, heq, hlt, hfree, hlast, hr, bind,
        Except.bind, if_true, if_false]
    rcases ho.allocate n with hfail | ⟨j, m₁, hm₁, hn0, -, hjs, hje, hjfree, hjnone, hp₁, hb₁, ho₁⟩
    · left
      simpa using hmain _ hfail
    · have hjh : h ≠ j := by
        rintro rfl
        rw [hL] at hjnone
        exact absurd hjnone (by simp)
      have hL₁ : Function.update live j (some (List.range' j n)) h = some (List.range' h k) := by
        rw [Function.update_of_ne hjh, hL]
      have hbj : pageAddress j = j * MemPageSize := ho₁.pageAddress_eq (Function.update_self ..)
      have hbh : pageAddress h = h * MemPageSize := ho.pageAddress_eq hL
      -- the copy does not touch the table
      have ho₂ : Owned (m₁.moveBytes j h k) (Function.update live j (some (List.range' j n))) :=
        ⟨ho₁.head, ho₁.chain, ho₁.bounds, ho₁.disjoint, ho₁.free⟩
      obtain ⟨m', hm', h1, h2, h3⟩ := ho₂.release hL₁
      have hsep : j * MemPageSize + k * MemPageSize ≤ h * MemPageSize ∨
          h * MemPageSize + k * MemPageSize ≤ j * MemPageSize := by
        have hne : j + n ≤ h ∨ h + k ≤ j := by
          by_contra hcon
          have hmem : max h j ∈ List.range' h k ∧ max h j ∈ List.range' j n := by
            rw [List.mem_range'_1, List.mem_range'_1]
            omega
          exact ho.not_mem_of_free (hjfree _ hmem.2) hL hmem.1
        simp only [← Nat.add_mul]
        rcases hne with hne | hne
        · exact Or.inl (Nat.mul_le_mul_right _ (by omega))
        · exact Or.inr (Nat.mul_le_mul_right _ (by omega))
      refine Or.inr (Or.inr ⟨by omega, j, m', ?_, h1.trans hp₁, Or.inr hjnone, fun i hi => ?_,
        fun a ha => ?_, ?_⟩)
      · rw [hmain _ hm₁, if_neg (by have : XMS_START = 0x110 := rfl; simp only; omega)]
        simp [hm', bind, Except.bind]
      · rw [h2, moveBytes, hbj, hbh, hb₁]
        refine MEM_BlockCopy_spec hsep i ?_
        rwa [show min k n = k by omega] at hi
      · rw [h2, moveBytes, hbj, hbh, hb₁]
        refine MEM_BlockCopy_out ?_
        have : k * MemPageSize ≤ n * MemPageSize := Nat.mul_le_mul_right _ (by omega)
        rw [Nat.add_mul] at ha
        omega
      · rw [Function.update_comm hjh]
        exact h3

/-! ### Calls on a number that owns no page

The XMS driver gives blocks of size 0 the number of a free page.  These are the
calls made on such a number, and on the numbers that are not positive. -/

theorem release_nonpos {h : ℤ} (hh : h ≤ 0) : MEM_ReleasePages m h = .ok m :=
  releaseLoop_of_nonpos hh _ _

/-- Releasing a page that is free changes nothing. -/
theorem release_free (hp0 : p ≠ 0) (hp : p < m.pages) (h0 : m.mhandles p = 0) :
    MEM_ReleasePages m p = .ok m := by
  have hset : m.setEntry p 0 = m := by
    rw [setEntry, ← h0, Function.update_eq_self]
  rw [MEM_ReleasePages, releaseLoop, if_neg (by omega), if_neg (by omega), Int.toNat_natCast, h0,
    hset, releaseLoop_of_nonpos le_rfl]

theorem reallocate_nonpos (ho : Owned m live) {h : ℤ} (hh : h ≤ 0) (n : ℕ) :
    (∃ h', h' ≤ 0 ∧ MEM_ReAllocatePages m h n true = .ok (decide (n = 0), h', m)) ∨
    (0 < n ∧ ∃ (j : ℕ) (m' : MemoryBlock),
      MEM_ReAllocatePages m h n true = .ok (true, (j : ℤ), m') ∧ m'.pages = m.pages ∧
      live j = none ∧ Owned m' (Function.update live j (some (List.range' j n)))) := by
  by_cases hn : n = 0
  · exact Or.inl ⟨h, hh, by simp [MEM_ReAllocatePages, hh, hn]⟩
  · rcases ho.allocate n with hfail | ⟨k, m', hm', hn0, -, hk, -, -, hnone, hp, -, ho'⟩
    · exact Or.inl ⟨0, le_rfl, by simp [MEM_ReAllocatePages, hh, hn, hfail, bind, Except.bind]⟩
    · refine Or.inr ⟨hn0, k, m', ?_, hp, hnone, ho'⟩
      have hk0 : (0 : ℤ) < k := by
        have : XMS_START = 0x110 := rfl
        omega
      simp only [MEM_ReAllocatePages, hh, hn, hm', bind, Except.bind, if_true, if_false, hk0,
        decide_true]

/-- The run that `BestMatch` would hand out for `n` pages contains page `p`. -/
def MatchCovers (m : MemoryBlock) (n p : ℕ) : Prop :=
  BestMatch m n ≠ 0 ∧ BestMatch m n ≤ p ∧ p < BestMatch m n + n

instance (m : MemoryBlock) (n p : ℕ) : Decidable (MatchCovers m n p) :=
  inferInstanceAs (Decidable (_ ∧ _ ∧ _))

/-- Reallocating a free page to two or more pages claims it together with the
pages behind it, or moves elsewhere; the move is harmless as long as the new run
does not cover the page itself. -/
theorem reallocate_free (ho : Owned m live) (hp : XMS_START ≤ p) (hp' : p < m.pages)
    (h0 : m.mhandles p = 0) {n : ℕ} (hn : 2 ≤ n)
    (hsafe : n - 1 ≤ freeBehind m.mhandles (m.pages - (p + 1)) (p + 1) 0 ∨ ¬ MatchCovers m n p) :
    MEM_ReAllocatePages m p n true = .ok (false, (p : ℤ), m) ∨
    ∃ (j : ℕ) (m' : MemoryBlock),
      MEM_ReAllocatePages m p n true = .ok (true, (j : ℤ), m') ∧ m'.pages = m.pages ∧
      live j = none ∧ Owned m' (Function.update live j (some (List.range' j n))) := by
  have hp0 : p ≠ 0 := by
    have : XMS_START = 0x110 := rfl
    omega
  have hnone : live p = none := by
    cases hl : live p with
    | none => rfl
    | some L => exact absurd (List.mem_of_mem_head? (ho.head hl)) (ho.not_mem_of_free h0 hl)
  have hpos : ¬ (p : ℤ) ≤ 0 := by omega
  have hcount : countLoop m m.pages p 0 0 = .ok (1, (p : ℤ)) := by
    obtain ⟨q, hq⟩ : ∃ q, m.pages = q + 1 := ⟨m.pages - 1, by omega⟩
    rw [hq, countLoop, if_neg hpos, if_neg (by omega), Int.toNat_natCast, h0,
      countLoop_of_nonpos le_rfl]
  have hn0 : n ≠ 0 := by omega
  have hn1 : ¬ 1 = n := by omega
  have hnlt : ¬ n < 1 := by omega
  have hlast : ((p : ℤ) + 1).toNat = p + 1 := by omega
  by_cases hfree : n - 1 ≤ freeBehind m.mhandles (m.pages - (p + 1)) (p + 1) 0
  · obtain ⟨h1, h2, h3, h4⟩ := growLoop_spec (n := n - 1) (j := p) (m := m)
    rw [show n - 1 + 1 = n by omega] at h4
    have hroom := freeBehind_le (f := m.mhandles) (n := m.pages - (p + 1)) (i := p + 1) (c := 0)
    refine Or.inr ⟨p, growLoop (n - 1) p m, ?_, h1, hnone, ho.change h1 ?_ ?_ (by simp [hnone])⟩
    · simp only [MEM_ReAllocatePages, hpos, hcount, hn0, hn1, hnlt, hfree, hlast, bind,
        Except.bind, if_true, if_false, Int.toNat_natCast]
    · intro L hL
      obtain rfl : List.range' p n = L := by simpa using hL
      refine ⟨?_, h4, fun q hq => ?_, fun q hq => Or.inr ?_⟩
      · obtain ⟨n, rfl⟩ : ∃ j, n = j + 1 := ⟨n - 1, by omega⟩
        rw [List.range'_succ]
        rfl
      · rw [List.mem_range'_1] at hq
        omega
      · rw [List.mem_range'_1] at hq
        by_cases hqp : q = p
        · rw [hqp]; exact h0
        · exact freeBehind_spec (n := m.pages - (p + 1)) (i := p + 1) (c := 0)
            (by omega) (by omega)
    · intro q _ hq
      rw [Option.getD_some, List.mem_range'_1] at hq
      exact h3 q (by omega)
  · have hmain : ∀ r, MEM_AllocatePages m n true = .ok r →
        MEM_ReAllocatePages m p n true =
          (if r.1 = 0 then .ok (false, (p : ℤ), r.2)
          else do
            let m' ← MEM_ReleasePages (r.2.moveBytes r.1 p 1) p
            .ok (true, r.1, m')) := by
      intro r hr
      simp only [MEM_ReAllocatePages, hpos, hcount, hn0, hn1, hnlt, hfree, hlast, hr, bind,
        Except.bind, if_true, if_false]
    rcases ho.allocate n with hfail | ⟨j, m₁, hm₁, -, hbest, hjs, -, hjfree, hjnone, hp₁, -, ho₁⟩
    · left
      simpa using hmain _ hfail
    · have hj : (j : ℤ) ≠ 0 := by
        have : XMS_START = 0x110 := rfl
        omega
      have hout : ¬ (j ≤ p ∧ p < j + n) := by
        intro hcov
        rcases hsafe with hs | hs
        · exact hfree hs
        · refine hs ⟨?_, ?_⟩ <;> rw [hbest] <;> omega
      have hfree₁ : m₁.mhandles p = 0 := by
        refine ho₁.free p hp (by omega) fun h L hL hpL => ?_
        by_cases hk : h = j
        · subst hk
          rw [Function.update_self] at hL
          obtain rfl : List.range' h n = L := by simpa using hL
          rw [List.mem_range'_1] at hpL
          exact hout hpL
        · rw [Function.update_of_ne hk] at hL
          exact ho.not_mem_of_free h0 hL hpL
      have hrel : MEM_ReleasePages (m₁.moveBytes j p 1) p = .ok (m₁.moveBytes j p 1) :=
        release_free hp0 (by simpa [moveBytes] using hp₁ ▸ hp') hfree₁
      refine Or.inr ⟨j, m₁.moveBytes j p 1, ?_, hp₁, hjnone,
        ⟨ho₁.head, ho₁.chain, ho₁.bounds, ho₁.disjoint, ho₁.free⟩⟩
      rw [hmain _ hm₁, if_neg hj]
      simp [hrel, bind, Except.bind]

end Owned

end MemoryBlock

end AugraDosbox
