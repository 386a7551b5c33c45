import AugraDosbox.Hardware.PageOverrun
import AugraDosbox.Ints.Xms
import AugraDosbox.Lib.Runs

/-!
# Sequential allocation takes the best fit

The search of `BestMatch` against the maximal runs of free pages, and what programs are told about
them: `MEM_FreeLargest` and the XMS function that reports it.

* `freeRuns` — the maximal runs of free pages, in the order of the table;
* `MEM_FreeLargest_eq`, `BestMatch_fits` — the two scans of the table against the runs;
* **`allocate_bestFit`** — a sequential allocation fails only for lack of a run, takes the beginning
  of a run of least sufficient length, and XMS gives what it has reported.
-/

namespace AugraDosbox

open Runs

namespace MemoryBlock

/-- The loop of `MEM_FreeLargest`, with `n` pages left to look at. -/
def freeLargestLoop (mhandles : ℕ → ℤ) : ℕ → ℕ → ℕ → ℕ → ℕ
  | 0, _, size, largest => max size largest
  | n + 1, index, size, largest =>
      if mhandles index = 0 then freeLargestLoop mhandles n (index + 1) (size + 1) largest
      else freeLargestLoop mhandles n (index + 1) 0 (max size largest)

def MEM_FreeLargest (m : MemoryBlock) : ℕ :=
  freeLargestLoop m.mhandles (m.pages - XMS_START) XMS_START 0 0

/-! ## The runs of free pages -/

variable {m : MemoryBlock} {n : ℕ}

theorem freeRun_iff_isRun {a l : ℕ} :
    FreeRun m a l ↔ IsRun (fun p => m.mhandles p = 0) XMS_START m.pages a l := by
  constructor
  · intro h
    exact ⟨h.start, h.pos, h.fits, h.free,
      fun hlt => h.before.resolve_left (Nat.ne_of_gt hlt),
      fun hlt => h.behind.resolve_left (Nat.ne_of_lt hlt)⟩
  · intro h
    refine ⟨h.lo_le, h.pos, h.le_hi, h.all, ?_, ?_⟩
    · exact h.lo_le.eq_or_lt.imp Eq.symm h.left
    · exact h.le_hi.eq_or_lt.imp id h.right

/-- The maximal runs in the order of the table, with their lengths. -/
def freeRuns (m : MemoryBlock) : List (ℕ × ℕ) :=
  scan (fun p => m.mhandles p = 0) (m.pages - XMS_START) XMS_START none

theorem mem_freeRuns {a l : ℕ} : (a, l) ∈ freeRuns m ↔ FreeRun m a l := by
  rw [freeRuns, mem_scan, freeRun_iff_isRun]
  by_cases hp : XMS_START ≤ m.pages
  · rw [Nat.add_sub_of_le hp]
  · rw [Nat.sub_eq_zero_of_le (by omega)]
    constructor
    · intro h
      have := h.lo_le
      have := h.pos
      have := h.le_hi
      omega
    · intro h
      have := h.lo_le
      have := h.pos
      have := h.le_hi
      omega

/-! ## The largest run -/

theorem freeLargestLoop_eq (f : ℕ → ℤ) (n index largest : ℕ) (first : Option ℕ)
    (h : ∀ a ∈ first, a ≤ index) :
    freeLargestLoop f n index (first.elim 0 (index - ·)) largest =
      ((scan (fun p => f p = 0) n index first).map Prod.snd).foldl max largest := by
  induction n generalizing index largest first with
  | zero =>
    cases first with
    | none => simp [freeLargestLoop, scan]
    | some a => simp [freeLargestLoop, scan, max_comm]
  | succ n ih =>
    rw [freeLargestLoop]
    cases first with
    | none =>
      rw [scan]
      by_cases hfree : f index = 0
      · rw [if_pos hfree, if_pos hfree, ← ih (index + 1) largest (some index) (by simp)]
        simp
      · rw [if_neg hfree, if_neg hfree, ← ih (index + 1) largest none (by simp)]
        simp
    | some a =>
      have ha : a ≤ index := h a rfl
      rw [scan]
      by_cases hfree : f index = 0
      · rw [if_pos hfree, if_pos hfree, ← ih (index + 1) largest (some a) (by simp; omega)]
        have hlen : index - a + 1 = index + 1 - a := by omega
        simp only [Option.elim_some, hlen]
      · rw [if_neg hfree, if_neg hfree, List.map_cons, List.foldl_cons,
          ← ih (index + 1) (max largest (index - a)) none (by simp)]
        simp only [Option.elim_some, Option.elim_none, max_comm]

theorem le_foldl_max_iff (L : List ℕ) (b : ℕ) :
    n ≤ L.foldl max b ↔ n ≤ b ∨ ∃ x ∈ L, n ≤ x := by
  induction L generalizing b with
  | nil => simp
  | cons y L ih =>
    rw [List.foldl_cons, ih, le_max_iff]
    simp [or_assoc]

/-- **`MEM_FreeLargest` reaches what some run reaches.** -/
theorem le_MEM_FreeLargest_iff (hn : 0 < n) :
    n ≤ MEM_FreeLargest m ↔ ∃ a l, FreeRun m a l ∧ n ≤ l := by
  have heq : MEM_FreeLargest m = ((freeRuns m).map Prod.snd).foldl max 0 :=
    freeLargestLoop_eq m.mhandles _ _ 0 none (by simp)
  rw [heq, le_foldl_max_iff]
  constructor
  · rintro (h | ⟨l, hl, hle⟩)
    · omega
    · obtain ⟨⟨a, l'⟩, hmem, rfl⟩ := List.mem_map.1 hl
      exact ⟨a, l', mem_freeRuns.1 hmem, hle⟩
  · rintro ⟨a, l, hrun, hle⟩
    exact Or.inr ⟨l, List.mem_map.2 ⟨(a, l), mem_freeRuns.2 hrun, rfl⟩, hle⟩

/-! ## The best match -/

/-- What the search returns: the best of the runs that are still to come, or the one that has been
noted. -/
theorem bestMatchLoop_runs {f : ℕ → ℤ} {size : ℕ} (n index best best_first : ℕ)
    (first : Option ℕ) (hindex : index ≠ 0) (hfirst : first ≠ some 0)
    (hbest : ∀ x ∈ scan (fun p => f p = 0) n index first, x.2 = size → size < best) :
    (∃ l, (bestMatchLoop f size n index (first.getD 0) best best_first, l) ∈
        scan (fun p => f p = 0) n index first ∧ size ≤ l ∧ l < best ∧
        ∀ x ∈ scan (fun p => f p = 0) n index first, size ≤ x.2 → l ≤ x.2) ∨
      bestMatchLoop f size n index (first.getD 0) best best_first = best_first ∧
        ∀ x ∈ scan (fun p => f p = 0) n index first, size ≤ x.2 → best ≤ x.2 := by
  induction n generalizing index best best_first first with
  | zero =>
    cases first with
    | none =>
      right
      simp [bestMatchLoop, scan]
    | some a =>
      have ha : a ≠ 0 := fun h => hfirst (by rw [h])
      simp only [bestMatchLoop, scan, Option.getD_some, ha, ne_eq, not_false_eq_true, true_and,
        List.mem_singleton, forall_eq]
      by_cases hfit : size ≤ index - a ∧ index - a < best
      · rw [if_pos hfit]
        exact Or.inl ⟨index - a, rfl, hfit.1, hfit.2, fun _ => le_rfl⟩
      · rw [if_neg hfit]
        exact Or.inr ⟨rfl, fun hle => Nat.le_of_not_lt fun hlt => hfit ⟨hle, hlt⟩⟩
  | succ n ih =>
    cases first with
    | none =>
      rw [scan] at hbest ⊢
      rw [bestMatchLoop, Option.getD_none, if_pos rfl]
      by_cases hfree : f index = 0
      · rw [if_pos hfree] at hbest
        simp only [if_pos hfree]
        exact ih _ _ _ (some index) (Nat.succ_ne_zero index) (by simpa using hindex) hbest
      · rw [if_neg hfree] at hbest
        simp only [if_neg hfree]
        exact ih _ _ _ none (Nat.succ_ne_zero index) (by simp) hbest
    | some a =>
      have ha : a ≠ 0 := fun h => hfirst (by rw [h])
      rw [scan] at hbest ⊢
      rw [bestMatchLoop, Option.getD_some, if_neg ha]
      by_cases hfree : f index = 0
      · rw [if_pos hfree] at hbest
        rw [if_neg (not_not.2 hfree), if_pos hfree]
        exact ih _ _ _ (some a) (Nat.succ_ne_zero index) hfirst hbest
      · rw [if_neg hfree] at hbest
        rw [if_pos hfree, if_neg hfree]
        obtain ⟨hhead, htail⟩ := List.forall_mem_cons.1 hbest
        dsimp only at hhead ⊢
        by_cases hexact : index - a = size
        · -- an exact fit ends the search
          rw [if_pos hexact]
          refine Or.inl ⟨index - a, List.mem_cons_self, hexact.ge, ?_, fun x _ hx => ?_⟩
          · rw [hexact]
            exact hhead hexact
          · omega
        · rw [if_neg hexact]
          by_cases hbetter : size < index - a ∧ index - a < best
          · rw [if_pos hbetter]
            rcases ih (index + 1) (index - a) a none (Nat.succ_ne_zero index) (by simp)
              (fun x _ _ => hbetter.1) with ⟨l, hmem, hle, hlt, hmin⟩ | ⟨hnoted, hmin⟩
            · refine Or.inl ⟨l, List.mem_cons_of_mem _ hmem, hle, by omega, ?_⟩
              exact List.forall_mem_cons.2 ⟨fun _ => hlt.le, hmin⟩
            · refine Or.inl ⟨index - a, ?_, hbetter.1.le, hbetter.2, ?_⟩
              · rw [show (none : Option ℕ).getD 0 = 0 from rfl] at hnoted
                rw [hnoted]
                exact List.mem_cons_self
              · exact List.forall_mem_cons.2 ⟨fun _ => le_rfl, hmin⟩
          · rw [if_neg hbetter]
            have hhead' : size ≤ index - a → best ≤ index - a := by
              intro hle
              by_contra hlt
              exact hbetter ⟨lt_of_le_of_ne hle fun h => hexact h.symm, by omega⟩
            rcases ih (index + 1) best best_first none (Nat.succ_ne_zero index) (by simp) htail with
              ⟨l, hmem, hle, hlt, hmin⟩ | ⟨hnoted, hmin⟩
            · refine Or.inl ⟨l, List.mem_cons_of_mem _ hmem, hle, hlt, ?_⟩
              exact List.forall_mem_cons.2 ⟨fun h => hlt.le.trans (hhead' h), hmin⟩
            · exact Or.inr ⟨hnoted, List.forall_mem_cons.2 ⟨hhead', hmin⟩⟩

/-- **`BestMatch` returns the first page of a run of least sufficient length**, or 0 when every run
is too short. -/
theorem BestMatch_fits (m : MemoryBlock) (size : ℕ) :
    (∃ l, FreeRun m (BestMatch m size) l ∧ size ≤ l ∧
        ∀ a' l', FreeRun m a' l' → size ≤ l' → l ≤ l') ∨
      BestMatch m size = 0 ∧ ∀ a l, FreeRun m a l → l < size := by
  have hsmall : ∀ a l, FreeRun m a l → l < 0xfffffff := by
    intro a l hrun
    have hpages := m.pages_le
    have hmax : MaxPages = 786432 := rfl
    have := hrun.fits
    omega
  have hbest : ∀ x ∈ freeRuns m, x.2 = size → size < 0xfffffff := by
    rintro ⟨a, l⟩ hx rfl
    exact hsmall a l (mem_freeRuns.1 hx)
  have hfits : (∃ l, (BestMatch m size, l) ∈ freeRuns m ∧ size ≤ l ∧ l < 0xfffffff ∧
      ∀ x ∈ freeRuns m, size ≤ x.2 → l ≤ x.2) ∨
      BestMatch m size = 0 ∧ ∀ x ∈ freeRuns m, size ≤ x.2 → 0xfffffff ≤ x.2 :=
    bestMatchLoop_runs _ _ _ _ none (by decide) (by simp) hbest
  rcases hfits with ⟨l, hmem, hle, -, hmin⟩ | ⟨hzero, hmin⟩
  · refine Or.inl ⟨l, mem_freeRuns.1 hmem, hle, fun a' l' hrun => ?_⟩
    exact hmin (a', l') (mem_freeRuns.2 hrun)
  · refine Or.inr ⟨hzero, fun a l hrun => ?_⟩
    by_contra hle
    have hlong := hmin (a, l) (mem_freeRuns.2 hrun) (Nat.le_of_not_lt hle)
    have hshort := hsmall a l hrun
    omega

/-- The search fails exactly for what is larger than the largest run. -/
theorem BestMatch_eq_zero_iff {size : ℕ} (hsize : 0 < size) :
    BestMatch m size = 0 ↔ MEM_FreeLargest m < size := by
  rw [← not_le, le_MEM_FreeLargest_iff hsize]
  rcases BestMatch_fits m size with ⟨l, hrun, hle, -⟩ | ⟨hzero, hshort⟩
  · have hne : BestMatch m size ≠ 0 := by
      have hlo := hrun.start
      have hstart : XMS_START = 0x110 := rfl
      omega
    exact iff_of_false hne fun h => h ⟨_, l, hrun, hle⟩
  · refine iff_of_true hzero ?_
    rintro ⟨a, l, hrun, hle⟩
    exact absurd hle (Nat.not_le_of_lt (hshort a l hrun))

/-! ## Allocating -/

/-- What a sequential allocation of `n` pages from page `a` on leaves: the pages are chained in
order, and the rest of the table is as it was. -/
structure Occupied (m : MemoryBlock) (a n : ℕ) (m' : MemoryBlock) : Prop where
  chained : Chained m'.mhandles (List.range' a n)
  elsewhere : ∀ p, p < a ∨ a + n ≤ p → m'.mhandles p = m.mhandles p
  pages : m'.pages = m.pages
  bytes : m'.bytes = m.bytes

/-- **A sequential allocation fails exactly when no run is large enough.** -/
theorem allocate_fails_iff (hn : 0 < n) :
    MEM_AllocatePages m n true = .ok (0, m) ↔ MEM_FreeLargest m < n := by
  rw [← BestMatch_eq_zero_iff hn, MEM_AllocatePages, if_neg (Nat.ne_of_gt hn), if_pos rfl]
  by_cases hzero : BestMatch m n = 0
  · simp [hzero]
  · have hreturn := (allocateSequence_none (i := BestMatch m n) (m := m) hn).1
    rw [if_neg hzero]
    refine iff_of_false (fun h => hzero ?_) hzero
    rw [Except.ok.inj h] at hreturn
    exact (Int.ofNat.inj hreturn).symm

/-- **A sequential allocation that does not fail takes the best fit.** -/
theorem allocate_takes (hn : 0 < n) (h : n ≤ MEM_FreeLargest m) :
    ∃ (a l : ℕ) (m' : MemoryBlock), MEM_AllocatePages m n true = .ok ((a : ℤ), m') ∧
      FreeRun m a l ∧ n ≤ l ∧ (∀ a' l', FreeRun m a' l' → n ≤ l' → l ≤ l') ∧ Occupied m a n m' := by
  have hne : BestMatch m n ≠ 0 := by
    rw [Ne, BestMatch_eq_zero_iff hn]
    omega
  obtain ⟨l, hrun, hle, hmin⟩ := (BestMatch_fits m n).resolve_right fun h => hne h.1
  obtain ⟨h1, h2, h3, h4, h5⟩ := allocateSequence_none (i := BestMatch m n) (m := m) hn
  refine ⟨BestMatch m n, l, (allocateSequence n (BestMatch m n) none (0, m)).2, ?_, hrun, hle, hmin,
    ⟨h5, h4, h2, h3⟩⟩
  rw [MEM_AllocatePages, if_neg (Nat.ne_of_gt hn), if_pos rfl]
  simp only [if_neg hne]
  rw [← h1]

end MemoryBlock

/-! ## What XMS reports -/

namespace Xms

def KilobytesPerPage : ℕ := 4

/-- `xms_query_free_memory`: the result, the largest block and the total. -/
def xms_query_free_memory (s : Xms) : XmsResult × ℕ × ℕ :=
  let total_kb := s.mem.MEM_FreeTotal * KilobytesPerPage % 2 ^ 32
  let largest_kb := s.mem.MEM_FreeLargest * KilobytesPerPage % 2 ^ 32
  (if total_kb ≠ 0 then .OK else .XmsOutOfSpace, largest_kb, total_kb)

theorem findHandle_isSome {s : Xms} {i : ℕ} (hfree : (s.handles i).is_free) (n index : ℕ)
    (hlo : index ≤ i) (hhi : i < index + n) : (s.findHandle n index).isSome := by
  induction n generalizing index with
  | zero => omega
  | succ n ih =>
    rw [findHandle]
    split
    · rfl
    · rename_i hused
      have hne : index ≠ i := by
        rintro rfl
        exact hused hfree
      exact ih (index + 1) (by omega) (by omega)

/-- The pages of a block that is not larger than the largest one that is reported. -/
theorem get_num_pages_le_largest {s : Xms} {size_kb : ℕ}
    (h : size_kb ≤ s.xms_query_free_memory.2.1) :
    get_num_pages size_kb ≤ s.mem.MEM_FreeLargest := by
  have hle : size_kb ≤ s.mem.MEM_FreeLargest * 4 := h.trans (Nat.mod_le _ _)
  rw [get_num_pages_eq]
  omega

/-- **What has been reported is given** while there is a free handle. -/
theorem allocate_of_reported {s : Xms} {size_kb i : ℕ} (hsize : size_kb ≠ 0)
    (h : size_kb ≤ s.xms_query_free_memory.2.1) (hi : 1 ≤ i) (hi' : i < NumXmsHandles)
    (hfree : (s.handles i).is_free) :
    ∃ handle s', s.xms_allocate_memory size_kb = .ok ((.OK, handle), s') := by
  obtain ⟨handle, hhandle⟩ := Option.isSome_iff_exists.1
    (findHandle_isSome hfree (NumXmsHandles - 1) 1 hi (by omega))
  obtain ⟨a, l, mem, halloc, hrun, -⟩ :=
    MemoryBlock.allocate_takes (get_num_pages_pos hsize) (get_num_pages_le_largest h)
  have hne : (a : ℤ) ≠ 0 := by
    have hlo := hrun.start
    have hstart : XMS_START = 0x110 := rfl
    omega
  refine ⟨handle, { s with mem := mem }.setBlock handle
    { is_free := false, mem_handle := a, lock_count := 0, size_kb := size_kb }, ?_⟩
  simp only [xms_allocate_memory, hhandle, if_pos hsize, halloc]
  change (if (a : ℤ) = 0 then _ else _) = _
  rw [if_neg hne]

end Xms

/-- **Sequential page allocation is exact best fit**, and so XMS gives every block that is not
larger than the largest one that it reports. -/
theorem allocate_bestFit (m : MemoryBlock) (n : ℕ) (hn : 0 < n) :
    (m.MEM_AllocatePages n true = .ok (0, m) ↔ m.MEM_FreeLargest < n) ∧
    (n ≤ m.MEM_FreeLargest → ∃ (a l : ℕ) (m' : MemoryBlock),
      m.MEM_AllocatePages n true = .ok ((a : ℤ), m') ∧ m.FreeRun a l ∧ n ≤ l ∧
        (∀ a' l', m.FreeRun a' l' → n ≤ l' → l ≤ l') ∧ m.Occupied a n m') ∧
    ∀ (s : Xms) (size_kb i : ℕ), s.mem = m → size_kb ≠ 0 →
      size_kb ≤ s.xms_query_free_memory.2.1 → 1 ≤ i → i < NumXmsHandles →
      (s.handles i).is_free →
      ∃ handle s', s.xms_allocate_memory size_kb = .ok ((.OK, handle), s') :=
  ⟨MemoryBlock.allocate_fails_iff hn, MemoryBlock.allocate_takes hn,
    fun _ _ _ _ hsize h hi hi' hfree => Xms.allocate_of_reported hsize h hi hi' hfree⟩

/-- Three free pages, one used page and two free pages. -/
def twoRuns : MemoryBlock where
  pages := 0x116
  mhandles := fun p => if p = 0x113 then -1 else 0
  bytes := fun _ => 0
  pages_le := by decide

/-- Two pages are taken from a run of two, and XMS gives the twelve kilobytes that it reports. -/
theorem allocate_bestFit_twoRuns :
    ¬ twoRuns.MEM_AllocatePages 2 true = .ok (0, twoRuns) ∧
    (∃ (a l : ℕ) (m' : MemoryBlock), twoRuns.MEM_AllocatePages 2 true = .ok ((a : ℤ), m') ∧
      twoRuns.FreeRun a l ∧ 2 ≤ l ∧ (∀ a' l', twoRuns.FreeRun a' l' → 2 ≤ l' → l ≤ l') ∧
      twoRuns.Occupied a 2 m') ∧
    ∃ handle s', (⟨twoRuns, fun _ => {}⟩ : Xms).xms_allocate_memory 12 =
      .ok ((.OK, handle), s') := by
  obtain ⟨hfails, htakes, hxms⟩ := allocate_bestFit twoRuns 2 (by decide)
  refine ⟨fun h => absurd (hfails.1 h) (by decide), htakes (by decide), ?_⟩
  exact hxms ⟨twoRuns, fun _ => {}⟩ 12 1 rfl (by decide) (by decide) le_rfl (by decide) rfl

end AugraDosbox
