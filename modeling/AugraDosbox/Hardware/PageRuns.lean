import Mathlib.Algebra.BigOperators.Group.Finset.Basic
import Mathlib.Algebra.Order.BigOperators.Group.Finset
import Mathlib.Logic.Relation
import Mathlib.Order.Interval.Finset.Nat
import AugraDosbox.Hardware.PageChains

/-!
# Runs of the page allocator with sequential handles

The allocator together with the record its callers keep: `size h` is the number
of pages last requested for the live handle `h`.  A step is one call of
`MEM_AllocatePages`, `MEM_ReAllocatePages` or `MEM_ReleasePages` with `sequence`
set, the last two on a live handle.

* `reachable_owned` — after every run the table is the disjoint union of the
  runs `h, h + 1, …, h + size h - 1`, one per live handle, and 0 elsewhere.
* `freeTotal_add_sizes` — `MEM_FreeTotal` counts what is left over.
* `reachable_runs` — both, and what each call returns and does to guest memory.
-/

namespace AugraDosbox

namespace MemoryBlock

/-! ## Counting free pages -/

theorem freeTotalLoop_eq (f : ℕ → ℤ) (n index free : ℕ) :
    freeTotalLoop f n index free =
      free + ((Finset.Ico index (index + n)).filter fun p => f p = 0).card := by
  induction n generalizing index free with
  | zero => simp [freeTotalLoop]
  | succ n ih =>
    have hIco : Finset.Ico index (index + (n + 1)) =
        insert index (Finset.Ico (index + 1) (index + 1 + n)) := by
      ext p
      simp only [Finset.mem_Ico, Finset.mem_insert]
      omega
    rw [freeTotalLoop, ih, hIco, Finset.filter_insert]
    by_cases h0 : f index = 0
    · rw [if_pos h0, if_pos h0, Finset.card_insert_of_notMem (by simp)]
      omega
    · rw [if_neg h0, if_neg h0]

/-- `MEM_FreeTotal` is the number of entries that are 0. -/
theorem MEM_FreeTotal_eq (m : MemoryBlock) :
    MEM_FreeTotal m = ((Finset.Ico XMS_START m.pages).filter fun p => m.mhandles p = 0).card := by
  rw [MEM_FreeTotal, freeTotalLoop_eq, Nat.zero_add]
  by_cases h : XMS_START ≤ m.pages
  · rw [Nat.add_sub_cancel' h]
  · rw [Nat.sub_eq_zero_of_le (by omega), Finset.Ico_eq_empty (by omega),
      Finset.Ico_eq_empty (by omega)]

end MemoryBlock

open MemoryBlock

/-- The allocator and the sizes its callers asked for. -/
structure Pages where
  mem : MemoryBlock
  /-- The number of pages of a live handle. -/
  size : ℕ → Option ℕ

namespace Pages

/-- The pages of the live handles: runs that start at the handle. -/
def live (s : Pages) (h : ℕ) : Option (List ℕ) := (s.size h).map (List.range' h)

/-- A call made by a user of sequential handles. -/
inductive Call where
  | allocate (pages : ℕ)
  | reallocate (handle pages : ℕ)
  | release (handle : ℕ)
  deriving DecidableEq, Repr

/-- The call is made on a handle that is live. -/
def Call.Live (s : Pages) : Call → Prop
  | .allocate _ => True
  | .reallocate h _ => (s.size h).isSome
  | .release h => (s.size h).isSome

/-- What a call returns: success, and the handle. -/
abbrev Reply := Bool × ℤ

/-- The record after a reply: a handle that was replaced or released is dropped,
one that was returned is entered with the size asked for. -/
def record (size : ℕ → Option ℕ) (dropped : Option ℕ) (r : Reply) (pages : ℕ) : ℕ → Option ℕ :=
  if r.1 then
    let size := match dropped with
      | none => size
      | some h => Function.update size h none
    if 0 < r.2 then Function.update size r.2.toNat (some pages) else size
  else size

/-- One call: the reply and the state afterwards. -/
def call (s : Pages) : Call → Except Fault (Reply × Pages)
  | .allocate n => do
      let (h, m) ← MEM_AllocatePages s.mem n true
      let r : Reply := (decide (h ≠ 0), h)
      .ok (r, ⟨m, record s.size none r n⟩)
  | .reallocate h n => do
      let (ok, h', m) ← MEM_ReAllocatePages s.mem h n true
      .ok ((ok, h'), ⟨m, record s.size (some h) (ok, h') n⟩)
  | .release h => do
      let m ← MEM_ReleasePages s.mem h
      .ok ((true, -1), ⟨m, record s.size (some h) (true, -1) 0⟩)

/-- The table is the disjoint union of the runs of the live handles. -/
def Owned (s : Pages) : Prop := s.mem.Owned s.live

theorem live_update (m : MemoryBlock) (size : ℕ → Option ℕ) (h : ℕ) (o : Option ℕ) :
    live ⟨m, Function.update size h o⟩ =
      Function.update (live ⟨m, size⟩) h (o.map (List.range' h)) := by
  funext k
  by_cases hk : k = h
  · subst hk
    simp [live]
  · simp [live, hk]

variable {s : Pages} {h : ℕ}

theorem live_eq_some {L : List ℕ} :
    s.live h = some L ↔ ∃ n, s.size h = some n ∧ L = List.range' h n := by
  rw [live, Option.map_eq_some_iff]
  exact exists_congr fun n => and_congr_right fun _ => eq_comm

theorem live_of_size {n : ℕ} (hn : s.size h = some n) :
    s.live h = some (List.range' h n) := live_eq_some.2 ⟨n, hn, rfl⟩

/-! ## One call -/

theorem call_allocate (ho : s.Owned) (n : ℕ) :
    ∃ r s', s.call (.allocate n) = .ok (r, s') ∧ s'.Owned := by
  rcases MemoryBlock.Owned.allocate ho n with hfail | ⟨k, m', hm', hn, -, hk, -, -, -, -, -, ho'⟩
  · exact ⟨_, _, by simp only [call, hfail, bind, Except.bind]; rfl, by simpa [record] using ho⟩
  · have hk0 : (k : ℤ) ≠ 0 ∧ (0 : ℤ) < k := by
      have : XMS_START = 0x110 := rfl
      omega
    refine ⟨_, _, by simp only [call, hm', bind, Except.bind]; rfl, ?_⟩
    simp only [Owned, record, hk0.1, hk0.2, ne_eq, not_false_eq_true, decide_true, if_true,
      Int.toNat_natCast, live_update]
    exact ho'

theorem call_release (ho : s.Owned) (hh : (s.size h).isSome) :
    ∃ r s', s.call (.release h) = .ok (r, s') ∧ s'.Owned := by
  obtain ⟨n, hn⟩ := Option.isSome_iff_exists.1 hh
  obtain ⟨m', hm', -, -, ho'⟩ := MemoryBlock.Owned.release ho (live_of_size hn)
  refine ⟨_, _, by simp only [call, hm', bind, Except.bind]; rfl, ?_⟩
  simp only [Owned, record, if_true, Int.reduceLT, if_false, live_update]
  exact ho'

/-- What a reallocation does: on failure nothing at all, on success the first
pages keep their bytes. -/
def KeepsBytes (s : Pages) (h n : ℕ) (r : Reply) (s' : Pages) : Prop :=
  (r.1 = true → ∀ k, s.size h = some k → ∀ i, i < min k n * MemPageSize →
    s'.mem.bytes (r.2.toNat * MemPageSize + i) = s.mem.bytes (h * MemPageSize + i)) ∧
  (r.1 = false → r.2 = h ∧ s' = s)

theorem call_reallocate (ho : s.Owned) (hh : (s.size h).isSome) (n : ℕ) :
    ∃ r s', s.call (.reallocate h n) = .ok (r, s') ∧ s'.Owned ∧ KeepsBytes s h n r s' := by
  obtain ⟨k, hk⟩ := Option.isSome_iff_exists.1 hh
  rcases MemoryBlock.Owned.reallocate ho (live_of_size hk) n with
    hfail | ⟨rfl, m', hm', -, hb, ho'⟩ | ⟨hn, j, m', hm', -, -, hb, -, ho'⟩
  · refine ⟨_, _, by simp only [call, hfail, bind, Except.bind]; rfl, ?_, by simp, fun _ => ?_⟩
    · simpa [record, Owned] using ho
    · simp [record]
  · refine ⟨_, _, by simp only [call, hm', bind, Except.bind]; rfl, ?_, fun _ k' _ i hi => ?_,
      by simp⟩
    · simp only [Owned, record, if_true, Int.reduceLT, if_false, live_update]
      exact ho'
    · simp at hi
  · have hj : (0 : ℤ) < j := by
      have hstart := (ho'.bounds (Function.update_self ..) j (by rw [List.mem_range'_1]; omega)).1
      have : XMS_START = 0x110 := rfl
      omega
    refine ⟨_, _, by simp only [call, hm', bind, Except.bind]; rfl, ?_, fun _ k' hk' i hi => ?_,
      by simp⟩
    · simp only [Owned, record, if_true, hj, Int.toNat_natCast, live_update]
      exact ho'
    · obtain rfl : k = k' := by rw [hk] at hk'; exact Option.some.inj hk'
      simpa using hb i hi

/-- **Every call on a live handle returns, and keeps the table well formed.** -/
theorem call_spec (ho : s.Owned) {c : Call} (hc : c.Live s) :
    ∃ r s', s.call c = .ok (r, s') ∧ s'.Owned := by
  cases c with
  | allocate n => exact call_allocate ho n
  | reallocate h n =>
    obtain ⟨r, s', h1, h2, -⟩ := call_reallocate ho hc n
    exact ⟨r, s', h1, h2⟩
  | release h => exact call_release ho hc

/-! ## Runs -/

/-- One call on a live handle, as a step of the system. -/
def Step (s s' : Pages) : Prop := ∃ c r, Call.Live s c ∧ s.call c = .ok (r, s')

/-- Nothing has been handed out yet. -/
structure Initial (s : Pages) : Prop where
  size : ∀ h, s.size h = none
  free : ∀ p, XMS_START ≤ p → p < s.mem.pages → s.mem.mhandles p = 0

theorem Initial.owned (h : s.Initial) : s.Owned := by
  have hnone : ∀ {k L}, s.live k ≠ some L := by
    intro k L
    simp [live, h.size k]
  exact ⟨fun hL => absurd hL hnone, fun hL => absurd hL hnone, fun hL => absurd hL hnone,
    fun hL => absurd hL hnone, fun p hp hp' _ => h.free p hp hp'⟩

theorem Step.owned {s' : Pages} (h : Step s s') (ho : s.Owned) : s'.Owned := by
  obtain ⟨c, r, hc, hcall⟩ := h
  obtain ⟨r', s'', hcall', ho'⟩ := call_spec ho hc
  rw [hcall] at hcall'
  cases hcall'
  exact ho'

theorem reachable_owned {s₀ : Pages} (h₀ : s₀.Initial) (hrun : Relation.ReflTransGen Step s₀ s) :
    s.Owned := by
  induction hrun with
  | refl => exact h₀.owned
  | tail _ hstep ih => exact hstep.owned ih

/-! ## The table after a run -/

/-- The `mhandles` table is the disjoint union of the chains `h, h + 1, …`, one
per live handle and of exactly its size, and everything else is free. -/
structure Table (s : Pages) : Prop where
  /-- A live handle starts a run of pages inside the table. -/
  bounds : ∀ {h n}, s.size h = some n → 0 < n ∧ XMS_START ≤ h ∧ h + n ≤ s.mem.pages
  /-- Each page of the run but the last names the page behind it. -/
  next : ∀ {h n}, s.size h = some n → ∀ i, i + 1 < n → s.mem.mhandles (h + i) = h + i + 1
  /-- The run ends with -1. -/
  last : ∀ {h n}, s.size h = some n → s.mem.mhandles (h + n - 1) = -1
  /-- Runs of different handles do not meet. -/
  disjoint : ∀ {h h' n n'}, s.size h = some n → s.size h' = some n' → h ≠ h' →
    h + n ≤ h' ∨ h' + n' ≤ h
  /-- All other entries are 0. -/
  free : ∀ p, XMS_START ≤ p → p < s.mem.pages →
    (∀ h n, s.size h = some n → p < h ∨ h + n ≤ p) → s.mem.mhandles p = 0

theorem range'_split {n i : ℕ} (hi : i + 1 < n) :
    List.range' h n = List.range' h i ++ (h + i) :: (h + i + 1) ::
      List.range' (h + i + 2) (n - i - 2) := by
  rw [show h + i + 2 = h + i + 1 + 1 from rfl, ← List.range'_succ, ← List.range'_succ,
    List.range'_append_1]
  congr 1
  omega

theorem Owned.table (ho : s.Owned) : s.Table := by
  have hpos : ∀ {h n}, s.size h = some n → 0 < n := by
    intro h n hn
    have := ho.head (live_of_size hn)
    cases n with
    | zero => simp at this
    | succ n => omega
  constructor
  · intro h n hn
    have h0 := hpos hn
    have hfirst := ho.bounds (live_of_size hn) h (by rw [List.mem_range'_1]; omega)
    have hlast := ho.bounds (live_of_size hn) (h + n - 1) (by rw [List.mem_range'_1]; omega)
    omega
  · intro h n hn i hi
    have hch := ho.chain (live_of_size hn)
    rw [range'_split hi] at hch
    have := Threaded.Linked.entry hch
    simpa using this
  · intro h n hn
    have hch := ho.chain (live_of_size hn)
    have h0 := hpos hn
    rw [show List.range' h n = List.range' h (n - 1) ++ [h + (n - 1)] by
      rw [← List.range'_1_concat]
      congr 1
      omega] at hch
    rw [show h + n - 1 = h + (n - 1) by omega]
    exact Chained.last hch
  · intro h h' n n' hn hn' hne
    by_contra hcon
    have := ho.disjoint (live_of_size hn) (live_of_size hn') hne
    have h0 := hpos hn
    have h0' := hpos hn'
    exact this (a := max h h') (by rw [List.mem_range'_1]; omega) (by rw [List.mem_range'_1]; omega)
  · intro p hp hp' hno
    refine ho.free p hp hp' fun h L hL hpL => ?_
    obtain ⟨n, hn, rfl⟩ := live_eq_some.1 hL
    rw [List.mem_range'_1] at hpL
    have := hno h n hn
    omega

theorem Owned.mhandles_eq_zero_iff (ho : s.Owned) {p : ℕ} (hp : XMS_START ≤ p)
    (hp' : p < s.mem.pages) :
    s.mem.mhandles p = 0 ↔ ∀ h n, s.size h = some n → p < h ∨ h + n ≤ p := by
  refine ⟨fun h0 h n hn => ?_, ho.table.free p hp hp'⟩
  by_contra hcon
  exact ho.not_mem_of_free h0 (live_of_size hn) (by rw [List.mem_range'_1]; omega)

/-- **`MEM_FreeTotal` counts the remaining pages**: with the sizes of the live
handles it adds up to all pages there are. -/
theorem Owned.freeTotal_add_sizes (ho : s.Owned) :
    MEM_FreeTotal s.mem + ∑ h ∈ Finset.range s.mem.pages, (s.size h).getD 0 =
      s.mem.pages - XMS_START := by
  classical
  have ht := ho.table
  set run : ℕ → Finset ℕ := fun h => Finset.Ico h (h + (s.size h).getD 0) with hrun
  have hmem : ∀ {h p}, p ∈ run h ↔ ∃ n, s.size h = some n ∧ h ≤ p ∧ p < h + n := by
    intro h p
    simp only [hrun, Finset.mem_Ico]
    cases hs : s.size h with
    | none => simp
    | some n => simp
  have hdisj : (↑(Finset.range s.mem.pages) : Set ℕ).PairwiseDisjoint run := by
    intro h _ h' _ hne
    rw [Function.onFun, Finset.disjoint_left]
    intro p hp hp'
    obtain ⟨n, hn, h1, h2⟩ := hmem.1 hp
    obtain ⟨n', hn', h1', h2'⟩ := hmem.1 hp'
    have := ht.disjoint hn hn' hne
    omega
  have hsum : ∑ h ∈ Finset.range s.mem.pages, (s.size h).getD 0 =
      ((Finset.range s.mem.pages).biUnion run).card := by
    rw [Finset.card_biUnion hdisj]
    exact Finset.sum_congr rfl fun h _ => by simp [hrun]
  have hused : (Finset.range s.mem.pages).biUnion run =
      (Finset.Ico XMS_START s.mem.pages).filter fun p => ¬ s.mem.mhandles p = 0 := by
    ext p
    simp only [Finset.mem_biUnion, Finset.mem_range, Finset.mem_filter, Finset.mem_Ico]
    constructor
    · rintro ⟨h, -, hp⟩
      obtain ⟨n, hn, h1, h2⟩ := hmem.1 hp
      have hb := ht.bounds hn
      refine ⟨by omega, fun h0 => ?_⟩
      have := (ho.mhandles_eq_zero_iff (by omega) (by omega)).1 h0 h n hn
      omega
    · rintro ⟨⟨hp, hp'⟩, h0⟩
      rw [ho.mhandles_eq_zero_iff hp hp'] at h0
      simp only [not_forall, not_or, not_lt, not_le] at h0
      obtain ⟨h, n, hn, h1, h2⟩ := h0
      exact ⟨h, by omega, hmem.2 ⟨n, hn, h1, h2⟩⟩
  rw [MEM_FreeTotal_eq, hsum, hused, Finset.card_filter_add_card_filter_not, Nat.card_Ico]

/-- **The page-allocator invariant for sequential handles.**  After every run of
calls on live handles, the table is the disjoint union of the chains of the live
handles, each of exactly the size last requested for it, and `MEM_FreeTotal`
counts the pages left over; every further call on a live handle returns, and a
reallocation keeps the bytes of the pages it keeps or, when it fails, changes
nothing. -/
theorem reachable_table {s₀ s : Pages} (h₀ : s₀.Initial)
    (hrun : Relation.ReflTransGen Step s₀ s) :
    s.Table ∧
    MEM_FreeTotal s.mem + ∑ h ∈ Finset.range s.mem.pages, (s.size h).getD 0 =
      s.mem.pages - XMS_START ∧
    (∀ c : Call, c.Live s → ∃ r s', s.call c = .ok (r, s')) ∧
    ∀ h n r s', (s.size h).isSome → s.call (.reallocate h n) = .ok (r, s') →
      KeepsBytes s h n r s' := by
  have ho := reachable_owned h₀ hrun
  refine ⟨ho.table, ho.freeTotal_add_sizes, fun c hc => ?_, fun h n r s' hh hcall => ?_⟩
  · obtain ⟨r, s', hcall, -⟩ := call_spec ho hc
    exact ⟨r, s', hcall⟩
  · obtain ⟨r', s'', hcall', -, hkeep⟩ := call_reallocate ho hh n
    rw [hcall] at hcall'
    cases hcall'
    exact hkeep

/-- A machine with four pages above the HMA. -/
def fourPages : Pages where
  mem := { pages := 0x114, mhandles := fun _ => 0, bytes := fun _ => 0, pages_le := by decide }
  size := fun _ => none

theorem fourPages_initial : fourPages.Initial := ⟨fun _ => rfl, fun _ _ _ => rfl⟩

set_option maxRecDepth 8000 in
/-- Two pages are allocated and then grown to three, in place. -/
theorem reachable_table_fourPages :
    ∃ s, Relation.ReflTransGen Step fourPages s ∧ s.size 0x110 = some 3 ∧
      s.mem.mhandles 0x111 = 0x112 ∧ s.Table ∧
      MEM_FreeTotal s.mem + ∑ h ∈ Finset.range s.mem.pages, (s.size h).getD 0 = 4 := by
  obtain ⟨r, s, r', s', hs, hlive, hs', hsize, hentry, hpages⟩ : ∃ r s r' s',
      fourPages.call (.allocate 2) = .ok (r, s) ∧ Call.Live s (.reallocate 0x110 3) ∧
      s.call (.reallocate 0x110 3) = .ok (r', s') ∧ s'.size 0x110 = some 3 ∧
      s'.mem.mhandles 0x111 = 0x112 ∧ s'.mem.pages - XMS_START = 4 :=
    ⟨_, _, _, _, rfl, by rfl, rfl, rfl, rfl, rfl⟩
  have hrun : Relation.ReflTransGen Step fourPages s' :=
    (Relation.ReflTransGen.single ⟨.allocate 2, r, trivial, hs⟩).tail
      ⟨.reallocate 0x110 3, r', hlive, hs'⟩
  obtain ⟨htable, hfree, -, -⟩ := reachable_table fourPages_initial hrun
  exact ⟨s', hrun, hsize, hentry, htable, hfree.trans hpages⟩

end Pages

end AugraDosbox
