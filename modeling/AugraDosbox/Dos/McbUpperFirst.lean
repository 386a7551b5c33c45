import AugraDosbox.Dos.McbAllocate

/-!
# Upper memory first, then low memory

The strategies `0x80` (first fit), `0x81` (best fit) and `0x82` (last fit) of
`DosMemAllocStrategy`.  `DOS_AllocateMemory` of `src/dos/dos_memory.cpp` walks over the upper chain
and then over the low one, and decides after both.

* `lowBlocks`, `upperBlocks` — the blocks of the two chains;
* `mem_walk` — the blocks that a walk comes by;
* **`upper_first_iff`** — when a segment of the upper chain is returned although an upper block
  fits;
* `low_block_taken` — best fit and last fit take a low block at boot.
-/

namespace AugraDosbox

open Tiling DOS_MCB

namespace DosMemory

variable {r : Region} {s : DosMemory} {A F L : List Mcb} {b c : Mcb} {n : ℕ}

/-! ## The blocks of the two chains -/

/-- The blocks below the upper chain. -/
def lowBlocks (C : List Mcb) : List (ℕ × Mcb) :=
  (placed Mcb.extent DOS_MEM_START C).filter fun x => decide (x.1 < umb_start_seg)

/-- The blocks of the upper chain. -/
def upperBlocks (C : List Mcb) : List (ℕ × Mcb) :=
  (placed Mcb.extent DOS_MEM_START C).filter fun x => decide (umb_start_seg ≤ x.1)

theorem mem_lowBlocks {x : ℕ × Mcb} :
    x ∈ lowBlocks F ↔ x ∈ placed Mcb.extent DOS_MEM_START F ∧ x.1 < umb_start_seg := by
  simp [lowBlocks]

theorem mem_upperBlocks {x : ℕ × Mcb} :
    x ∈ upperBlocks F ↔ x ∈ placed Mcb.extent DOS_MEM_START F ∧ umb_start_seg ≤ x.1 := by
  simp [upperBlocks]

/-- No block reaches over the start of the upper chain. -/
theorem Inv.low_end (h : s.Inv r F) (hu : r.umb = true) {x : ℕ × Mcb}
    (hx : x ∈ placed Mcb.extent DOS_MEM_START F) (hlow : x.1 < umb_start_seg) :
    x.1 + x.2.extent ≤ umb_start_seg := by
  obtain ⟨d, hd, -⟩ := h.cover hu
  rcases placed_disjoint hx hd with ⟨heq, -⟩ | hle | hle
  · omega
  · exact hle
  · have hpos := d.extent_pos
    omega

/-- A free block is a part of a free one after the joining. -/
theorem compressed_covers : ∀ {start p : ℕ} {b : Mcb}, (p, b) ∈ placed Mcb.extent start L →
    b.psp = MCB_FREE → ∃ q c, (q, c) ∈ placed Mcb.extent start (compressed L) ∧
      c.psp = MCB_FREE ∧ q ≤ p ∧ p + b.extent ≤ q + c.extent := by
  induction L using compressed.induct with
  | case1 =>
    intro start p b hp
    cases hp
  | case2 d =>
    intro start p b hp hfree
    rw [compressed]
    exact ⟨p, b, hp, hfree, le_rfl, le_rfl⟩
  | case3 d e L ht =>
    intro start p b hp hfree
    rw [compressed_ending ht]
    exact ⟨p, b, hp, hfree, le_rfl, le_rfl⟩
  | case4 d e L ht hboth ih =>
    intro start p b hp hfree
    have hjoin : Mcb.extent ⟨e.type, d.psp, d.size + e.size + 1⟩ = d.extent + e.extent :=
      extent_join
    rw [compressed_join ht hboth.1 hboth.2]
    rw [placed, placed, List.mem_cons, List.mem_cons] at hp
    obtain ⟨q, c, hq, hc, hle, hend⟩ := @ih start _ _ List.mem_cons_self hboth.1
    rcases hp with hd | he | hL
    · obtain ⟨rfl, rfl⟩ := Prod.mk.inj hd
      exact ⟨q, c, hq, hc, hle, by omega⟩
    · obtain ⟨rfl, rfl⟩ := Prod.mk.inj he
      exact ⟨q, c, hq, hc, by omega, by omega⟩
    · refine ih (List.mem_cons_of_mem _ ?_) hfree
      rwa [hjoin, ← Nat.add_assoc]
  | case5 d e L ht hboth ih =>
    intro start p b hp hfree
    rw [compressed_pass ht hboth, placed]
    rw [placed, List.mem_cons] at hp
    rcases hp with hd | hL
    · obtain ⟨rfl, rfl⟩ := Prod.mk.inj hd
      exact ⟨_, _, List.mem_cons_self, hfree, le_rfl, le_rfl⟩
    · obtain ⟨q, c, hq, hrest⟩ := ih hL hfree
      exact ⟨q, c, List.mem_cons_of_mem _ hq, hrest⟩

/-- An upper block that fits is a part of one that fits after the joining. -/
theorem Inv.upper_fits (h : s.Inv r (compressed F)) (hu : r.umb = true)
    (hfree : ∃ x ∈ upperBlocks F, Fits n x) : ∃ y ∈ upperBlocks (compressed F), Fits n y := by
  obtain ⟨⟨p, b⟩, hx, hb, hn⟩ := hfree
  obtain ⟨hp, hupper⟩ := mem_upperBlocks.1 hx
  dsimp only at hb hn hupper
  obtain ⟨q, c, hq, hc, hle, hend⟩ := compressed_covers hp hb
  simp only [Mcb.extent] at hend
  refine ⟨(q, c), mem_upperBlocks.2 ⟨hq, ?_⟩, hc, ?_⟩
  · by_contra hlow
    have hbelow := h.low_end hu hq (Nat.not_le.1 hlow)
    simp only [Mcb.extent] at hbelow
    omega
  · dsimp only
    omega

/-! ## The blocks of a walk -/

/-- **The walk from a block** comes by the blocks from it on, but not by upper ones from a low one
while the chains are not linked. -/
theorem Inv.mem_walk {rounds : ℕ} {x : ℕ × Mcb} : ∀ {A : List Mcb} {b : Mcb} {L : List Mcb},
    s.Inv r (A ++ b :: L) → L.length < rounds →
      (x ∈ walk s.mem rounds (after A) ↔
        x ∈ placed Mcb.extent DOS_MEM_START (A ++ b :: L) ∧ after A ≤ x.1 ∧
        ¬ (r.umb = true ∧ s.umb_state ≠ 1 ∧ after A < umb_start_seg ∧ umb_start_seg ≤ x.1)) := by
  induction rounds with
  | zero =>
    intro A b L _ hlen
    omega
  | succ rounds ih =>
    intro A b L h hlen
    have hhere : header s.mem (after A) = b := h.header_at
    -- a block from here on is this one or lies behind it
    have hplaced : x ∈ placed Mcb.extent DOS_MEM_START (A ++ b :: L) → after A ≤ x.1 →
        x = (after A, b) ∨ after A + b.extent ≤ x.1 := by
      intro hx hle
      rcases placed_disjoint hx placed_after with ⟨hp, hb⟩ | hbefore | hbehind
      · exact .inl (Prod.ext hp hb)
      · have hpos := x.2.extent_pos
        omega
      · exact .inr hbehind
    have hself : r.umb = true ∧ s.umb_state ≠ 1 ∧ after A < umb_start_seg ∧
        umb_start_seg ≤ after A → False := by
      rintro ⟨-, -, hlow, hupper⟩
      omega
    rw [walk, List.mem_cons, hhere, h.getType_at]
    by_cases hz : b.type = ending_mcb_type
    · rw [if_pos hz]
      have hend := h.types placed_after
      rw [hz, endType] at hend
      constructor
      · intro hx
        obtain rfl : x = (after A, b) := by simpa using hx
        exact ⟨placed_after, le_rfl, hself⟩
      · rintro ⟨hx, hle, hcut⟩
        refine .inl ((hplaced hx hle).resolve_right fun hbehind => ?_)
        have hstop := (h.tiles.placed_bounds hx).2
        have hpos := x.2.extent_pos
        have hpos' := b.extent_pos
        split at hend
        · next hlast =>
          rcases hlast with hlast | ⟨hu, hstate, hlast⟩
          · omega
          · exact hcut ⟨hu, hstate, by omega, by omega⟩
        · exact absurd hend (by decide)
    · obtain ⟨c, M, rfl⟩ := h.exists_next hz
      have hlist : A ++ b :: c :: M = (A ++ [b]) ++ c :: M := by simp
      rw [List.length_cons] at hlen
      have hrest := ih (hlist ▸ h) (by omega)
      rw [after_concat, ← hlist] at hrest
      rw [if_neg hz, h.getSize_at, h.u16_next, after_concat, hrest]
      constructor
      · rintro (rfl | ⟨hx, hle, hcut⟩)
        · exact ⟨placed_after, le_rfl, hself⟩
        · refine ⟨hx, by omega, ?_⟩
          rintro ⟨hu, hstate, hlow, hupper⟩
          have hend := h.low_end hu placed_after hlow
          dsimp only at hend
          have hat : after A + b.extent = umb_start_seg := by
            by_contra hne
            exact hcut ⟨hu, hstate, by omega, hupper⟩
          refine hz ?_
          rw [h.types placed_after, endType]
          exact if_pos (.inr ⟨hu, hstate, hat⟩)
      · rintro ⟨hx, hle, hcut⟩
        rcases hplaced hx hle with rfl | hbehind
        · exact .inl rfl
        · refine .inr ⟨hx, hbehind, ?_⟩
          rintro ⟨hu, hstate, hlow, hupper⟩
          exact hcut ⟨hu, hstate, by omega, hupper⟩

theorem Inv.mem_walk_upper (h : s.Inv r F) (hu : r.umb = true) {x : ℕ × Mcb} :
    x ∈ walk s.mem maxRounds s.umb_start ↔ x ∈ upperBlocks F := by
  obtain ⟨A, d, L, rfl, hA, hlen⟩ := exists_start h (.inr ⟨h.umb_start_iff.2 hu, rfl⟩)
  have hat : after A = umb_start_seg := hA.symm.trans (h.umb_start_iff.2 hu)
  rw [hA, h.mem_walk hlen, mem_upperBlocks, hat]
  exact ⟨fun hx => ⟨hx.1, hx.2.1⟩, fun hx => ⟨hx.1, hx.2, fun hcut => lt_irrefl _ hcut.2.2.1⟩⟩

theorem Inv.mem_walk_low (h : s.Inv r F) (hu : r.umb = true) {x : ℕ × Mcb} :
    x ∈ walk s.mem maxRounds s.firstMCB ↔
      x ∈ placed Mcb.extent DOS_MEM_START F ∧ (s.umb_state = 1 ∨ x.1 < umb_start_seg) := by
  obtain ⟨d, L, rfl⟩ := h.exists_first
  have hlen := h.length_lt
  rw [List.length_cons] at hlen
  have hshort : L.length < maxRounds := by omega
  rw [h.first, show DOS_MEM_START = after [] from rfl, Inv.mem_walk (A := []) h hshort]
  constructor
  · rintro ⟨hx, -, hcut⟩
    refine ⟨hx, ?_⟩
    by_contra hnot
    obtain ⟨hstate, hupper⟩ := not_or.1 hnot
    exact hcut ⟨hu, hstate, by decide, Nat.not_lt.1 hupper⟩
  · rintro ⟨hx, hstate⟩
    refine ⟨hx, (h.tiles.placed_bounds hx).1, fun ⟨_, hne, _, hupper⟩ => ?_⟩
    rcases hstate with heq | hlow
    · exact hne heq
    · omega

/-! ## The block that is taken -/

section Split

variable {α : Type*} {U W B C : List α} {x y : α}

/-- What stands before an element that is not in the first part. -/
theorem mem_before (h : U ++ W = B ++ x :: C) (hx : x ∉ U) (hy : y ∈ U) : y ∈ B := by
  rcases List.append_eq_append_iff.1 h with ⟨K, rfl, -⟩ | ⟨K, rfl, hK⟩
  · exact List.mem_append_left _ hy
  · cases K with
    | nil => simpa using hy
    | cons k K =>
      obtain ⟨rfl, -⟩ := List.cons.inj hK
      exact absurd (by simp) hx

/-- An element that is not in the first part splits the second one. -/
theorem split_second (h : U ++ W = B ++ x :: C) (hx : x ∉ U) : ∃ K, W = K ++ x :: C := by
  rcases List.append_eq_append_iff.1 h with ⟨K, rfl, hK⟩ | ⟨K, rfl, hK⟩
  · exact ⟨K, hK⟩
  · cases K with
    | nil => exact ⟨[], hK.symm⟩
    | cons k K =>
      obtain ⟨rfl, -⟩ := List.cons.inj hK
      exact absurd (by simp) hx

/-- What stands behind an element that is not in the second part. -/
theorem mem_behind (h : U ++ W = B ++ x :: C) (hx : x ∉ W) (hy : y ∈ W) : y ∈ C := by
  rcases List.append_eq_append_iff.1 h with ⟨K, rfl, hK⟩ | ⟨K, rfl, hK⟩
  · exact absurd (by rw [hK]; simp) hx
  · cases K with
    | nil =>
      rw [List.nil_append] at hK
      exact absurd (by rw [← hK]; simp) hx
    | cons k K =>
      obtain ⟨-, rfl⟩ := List.cons.inj hK
      exact List.mem_append_right _ hy

end Split

/-- The segment is one of the upper chain. -/
def InUpper (r : Region) (segment : ℕ) : Prop := umb_start_seg < segment ∧ segment ≤ r.stop

/-- The paragraphs that are taken lie in the chain of their block. -/
theorem Inv.inUpper_taken (h : s.Inv r F) (hu : r.umb = true) {mode : ℕ} {x : ℕ × Mcb}
    (hx : x ∈ placed Mcb.extent DOS_MEM_START F) :
    InUpper r (taken mode n x + 1) ↔ umb_start_seg ≤ x.1 := by
  have hstop := (h.tiles.placed_bounds hx).2
  have hlow := h.low_end hu hx
  simp only [Mcb.extent] at hstop hlow
  rw [InUpper, taken]
  split
  · omega
  · omega

/-- The strategies that try upper memory first, then low memory. -/
def UpperFirst (strat : ℕ) : Prop := strat = 0x80 ∨ strat = 0x81 ∨ strat = 0x82

/-- **The condition on the chains**: for best fit no low block that fits is smaller than all upper
ones; for last fit the chains are linked or no low block fits. -/
def UpperWins (s : DosMemory) (n : ℕ) (C : List Mcb) : Prop :=
  (s.allocation_strategy = 0x81 → ∀ x ∈ lowBlocks C, Fits n x →
    ∃ y ∈ upperBlocks C, Fits n y ∧ y.2.size ≤ x.2.size) ∧
  (s.allocation_strategy = 0x82 → s.umb_state = 1 ∨ ∀ x ∈ lowBlocks C, ¬ Fits n x)

theorem UpperFirst.searched_eq (h : s.Inv r F) (hu : r.umb = true)
    (hstrat : UpperFirst s.allocation_strategy) :
    searched s = walk s.mem maxRounds s.umb_start ++ walk s.mem maxRounds s.firstMCB := by
  have hbits : s.allocation_strategy &&& 0xc0 ≠ 0 ∧ s.allocation_strategy &&& 0x80 ≠ 0 := by
    rcases hstrat with h | h | h <;> rw [h] <;> decide
  rw [searched, if_pos ⟨h.umb_start_iff.2 hu, hbits.1⟩, if_pos hbits.2]

/-- **Which chain the block comes from**, once free blocks have been joined. -/
theorem Inv.upper_taken_iff (h : s.Inv r F) (hu : r.umb = true)
    (hstrat : UpperFirst s.allocation_strategy) (hupper : ∃ y ∈ upperBlocks F, Fits n y)
    {a : Allocation} {s' : DosMemory}
    (hends : Ends s (s.allocation_strategy &&& 0x3f) n (searched s) a s')
    (hfirst : TakesFirst (s.allocation_strategy &&& 0x3f) n (searched s) a) :
    a.ok = true ∧ InUpper r a.segment ↔ UpperWins s n F := by
  rw [hstrat.searched_eq h hu] at hends hfirst
  have hplaced : ∀ {z}, z ∈ walk s.mem maxRounds s.umb_start ++ walk s.mem maxRounds s.firstMCB →
      z ∈ placed Mcb.extent DOS_MEM_START F := by
    intro z hz
    rcases List.mem_append.1 hz with hz | hz
    · exact (mem_upperBlocks.1 ((h.mem_walk_upper hu).1 hz)).1
    · exact ((h.mem_walk_low hu).1 hz).1
  obtain ⟨y, hy, hfits⟩ := hupper
  have hyU := (h.mem_walk_upper hu).2 hy
  -- a block fits, so one is returned
  rcases hends with ⟨hok, B, x, C, hsplit, hchosen, hsegment, -⟩ | ⟨-, hnone, -⟩
  swap
  · exact absurd hfits (hnone y (List.mem_append_left _ hyU))
  have hx : x ∈ placed Mcb.extent DOS_MEM_START F := hplaced (by rw [hsplit]; simp)
  have hin : a.ok = true ∧ InUpper r a.segment ↔ umb_start_seg ≤ x.1 := by
    rw [hsegment, h.inUpper_taken hu hx]
    exact and_iff_right hok
  rw [hin]
  have hlowU : x.1 < umb_start_seg → x ∉ walk s.mem maxRounds s.umb_start :=
    fun hlow hxU => absurd (mem_upperBlocks.1 ((h.mem_walk_upper hu).1 hxU)).2 (by omega)
  rcases hstrat with hstrat | hstrat | hstrat
  · -- first fit does not pass an upper block that fits
    refine iff_of_true ?_ ⟨fun h1 => absurd (hstrat.symm.trans h1) (by decide),
      fun h2 => absurd (hstrat.symm.trans h2) (by decide)⟩
    by_contra hlow
    exact hchosen.2.1 (by rw [hstrat]; rfl) y
      (mem_before hsplit (hlowU (Nat.not_le.1 hlow)) hyU) hfits
  · -- best fit takes the first of the smallest blocks
    have hone : s.allocation_strategy &&& 0x3f = 1 := by rw [hstrat]; rfl
    obtain ⟨seg, size, hseg, B', x', C', hsplit', rfl, rfl, hlarger⟩ := hfirst hone hok
    have hsame : x' = x := by
      have htaken : taken (s.allocation_strategy &&& 0x3f) n x = x.1 := if_pos (by omega)
      have hx' := hplaced (z := x') (by rw [hsplit']; simp)
      rw [hsegment, htaken] at hseg
      rcases placed_disjoint hx' hx with ⟨hp, hb⟩ | hle | hle
      · exact Prod.ext hp hb
      · have hpos := x'.2.extent_pos
        omega
      · have hpos := x.2.extent_pos
        omega
    rw [hsame] at hsplit' hlarger
    constructor
    · intro hupper
      refine ⟨fun _ z hz hzfits => ⟨x, mem_upperBlocks.2 ⟨hx, hupper⟩, hchosen.1, ?_⟩,
        fun h2 => absurd (hstrat.symm.trans h2) (by decide)⟩
      obtain ⟨hz, hlow⟩ := mem_lowBlocks.1 hz
      refine hchosen.2.2.1 hone z ?_ hzfits
      rw [← hsplit]
      exact List.mem_append_right _ ((h.mem_walk_low hu).2 ⟨hz, .inr hlow⟩)
    · intro hwins
      by_contra hlow
      have hlow := Nat.not_le.1 hlow
      obtain ⟨z, hz, hzfits, hle⟩ := hwins.1 hstrat x (mem_lowBlocks.2 ⟨hx, hlow⟩) hchosen.1
      have hlt := hlarger z (mem_before hsplit' (hlowU hlow) ((h.mem_walk_upper hu).2 hz)) hzfits
      omega
  · -- last fit takes the last block
    have htwo : 2 ≤ s.allocation_strategy &&& 0x3f := by rw [hstrat]; decide
    constructor
    · intro hupper
      refine ⟨fun h1 => absurd (hstrat.symm.trans h1) (by decide), fun _ => ?_⟩
      by_contra hnot
      obtain ⟨hstate, hsome⟩ := not_or.1 hnot
      refine hsome fun z hz hzfits => hchosen.2.2.2 htwo z (mem_behind hsplit ?_ ?_) hzfits
      · intro hxW
        rcases ((h.mem_walk_low hu).1 hxW).2 with heq | hlow
        · exact hstate heq
        · omega
      · obtain ⟨hz, hlow⟩ := mem_lowBlocks.1 hz
        exact (h.mem_walk_low hu).2 ⟨hz, .inr hlow⟩
    · intro hwins
      by_contra hlow
      have hlow := Nat.not_le.1 hlow
      rcases hwins.2 hstrat with hlinked | hnone
      · -- the walk of the low chain goes on with the upper one, behind the block
        obtain ⟨K, hK⟩ := split_second hsplit (hlowU hlow)
        have hyW := (h.mem_walk_low hu).2 ⟨(mem_upperBlocks.1 hy).1, .inl hlinked⟩
        have hsorted := (walk_start h (.inl rfl)).2
        have hyupper := (mem_upperBlocks.1 hy).2
        rw [hK] at hyW hsorted
        rcases List.mem_append.1 hyW with hyK | hyC
        · have hlt := (List.pairwise_append.1 hsorted).2.2 y hyK x List.mem_cons_self
          omega
        · rcases List.mem_cons.1 hyC with rfl | hyC
          · omega
          · exact hchosen.2.2.2 htwo y hyC hfits
      · exact hnone x (mem_lowBlocks.2 ⟨hx, hlow⟩) hchosen.1

/-- **Upper memory comes first** exactly when best fit finds no smaller low block, and last fit
finds no low block or goes on from it into the upper chain. -/
theorem upper_first_iff (h : s.Inv r F) (hu : r.umb = true)
    (hstrat : UpperFirst s.allocation_strategy) (hupper : ∃ x ∈ upperBlocks F, Fits n x) :
    (∃ a s', s.DOS_AllocateMemory n = .ok (a, s') ∧ a.ok = true ∧ InUpper r a.segment) ↔
      UpperWins s n (compressed F) := by
  obtain ⟨mem₁, a, s', hcall, hinv, hallocate, -, hends, hfirst⟩ :=
    DOS_AllocateMemory_ends h n
  have hiff := hinv.upper_taken_iff hu hstrat (hinv.upper_fits hu hupper) hends hfirst
  constructor
  · rintro ⟨a', s'', hallocate', hright⟩
    rw [hallocate] at hallocate'
    obtain ⟨rfl, rfl⟩ := Prod.mk.inj (Except.ok.inj hallocate')
    exact hiff.1 hright
  · exact fun hwins => ⟨a, s', hallocate, hiff.2 hwins⟩

/-- The chains at boot. -/
def booted : DosMemory := (DOS_BuildUMBChain .Other setup true false).toOption.getD setup

/-- Their blocks. -/
def bootedBlocks : List Mcb :=
  setupBlocks .Other ++ [⟨middle_mcb_type, MCB_DOS, 0xd000 - umb_start_seg - 1⟩,
    ⟨ending_mcb_type, MCB_FREE, 0x1fff⟩]

theorem booted_inv : booted.Inv (upperRegion false) bootedBlocks := by
  have hchecked : Checked (upperRegion false) booted bootedBlocks := by decide
  exact hchecked.inv

/-- The manager with another strategy. -/
def withStrategy (s : DosMemory) (strat : ℕ) : DosMemory := { s with allocation_strategy := strat }

theorem Inv.withStrategy (h : s.Inv r F) (strat : ℕ) : (s.withStrategy strat).Inv r F :=
  ⟨h.first, h.tiles, h.types, h.cover, h.umb_start, h.umb_state, h.psp⟩

theorem booted_fits : ∃ x ∈ upperBlocks bootedBlocks, Fits 3 x := by decide

/-- First fit gives 3 paragraphs from the upper chain. -/
theorem upper_first_iff_setup :
    ∃ a s', (withStrategy booted 0x80).DOS_AllocateMemory 3 = .ok (a, s') ∧ a.ok = true ∧
      InUpper (upperRegion false) a.segment :=
  (upper_first_iff (booted_inv.withStrategy 0x80) rfl (.inl rfl) booted_fits).2
    ⟨fun h => absurd h (by decide), fun h => absurd h (by decide)⟩

/-- Best fit takes the four free paragraphs at the start of the low chain, and last fit takes the
end of the last low block, although 8191 upper ones are free. -/
theorem low_block_taken :
    (∃ x ∈ upperBlocks bootedBlocks, Fits 3 x) ∧
    ∀ strat ∈ [0x81, 0x82], (withStrategy booted strat).Inv (upperRegion false) bootedBlocks ∧
      ¬ ∃ a s', (withStrategy booted strat).DOS_AllocateMemory 3 = .ok (a, s') ∧ a.ok = true ∧
        InUpper (upperRegion false) a.segment := by
  refine ⟨booted_fits, fun strat hstrat => ⟨booted_inv.withStrategy strat, ?_⟩⟩
  rintro ⟨a, s', hcall, -, hin⟩
  have hsegment : ∀ strat ∈ [0x81, 0x82],
      ((withStrategy booted strat).DOS_AllocateMemory 3).toOption.elim 0 (fun x => x.1.segment) ≤
        umb_start_seg := by decide
  have hlow := hsegment strat hstrat
  rw [hcall] at hlow
  exact absurd hin.1 (Nat.not_lt.2 hlow)

end DosMemory

end AugraDosbox
