import AugraDosbox.Dos.McbChain

/-!
# Joining the free blocks

What `DOS_CompressMemory` of `src/dos/dos_memory.cpp` makes of a chain.

* `compressed` — runs of free blocks become one, up to the first block of the ending type;
* `Tiled.editRun` — a block and the free ones behind it are replaced;
* **`DOS_CompressMemory_exact`** — the chain that is left is `compressed`.
-/

namespace AugraDosbox

open Tiling DOS_MCB

/-! ## Joining the free blocks of a list -/

/-- The runs of free blocks become one, up to the first block of the ending type. -/
def compressed : List Mcb → List Mcb
  | [] => []
  | [b] => [b]
  | b :: c :: L =>
      if b.type = ending_mcb_type then b :: c :: L
      else if b.psp = MCB_FREE ∧ c.psp = MCB_FREE then
        compressed (⟨c.type, b.psp, b.size + c.size + 1⟩ :: L)
      else b :: compressed (c :: L)
termination_by L => L.length

section Lists

variable {A B G L R : List Mcb} {b c : Mcb}

theorem compressed_ending (hb : b.type = ending_mcb_type) : compressed (b :: L) = b :: L := by
  cases L with
  | nil => rw [compressed]
  | cons c L => rw [compressed, if_pos hb]

theorem compressed_join (ht : b.type ≠ ending_mcb_type) (hb : b.psp = MCB_FREE)
    (hc : c.psp = MCB_FREE) :
    compressed (b :: c :: L) = compressed (⟨c.type, b.psp, b.size + c.size + 1⟩ :: L) := by
  rw [compressed, if_neg ht, if_pos ⟨hb, hc⟩]

theorem compressed_pass (ht : b.type ≠ ending_mcb_type)
    (hfree : ¬ (b.psp = MCB_FREE ∧ c.psp = MCB_FREE)) :
    compressed (b :: c :: L) = b :: compressed (c :: L) := by
  rw [compressed, if_neg ht, if_neg hfree]

/-- Behind an allocated block the joining starts afresh. -/
theorem compressed_allocated (ht : b.type ≠ ending_mcb_type) (hb : b.psp ≠ MCB_FREE) :
    compressed (b :: L) = b :: compressed L := by
  cases L with
  | nil => rw [compressed, compressed]
  | cons c L => exact compressed_pass ht fun h => hb h.1

theorem extent_join : Mcb.extent ⟨c.type, b.psp, b.size + c.size + 1⟩ = b.extent + c.extent := by
  simp only [Mcb.extent]
  omega

theorem total_join : total Mcb.extent (⟨c.type, b.psp, b.size + c.size + 1⟩ :: L) =
    total Mcb.extent (b :: c :: L) := by
  rw [total_cons, total_cons, total_cons, extent_join, Nat.add_assoc]

theorem total_compressed (L : List Mcb) : total Mcb.extent (compressed L) = total Mcb.extent L := by
  induction L using compressed.induct with
  | case1 => rw [compressed]
  | case2 b => rw [compressed]
  | case3 b c L ht => rw [compressed_ending ht]
  | case4 b c L ht hfree ih =>
    rw [compressed_join ht hfree.1 hfree.2, ih, total_join]
  | case5 b c L ht hfree ih =>
    rw [compressed_pass ht hfree, total_cons, ih]
    exact total_cons.symm

/-- Blocks behind a block of the ending type are not reached. -/
theorem compressed_append_ending : (∃ e ∈ A, e.type = ending_mcb_type) →
    compressed (A ++ R) = compressed A ++ R := by
  induction A using compressed.induct with
  | case1 => simp
  | case2 b =>
    intro h
    have ht : b.type = ending_mcb_type := by simpa using h
    rw [compressed_ending ht, List.singleton_append, compressed_ending ht]
  | case3 b c L ht =>
    intro _
    rw [compressed_ending ht, List.cons_append, compressed_ending ht]
  | case4 b c L ht hfree ih =>
    intro h
    rw [compressed_join ht hfree.1 hfree.2, List.cons_append, List.cons_append,
      compressed_join ht hfree.1 hfree.2]
    refine ih ?_
    obtain ⟨e, he, htype⟩ := h
    rcases List.mem_cons.mp he with rfl | he
    · exact absurd htype ht
    rcases List.mem_cons.mp he with rfl | he
    · exact ⟨_, List.mem_cons_self, htype⟩
    · exact ⟨e, List.mem_cons_of_mem _ he, htype⟩
  | case5 b c L ht hfree ih =>
    intro h
    rw [compressed_pass ht hfree, List.cons_append, List.cons_append, compressed_pass ht hfree]
    refine congrArg (b :: ·) (ih ?_)
    obtain ⟨e, he, htype⟩ := h
    rcases List.mem_cons.mp he with rfl | he
    · exact absurd htype ht
    · exact ⟨e, he, htype⟩

/-- No block before an allocated one is joined with one behind it. -/
theorem compressed_append (hb : b.psp ≠ MCB_FREE) : (∀ e ∈ A, e.type ≠ ending_mcb_type) →
    compressed (A ++ b :: R) = compressed A ++ compressed (b :: R) := by
  induction A using compressed.induct with
  | case1 =>
    intro _
    rw [compressed]
    rfl
  | case2 a =>
    intro h
    rw [compressed, List.singleton_append, compressed_pass (h a (by simp)) fun hf => hb hf.2]
    rfl
  | case3 a c L ht => exact fun h => absurd ht (h a (by simp))
  | case4 a c L ht hfree ih =>
    intro h
    rw [compressed_join ht hfree.1 hfree.2, List.cons_append, List.cons_append,
      compressed_join ht hfree.1 hfree.2]
    refine ih fun e he => ?_
    rcases List.mem_cons.mp he with rfl | he
    · exact h c (by simp)
    · exact h e (by simp [he])
  | case5 a c L ht hfree ih =>
    intro h
    rw [compressed_pass ht hfree, List.cons_append, List.cons_append, compressed_pass ht hfree]
    exact congrArg (a :: ·) (ih fun e he => h e (List.mem_cons_of_mem _ he))

/-- The list does not start with a free block. -/
def Stopped (L : List Mcb) : Prop := ∀ c, L.head? = some c → c.psp ≠ MCB_FREE

/-- A list that starts with an allocated block still does. -/
theorem Stopped.compressed (h : Stopped L) : Stopped (compressed L) := by
  cases L with
  | nil =>
    rw [AugraDosbox.compressed]
    exact h
  | cons c L =>
    have hc : c.psp ≠ MCB_FREE := h c rfl
    by_cases ht : c.type = ending_mcb_type
    · rw [compressed_ending ht]
      exact h
    · rw [compressed_allocated ht hc]
      exact h

/-- **A run of free blocks** in front of an allocated one becomes one block. -/
theorem compressed_run : ∀ {G : List Mcb} {c : Mcb}, c.psp = MCB_FREE →
    (∀ d ∈ G, d.psp = MCB_FREE) → (∀ X d e Y, c :: G = X ++ d :: e :: Y →
      d.type ≠ ending_mcb_type) → Stopped L →
    ∃ t L', compressed (c :: G ++ L) =
      ⟨t, MCB_FREE, total Mcb.extent (c :: G) - 1⟩ :: L' ∧ Stopped L' := by
  intro G
  induction G with
  | nil =>
    intro c hc _ _ hL
    have hsize : total Mcb.extent [c] - 1 = c.size := by simp [Mcb.extent]
    have hself : (⟨c.type, MCB_FREE, c.size⟩ : Mcb) = c := by rw [← hc]
    rw [hsize, List.singleton_append]
    by_cases ht : c.type = ending_mcb_type
    · exact ⟨c.type, L, by rw [compressed_ending ht, hself], hL⟩
    · cases L with
      | nil => exact ⟨c.type, [], by rw [compressed, hself], hL⟩
      | cons l L =>
        refine ⟨c.type, compressed (l :: L), ?_, hL.compressed⟩
        rw [compressed_pass ht fun h => hL l rfl h.2, hself]
  | cons d G ih =>
    intro c hc hG ht hL
    have hd := hG d List.mem_cons_self
    have hmiddle : c.type ≠ ending_mcb_type := ht [] c d G rfl
    have hjoined : ∀ X e f Y,
        (⟨d.type, c.psp, c.size + d.size + 1⟩ : Mcb) :: G = X ++ e :: f :: Y →
        e.type ≠ ending_mcb_type := by
      intro X e f Y hsplit
      cases X with
      | nil =>
        obtain ⟨rfl, hG'⟩ := List.cons.inj hsplit
        exact ht [c] d f Y (by rw [hG']; rfl)
      | cons x X =>
        obtain ⟨-, hG'⟩ := List.cons.inj hsplit
        exact ht (c :: d :: X) e f Y (by rw [hG']; rfl)
    obtain ⟨t, L', hrun, hL'⟩ :=
      ih (c := ⟨d.type, c.psp, c.size + d.size + 1⟩) hc
        (fun e he => hG e (List.mem_cons_of_mem _ he)) hjoined hL
    rw [total_join] at hrun
    refine ⟨t, L', ?_, hL'⟩
    rw [List.cons_append, List.cons_append, compressed_join hmiddle hc hd]
    exact hrun

end Lists

namespace DosMemory

variable {r : Region} {s : DosMemory} {A B F G L X Y : List Mcb} {b c x y : Mcb} {mem mem' : Memory}
  {but : ℕ → Mcb → Prop}

/-! ## Edits at a block and the free ones behind it -/

/-- The types before the end of a run of free blocks behind a block. -/
theorem Tiled.endType_inside (h : s.Tiled r (A ++ x :: X ++ B)) (hX : ∀ b ∈ X, b.psp = MCB_FREE)
    {e : ℕ} (h1 : after A < e) (h2 : e < after A + total Mcb.extent (x :: X)) :
    endType r s.umb_state e = middle_mcb_type := by
  refine if_neg ?_
  rintro (rfl | ⟨hu, -, rfl⟩)
  · have hstop := h.stop_eq
    rw [after, total_append, total_append] at hstop
    simp only [after] at h2
    omega
  · obtain ⟨b, hb, hpsp⟩ := h.cover hu
    rcases mem_placed_run.1 hb with hA | hrun | hB
    · have hbounds := ((tiles_append.1 (tiles_append.1 h.tiles).1).1).placed_bounds hA
      have hpos := b.extent_pos
      simp only [after] at h1
      omega
    · rw [placed, List.mem_cons] at hrun
      rcases hrun with hfirst | hrest
      · have hat : umb_start_seg = after A := (Prod.mk.inj hfirst).1
        omega
      · obtain ⟨C, D, rfl, -⟩ := mem_placed.1 hrest
        exact hpsp (hX b (by simp))
    · obtain ⟨C, D, -, hp⟩ := mem_placed.1 hB
      omega

/-- **A block and the free ones behind it** are replaced. -/
theorem Tiled.editRun (h : s.Tiled r (A ++ x :: X ++ B)) (hX : ∀ b ∈ X, b.psp = MCB_FREE)
    (hmem : SameOutside (after A) (after A + total Mcb.extent (x :: X)) s.mem mem')
    (hY : Tiles Mcb.extent (header mem') (after A) (y :: Y)
      (after A + total Mcb.extent (x :: X)))
    (htypes : ∀ {p b}, (p, b) ∈ placed Mcb.extent (after A) (y :: Y) →
      b.type = endType r s.umb_state (p + b.extent))
    (howner : x.psp ≠ MCB_FREE →
      (r.umb = true → after A = umb_start_seg → y.psp ≠ MCB_FREE) ∧ but (after A) x) :
    Tiled r { s with mem := mem' } (A ++ y :: Y ++ B) ∧
      Keeps but s.mem mem' (A ++ x :: X ++ B) (A ++ y :: Y ++ B) := by
  have hlen : total Mcb.extent (y :: Y) = total Mcb.extent (x :: X) := by
    have hstop := hY.stop_eq
    omega
  have hrun : ∀ {p b}, (p, b) ∈ placed Mcb.extent (after A) (x :: X) → b.psp ≠ MCB_FREE →
      p = after A ∧ b = x := by
    intro p b hp hb
    rw [placed, List.mem_cons] at hp
    rcases hp with hfirst | hrest
    · exact Prod.mk.inj hfirst
    · obtain ⟨C, D, rfl, -⟩ := mem_placed.1 hrest
      exact absurd (hX b (by simp)) hb
  refine ⟨h.edit hmem hY htypes fun hu => ?_, Keeps.edit h hmem hlen fun {p b} hp hb => ?_⟩
  · refine exists_placed_edit (P := (· ≠ MCB_FREE)) hlen (h.cover hu) fun {b} hp hb => ?_
    obtain ⟨hat, rfl⟩ := hrun hp hb
    exact ⟨y, by rw [hat]; exact List.mem_cons_self, (howner hb).1 hu hat.symm⟩
  · obtain ⟨rfl, rfl⟩ := hrun hp hb
    exact (howner hb).2

theorem Tiled.toOne (h : s.Tiled r (A ++ x :: X ++ B)) (hX : ∀ b ∈ X, b.psp = MCB_FREE)
    (hmem : SameOutside (after A) (after A + y.extent) s.mem mem')
    (hlen : total Mcb.extent (x :: X) = y.extent) (hy : header mem' (after A) = y)
    (htype : y.type = endType r s.umb_state (after A + y.extent))
    (howner : x.psp ≠ MCB_FREE →
      (r.umb = true → after A = umb_start_seg → y.psp ≠ MCB_FREE) ∧ but (after A) x) :
    Tiled r { s with mem := mem' } (A ++ y :: B) ∧
      Keeps but s.mem mem' (A ++ x :: X ++ B) (A ++ y :: B) := by
  rw [← hlen] at hmem
  have hedit := h.editRun (Y := []) hX hmem (by rw [hlen]; exact ⟨hy, rfl⟩)
    (fun {p b} hp => ?_) howner
  · simpa using hedit
  · obtain ⟨rfl, rfl⟩ : p = after A ∧ b = y := by simpa [placed] using hp
    exact htype

theorem Tiled.toTwo {z : Mcb} (h : s.Tiled r (A ++ x :: X ++ B)) (hX : ∀ b ∈ X, b.psp = MCB_FREE)
    (hmem : SameOutside (after A) (after A + (y.extent + z.extent)) s.mem mem')
    (hlen : total Mcb.extent (x :: X) = y.extent + z.extent)
    (hy : header mem' (after A) = y) (hz : header mem' (after A + y.extent) = z)
    (hmiddle : y.type = middle_mcb_type)
    (htype : z.type = endType r s.umb_state (after A + (y.extent + z.extent)))
    (howner : x.psp ≠ MCB_FREE →
      (r.umb = true → after A = umb_start_seg → y.psp ≠ MCB_FREE) ∧ but (after A) x) :
    Tiled r { s with mem := mem' } (A ++ y :: z :: B) ∧
      Keeps but s.mem mem' (A ++ x :: X ++ B) (A ++ y :: z :: B) := by
  rw [← hlen] at hmem
  have hedit := h.editRun (Y := [z]) hX hmem
    (by rw [hlen]; exact ⟨hy, hz, Nat.add_assoc _ _ _⟩) (fun {p b} hp => ?_) howner
  · simpa using hedit
  · simp only [placed, List.mem_cons, Prod.mk.injEq, List.not_mem_nil, or_false] at hp
    rcases hp with ⟨rfl, rfl⟩ | ⟨rfl, rfl⟩
    · have hy := b.extent_pos
      have hz := z.extent_pos
      rw [hmiddle, h.endType_inside hX (by omega) (by omega)]
    · exact htype.trans (congrArg _ (Nat.add_assoc _ _ _).symm)

/-! ## `DOS_CompressMemory` -/

theorem triage_block_ok {strategy : McbFaultStrategy} {mcb repair_type : ℕ}
    (h : GetType mem mcb = middle_mcb_type ∨ GetType mem mcb = ending_mcb_type) :
    triage_block strategy mem mcb repair_type = .ok (false, mem) := if_pos h

/-- No block is given up. -/
abbrev NoBlock : ℕ → Mcb → Prop := fun _ _ => False

theorem Tiled.type_second (h : s.Tiled r (A ++ b :: c :: L)) :
    c.type = endType r s.umb_state (after A + (b.extent + c.extent)) := by
  have h' : s.Tiled r ((A ++ [b]) ++ c :: L) := by simpa using h
  rw [h'.types placed_after, after_concat, Nat.add_assoc]

/-- A block and the next one do not wrap around. -/
theorem Tiled.pair_lt (h : s.Tiled r (A ++ b :: c :: L)) :
    after A + b.extent + c.extent < 2 ^ 16 := by
  have hrun := Tiled.run_lt (L := [b] ++ [c]) (B := L) (by simpa using h)
  simp only [total_append, total_cons, total_nil] at hrun
  omega

theorem Tiled.header_next (h : s.Tiled r (A ++ b :: c :: L)) :
    header s.mem (after A + b.extent) = c := by
  have h' : s.Tiled r ((A ++ [b]) ++ c :: L) := by simpa using h
  rw [← after_concat]
  exact h'.header_at

theorem Tiled.join (h : s.Tiled r (A ++ b :: c :: L)) (hb : b.psp = MCB_FREE)
    (hc : c.psp = MCB_FREE) :
    let y : Mcb := ⟨c.type, b.psp, b.size + c.size + 1⟩
    let mem' := SetType (SetSize s.mem (after A) (b.size + c.size + 1)) (after A) c.type
    Tiled r { s with mem := mem' } (A ++ y :: L) ∧
      Keeps NoBlock s.mem mem' (A ++ b :: c :: L) (A ++ y :: L) := by
  intro y mem'
  have h' : s.Tiled r ((A ++ [b]) ++ c :: L) := by simpa using h
  have hX : s.Tiled r (A ++ b :: [c] ++ L) := by simpa using h
  have hextent : y.extent = b.extent + c.extent := extent_join
  have hsize : b.size + c.size + 1 < 2 ^ 16 := by
    have hlt := h.pair_lt
    simp only [Mcb.extent] at hlt
    omega
  have hpos := y.extent_pos
  have hy : header mem' (after A) = y := by
    simp only [mem', header_SetType h'.type_lt, header_SetSize hsize, if_true, h.header_at, y]
  have hres : _ ∧ Keeps NoBlock _ _ _ _ := hX.toOne (by simpa using hc)
    ((SameOutside.refl.SetSize le_rfl (by omega)).SetType le_rfl (by omega))
    (by rw [hextent]; simp) hy (by rw [hextent]; exact h.type_second) fun hne => absurd hb hne
  simpa using hres

/-- **The loop of `DOS_CompressMemory`** joins the free blocks from a block on. -/
theorem compressLoop_exact (strategy : McbFaultStrategy) (rounds : ℕ) :
    ∀ {A : List Mcb} {b : Mcb} {L : List Mcb} {s : DosMemory}, s.Tiled r (A ++ b :: L) →
      L.length < rounds →
      ∃ mem', compressLoop strategy rounds 0 (after A) s.mem = .ok mem' ∧
        Tiled r { s with mem := mem' } (A ++ compressed (b :: L)) ∧
        Keeps NoBlock s.mem mem' (A ++ b :: L) (A ++ compressed (b :: L)) := by
  induction rounds with
  | zero => intro A b L s _ hlen; omega
  | succ rounds ih =>
    intro A b L s h hlen
    by_cases hz : b.type = ending_mcb_type
    · rw [compressed_ending hz]
      refine ⟨s.mem, ?_, h, Keeps.refl⟩
      rw [compressLoop, if_pos (Or.inl (by rw [h.getType_at, hz]))]
    · obtain ⟨c, L, rfl⟩ := h.exists_next hz
      have h' : s.Tiled r ((A ++ [b]) ++ c :: L) := by simpa using h
      have hgo : ¬ (GetType s.mem (after A) = ending_mcb_type ∨ max_allowed_faults ≤ 0) := by
        rw [h.getType_at]
        simp [hz, max_allowed_faults]
      simp only [compressLoop, if_neg hgo, h.getSize_at, h.u16_next, h.getPSPSeg_at,
        h'.getPSPSeg_at]
      simp only [List.length_cons] at hlen
      by_cases hfree : b.psp = MCB_FREE ∧ c.psp = MCB_FREE
      · obtain ⟨hinv, hkeep⟩ := h.join hfree.1 hfree.2
        obtain ⟨mem', hloop, hinv', hkeep'⟩ := ih hinv (by omega)
        rw [compressed_join hz hfree.1 hfree.2]
        refine ⟨mem', ?_, hinv', hkeep.trans hkeep' fun _ _ _ h _ _ => h⟩
        have hsize : b.size + c.size + 1 < 2 ^ 16 := by
          have hlt := h.pair_lt
          simp only [Mcb.extent] at hlt
          omega
        have hne : after (A ++ [b]) ≠ after A := by
          rw [after_concat]
          exact (Nat.lt_add_of_pos_right b.extent_pos).ne'
        have htype : GetType (SetSize s.mem (after A) (b.size + c.size + 1)) (after (A ++ [b])) =
            c.type := by
          rw [getType_eq, header_SetSize hsize, if_neg hne, h'.header_at]
        rw [if_pos hfree, triage_block_ok (by rw [h'.getType_at]; exact h'.type_eq)]
        simp only [bind, Except.bind, Bool.toNat_false, h.getSize_at, h'.getSize_at, u16,
          Nat.mod_eq_of_lt hsize, htype]
        exact hloop
      · obtain ⟨mem', hloop, hinv', hkeep'⟩ := ih h' (by omega)
        rw [compressed_pass hz hfree]
        refine ⟨mem', by rw [if_neg hfree]; exact hloop, ?_, ?_⟩
        · simpa using hinv'
        · simpa using hkeep'

/-- **`DOS_CompressMemory`** joins the free blocks of the chain that it walks. -/
theorem DOS_CompressMemory_exact (h : s.Tiled r F) :
    ∃ mem', s.DOS_CompressMemory = .ok { s with mem := mem' } ∧
      Tiled r { s with mem := mem' } (compressed F) ∧ Keeps NoBlock s.mem mem' F (compressed F) := by
  obtain ⟨b, L, rfl⟩ := h.exists_first
  have hlen := h.length_lt
  rw [List.length_cons] at hlen
  obtain ⟨mem', hloop, hinv, hkeep⟩ :=
    compressLoop_exact s.mcb_fault_strategy maxRounds (A := []) h (by omega)
  refine ⟨mem', ?_, hinv, hkeep⟩
  rw [DOS_CompressMemory, h.first]
  simp only [after, total_nil, Nat.add_zero] at hloop
  rw [hloop]
  rfl

end DosMemory

end AugraDosbox
