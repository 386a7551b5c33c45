import Mathlib.Data.List.TakeWhile
import AugraDosbox.Dos.McbAllocate

/-!
# Resizing a block

What `DOS_ResizeMemory` of `src/dos/dos_memory.cpp` leaves of a block and of the free blocks
behind it.

* `Followed` — a block, and exactly the free blocks behind it;
* `Cut` — what a call leaves of a block and of the gap behind it;
* `Resized` — the block has the size that was asked for, or the most there is, and the rest of the
  block and of the gap behind it is one free block;
* **`resize_right_iff`** — that is so exactly when a program runs, and the block is in the chain
  that `DOS_CompressMemory` walks, or what is behind it needs no joining;
* `unlinked_gap_refused` — two free upper blocks that are not joined.
-/

namespace AugraDosbox

open Tiling DOS_MCB

namespace DosMemory

variable {r : Region} {s : DosMemory} {A B F G L : List Mcb} {b c : Mcb} {mem' : Memory} {n : ℕ}

/-! ## What the joining reaches -/

/-- The block at a segment is in the chain that `DOS_CompressMemory` walks. -/
def Walked (r : Region) (s : DosMemory) (p : ℕ) : Prop :=
  ¬ (r.umb = true ∧ s.umb_state ≠ 1 ∧ umb_start_seg ≤ p)

instance (r : Region) (s : DosMemory) (p : ℕ) : Decidable (Walked r s p) :=
  inferInstanceAs (Decidable (¬ _))

/-- Behind a block of the ending type there is no free one. -/
theorem Tiled.ending_next (h : s.Tiled r (A ++ b :: c :: L)) (ht : b.type = ending_mcb_type) :
    c.psp ≠ MCB_FREE := by
  have h' : s.Tiled r ((A ++ [b]) ++ c :: L) := by simpa using h
  have hend := h.types placed_after
  rw [ht, ← after_concat, endType] at hend
  split at hend
  · next hstop =>
    rcases hstop with hstop | ⟨hu, -, hcover⟩
    · have hF := h'.stop_eq
      have hpos := c.extent_pos
      simp only [after, total_append, total_cons, total_nil] at hF hstop
      omega
    · obtain ⟨d, hd, hpsp⟩ := h.cover hu
      have hc : header s.mem (after (A ++ [b])) = c := h'.header_at
      rw [hcover, h.tiles.read_placed hd] at hc
      exact hc ▸ hpsp
  · exact absurd hend (by decide)

/-- A block is walked unless there is one of the ending type before it. -/
theorem Tiled.walked_iff (h : s.Tiled r (A ++ b :: L)) :
    Walked r s (after A) ↔ ∀ e ∈ A, e.type ≠ ending_mcb_type := by
  constructor
  · rintro hwalked e he ht
    obtain ⟨C, D, rfl⟩ := List.append_of_mem he
    have h' : s.Tiled r (C ++ e :: (D ++ b :: L)) := by simpa using h
    have hend := h'.types placed_after
    rw [ht, endType] at hend
    split at hend
    · next hstop =>
      have hF := h.stop_eq
      have hpos := b.extent_pos
      simp only [after, total_append, total_cons] at hF hstop
      rcases hstop with hstop | ⟨hu, hstate, hcover⟩
      · omega
      · refine hwalked ⟨hu, hstate, ?_⟩
        simp only [after, total_append, total_cons]
        omega
    · exact absurd hend (by decide)
  · rintro hmiddle ⟨hu, hstate, hle⟩
    obtain ⟨d, hd, -⟩ := h.cover hu
    obtain ⟨C, D, hF, hC⟩ := mem_placed.1 hd
    obtain ⟨C, e, rfl⟩ := (List.eq_nil_or_concat' C).resolve_left
      (by rintro rfl; exact absurd hC (by decide))
    have h' : s.Tiled r (C ++ e :: d :: D) := by rw [hF] at h; simpa using h
    refine hmiddle e ?_ ?_
    · rcases List.append_eq_append_iff.1 hF with ⟨K, hK, -⟩ | ⟨K, hK, -⟩
      · cases K with
        | nil => rw [← (List.append_nil A), ← hK]; simp
        | cons k K =>
          have hpos := k.extent_pos
          rw [hK] at hC
          simp only [after, total_append, total_cons] at hC hle
          omega
      · rw [hK]
        simp
    · rw [h'.types placed_after, endType, ← after_concat]
      exact if_pos (Or.inr ⟨hu, hstate, hC.symm⟩)

/-- A block at a segment, and exactly the free blocks behind it. -/
structure Followed (p owner size : ℕ) (G F : List Mcb) : Prop where
  free : ∀ c ∈ G, c.psp = MCB_FREE
  split : ∃ A t L, F = A ++ ⟨t, owner, size⟩ :: (G ++ L) ∧ after A = p ∧ Stopped L

variable {p owner size : ℕ} {s' : DosMemory} {F' G' : List Mcb}

/-- **`DOS_CompressMemory`** leaves one free block at most behind a block that it walks by. -/
theorem Followed.compressed (h : s.Tiled r F) (hF : Followed p owner size G F)
    (howner : owner ≠ MCB_FREE) :
    ∃ G', Followed p owner size G' (compressed F) ∧
      total Mcb.extent G' = total Mcb.extent G ∧
      (Walked r s p → G'.length ≤ 1) ∧ (¬ Walked r s p → G' = G) := by
  obtain ⟨hfree, A, t, L, rfl, rfl, hL⟩ := hF
  have hA : after (AugraDosbox.compressed A) = after A := by rw [after, total_compressed]
  by_cases hwalked : Walked r s (after A)
  · have hmiddle := h.walked_iff.1 hwalked
    rw [compressed_append howner hmiddle]
    -- what is behind the block
    obtain ⟨G', L', hrun, hG', htotal, hlength, hL'⟩ : ∃ G' L',
        AugraDosbox.compressed (⟨t, owner, size⟩ :: (G ++ L)) = ⟨t, owner, size⟩ :: (G' ++ L') ∧
        (∀ c ∈ G', c.psp = MCB_FREE) ∧ total Mcb.extent G' = total Mcb.extent G ∧
        G'.length ≤ 1 ∧ Stopped L' := by
      cases G with
      | nil =>
        by_cases ht : t = ending_mcb_type
        · exact ⟨[], L, compressed_ending ht, by simp, rfl, by simp, hL⟩
        · exact ⟨[], _, compressed_allocated ht howner, by simp, rfl, by simp, hL.compressed⟩
      | cons c G =>
        have hc := hfree c List.mem_cons_self
        have ht : t ≠ ending_mcb_type := fun ht => h.ending_next ht hc
        have hbetween : ∀ X d e Y, c :: G = X ++ d :: e :: Y → d.type ≠ ending_mcb_type := by
          intro X d e Y hX ht
          have h' : s.Tiled r ((A ++ ⟨t, owner, size⟩ :: X) ++ d :: e :: (Y ++ L)) := by
            rw [hX] at h
            simpa using h
          exact h'.ending_next ht (hfree e (by rw [hX]; simp))
        obtain ⟨t', L', hrun, hL'⟩ :=
          compressed_run hc (fun d hd => hfree d (List.mem_cons_of_mem _ hd)) hbetween hL
        refine ⟨[⟨t', MCB_FREE, total Mcb.extent (c :: G) - 1⟩], L', ?_, by simp, ?_, by simp,
          hL'⟩
        · rw [compressed_allocated ht howner, hrun]
          rfl
        · have hpos := c.extent_pos
          simp only [total_cons, total_nil, Mcb.extent] at hpos ⊢
          omega
    exact ⟨G', ⟨hG', _, t, L', by rw [hrun], hA, hL'⟩, htotal, fun _ => hlength,
      fun hnot => absurd hwalked hnot⟩
  · have hending : ∃ e ∈ A, e.type = ending_mcb_type := by
      by_contra hnone
      exact hwalked (h.walked_iff.2 fun e he ht => hnone ⟨e, he, ht⟩)
    rw [compressed_append_ending hending]
    exact ⟨G, ⟨hfree, _, t, L, rfl, hA, hL⟩, rfl, fun hyes => absurd hyes hwalked, fun _ => rfl⟩

/-! ## What a call writes -/

/-- The most that the block can have with the next one. -/
def reach (b : Mcb) (G : List Mcb) : ℕ := b.size + total Mcb.extent (G.take 1)

/-- The free blocks behind a block of which `n` paragraphs were asked for. -/
def rest (b : Mcb) (G : List Mcb) (n : ℕ) : List Mcb :=
  if n < b.size then ⟨b.type, MCB_FREE, b.size - n - 1⟩ :: G
  else if n = b.size then G
  else if n < reach b G then
    ⟨(G.head?.map Mcb.type).getD b.type, MCB_FREE, reach b G - n - 1⟩ :: G.tail
  else G.tail

theorem rest_free (hG : ∀ c ∈ G, c.psp = MCB_FREE) : ∀ c ∈ rest b G n, c.psp = MCB_FREE := by
  rw [rest]
  split_ifs
  · exact List.forall_mem_cons.2 ⟨rfl, hG⟩
  · exact hG
  · exact List.forall_mem_cons.2 ⟨rfl, fun c hc => hG c (List.mem_of_mem_tail hc)⟩
  · exact fun c hc => hG c (List.mem_of_mem_tail hc)

/-- No paragraph is lost. -/
theorem total_rest (b : Mcb) (G : List Mcb) (n : ℕ) :
    min n (reach b G) + total Mcb.extent (rest b G n) = b.size + total Mcb.extent G := by
  have hreach : reach b G + total Mcb.extent G.tail = b.size + total Mcb.extent G := by
    cases G with
    | nil => simp [reach]
    | cons c G => simp [reach, Nat.add_assoc]
  have hle : b.size ≤ reach b G := Nat.le_add_right _ _
  rw [rest]
  split_ifs
  · simp only [total_cons, Mcb.extent]
    omega
  · omega
  · simp only [total_cons, Mcb.extent]
    omega
  · omega

theorem rest_all {d : Mcb} : rest b [c, d] (b.size + c.size + 1) = [d] := by
  have hreach : reach b [c, d] = b.size + c.size + 1 := rfl
  rw [rest, if_neg (by omega), if_neg (by omega), hreach, if_neg (lt_irrefl _), List.tail_cons]

/-- A block has got `min n (reach b G)` paragraphs, and the rest is free; where the chain is
walked, it is one block. -/
structure Cut (r : Region) (s s' : DosMemory) (F : List Mcb) (p : ℕ) (b : Mcb) (G : List Mcb)
    (n : ℕ) (F' G' : List Mcb) : Prop where
  tiled : s'.Tiled r F'
  keeps : Keeps (BlockAt p) s.mem s'.mem F F'
  data : ∀ a, 16 * (p + 1) ≤ a → a < 16 * (p + 1 + min b.size n) → s'.mem a = s.mem a
  followed : Followed p s.psp (min n (reach b G)) G' F'
  same_total : total Mcb.extent G' = total Mcb.extent (rest b G n)
  walked : Walked r s p → G.length ≤ 1 → G'.length ≤ 1
  missed : ¬ Walked r s p → G' = rest b G n

/-- What a call leaves of a chain: all blocks but one are kept, and where a program runs, the block
and the gap behind it are cut. -/
structure Left (r : Region) (s s' : DosMemory) (F : List Mcb) (p : ℕ) (b : Mcb) (G : List Mcb)
    (n : ℕ) : Prop where
  umb_start : s'.umb_start = s.umb_start
  umb_state : s'.umb_state = s.umb_state
  chain : ∃ F', s'.Tiled r F' ∧ Keeps (BlockAt p) s.mem s'.mem F F' ∧
    (s.psp ≠ MCB_FREE → ∃ G', Cut r s s' F p b G n F' G')

section Cuts

variable {X : List Mcb} {m t : ℕ} (h : s.Tiled r (A ++ b :: (X ++ G ++ L)))
  (hX : ∀ c ∈ X, c.psp = MCB_FREE) (hG : ∀ c ∈ G, c.psp = MCB_FREE) (hL : Stopped L)
  (hcover : r.umb = true → after A = umb_start_seg → s.psp ≠ MCB_FREE)

include h hX hG hL hcover

/-- The block gets its owner again, with the free blocks `X` or without any. -/
theorem Tiled.leftOne (honly : OnlyHeaders (after A) (after A) s.mem mem')
    (hy : header mem' (after A) = ⟨t, s.psp, m⟩)
    (ht : t = endType r s.umb_state (after A + total Mcb.extent (b :: X)))
    (hlen : total Mcb.extent (b :: X) = m + 1) (hm : min n (reach b (X ++ G)) = m)
    (hrest : rest b (X ++ G) n = G) :
    Left r s { s with mem := mem' } (A ++ b :: (X ++ G ++ L)) (after A) b (X ++ G) n := by
  have hrun : s.Tiled r (A ++ b :: X ++ (G ++ L)) := by simpa using h
  have hmem : SameOutside (after A) (after A + (m + 1)) s.mem mem' :=
    honly.sameOutside le_rfl (Nat.lt_add_of_pos_right m.succ_pos)
  rw [hlen] at ht
  obtain ⟨htiled, hkeep⟩ : _ ∧ Keeps (BlockAt (after A)) _ _ _ _ :=
    hrun.toOne (y := ⟨t, s.psp, m⟩) hX hmem hlen hy ht fun _ => ⟨hcover, rfl⟩
  refine ⟨rfl, rfl, _, htiled, by simpa using hkeep, fun _ => ⟨G, htiled, by simpa using hkeep,
    fun a h1 _ => honly a (by omega) (by omega), ⟨hG, A, t, L, by rw [hm], rfl, hL⟩, by rw [hrest],
    fun _ hone => ?_, fun _ => hrest.symm⟩⟩
  rw [List.length_append] at hone
  omega

/-- What is left of the block and of the free blocks `X` is one free block, which is joined with
those behind it. -/
theorem Tiled.leftTwo (honly : OnlyHeaders (after A) (after A + (n + 1)) s.mem mem')
    (hy : header mem' (after A) = ⟨middle_mcb_type, s.psp, n⟩)
    (hz : header mem' (after A + (n + 1)) = ⟨t, MCB_FREE, m⟩)
    (ht : t = endType r s.umb_state (after A + total Mcb.extent (b :: X)))
    (hlen : total Mcb.extent (b :: X) = n + 1 + (m + 1)) (hle : n ≤ reach b (X ++ G))
    (hrest : rest b (X ++ G) n = ⟨t, MCB_FREE, m⟩ :: G) :
    ∃ s', DOS_CompressMemory { s with mem := mem' } = .ok s' ∧
      Left r s s' (A ++ b :: (X ++ G ++ L)) (after A) b (X ++ G) n := by
  have hrun : s.Tiled r (A ++ b :: X ++ (G ++ L)) := by simpa using h
  have hmem : SameOutside (after A) (after A + (n + 1 + (m + 1))) s.mem mem' :=
    honly.sameOutside (by omega) (by omega)
  rw [hlen] at ht
  obtain ⟨htiled, hkeep⟩ : _ ∧ Keeps (BlockAt (after A)) _ _ _ _ :=
    hrun.toTwo (y := ⟨middle_mcb_type, s.psp, n⟩) (z := ⟨t, MCB_FREE, m⟩) hX hmem hlen hy hz rfl ht
      fun _ => ⟨hcover, rfl⟩
  obtain ⟨mem₂, hcall, htiled₂, hkeep₂⟩ := DOS_CompressMemory_exact htiled
  have hkeeps : Keeps (BlockAt (after A)) s.mem mem₂ (A ++ b :: (X ++ G ++ L)) _ :=
    Keeps.trans (by simpa using hkeep) (hkeep₂.mono fun _ _ => False.elim) fun _ _ _ h _ _ => h
  refine ⟨_, hcall, rfl, rfl, _, htiled₂, hkeeps, fun hpsp => ?_⟩
  have hF : Followed (after A) s.psp (min n (reach b (X ++ G))) (rest b (X ++ G) n)
      (A ++ ⟨middle_mcb_type, s.psp, n⟩ :: ⟨t, MCB_FREE, m⟩ :: (G ++ L)) :=
    ⟨rest_free (List.forall_mem_append.2 ⟨hX, hG⟩), A, _, L,
      by rw [hrest, Nat.min_eq_left hle]; rfl, rfl, hL⟩
  obtain ⟨G', hF', htotal, hone, hsame⟩ := hF.compressed htiled hpsp
  refine ⟨G', htiled₂, hkeeps, fun a h1 h2 => ?_, hF', htotal, fun hw _ => hone hw, hsame⟩
  have hkept := hkeep₂ _ _ placed_after hpsp not_false
  exact (hkept.data a h1 (by simp only; omega)).trans (honly a (by omega) (by omega))

end Cuts

/-! ## `DOS_ResizeMemory` -/

theorem Left.withError {e : Option DosError} (h : Left r s s' F p b G n) :
    Left r s { s' with errorcode := e } F p b G n := by
  obtain ⟨hstart, hstate, F', ht, hkeep, hcut⟩ := h
  refine ⟨hstart, hstate, F', ⟨ht.first, ht.tiles, ht.types, ht.cover, ht.psp⟩, hkeep,
    fun hpsp => ?_⟩
  obtain ⟨G', hcut⟩ := hcut hpsp
  exact ⟨G', ⟨ht.first, ht.tiles, ht.types, ht.cover, ht.psp⟩, hcut.keeps, hcut.data, hcut.followed,
    hcut.same_total, hcut.walked, hcut.missed⟩

/-- The call, once free blocks have been joined. -/
def resizeJoined (s : DosMemory) (segment blocks : ℕ) : Except Fault ((Bool × ℕ) × DosMemory) :=
  let total := GetSize s.mem (u16 (segment + 2 ^ 16 - 1))
  let mcb := u16 (segment + 2 ^ 16 - 1)
  let mcb_next := u16 (segment + total)
  if blocks ≤ total then
    if blocks = total then .ok ((true, blocks), { s with mem := SetPSPSeg s.mem mcb s.psp })
    else do
      let s ← shrink s segment blocks total
      .ok ((true, blocks), s)
  else
    let total :=
      if GetType s.mem mcb ≠ ending_mcb_type ∧ GetPSPSeg s.mem mcb_next = MCB_FREE then
        u16 (total + GetSize s.mem mcb_next + 1)
      else total
    if blocks < total then do
      let s ← growPart s segment blocks total
      .ok ((true, blocks), s)
    else
      let s := { s with mem := growAll s segment total }
      if blocks = total then .ok ((true, blocks), s)
      else .ok ((false, total), { s with errorcode := some .INSUFFICIENT_MEMORY })

theorem resizeJoined_left (h : s.Tiled r (A ++ b :: (G ++ L))) (hG : ∀ c ∈ G, c.psp = MCB_FREE)
    (hL : Stopped L) (hcover : r.umb = true → after A = umb_start_seg → s.psp ≠ MCB_FREE) :
    ∃ s', s.resizeJoined (after A + 1) n =
        .ok ((decide (n ≤ reach b G), min n (reach b G)), s') ∧
      Left r s s' (A ++ b :: (G ++ L)) (after A) b G n := by
  have hrun : after A + b.extent < 2 ^ 16 := by
    simpa using Tiled.run_lt (L := [b]) (B := G ++ L) (by simpa using h)
  have hmcb : u16 (after A + 1 + 2 ^ 16 - 1) = after A := u16_mcb (by omega)
  have hle : b.size ≤ reach b G := Nat.le_add_right _ _
  have htype : b.type = endType r s.umb_state (after A + total Mcb.extent [b]) :=
    h.types placed_after
  have hnone : ∀ c ∈ ([] : List Mcb), c.psp = MCB_FREE := by simp
  simp only [resizeJoined, hmcb, h.getSize_at, h.getType_at]
  by_cases hsmall : n ≤ b.size
  · rw [if_pos hsmall, decide_eq_true (hsmall.trans hle), Nat.min_eq_left (hsmall.trans hle)]
    by_cases heq : n = b.size
    · rw [if_pos heq]
      refine ⟨_, rfl, Tiled.leftOne (X := []) h hnone hG hL hcover (.SetPSPSeg .refl (.inl rfl))
        (by rw [header_SetPSPSeg h.psp, if_pos rfl, h.header_at]) htype rfl
        (heq ▸ Nat.min_eq_left (hsmall.trans hle)) ?_⟩
      exact (if_neg (by omega)).trans (if_pos heq)
    · have hlt : n < b.size := Nat.lt_of_le_of_ne hsmall heq
      rw [if_neg heq]
      obtain ⟨mem', hshrink, honly, hy, hz⟩ := shrink_headers h.header_at h.type_eq hrun h.psp hlt
      obtain ⟨s', hcall, hleft⟩ := Tiled.leftTwo (X := []) h hnone hG hL hcover honly hy hz htype
        (by simp only [total_cons, total_nil, Mcb.extent]; omega) (hsmall.trans hle) (if_pos hlt)
      rw [hshrink, hcall]
      exact ⟨s', rfl, hleft⟩
  rw [if_neg hsmall]
  cases G with
  | nil =>
    have hstay : ¬ (b.type ≠ ending_mcb_type ∧
        GetPSPSeg s.mem (u16 (after A + 1 + b.size)) = MCB_FREE) := by
      rintro ⟨ht, hfree⟩
      obtain ⟨c, L, rfl⟩ := h.exists_next ht
      have h' : s.Tiled r ((A ++ [b]) ++ c :: L) := by simpa using h
      rw [Nat.add_right_comm, h.u16_next, h'.getPSPSeg_at] at hfree
      exact hL c rfl hfree
    have hreach : reach b [] = b.size := by simp [reach]
    have hmin : min n b.size = b.size := Nat.min_eq_right (Nat.not_le.1 hsmall).le
    obtain ⟨honly, hy⟩ := growAll_stays_headers h.header_at hrun h.psp hstay
    have hleft := Tiled.leftOne (X := []) (G := []) (n := n) h hnone hG hL hcover honly hy htype rfl
      (hreach ▸ hmin)
      (by rw [List.nil_append, rest, if_neg (by omega), if_neg (by omega), if_neg (by omega)]; rfl)
    rw [if_neg hstay, if_neg fun hlt => hsmall hlt.le, if_neg fun heq => hsmall heq.le, hreach,
      decide_eq_false hsmall, hmin]
    exact ⟨_, rfl, hleft.withError⟩
  | cons c G =>
    obtain ⟨hc, hG⟩ := List.forall_mem_cons.1 hG
    have h' : s.Tiled r ((A ++ [b]) ++ c :: (G ++ L)) := by simpa using h
    have hone : ∀ d ∈ [c], d.psp = MCB_FREE := by simpa using hc
    have ht : b.type ≠ ending_mcb_type := fun ht => h.ending_next ht hc
    have hreach : reach b (c :: G) = b.size + c.size + 1 := by
      simp [reach, Mcb.extent, Nat.add_assoc]
    have hnext : u16 (after A + 1 + b.size) = after (A ++ [b]) := by
      rw [Nat.add_right_comm]
      exact h.u16_next
    have htotal : u16 (b.size + c.size + 1) = b.size + c.size + 1 := by
      have hpair := h.pair_lt
      simp only [Mcb.extent] at hpair
      exact Nat.mod_eq_of_lt (by omega)
    have htypes : c.type = endType r s.umb_state (after A + total Mcb.extent [b, c]) := by
      simpa using h.type_second
    have hjoin : b.type ≠ ending_mcb_type ∧ c.psp = MCB_FREE := ⟨ht, hc⟩
    rw [hnext, h'.getPSPSeg_at, h'.getSize_at, if_pos hjoin, htotal, hreach]
    by_cases hpart : n < b.size + c.size + 1
    · obtain ⟨mem', hgrow, honly, hy, hz⟩ := growPart_headers h.header_at h.header_next ht
        h'.type_lt h.pair_lt h.psp (Nat.not_le.1 hsmall) hpart
      obtain ⟨s', hcall, hleft⟩ := Tiled.leftTwo (X := [c]) h hone hG hL hcover honly hy hz htypes
        (by simp only [total_cons, total_nil, Mcb.extent]; omega) (by simp [hreach]; omega)
        (by
          rw [rest, if_neg (by omega), if_neg (by omega), if_pos (by simp [hreach]; omega)]
          simp [hreach])
      rw [if_pos hpart, hgrow, decide_eq_true hpart.le, Nat.min_eq_left hpart.le, hcall]
      exact ⟨s', rfl, hleft⟩
    · obtain ⟨honly, hy⟩ :=
        growAll_joins_headers h.header_at h.header_next ht h'.type_lt hc h.pair_lt h.psp
      have hmin : min n (b.size + c.size + 1) = b.size + c.size + 1 :=
        Nat.min_eq_right (Nat.not_lt.1 hpart)
      have hleft := Tiled.leftOne (X := [c]) (n := n) h hone hG hL hcover honly hy htypes
        (by simp only [total_cons, total_nil, Mcb.extent]; omega) (by simpa [hreach] using hmin)
        (by rw [rest, if_neg (by omega), if_neg (by omega), if_neg (by simp [hreach]; omega)]; rfl)
      rw [if_neg hpart, hmin]
      by_cases heq : n = b.size + c.size + 1
      · rw [if_pos heq, decide_eq_true heq.le]
        exact ⟨_, by rw [← heq], hleft⟩
      · rw [if_neg heq, decide_eq_false (by omega)]
        exact ⟨_, rfl, hleft.withError⟩

theorem DOS_ResizeMemory_eq {mem₁ : Memory} (hp : p < 2 ^ 16)
    (htype : GetType s.mem p = middle_mcb_type ∨ GetType s.mem p = ending_mcb_type)
    (hcall : s.DOS_CompressMemory = .ok { s with mem := mem₁ }) :
    s.DOS_ResizeMemory (p + 1) n = resizeJoined { s with mem := mem₁ } (p + 1) n := by
  have hcheck : ¬ (GetType s.mem p ≠ middle_mcb_type ∧ GetType s.mem p ≠ ending_mcb_type) :=
    fun h => htype.elim h.1 h.2
  rw [DOS_ResizeMemory, u16_mcb hp, if_neg hcheck, hcall, resizeJoined, u16_mcb hp]
  rfl

/-- **What a call leaves**: where the chain is walked, the block gets what it can have and the
rest is one block; elsewhere only the next block counts. -/
theorem DOS_ResizeMemory_left (h : s.Tiled r (A ++ b :: (G ++ L))) (hb : b.psp ≠ MCB_FREE)
    (hG : ∀ c ∈ G, c.psp = MCB_FREE) (hL : Stopped L)
    (hcover : r.umb = true → after A = umb_start_seg → s.psp ≠ MCB_FREE) :
    ∃ t G₁ s', s.DOS_ResizeMemory (after A + 1) n =
        .ok ((decide (n ≤ reach b G₁), min n (reach b G₁)), s') ∧
      Left r s s' (A ++ b :: (G ++ L)) (after A) ⟨t, b.psp, b.size⟩ G₁ n ∧
      total Mcb.extent G₁ = total Mcb.extent G ∧
      (Walked r s (after A) → G₁.length ≤ 1) ∧ (¬ Walked r s (after A) → G₁ = G) := by
  obtain ⟨mem₁, hcall, htiled, hkeep⟩ := DOS_CompressMemory_exact h
  have hF : Followed (after A) b.psp b.size G (A ++ b :: (G ++ L)) :=
    ⟨hG, A, b.type, L, rfl, rfl, hL⟩
  obtain ⟨G₁, ⟨hG₁, A₁, t, L₁, hsplit, hA, hL₁⟩, htotal, hone, hsame⟩ := hF.compressed h hb
  rw [hsplit] at htiled
  obtain ⟨s', hjoined, hstart, hstate, F', htiled', hkeep', hcut⟩ :=
    resizeJoined_left (n := n) htiled hG₁ hL₁ (hA ▸ hcover)
  have hlt : after A < 2 ^ 16 := lt_of_le_of_lt h.after_le (by decide)
  rw [← hsplit, hA] at hkeep'
  have hkeeps : Keeps (BlockAt (after A)) s.mem s'.mem _ F' :=
    (hkeep.mono fun _ _ => False.elim).trans hkeep' fun _ _ _ h _ _ => h
  refine ⟨t, G₁, s', ?_, ⟨hstart, hstate, F', htiled', hkeeps, fun hpsp => ?_⟩, htotal, hone, hsame⟩
  · rw [DOS_ResizeMemory_eq hlt (by rw [h.getType_at]; exact h.type_eq) hcall, ← hA]
    exact hjoined
  · obtain ⟨G', hcut⟩ := hcut hpsp
    rw [← hsplit, hA] at hcut
    refine ⟨G', htiled', hkeeps, fun a h1 h2 => (hcut.data a h1 h2).trans ?_, hcut.followed,
      hcut.same_total, hcut.walked, hcut.missed⟩
    exact (hkeep _ _ placed_after hb not_false).data a h1 (h2.trans_le
      (Nat.mul_le_mul_left _ (Nat.add_le_add_left (Nat.min_le_left _ _) _)))

/-- The free blocks at the beginning of a list. -/
def gap (R : List Mcb) : List Mcb := R.takeWhile fun c => decide (c.psp = MCB_FREE)

theorem gap_free {R : List Mcb} : ∀ c ∈ gap R, c.psp = MCB_FREE :=
  fun _ hc => of_decide_eq_true
    (List.mem_takeWhile_imp (p := fun c : Mcb => decide (c.psp = MCB_FREE)) hc)

theorem gap_split (R : List Mcb) : ∃ L, R = gap R ++ L ∧ Stopped L := by
  refine ⟨_, (List.takeWhile_append_dropWhile).symm, fun c hc => ?_⟩
  have hnot := List.head?_dropWhile_not (fun c : Mcb => decide (c.psp = MCB_FREE)) R
  rw [hc] at hnot
  simpa using hnot

/-- **`DOS_ResizeMemory`** of an allocated block returns and keeps every other one, also where it
fails. -/
theorem DOS_ResizeMemory_spec (blocks : ℕ) (h : s.Inv r F)
    (hp : (p, b) ∈ placed Mcb.extent DOS_MEM_START F) (hfree : b.psp ≠ MCB_FREE)
    (hdos : b.psp ≠ MCB_DOS) :
    ∃ res s', s.DOS_ResizeMemory (p + 1) blocks = .ok (res, s') ∧
      Outcome r (BlockAt p) s F s' := by
  obtain ⟨A, R, rfl, rfl⟩ := mem_placed.1 hp
  obtain ⟨L, hR, hL⟩ := gap_split R
  rw [hR] at h ⊢
  obtain ⟨t, G, s', hcall, ⟨hstart, hstate, F', htiled, hkeep, -⟩, -⟩ :=
    DOS_ResizeMemory_left (n := blocks) h.tiled hfree gap_free hL
      fun hu hat => absurd hat (h.ne_cover hdos hu)
  refine ⟨_, s', hcall, F', h.of_tiled htiled hkeep ?_ hstart hstate, hkeep⟩
  rintro d hd hpsp hat
  rw [← h.tiles.read_placed hd, hat, h.header_at] at hpsp
  exact hdos hpsp

/-- **What a resized block is to be like**: it has the size that was asked for, or the most there
is and the call fails; what it leaves of itself and of the gap behind it is one free block; all
other blocks, and what stays of this one, are untouched. -/
structure Resized (r : Region) (s s' : DosMemory) (F : List Mcb) (p size most n : ℕ)
    (res : Bool × ℕ) : Prop where
  answer : res = (decide (n ≤ most), min n most)
  allocated : s.psp ≠ MCB_FREE
  chain : ∃ F', s'.Tiled r F' ∧ Keeps (BlockAt p) s.mem s'.mem F F' ∧
    (∃ t, (p, ⟨t, s.psp, min n most⟩) ∈ placed Mcb.extent DOS_MEM_START F') ∧
    (n < most → ∃ t, (p + n + 1, ⟨t, MCB_FREE, most - n - 1⟩) ∈
      placed Mcb.extent DOS_MEM_START F') ∧
    ∀ c, (p + most + 1, c) ∈ placed Mcb.extent DOS_MEM_START F' → c.psp ≠ MCB_FREE
  data : ∀ a, 16 * (p + 1) ≤ a → a < 16 * (p + 1 + min size n) → s'.mem a = s.mem a

theorem Followed.placed_self (h : Followed p owner size G F) :
    ∃ t, (p, ⟨t, owner, size⟩) ∈ placed Mcb.extent DOS_MEM_START F := by
  obtain ⟨-, A, t, L, rfl, rfl, -⟩ := h
  exact ⟨t, placed_after⟩

theorem Followed.placed_free (h : Followed p owner size (c :: G) F) :
    (p + size + 1, c) ∈ Tiling.placed Mcb.extent DOS_MEM_START F := by
  obtain ⟨-, A, t, L, rfl, rfl, -⟩ := h
  exact mem_placed.2 ⟨A ++ [⟨t, owner, size⟩], G ++ L, by simp, by
    simp [Mcb.extent, Nat.add_assoc]⟩

theorem Followed.placed_behind (h : Followed p owner size G F) {q : ℕ}
    (hq : q = p + size + 1 + total Mcb.extent G)
    (hc : (q, c) ∈ Tiling.placed Mcb.extent DOS_MEM_START F) : c.psp ≠ MCB_FREE := by
  obtain ⟨-, A, t, L, rfl, rfl, hL⟩ := h
  obtain ⟨C, D, hF, hC⟩ := mem_placed.1 hc
  have htotal : total Mcb.extent (A ++ ⟨t, owner, size⟩ :: G) = total Mcb.extent C := by
    rw [hq] at hC
    simp only [after, total_append, total_cons, Mcb.extent] at hC ⊢
    omega
  obtain ⟨-, rfl⟩ := split_unique Mcb.extent_pos (by simpa using hF) htotal
  exact hL c rfl

/-- The sizes of the block and of the free ones behind it add up. -/
theorem Cut.total_eq (h : Cut r s s' F p b G n F' G') :
    min n (reach b G) + total Mcb.extent G' = b.size + total Mcb.extent G := by
  rw [h.same_total, total_rest]

/-- Where the next block is all there is, and one free block stays, the call is right. -/
theorem Cut.resized {most : ℕ} (h : Cut r s s' F p b G n F' G') (hpsp : s.psp ≠ MCB_FREE)
    (hmost : b.size + total Mcb.extent G = most) (hm : min n (reach b G) = min n most)
    (hone : G'.length ≤ 1) :
    Resized r s s' F p b.size most n (decide (n ≤ most), min n most) := by
  have hsum := h.total_eq
  have hF := h.followed
  rw [hm] at hsum hF
  refine ⟨rfl, hpsp, ⟨F', h.tiled, h.keeps, hF.placed_self, fun hlt => ?_, fun c hc => ?_⟩, h.data⟩
  · rw [Nat.min_eq_left hlt.le] at hsum hF
    cases G' with
    | nil =>
      rw [total_nil] at hsum
      omega
    | cons c G' =>
      obtain rfl : G' = [] := List.length_eq_zero_iff.1 (by simpa using hone)
      have hfree : c.psp = MCB_FREE := hF.free c List.mem_cons_self
      have hsize : c.size = most - n - 1 := by
        simp only [total_cons, total_nil, Mcb.extent] at hsum
        omega
      refine ⟨c.type, ?_⟩
      rw [← hfree, ← hsize]
      exact hF.placed_free
  · exact hF.placed_behind (by omega) hc

/-- What the first free block behind the block has to be. -/
theorem Cut.size_of_resized {most : ℕ} {res : Bool × ℕ} (h : Cut r s s' F p b G n F' (c :: G'))
    (hres : Resized r s s' F p size most n res) (hlt : n < most) (hm : min n (reach b G) = n) :
    c.size = most - n - 1 := by
  obtain ⟨F₂, htiled, -, -, hfree, -⟩ := hres.chain
  obtain ⟨t, ht⟩ := hfree hlt
  have hc := h.followed.placed_free
  rw [hm] at hc
  have hread := (h.tiled.tiles.read_placed hc).symm.trans (htiled.tiles.read_placed ht)
  exact congrArg Mcb.size hread

/-- Where free blocks have not been joined, the call is right in a few cases only. -/
theorem Cut.gap_of_resized (h : Cut r s s' F p b G n F' (rest b G n))
    (hres : Resized r s s' F p b.size (b.size + total Mcb.extent G) n
      (decide (n ≤ reach b G), min n (reach b G)))
    :
    G = [] ∨ (∃ c, G = [c] ∧ b.size ≤ n) ∨ ∃ c d, G = [c, d] ∧ n = b.size + c.size + 1 := by
  cases G with
  | nil => exact Or.inl rfl
  | cons c G =>
    have hreach : reach b (c :: G) = b.size + c.size + 1 := by
      simp [reach, Mcb.extent, Nat.add_assoc]
    have htotal : total Mcb.extent (c :: G) = c.size + 1 + total Mcb.extent G := rfl
    rw [htotal] at hres
    refine Or.inr ?_
    by_cases hlt : n < b.size
    · rw [rest, if_pos hlt] at h
      have hsize := h.size_of_resized hres (by omega) (by omega)
      simp only at hsize
      omega
    by_cases heq : n = b.size
    · rw [rest, if_neg hlt, if_pos heq] at h
      have hsize := h.size_of_resized hres (by omega) (by omega)
      obtain rfl := eq_nil_of_total Mcb.extent_pos (L := G) (by omega)
      exact Or.inl ⟨c, rfl, heq.ge⟩
    by_cases hpart : n < reach b (c :: G)
    · rw [rest, if_neg hlt, if_neg heq, if_pos hpart] at h
      have hsize := h.size_of_resized hres (by omega) (by omega)
      simp only at hsize
      obtain rfl := eq_nil_of_total Mcb.extent_pos (L := G) (by omega)
      exact Or.inl ⟨c, rfl, by omega⟩
    · cases G with
      | nil => exact Or.inl ⟨c, rfl, by omega⟩
      | cons d G =>
        have hd : total Mcb.extent (d :: G) = d.size + 1 + total Mcb.extent G := rfl
        have hanswer := congrArg Prod.snd hres.answer
        simp only at hanswer
        have hn : n = b.size + c.size + 1 := by omega
        rw [rest, if_neg hlt, if_neg heq, if_neg hpart, List.tail_cons] at h
        have hsize := h.size_of_resized hres (by omega) (by omega)
        obtain rfl := eq_nil_of_total Mcb.extent_pos (L := G) (by omega)
        exact Or.inr ⟨c, d, rfl, hn⟩

/-- **`DOS_ResizeMemory` is right** exactly when a program runs and the free blocks behind the
block need no joining, or are walked when free blocks are joined. -/
theorem resize_right_iff {R : List Mcb} (h : s.Inv r (A ++ b :: R)) (hb : b.psp ≠ MCB_FREE) :
    (∃ res s', s.DOS_ResizeMemory (after A + 1) n = .ok (res, s') ∧
      Resized r s s' (A ++ b :: R) (after A) b.size (b.size + total Mcb.extent (gap R)) n res) ↔
    s.psp ≠ MCB_FREE ∧ (Walked r s (after A) ∨ gap R = [] ∨ (∃ c, gap R = [c] ∧ b.size ≤ n) ∨
      ∃ c d, gap R = [c, d] ∧ n = b.size + c.size + 1) := by
  obtain ⟨L, hR, hL⟩ := gap_split R
  have hG : ∀ c ∈ gap R, c.psp = MCB_FREE := gap_free
  generalize hgap : gap R = G at *
  subst hR
  by_cases hpsp : s.psp = MCB_FREE
  · exact ⟨fun ⟨_, _, _, hres⟩ => absurd hpsp hres.allocated, fun hright => absurd hpsp hright.1⟩
  obtain ⟨t, G₁, s', hcall, ⟨-, -, F', -, -, hleft⟩, htotal, hone, hsame⟩ :=
    DOS_ResizeMemory_left (n := n) h.tiled hb hG hL fun _ _ => hpsp
  obtain ⟨G', hcut⟩ := hleft hpsp
  have hmost : b.size + total Mcb.extent G₁ = b.size + total Mcb.extent G := by rw [htotal]
  -- the call is right where its answer is, and one free block stays at most
  have hright : min n (reach b G₁) = min n (b.size + total Mcb.extent G) →
      (n ≤ reach b G₁ ↔ n ≤ b.size + total Mcb.extent G) → G'.length ≤ 1 →
      ∃ res s', s.DOS_ResizeMemory (after A + 1) n = .ok (res, s') ∧
        Resized r s s' (A ++ b :: (G ++ L)) (after A) b.size (b.size + total Mcb.extent G) n res := by
    intro hm hle hlength
    exact ⟨_, s', by rw [hcall, hm, decide_eq_decide.2 hle], hcut.resized hpsp hmost hm hlength⟩
  by_cases hwalked : Walked r s (after A)
  · refine ⟨fun _ => ⟨hpsp, Or.inl hwalked⟩, fun _ => ?_⟩
    have hreach : reach b G₁ = b.size + total Mcb.extent G := by
      rw [reach, List.take_of_length_le (hone hwalked), htotal]
    exact hright (by rw [hreach]) (by rw [hreach]) (hcut.walked hwalked (hone hwalked))
  · obtain rfl := hsame hwalked
    obtain rfl := hcut.missed hwalked
    constructor
    · rintro ⟨res, s₂, hcall₂, hres⟩
      rw [hcall] at hcall₂
      obtain ⟨rfl, rfl⟩ := Prod.mk.inj (Except.ok.inj hcall₂)
      exact ⟨hpsp, Or.inr (hcut.gap_of_resized hres)⟩
    · rintro ⟨-, hw | rfl | ⟨c, rfl, hle⟩ | ⟨c, d, rfl, rfl⟩⟩
      · exact absurd hw hwalked
      · refine hright (by simp [reach]) (by simp [reach]) ?_
        rw [rest]
        split_ifs <;> simp
      · refine hright (by simp [reach]) (by simp [reach]) ?_
        rw [rest, if_neg (show ¬ n < b.size by omega)]
        split_ifs <;> simp
      · have hreach : reach b [c, d] = b.size + c.size + 1 := rfl
        have htotal : total Mcb.extent [c, d] = c.size + 1 + (d.size + 1) := rfl
        exact hright (by omega) (by omega)
          (congrArg List.length (rest_all (b := ⟨t, b.psp, b.size⟩))).le

/-- The last block of the system at boot grows to 100 paragraphs. -/
theorem resize_right_iff_setup :
    ∃ res s', setup.DOS_ResizeMemory (after ((setupBlocks .Other).take 2) + 1) 100 =
        .ok (res, s') ∧
      Resized (lowRegion .Other) setup s' ((setupBlocks .Other).take 2 ++
        ⟨middle_mcb_type, 0x40, 16⟩ :: (setupBlocks .Other).drop 3)
        (after ((setupBlocks .Other).take 2)) 16
        (16 + total Mcb.extent (gap ((setupBlocks .Other).drop 3))) 100 res := by
  have hinv : setup.Inv (lowRegion .Other) ((setupBlocks .Other).take 2 ++
      ⟨middle_mcb_type, 0x40, 16⟩ :: (setupBlocks .Other).drop 3) := setup_inv
  exact (resize_right_iff hinv (by decide)).mpr ⟨by decide, .inl (by decide)⟩

/-- The chains at boot, with an upper block that a program has, and two free ones behind it. -/
def fragmented : DosMemory :=
  let mem := putMcb setup.mem umb_start_seg MCB_DOS (0xd000 - umb_start_seg - 1) middle_mcb_type
  let mem := putMcb mem 0xd000 0x200 16 middle_mcb_type
  let mem := putMcb mem 0xd011 MCB_FREE 16 middle_mcb_type
  let mem := putMcb mem 0xd022 MCB_FREE (0xf000 - 0xd022 - 1) ending_mcb_type
  { setup with mem := mem, umb_start := umb_start_seg }

/-- The blocks before the one that the program has. -/
def fragmentedBefore : List Mcb :=
  setupBlocks .Other ++ [⟨middle_mcb_type, MCB_DOS, 0xd000 - umb_start_seg - 1⟩]

/-- The free blocks behind it. -/
def fragmentedGap : List Mcb :=
  [⟨middle_mcb_type, MCB_FREE, 16⟩, ⟨ending_mcb_type, MCB_FREE, 0xf000 - 0xd022 - 1⟩]

theorem fragmented_inv : fragmented.Inv (upperRegion false)
    (fragmentedBefore ++ ⟨middle_mcb_type, 0x200, 16⟩ :: fragmentedGap) := by
  have hchecked : Checked (upperRegion false) fragmented
      (fragmentedBefore ++ ⟨middle_mcb_type, 0x200, 16⟩ :: fragmentedGap) := by decide
  exact hchecked.inv

/-- A block of 16 paragraphs cannot get 40, although more than 8000 free ones follow it. -/
theorem unlinked_gap_refused :
    fragmented.Inv (upperRegion false)
      (fragmentedBefore ++ ⟨middle_mcb_type, 0x200, 16⟩ :: fragmentedGap) ∧
    after fragmentedBefore = 0xd000 ∧ gap fragmentedGap = fragmentedGap ∧
    ¬ ∃ res s', fragmented.DOS_ResizeMemory 0xd001 40 = .ok (res, s') ∧
      Resized (upperRegion false) fragmented s'
        (fragmentedBefore ++ ⟨middle_mcb_type, 0x200, 16⟩ :: fragmentedGap) 0xd000 16
        (16 + total Mcb.extent fragmentedGap) 40 res := by
  refine ⟨fragmented_inv, by decide, by decide, ?_⟩
  rintro ⟨res, s', hcall, hres⟩
  have hanswer : (fragmented.DOS_ResizeMemory 0xd001 40).toOption.map Prod.fst =
      some (false, 33) := by decide
  rw [hcall] at hanswer
  have hres' : res = (false, 33) := Option.some.inj hanswer
  have hright := hres.answer
  rw [hres'] at hright
  exact absurd hright (by decide)

end DosMemory

end AugraDosbox
