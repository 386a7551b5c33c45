import AugraDosbox.Capture.Zmbv
import Mathlib.Algebra.Order.Ring.Int
import Mathlib.Tactic.Ring

/-!
# The blocks of a delta frame

What the decoder makes of the blocks of a delta frame, when the work buffer holds what
the encoder has put into it.

* `Holds work pos bytes` — the work buffer has these bytes from `pos` on;
* `blockVector_spec` — the vector that the encoder finds is in the table, and the number
  that comes with it counts the pixels that differ there;
* `readVector_eq` — a vector without a negative component is read back as it was written;
* **`unXorBlocks_colour`** — every pixel of the blocks gets the colour that it has in the
  encoder's frame; `unXorBlocks_outside`: no other pixel changes.

A pixel is addressed by its number `i` and a byte of it by `n * i + k`, `k < n`.
-/

namespace AugraDosbox

/-! ## Addresses -/

theorem byte_address_inj {n : ℕ} {i j : ℤ} {k l : ℕ} (hk : k < n) (hl : l < n)
    (h : (n : ℤ) * i + k = n * j + l) : i = j ∧ k = l := by
  have hn : (0 : ℤ) < n := by omega
  have hi : ((n : ℤ) * i + k) / n = i := by
    rw [Int.mul_add_ediv_left _ _ (by omega), Int.ediv_eq_zero_of_lt (by omega) (by omega),
      add_zero]
  have hj : ((n : ℤ) * j + l) / n = j := by
    rw [Int.mul_add_ediv_left _ _ (by omega), Int.ediv_eq_zero_of_lt (by omega) (by omega),
      add_zero]
  have hij : i = j := by rw [← hi, ← hj, h]
  subst hij
  exact ⟨rfl, by omega⟩

theorem FrameBlock.mem_bytes {n pitch o : ℕ} {block : FrameBlock} :
    o ∈ block.bytes n pitch ↔ ∃ p ∈ block.pixels pitch, ∃ k < n, n * p + k = o := by
  simp [FrameBlock.bytes]

theorem FrameBlock.mem_pixels {pitch p : ℕ} {block : FrameBlock} :
    p ∈ block.pixels pitch ↔ ∃ y < block.dy, ∃ x < block.dx, y * pitch + x = p := by
  simp [FrameBlock.pixels]

/-! ## Writes -/

theorem foldl_update_of_ne {α : Type*} {key : α → ℤ} {value : α → PixelByte} (os : List α)
    (frame : Frame) {i : ℤ} (h : ∀ o ∈ os, key o ≠ i) :
    os.foldl (fun (frame : Frame) o => Function.update frame (key o) (value o)) frame i =
      frame i := by
  induction os generalizing frame with
  | nil => rfl
  | cons o os ih =>
    rw [List.foldl_cons, ih _ fun o' ho' => h o' (List.mem_cons_of_mem _ ho')]
    exact Function.update_of_ne (h o List.mem_cons_self).symm _ _

theorem foldl_update_of_mem {base : ℤ} {value : ℕ → PixelByte} (os : List ℕ) (frame : Frame) {o : ℕ}
    (h : o ∈ os) :
    os.foldl (fun (frame : Frame) (o : ℕ) => Function.update frame (base + o) (value o)) frame
      (base + o) = value o := by
  induction os generalizing frame with
  | nil => exact absurd h List.not_mem_nil
  | cons o' os ih =>
    rw [List.foldl_cons]
    by_cases hmem : o ∈ os
    · exact ih _ hmem
    · have hhead : o = o' := (List.mem_cons.mp h).resolve_right hmem
      rw [foldl_update_of_ne]
      · rw [← hhead]
        exact Function.update_self _ _ _
      · intro o'' ho'' heq
        have hsame : o'' = o := by omega
        exact hmem (hsame ▸ ho'')

/-! ## The work buffer -/

/-- The buffer has these bytes from `pos` on. -/
def Holds (work : ℕ → PixelByte) (pos : ℕ) (bytes : List PixelByte) : Prop :=
  ∀ j byte, bytes[j]? = some byte → work (pos + j) = byte

section HoldsLemmas

variable {work : ℕ → PixelByte} {pos : ℕ} {bytes bytes' : List PixelByte}

theorem Holds.append_left (h : Holds work pos (bytes ++ bytes')) : Holds work pos bytes := by
  intro j byte hbyte
  apply h j byte
  rw [List.getElem?_append_left (List.getElem?_eq_some_iff.mp hbyte).1]
  exact hbyte

theorem Holds.append_right (h : Holds work pos (bytes ++ bytes')) :
    Holds work (pos + bytes.length) bytes' := by
  intro j byte hbyte
  rw [Nat.add_assoc]
  apply h
  rw [List.getElem?_append_right (Nat.le_add_right _ _), Nat.add_sub_cancel_left]
  exact hbyte

theorem holds_overlay (work : ℕ → PixelByte) (bytes : List PixelByte) :
    Holds (overlay work bytes) 0 bytes := by
  intro j byte hbyte
  rw [Nat.zero_add, overlay, List.getD_eq_getElem?_getD, hbyte]
  rfl

theorem length_rows (f : ℕ → ℕ → PixelByte) (h L : ℕ) :
    ((List.range h).flatMap fun y => (List.range L).map (f y)).length = h * L := by
  induction h with
  | zero => simp
  | succ h ih =>
    rw [List.range_succ, List.flatMap_append, List.length_append, ih]
    simp
    ring

theorem Holds.rows {f : ℕ → ℕ → PixelByte} {h L : ℕ}
    (hrows : Holds work pos ((List.range h).flatMap fun y => (List.range L).map (f y)))
    {y i : ℕ} (hy : y < h) (hi : i < L) : work (pos + y * L + i) = f y i := by
  induction h with
  | zero => omega
  | succ h ih =>
    rw [List.range_succ, List.flatMap_append] at hrows
    by_cases hlast : y < h
    · exact ih hrows.append_left hlast
    · have hy' : y = h := by omega
      subst hy'
      have hrow := hrows.append_right
      rw [length_rows] at hrow
      apply hrow
      simp [hi]

end HoldsLemmas

/-! ## The search -/

section Search

variable {n pitch : ℕ} {oldframe newframe : Frame} {block : FrameBlock}

theorem searchVectors_spec (vs : List CodecVector) (possibles : ℕ) {best : CodecVector} {change : ℕ}
    (hchange : change = CompareBlock n pitch oldframe newframe best block) :
    (searchVectors n pitch oldframe newframe block vs possibles best change).2 =
        CompareBlock n pitch oldframe newframe
          (searchVectors n pitch oldframe newframe block vs possibles best change).1 block ∧
      ((searchVectors n pitch oldframe newframe block vs possibles best change).1 = best ∨
        (searchVectors n pitch oldframe newframe block vs possibles best change).1 ∈ vs) := by
  induction vs generalizing possibles best change with
  | nil => exact ⟨hchange, .inl rfl⟩
  | cons v vs ih =>
    rw [searchVectors]
    split
    · exact ⟨hchange, .inl rfl⟩
    · split
      · dsimp only
        split
        · obtain ⟨hsame, hmem⟩ := ih (possibles - 1)
            (rfl : _ = CompareBlock n pitch oldframe newframe v block)
          refine ⟨hsame, .inr ?_⟩
          rcases hmem with hv | hvs
          · rw [hv]
            exact List.mem_cons_self
          · exact List.mem_cons_of_mem _ hvs
        · obtain ⟨hsame, hmem⟩ := ih (possibles - 1) hchange
          exact ⟨hsame, hmem.imp id (List.mem_cons_of_mem _)⟩
      · obtain ⟨hsame, hmem⟩ := ih possibles hchange
        exact ⟨hsame, hmem.imp id (List.mem_cons_of_mem _)⟩

/-- The encoder's vector is one of the table, and its count is right. -/
theorem blockVector_spec :
    (blockVector n pitch oldframe newframe block).2 =
        CompareBlock n pitch oldframe newframe
          (blockVector n pitch oldframe newframe block).1 block ∧
      (blockVector n pitch oldframe newframe block).1 ∈ VectorTable := by
  obtain ⟨hsame, hmem⟩ :=
    @searchVectors_spec n pitch oldframe newframe block VectorTable 64 (0, 0) _ rfl
  refine ⟨hsame, ?_⟩
  rcases hmem with horigin | hmem
  · rw [blockVector, horigin]
    exact List.mem_cons_self
  · exact hmem

theorem vectorTable_le : ∀ v ∈ VectorTable, v.1 ≤ 10 ∧ v.2 ≤ 10 := by
  intro v hv
  rcases List.mem_cons.1 hv with rfl | hv
  · exact ⟨by decide, by decide⟩
  · obtain ⟨s, hs, hv⟩ := List.mem_flatMap.1 hv
    obtain ⟨y, hy, hv⟩ := List.mem_flatMap.1 hv
    obtain ⟨x, hx, hv⟩ := List.mem_filterMap.1 hv
    have hs' := List.mem_range'_1.1 hs
    have hx' := List.mem_range.1 hx
    have hy' := List.mem_range.1 hy
    dsimp only at hv
    split at hv
    · cases hv
      exact ⟨by dsimp only; omega, by dsimp only; omega⟩
    · cases hv

/-- Where no pixel differs, the colours are the same. -/
theorem colour_of_compare (v : CodecVector)
    (h : CompareBlock n pitch oldframe newframe v block = 0) {p : ℕ} (hp : p ∈ block.pixels pitch) :
    colour n oldframe (block.source pitch v + p) = colour n newframe (block.start + p) := by
  have hnone := List.countP_eq_zero.mp h p hp
  simpa using hnone

end Search

theorem byte_of_colour {n : ℕ} {frame frame' : Frame} {i j : ℤ}
    (h : colour n frame i = colour n frame' j) {k : ℕ} (hk : k < min n 3) :
    frame (n * i + k) = frame' (n * j + k) := by
  have hbyte := List.map_inj_left.mp (h : List.map _ _ = List.map _ _) k (List.mem_range.mpr hk)
  exact hbyte

/-! ## The decoder -/

/-- A vector without a negative component is read back. -/
theorem readVector_eq {work : ℕ → PixelByte} {pos change : ℕ} {v : CodecVector}
    (hwork : Holds work pos (vectorBytes v change)) (hx : 0 ≤ v.1 ∧ v.1 ≤ 10)
    (hy : 0 ≤ v.2 ∧ v.2 ≤ 10) :
    readVector work pos = v ∧ (work pos).getLsbD 0 = decide (change ≠ 0) := by
  have hfirst : work pos = BitVec.ofInt 8 (2 * v.1) ||| (if change = 0 then 0#8 else 1#8) :=
    hwork 0 _ rfl
  have hsecond : work (pos + 1) = BitVec.ofInt 8 (2 * v.2) := hwork 1 _ rfl
  have htable : ∀ a b : Fin 11, ∀ more : Bool,
      (((BitVec.ofInt 8 (2 * (a : ℤ)) ||| (if more then 1#8 else 0#8)) >>> 1).toNat = a ∧
        (BitVec.ofInt 8 (2 * (a : ℤ)) ||| (if more then 1#8 else 0#8)).getLsbD 0 = more) ∧
      (BitVec.ofInt 8 (2 * (b : ℤ)) >>> 1).toNat = b := by decide
  obtain ⟨a, ha⟩ := Int.eq_ofNat_of_zero_le hx.1
  obtain ⟨b, hb⟩ := Int.eq_ofNat_of_zero_le hy.1
  obtain ⟨⟨hvx, hmore⟩, hvy⟩ := htable ⟨a, by omega⟩ ⟨b, by omega⟩ (decide (change ≠ 0))
  have hflag : (if change = 0 then 0#8 else 1#8) =
      if decide (change ≠ 0) = true then 1#8 else 0#8 := by
    by_cases hchange : change = 0 <;> simp [hchange]
  rw [readVector, hfirst, hsecond, hflag, ha, hb]
  refine ⟨Prod.ext_iff.mpr ⟨?_, ?_⟩, hmore⟩
  · rw [ha]
    exact congrArg Nat.cast hvx
  · rw [hb]
    exact congrArg Nat.cast hvy

section Decode

variable {n pitch : ℕ} {oldframe newframe dold dnew : Frame} {work : ℕ → PixelByte}
  {block : FrameBlock} {v : CodecVector}

/-- The pixel belongs to the block. -/
def FrameBlock.HasPixel (pitch : ℕ) (block : FrameBlock) (i : ℤ) : Prop :=
  ∃ p ∈ block.pixels pitch, i = block.start + p

/-- The data of a block, read where it was written. -/
theorem UnXorBlock_eq {workPos : ℕ} {data : ℕ → PixelByte}
    (hwork : Holds work workPos ((block.bytes n pitch).map data)) :
    UnXorBlock n pitch dold dnew work v block workPos =
      (block.bytes n pitch).foldl (fun (frame : Frame) (o : ℕ) =>
        Function.update frame (n * block.start + o)
          (dold (n * block.source pitch v + o) ^^^ data o)) dnew := by
  unfold UnXorBlock
  generalize block.bytes n pitch = os at hwork
  induction os generalizing workPos dnew with
  | nil => rfl
  | cons o os ih =>
    have hhead : work workPos = data o := hwork 0 _ rfl
    have htail : Holds work (workPos + 1) (os.map data) := by
      intro j byte hbyte
      rw [Nat.add_assoc, Nat.add_comm 1]
      exact hwork (j + 1) byte hbyte
    rw [List.zipIdx_cons, List.foldl_cons, List.foldl_cons, ih htail]
    simp only [hhead]

variable {i : ℤ} {k : ℕ}

/-- A pixel of a block that has been written. -/
theorem blockWrite_of_hasPixel {value : ℕ → PixelByte} {p : ℕ} (hp : p ∈ block.pixels pitch)
    (hi : i = block.start + p) (hk : k < n) :
    (block.bytes n pitch).foldl (fun (frame : Frame) (o : ℕ) =>
      Function.update frame (n * block.start + o) (value o)) dnew (n * i + k) =
      value (n * p + k) := by
  have haddress : (n : ℤ) * i + k = n * block.start + (n * p + k : ℕ) := by
    rw [hi]
    push_cast
    ring
  rw [haddress]
  exact foldl_update_of_mem _ _ (FrameBlock.mem_bytes.mpr ⟨p, hp, k, hk, rfl⟩)

/-- The bytes of a block are those of its pixels. -/
theorem address_ne_of_not_hasPixel {o : ℕ} (hi : ¬block.HasPixel pitch i) (hk : k < n)
    (ho : o ∈ block.bytes n pitch) : (n : ℤ) * block.start + o ≠ n * i + k := by
  intro heq
  obtain ⟨p, hp, l, hl, rfl⟩ := FrameBlock.mem_bytes.mp ho
  have haddress : (n : ℤ) * (block.start + p) + l = n * i + k := by
    rw [← heq]
    push_cast
    ring
  exact hi ⟨p, hp, (byte_address_inj hl hk haddress).1.symm⟩

theorem blockWrite_of_not_hasPixel {value : ℕ → PixelByte} (hi : ¬block.HasPixel pitch i)
    (hk : k < n) :
    (block.bytes n pitch).foldl (fun (frame : Frame) (o : ℕ) =>
      Function.update frame (n * block.start + o) (value o)) dnew (n * i + k) =
      dnew (n * i + k) := by
  exact foldl_update_of_ne _ _ fun o ho => address_ne_of_not_hasPixel hi hk ho

/-- The bytes that the encoder writes for a block: its vector and its data. -/
def blockData (n pitch : ℕ) (oldframe newframe : Frame) (block : FrameBlock) : List PixelByte :=
  let found := blockVector n pitch oldframe newframe block
  if found.2 = 0 then [] else AddXorBlock n pitch oldframe newframe found.1 block

def blockVectorBytes (n pitch : ℕ) (oldframe newframe : Frame) (block : FrameBlock) :
    List PixelByte :=
  let found := blockVector n pitch oldframe newframe block
  vectorBytes found.1 found.2

/-- The block has not moved to the right or down: its place in the old frame is not to the
left of the new one or above it. -/
def FrameBlock.Forward (n pitch : ℕ) (oldframe newframe : Frame) (block : FrameBlock) : Prop :=
  0 ≤ (blockVector n pitch oldframe newframe block).1.1 ∧
    0 ≤ (blockVector n pitch oldframe newframe block).1.2

/-- **The decoder's blocks have the encoder's colours.**  The induction is on the blocks;
pixels of blocks that are already done keep their colour. -/
theorem unXorBlocks_colour (blocks : List FrameBlock) {vectors workPos : ℕ}
    (hold : ∀ i, colour n oldframe i = colour n dold i)
    (hforward : ∀ block ∈ blocks, block.Forward n pitch oldframe newframe)
    (hvectors : Holds work vectors (blocks.flatMap (blockVectorBytes n pitch oldframe newframe)))
    (hdata : Holds work workPos (blocks.flatMap (blockData n pitch oldframe newframe)))
    (hk : k < min n 3)
    (hi : (∃ block ∈ blocks, block.HasPixel pitch i) ∨ dnew (n * i + k) = newframe (n * i + k)) :
    unXorBlocks n pitch dold work blocks vectors workPos dnew (n * i + k) =
      newframe (n * i + k) := by
  induction blocks generalizing vectors workPos dnew with
  | nil =>
    rcases hi with ⟨block, hblock, -⟩ | hi
    · exact absurd hblock List.not_mem_nil
    · exact hi
  | cons block blocks ih =>
    rw [List.flatMap_cons] at hvectors hdata
    obtain ⟨hcount, htable⟩ := @blockVector_spec n pitch oldframe newframe block
    obtain ⟨hx, hy⟩ := hforward block List.mem_cons_self
    obtain ⟨hread, hmore⟩ := readVector_eq hvectors.append_left ⟨hx, (vectorTable_le _ htable).1⟩
      ⟨hy, (vectorTable_le _ htable).2⟩
    have hforward' : ∀ block ∈ blocks, block.Forward n pitch oldframe newframe :=
      fun block' hblock' => hforward block' (List.mem_cons_of_mem _ hblock')
    have hkn : k < n := by omega
    have holdbyte : ∀ j : ℤ, oldframe (n * j + k) = dold (n * j + k) := fun j =>
      byte_of_colour (hold j) hk
    have hrest : ∀ frame : Frame,
        (block.HasPixel pitch i → frame (n * i + k) = newframe (n * i + k)) →
        (¬block.HasPixel pitch i → frame (n * i + k) = dnew (n * i + k)) →
        (∃ block ∈ blocks, block.HasPixel pitch i) ∨ frame (n * i + k) = newframe (n * i + k) := by
      intro frame hmine hother
      by_cases hhas : block.HasPixel pitch i
      · exact .inr (hmine hhas)
      · rcases hi with ⟨block', hblock', hhas'⟩ | hi
        · rcases List.mem_cons.mp hblock' with rfl | hblock'
          · exact absurd hhas' hhas
          · exact .inl ⟨block', hblock', hhas'⟩
        · exact .inr ((hother hhas).trans hi)
    rw [unXorBlocks, hread, hmore]
    by_cases hchange : (blockVector n pitch oldframe newframe block).2 = 0
    · -- nothing has changed: the block is copied
      have hnone : blockData n pitch oldframe newframe block = [] := if_pos hchange
      rw [hnone, List.nil_append] at hdata
      simp only [hchange, ne_eq, not_true, decide_false, Bool.false_eq_true, if_false]
      refine ih hforward' hvectors.append_right hdata (hrest _ ?_ ?_)
      · rintro ⟨p, hp, hip⟩
        rw [CopyBlock, blockWrite_of_hasPixel hp hip hkn]
        have hcolour := colour_of_compare _ (hcount.symm.trans hchange) hp
        have hbyte := byte_of_colour hcolour hk
        rw [holdbyte, ← hip] at hbyte
        rw [← hbyte]
        congr 1
        push_cast
        ring
      · intro hhas
        exact blockWrite_of_not_hasPixel hhas hkn
    · -- the difference is in the work buffer
      have hsome : blockData n pitch oldframe newframe block =
          AddXorBlock n pitch oldframe newframe
            (blockVector n pitch oldframe newframe block).1 block := if_neg hchange
      rw [hsome] at hdata
      simp only [hchange, ne_eq, not_false_eq_true, decide_true, if_true]
      rw [UnXorBlock_eq hdata.append_left]
      have hlength : (AddXorBlock n pitch oldframe newframe
          (blockVector n pitch oldframe newframe block).1 block).length =
          (block.bytes n pitch).length := List.length_map _
      have hdata' := hdata.append_right
      rw [hlength] at hdata'
      refine ih hforward' hvectors.append_right hdata' (hrest _ ?_ ?_)
      · rintro ⟨p, hp, hip⟩
        rw [blockWrite_of_hasPixel hp hip hkn]
        have hnew : (n : ℤ) * block.start + (n * p + k : ℕ) = n * i + k := by
          rw [hip]
          push_cast
          ring
        have hsource : ∀ a : ℤ, (n : ℤ) * a + (n * p + k : ℕ) = n * (a + p) + k := by
          intro a
          push_cast
          ring
        rw [hnew, hsource, holdbyte, ← BitVec.xor_assoc, BitVec.xor_comm _ (newframe _),
          BitVec.xor_assoc, BitVec.xor_self, BitVec.xor_zero]
      · intro hhas
        exact blockWrite_of_not_hasPixel hhas hkn

theorem unXorBlocks_outside (blocks : List FrameBlock) {vectors workPos : ℕ} (hk : k < n)
    (hi : ∀ block ∈ blocks, ¬block.HasPixel pitch i) :
    unXorBlocks n pitch dold work blocks vectors workPos dnew (n * i + k) = dnew (n * i + k) := by
  induction blocks generalizing vectors workPos dnew with
  | nil => rfl
  | cons block blocks ih =>
    have hhas := hi block List.mem_cons_self
    have hi' : ∀ block ∈ blocks, ¬block.HasPixel pitch i := fun block' hblock' =>
      hi block' (List.mem_cons_of_mem _ hblock')
    rw [unXorBlocks]
    split
    · rw [ih hi', UnXorBlock]
      apply foldl_update_of_ne
      intro p hp
      exact address_ne_of_not_hasPixel hhas hk (List.fst_mem_of_mem_zipIdx hp)
    · rw [ih hi', CopyBlock, blockWrite_of_not_hasPixel hhas hk]

end Decode

end AugraDosbox
