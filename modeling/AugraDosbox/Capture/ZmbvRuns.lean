import AugraDosbox.Capture.ZmbvFrames
import AugraDosbox.Lib.Ends
import Mathlib.Algebra.BigOperators.Ring.List

/-!
# What is recorded is what is played

The decoder's picture after every frame of a recording.

* `VideoCodec.Arranged` — a codec whose buffers, blocks and sizes are those of its format,
  with black borders;
* `Recording.InStep` — the decoder's last picture has the colours of the encoder's, and
  their palettes are the same;
* `Recording.Forward` — no block of a delta frame has its best match to the left of its
  place or above it: the decoder takes a negative component of a vector for a large one;
* **`Recording.run_shows`** — in a recording of such frames the decoder shows every frame.
-/

namespace AugraDosbox

open Total

/-! ## Sizes -/

theorem toBytesPerPixel_headerFormat (format : ZMBV_FORMAT) :
    ZMBV_ToBytesPerPixel (headerFormat format) = ZMBV_ToBytesPerPixel format := by
  cases format <;> rfl

theorem headerFormat_eq_8 (format : ZMBV_FORMAT) :
    headerFormat format = .BPP_8 ↔ format = .BPP_8 := by
  cases format <;> decide

/-- A sum over a grid whose terms are products. -/
theorem sum_grid (f : FrameBlock → ℕ) (g : ℕ → ℕ → FrameBlock) (a b : ℕ → ℕ)
    (hf : ∀ y x, f (g y x) = a x * b y) (ys xs : List ℕ) :
    ((ys.flatMap fun y => xs.map (g y)).map f).sum = (xs.map a).sum * (ys.map b).sum := by
  have hrow : ∀ y, ((xs.map (g y)).map f).sum = (xs.map a).sum * b y := by
    intro y
    induction xs with
    | nil => simp
    | cons x xs ih =>
      simp only [List.map_cons, List.sum_cons, hf] at ih ⊢
      rw [ih]
      ring
  induction ys with
  | nil => simp
  | cons y ys ih =>
    rw [List.flatMap_cons, List.map_append, List.sum_append, ih, hrow, List.map_cons, List.sum_cons]
    ring

/-- The blocks' sizes in one direction add up. -/
theorem sum_blockSizes (size : ℕ) :
    ((List.range (size / 16 + if size % 16 ≠ 0 then 1 else 0)).map fun b =>
      if size % 16 ≠ 0 ∧ b = size / 16 + (if size % 16 ≠ 0 then 1 else 0) - 1
        then size % 16 else 16).sum = size := by
  have hfull : ∀ (m : ℕ) (f : ℕ → ℕ), (∀ b < m, f b = 16) → ((List.range m).map f).sum = m * 16 := by
    intro m f hf
    rw [List.map_congr_left fun b hb => hf b (List.mem_range.mp hb), List.map_const',
      List.sum_replicate_nat, List.length_range]
  by_cases hleft : size % 16 = 0
  · simp only [hleft, ne_eq, not_true, false_and, if_false, Nat.add_zero]
    rw [hfull _ _ fun _ _ => rfl]
    omega
  · simp only [hleft, ne_eq, not_false_eq_true, true_and, if_true, Nat.add_sub_cancel]
    rw [List.range_succ, List.map_append, List.sum_append, hfull]
    · simp
      omega
    · intro b hb
      exact if_neg (by omega)

namespace VideoCodec

variable {c : VideoCodec}

theorem length_bytes (n pitch : ℕ) (block : FrameBlock) :
    (block.bytes n pitch).length = block.dx * (block.dy * n) := by
  have hpixels : (block.pixels pitch).length = block.dy * block.dx := by
    rw [FrameBlock.pixels, List.length_flatMap]
    simp [List.map_const']
  rw [FrameBlock.bytes, List.length_flatMap]
  simp only [List.length_map, List.length_range, List.map_const', List.sum_replicate_nat, hpixels]
  ring

/-- The bytes of all blocks are those of the picture. -/
theorem sum_length_bytes (c : VideoCodec) (n : ℕ) :
    ((c.frameBlocks 16 16).map fun block => (block.bytes n c.pitch).length).sum =
      c.width * (c.height * n) := by
  have hgrid := sum_grid (fun block => (block.bytes n c.pitch).length)
    (fun y x => ⟨(y * 16 + MAX_VECTOR) * c.pitch + x * 16 + MAX_VECTOR,
      if c.width % 16 ≠ 0 ∧ x = c.width / 16 + (if c.width % 16 ≠ 0 then 1 else 0) - 1
        then c.width % 16 else 16,
      if c.height % 16 ≠ 0 ∧ y = c.height / 16 + (if c.height % 16 ≠ 0 then 1 else 0) - 1
        then c.height % 16 else 16⟩)
    (fun x => if c.width % 16 ≠ 0 ∧ x = c.width / 16 + (if c.width % 16 ≠ 0 then 1 else 0) - 1
      then c.width % 16 else 16)
    (fun y => (if c.height % 16 ≠ 0 ∧ y = c.height / 16 + (if c.height % 16 ≠ 0 then 1 else 0) - 1
      then c.height % 16 else 16) * n)
    (fun y x => length_bytes n c.pitch _)
    (List.range (c.height / 16 + if c.height % 16 ≠ 0 then 1 else 0))
    (List.range (c.width / 16 + if c.width % 16 ≠ 0 then 1 else 0))
  rw [List.sum_map_mul_right, sum_blockSizes, sum_blockSizes] at hgrid
  exact hgrid

theorem length_frameBlocks (c : VideoCodec) :
    (c.frameBlocks 16 16).length = ((c.height + 15) / 16) * ((c.width + 15) / 16) := by
  have hcount : ∀ size : ℕ, size / 16 + (if size % 16 ≠ 0 then 1 else 0) = (size + 15) / 16 := by
    intro size
    split <;> omega
  rw [frameBlocks, List.length_flatMap]
  simp only [List.length_map, List.length_range, List.map_const', List.sum_replicate_nat, hcount]

/-! ## Codecs -/

/-- Sizes, blocks and buffers are those of the codec's format. -/
structure Arranged (c : VideoCodec) : Prop where
  pixelsize : c.pixelsize = ZMBV_ToBytesPerPixel c.format
  palsize : c.palsize = if c.format = .BPP_8 then 256 else 0
  blocks : c.format ≠ .NONE → c.blocks = c.frameBlocks 16 16
  bufsize : c.format ≠ .NONE →
    c.bufsize = (c.height + 2 * MAX_VECTOR) * c.pitch * c.pixelsize + 2048
  border1 : c.Bordered c.buf1
  border2 : c.Bordered c.buf2

theorem arranged_setup (width height : ℕ) : (setup width height).Arranged :=
  ⟨rfl, rfl, fun h => absurd rfl h, fun h => absurd rfl h, fun _ _ _ _ => rfl, fun _ _ _ _ => rfl⟩

theorem Arranged.newframe (h : c.Arranged) : c.Bordered c.newframe := by
  unfold VideoCodec.newframe
  split
  · exact h.border1
  · exact h.border2

theorem Arranged.oldframe (h : c.Arranged) : c.Bordered c.oldframe := by
  unfold VideoCodec.oldframe
  split
  · exact h.border2
  · exact h.border1

/-- The codec is arranged for the format, for pictures of the same size. -/
structure Fitted (c : VideoCodec) (format : ZMBV_FORMAT) (c' : VideoCodec) : Prop where
  arranged : c'.Arranged
  format : c'.format = format
  width : c'.width = c.width
  height : c'.height = c.height

namespace Fitted

variable {format : ZMBV_FORMAT} {c' : VideoCodec}

theorem pitch (h : Fitted c format c') : c'.pitch = c.pitch := by
  unfold VideoCodec.pitch
  rw [h.width]

theorem pixelsize (h : Fitted c format c') : c'.pixelsize = ZMBV_ToBytesPerPixel format := by
  rw [h.arranged.pixelsize, h.format]

theorem palsize (h : Fitted c format c') :
    c'.palsize = if format = .BPP_8 then 256 else 0 := by
  rw [h.arranged.palsize, h.format]

theorem setNewframe (h : Fitted c format c') {frame : Frame} (hframe : c'.Bordered frame) :
    Fitted c format (c'.setNewframe frame) where
  arranged := by
    refine ⟨h.arranged.pixelsize, h.arranged.palsize, h.arranged.blocks, h.arranged.bufsize, ?_, ?_⟩
    · change c'.Bordered (if c'.newIsBuf1 then frame else c'.buf1)
      split
      · exact hframe
      · exact h.arranged.border1
    · change c'.Bordered (if c'.newIsBuf1 then c'.buf2 else frame)
      split
      · exact h.arranged.border2
      · exact hframe
  format := h.format
  width := h.width
  height := h.height

theorem swapFrames (h : Fitted c format c') : Fitted c format c'.swapFrames :=
  ⟨⟨h.arranged.pixelsize, h.arranged.palsize, h.arranged.blocks, h.arranged.bufsize,
    h.arranged.border1, h.arranged.border2⟩, h.format, h.width, h.height⟩

/-- Neither the palette nor the work buffer matters. -/
theorem withData (h : Fitted c format c') (palette work : ℕ → PixelByte) (newIsBuf1 : Bool) :
    Fitted c format { c' with palette := palette, work := work, newIsBuf1 := newIsBuf1 } :=
  ⟨⟨h.arranged.pixelsize, h.arranged.palsize, h.arranged.blocks, h.arranged.bufsize,
    h.arranged.border1, h.arranged.border2⟩, h.format, h.width, h.height⟩

end Fitted

theorem Arranged.fitted (h : c.Arranged) : Fitted c c.format c := ⟨h, rfl, rfl, rfl⟩

theorem setupBuffers_fitted {format : ZMBV_FORMAT} (hformat : ZMBV_ToBytesPerPixel format ≠ 0) :
    Ends (c.SetupBuffers format 16 16) fun c' =>
      Fitted c format c' ∧ c'.palette = c.palette := by
  unfold SetupBuffers
  rw [if_neg hformat]
  refine ends_some ⟨⟨⟨rfl, rfl, fun _ => rfl, fun _ => rfl, ?_, ?_⟩, rfl, rfl, rfl⟩, rfl⟩
  · exact fun _ _ _ _ => rfl
  · exact fun _ _ _ _ => rfl

theorem ne_none_of_bytes {format : ZMBV_FORMAT} (h : ZMBV_ToBytesPerPixel format ≠ 0) :
    format ≠ .NONE := by
  rintro rfl
  exact h rfl

/-! ## The encoder -/

/-- The new frame has these lines. -/
def Draws (c : VideoCodec) (lines : List Line) : Prop :=
  ∀ y line, lines[y]? = some line → ∀ x < c.width, ∀ k < c.pixelsize,
    c.newframe (c.pixelsize * c.pixelIndex y x + k) = line (c.pixelsize * x + k)

/-- The palette that a key frame sets. -/
def keyPalette (c : VideoCodec) (pal : Option Palette) : ℕ → PixelByte :=
  if c.palsize ≠ 0 then pal.elim (fun _ => 0) Palette.bytes else c.palette

theorem prepareKey_eq (pal : Option Palette) :
    c.prepareKey pal = ({ c with palette := c.keyPalette pal },
      ⟨0, Mask_KeyFrame, some ⟨0, 1, 1, headerFormat c.format, 16, 16⟩,
        paletteBytes c.palsize (c.keyPalette pal)⟩) := by
  unfold prepareKey keyPalette
  split
  · rfl
  · rename_i hzero
    rw [not_not] at hzero
    refine Prod.ext_iff.mpr ⟨rfl, ?_⟩
    rw [hzero]
    rfl

theorem draws_of_lines {compress : Compress} {calls : List (List Line)}
    (hdone : compress.linesDone = 0) (hlines : calls.flatten.length = c.height)
    {s : VideoCodec × Compress}
    (hs : s = calls.foldl (fun s lines => CompressLines lines s) (c, compress)) :
    s.1.Draws calls.flatten ∧
      (∃ frame, s.1 = c.setNewframe frame ∧ (c.Bordered c.newframe → c.Bordered frame)) ∧
      s.2 = { compress with linesDone := calls.flatten.length } := by
  rw [compressLines_calls _ _ _ (by rw [hdone]; omega)] at hs
  subst hs
  refine ⟨fun y line hline x hx k hk => ?_, ⟨_, rfl, fun hb => ?_⟩, ?_⟩
  · have hrow := @drawLines_row c calls.flatten compress.linesDone c.newframe y x k line hline hx hk
    rw [hdone, Nat.zero_add] at hrow
    simp only [newframe_setNewframe]
    rw [hdone]
    exact hrow
  · exact drawLines_bordered hb (by rw [hdone]; omega)
  · simp [hdone]

theorem prepare_key {key : Bool} {format : ZMBV_FORMAT} {pal : Option Palette} (h : c.Arranged)
    (hformat : ZMBV_ToBytesPerPixel format ≠ 0) (hkey : key = true ∨ format ≠ c.format) :
    Ends (c.PrepareCompressFrame key format pal) fun p =>
      ∃ c', Fitted c format c' ∧ c'.palette = c.palette ∧ p = c'.prepareKey pal := by
  unfold PrepareCompressFrame
  apply Ends.ite
  · intro _
    refine (setupBuffers_fitted hformat).map fun c' ⟨hfit, hpal⟩ => ?_
    exact ⟨c'.swapFrames, hfit.swapFrames, hpal, rfl⟩
  · intro hsame
    rw [not_not] at hsame
    have hpressed : key = true := hkey.resolve_right fun hne => hne hsame
    rw [hpressed, hsame]
    exact ends_some ⟨c.swapFrames, h.fitted.swapFrames, rfl, rfl⟩

theorem keyPalette_unused (pal : Option Palette) (hpal : c.palsize ≠ 0) (i : ℕ) :
    c.keyPalette pal (4 * i + 3) = 0 := by
  rw [keyPalette, if_pos hpal]
  cases pal with
  | none => rfl
  | some pal => exact pal.unused i

theorem collect_key {input : FrameInput} (h : c.Arranged)
    (hformat : ZMBV_ToBytesPerPixel input.format ≠ 0)
    (hlines : input.calls.flatten.length = c.height)
    (hkey : input.key = true ∨ input.format ≠ c.format) :
    Ends (c.collect input) fun s =>
      Fitted c input.format s.1 ∧ s.1.Draws input.calls.flatten ∧
        s.2.firstByte = Mask_KeyFrame ∧
        s.2.header = some ⟨0, 1, 1, headerFormat input.format, 16, 16⟩ ∧
        s.2.workBytes = paletteBytes s.1.palsize s.1.palette ∧
        (s.1.palsize = 0 → s.1.palette = c.palette) ∧
        (s.1.palsize ≠ 0 → ∀ i, s.1.palette (4 * i + 3) = 0) := by
  refine (prepare_key h hformat hkey).map fun p ⟨c', hfit, hpal, hp⟩ => ?_
  rw [prepareKey_eq] at hp
  have hfit' : Fitted c input.format { c' with palette := c'.keyPalette input.pal } :=
    hfit.withData _ c'.work c'.newIsBuf1
  subst hp
  obtain ⟨hdraws, ⟨frame, hframe, hborder⟩, hcompress⟩ :=
    @draws_of_lines { c' with palette := c'.keyPalette input.pal }
      ⟨0, Mask_KeyFrame, some ⟨0, 1, 1, headerFormat c'.format, 16, 16⟩,
        paletteBytes c'.palsize (c'.keyPalette input.pal)⟩
      input.calls rfl (hlines.trans hfit.height.symm) _ rfl
  refine ⟨?_, hdraws, ?_, ?_, ?_, ?_, ?_⟩
  · rw [hframe]
    exact hfit'.setNewframe (hborder hfit'.arranged.newframe)
  · rw [hcompress]
  · rw [hcompress, hfit.format]
  · rw [hcompress, hframe]
    rfl
  · rw [hframe]
    intro hzero
    exact (if_neg (not_not.mpr hzero)).trans hpal
  · rw [hframe]
    exact fun hne i => @keyPalette_unused c' input.pal hne i

/-- What a delta frame says about the palette. -/
def PaletteDelta (c : VideoCodec) (s : VideoCodec × Compress) : Prop :=
  (s.2.firstByte = 0 ∧ s.2.workBytes = [] ∧ ∀ j < 4 * s.1.palsize, s.1.palette j = c.palette j) ∨
    (s.2.firstByte = Mask_DeltaPalette ∧
      s.2.workBytes = paletteBytes s.1.palsize (fun j => c.palette j ^^^ s.1.palette j) ∧
      ∀ i, s.1.palette (4 * i + 3) = 0)

theorem prepareDelta_spec (pal : Option Palette) :
    ∃ palette, (c.prepareDelta pal).1 = { c with palette := palette } ∧
      (c.palsize = 0 → palette = c.palette) ∧
      (c.prepareDelta pal).2.linesDone = 0 ∧ (c.prepareDelta pal).2.header = none ∧
      c.PaletteDelta (c.prepareDelta pal) := by
  unfold prepareDelta
  split
  · exact ⟨c.palette, rfl, fun _ => rfl, rfl, rfl, .inl ⟨rfl, rfl, fun _ _ => rfl⟩⟩
  · rename_i pal
    split
    · rename_i hdiffers
      exact ⟨pal.bytes, rfl, fun hzero => absurd hzero hdiffers.1, rfl, rfl,
        .inr ⟨rfl, rfl, pal.unused⟩⟩
    · exact ⟨c.palette, rfl, fun _ => rfl, rfl, rfl, .inl ⟨rfl, rfl, fun _ _ => rfl⟩⟩

theorem collect_delta {input : FrameInput} (h : c.Arranged)
    (hlines : input.calls.flatten.length = c.height) (hkey : input.key = false)
    (hformat : input.format = c.format) :
    Ends (c.collect input) fun s =>
      Fitted c c.format s.1 ∧ s.1.Draws input.calls.flatten ∧ s.1.oldframe = c.newframe ∧
        s.2.header = none ∧ (s.1.palsize = 0 → s.1.palette = c.palette) ∧ c.PaletteDelta s := by
  unfold collect PrepareCompressFrame
  rw [if_neg (not_not.mpr hformat), hkey]
  obtain ⟨palette, hprepared, hzero, hdone, hheader, hdelta⟩ :=
    @prepareDelta_spec c.swapFrames input.pal
  have hfit : Fitted c c.format { c.swapFrames with palette := palette } :=
    h.fitted.swapFrames.withData palette c.work (!c.newIsBuf1)
  refine ends_some ?_
  obtain ⟨hdraws, ⟨frame, hframe, hborder⟩, hcompress⟩ :=
    @draws_of_lines { c.swapFrames with palette := palette } (c.swapFrames.prepareDelta input.pal).2
      input.calls hdone (hlines.trans hfit.height.symm) _ rfl
  have hpair : c.swapFrames.prepareDelta input.pal =
      ({ c.swapFrames with palette := palette }, (c.swapFrames.prepareDelta input.pal).2) :=
    Prod.ext_iff.mpr ⟨hprepared, rfl⟩
  rw [← hpair] at hdraws hframe hcompress
  simp only [Bool.false_eq_true, if_false]
  refine ⟨?_, hdraws, ?_, ?_, ?_, ?_⟩
  · rw [hframe]
    exact hfit.setNewframe (hborder hfit.arranged.newframe)
  · rw [hframe, oldframe_setNewframe]
    exact oldframe_swapFrames
  · rw [hcompress]
    exact hheader
  · rw [hframe]
    exact hzero
  · unfold PaletteDelta at hdelta ⊢
    rw [hprepared] at hdelta
    rw [hcompress, hframe]
    exact hdelta

/-! ## The bytes of a delta frame -/

theorem length_vectors (n pitch : ℕ) (oldframe newframe : Frame) (blocks : List FrameBlock) :
    (blocks.flatMap (blockVectorBytes n pitch oldframe newframe)).length = 2 * blocks.length := by
  induction blocks with
  | nil => rfl
  | cons block blocks ih =>
    rw [List.flatMap_cons, List.length_append, ih, List.length_cons]
    change 2 + 2 * blocks.length = _
    omega

theorem length_data_le (n pitch : ℕ) (oldframe newframe : Frame) (blocks : List FrameBlock) :
    (blocks.flatMap (blockData n pitch oldframe newframe)).length ≤
      (blocks.map fun block => (block.bytes n pitch).length).sum := by
  induction blocks with
  | nil => exact Nat.le_refl _
  | cons block blocks ih =>
    rw [List.flatMap_cons, List.length_append, List.map_cons, List.sum_cons]
    refine Nat.add_le_add ?_ ih
    unfold blockData
    dsimp only
    split
    · exact Nat.zero_le _
    · exact Nat.le_of_eq (List.length_map _)

theorem alignWork_bounds (count offset : ℕ) :
    offset + 2 * count ≤ alignWork count offset ∧ alignWork count offset ≤ offset + 2 * count + 3 := by
  unfold alignWork
  omega

/-- The vectors, bytes that align, and the data. -/
theorem addXorFrame_eq (n pitch : ℕ) (oldframe newframe : Frame) (blocks : List FrameBlock)
    (work : ℕ → PixelByte) (workUsed : ℕ) :
    ∃ padding : List PixelByte,
      padding.length = alignWork blocks.length workUsed - (workUsed + 2 * blocks.length) ∧
      AddXorFrame n pitch oldframe newframe blocks work workUsed =
        blocks.flatMap (blockVectorBytes n pitch oldframe newframe) ++ padding ++
          blocks.flatMap (blockData n pitch oldframe newframe) := by
  refine ⟨(List.range (alignWork blocks.length workUsed - (workUsed + 2 * blocks.length))).map
    fun i => work (workUsed + 2 * blocks.length + i), by simp, ?_⟩
  unfold AddXorFrame
  simp only [List.flatMap_map]
  rfl

variable {work : ℕ → PixelByte} {frame : Frame} {d : VideoCodec}

/-- The decoder's work buffer holds the vectors and the data where it looks for them. -/
theorem holds_addXorFrame {n pitch : ℕ} {oldframe newframe : Frame} {blocks : List FrameBlock}
    {work' : ℕ → PixelByte} {workUsed : ℕ}
    (h : Holds work workUsed (AddXorFrame n pitch oldframe newframe blocks work' workUsed)) :
    Holds work workUsed (blocks.flatMap (blockVectorBytes n pitch oldframe newframe)) ∧
      Holds work (alignWork blocks.length workUsed)
        (blocks.flatMap (blockData n pitch oldframe newframe)) := by
  obtain ⟨padding, hpadding, heq⟩ := addXorFrame_eq n pitch oldframe newframe blocks work' workUsed
  rw [heq] at h
  refine ⟨h.append_left.append_left, ?_⟩
  have hdata := h.append_right
  rw [List.length_append, length_vectors, hpadding] at hdata
  have halign := alignWork_bounds blocks.length workUsed
  have hpos : workUsed + (2 * blocks.length +
      (alignWork blocks.length workUsed - (workUsed + 2 * blocks.length))) =
      alignWork blocks.length workUsed := by omega
  rw [hpos] at hdata
  exact hdata

theorem length_addXorFrame_le {n pitch : ℕ} {oldframe newframe : Frame} {blocks : List FrameBlock}
    {work : ℕ → PixelByte} {workUsed : ℕ} :
    (AddXorFrame n pitch oldframe newframe blocks work workUsed).length ≤
      2 * blocks.length + 3 + (blocks.map fun block => (block.bytes n pitch).length).sum := by
  obtain ⟨padding, hpadding, heq⟩ := addXorFrame_eq n pitch oldframe newframe blocks work workUsed
  have halign := alignWork_bounds blocks.length workUsed
  have hdata := length_data_le n pitch oldframe newframe blocks
  rw [heq, List.length_append, List.length_append, length_vectors, hpadding]
  omega

/-! ## The decoder -/

theorem paletteBytes_eq (palsize : ℕ) (f : ℕ → PixelByte) :
    paletteBytes palsize f =
      (List.range palsize).flatMap fun i => (List.range 3).map fun j => f (4 * i + j) := rfl

theorem length_paletteBytes (palsize : ℕ) (f : ℕ → PixelByte) :
    (paletteBytes palsize f).length = 3 * palsize := by
  rw [paletteBytes_eq, length_rows fun i j => f (4 * i + j)]
  omega

/-- A byte of the palette in the work buffer. -/
theorem work_paletteBytes {palsize j : ℕ} {f : ℕ → PixelByte}
    (h : Holds work 0 (paletteBytes palsize f)) (hj : j < 4 * palsize) (hused : j % 4 < 3) :
    work (3 * (j / 4) + j % 4) = f j := by
  rw [paletteBytes_eq] at h
  have hbyte := Holds.rows h (show j / 4 < palsize by omega) hused
  rw [Nat.zero_add, Nat.mul_comm] at hbyte
  rw [hbyte]
  congr 1
  omega

theorem setPalette_of_zero (f : ℕ → PixelByte → PixelByte) (hzero : c.palsize = 0) :
    c.setPalette f = c := by
  have hsame : (fun j => if j < 4 * c.palsize ∧ j % 4 < 3 then f (3 * (j / 4) + j % 4) (c.palette j)
      else c.palette j) = c.palette := by
    funext j
    exact if_neg (by omega)
  unfold setPalette
  rw [hsame]

theorem decodeKey_spec {c₀ : VideoCodec} {format : ZMBV_FORMAT} {pal : ℕ → PixelByte}
    (h : Fitted c₀ format c)
    (hwork : Holds c.work 0 (paletteBytes c.palsize pal ++
      (List.range c.height).flatMap fun y => (List.range (c.width * c.pixelsize)).map
        fun (i : ℕ) => frame (c.lineStart y + i)))
    :
    Fitted c₀ format c.decodeKey ∧
      (∀ y < c.height, ∀ x < c.width, ∀ k < c.pixelsize,
        c.decodeKey.newframe (c.pixelsize * c.pixelIndex y x + k) =
          frame (c.pixelsize * c.pixelIndex y x + k)) ∧
      ∀ j, c.decodeKey.palette j =
        if j < 4 * c.palsize ∧ j % 4 < 3 then pal j else c.palette j := by
  -- the palette is set whether or not there is one
  have hpalette : (if c.palsize ≠ 0 then c.setPalette fun i _ => c.work i else c) =
      c.setPalette fun i _ => c.work i := by
    split
    · rfl
    · rename_i hzero
      exact (setPalette_of_zero _ (not_not.mp hzero)).symm
  have hdecode : c.decodeKey =
      { c.setPalette (fun i _ => c.work i) with newIsBuf1 := true }.setNewframe
      (c.drawLines (c.workLines (3 * c.palsize) c.height) 0 c.buf1) := by
    unfold decodeKey
    simp only [hpalette]
    congr 1
    rw [← readLines_eq, ← List.range_eq_range']
    refine readLines_congr ?_ ?_ ?_ _ _ _ <;> rfl
  have hborder : c.Bordered (c.drawLines (c.workLines (3 * c.palsize) c.height) 0 c.buf1) :=
    drawLines_bordered h.arranged.border1 (by rw [length_workLines]; omega)
  rw [hdecode]
  refine ⟨(h.withData _ c.work true).setNewframe hborder, ?_, ?_⟩
  · intro y hy x hx k hk
    rw [newframe_setNewframe]
    have hrow := @drawLines_row c (c.workLines (3 * c.palsize) c.height) 0 c.buf1 y x k _
      (workLines_getElem c.height hy) hx hk
    rw [Nat.zero_add] at hrow
    rw [hrow]
    have hlines := hwork.append_right
    rw [length_paletteBytes, Nat.zero_add] at hlines
    have hlt : c.pixelsize * x + k < c.width * c.pixelsize := by
      have hmul : c.pixelsize * (x + 1) ≤ c.pixelsize * c.width := Nat.mul_le_mul_left _ hx
      rw [Nat.mul_add, Nat.mul_one] at hmul
      rw [Nat.mul_comm c.width]
      omega
    rw [Holds.rows hlines hy hlt]
    congr 1
    unfold lineStart pixelIndex
    push_cast
    ring
  · intro j
    change (if j < 4 * c.palsize ∧ j % 4 < 3 then c.work (3 * (j / 4) + j % 4) else c.palette j) = _
    by_cases hused : j < 4 * c.palsize ∧ j % 4 < 3
    · rw [if_pos hused, if_pos hused, work_paletteBytes hwork.append_left hused.1 hused.2]
    · rw [if_neg hused, if_neg hused]

theorem colour_eq_of_bytes {n : ℕ} {frame' : Frame} {i : ℤ}
    (h : ∀ k < min n 3, frame (n * i + k) = frame' (n * i + k)) :
    colour n frame i = colour n frame' i :=
  List.map_congr_left fun k hk => h k (List.mem_range.mp hk)

/-- Frames with the same bytes in the picture, and black borders, have the same colours. -/
theorem colour_of_picture {frame' : Frame} (hborder : c.Bordered frame)
    (hborder' : c.Bordered frame')
    (hpicture : ∀ y < c.height, ∀ x < c.width, ∀ k < c.pixelsize,
      frame' (c.pixelsize * c.pixelIndex y x + k) = frame (c.pixelsize * c.pixelIndex y x + k))
    (i : ℤ) : colour c.pixelsize frame i = colour c.pixelsize frame' i := by
  refine colour_eq_of_bytes fun k hk => ?_
  have hlt : k < c.pixelsize := by omega
  by_cases hinside : c.Inside i
  · obtain ⟨y, hy, x, hx, rfl⟩ := hinside
    exact (hpicture y hy x hx k hlt).symm
  · rw [hborder i hinside k hlt, hborder' i hinside k hlt]

theorem Fitted.pixelIndex {format : ZMBV_FORMAT} (h : Fitted c format d) (y x : ℕ) :
    d.pixelIndex y x = c.pixelIndex y x := by
  unfold VideoCodec.pixelIndex
  rw [h.pitch]

theorem Fitted.bordered_iff {format : ZMBV_FORMAT} (h : Fitted c format d)
    (hpixel : d.pixelsize = c.pixelsize) :
    d.Bordered frame ↔ c.Bordered frame := by
  have hinside : ∀ i, d.Inside i ↔ c.Inside i := by
    intro i
    unfold Inside
    simp only [h.height, h.width, h.pixelIndex]
  unfold Bordered
  simp only [hinside, hpixel]

/-- A key frame of the encoder in the decoder. -/
theorem decodeKey_packet {format : ZMBV_FORMAT} {e : VideoCodec} (he : e.Arranged)
    (hd : Fitted e format d) (hpixel : d.pixelsize = e.pixelsize) (hpalsize : d.palsize = e.palsize)
    (hwork : Holds d.work 0 (paletteBytes e.palsize e.palette ++ e.frameBytes)) :
    Fitted e format d.decodeKey ∧
      (∀ i, colour e.pixelsize e.newframe i = colour e.pixelsize d.decodeKey.newframe i) ∧
      ∀ j, d.decodeKey.palette j =
        if j < 4 * e.palsize ∧ j % 4 < 3 then e.palette j else d.palette j := by
  have hrows : e.frameBytes = (List.range d.height).flatMap fun y =>
      (List.range (d.width * d.pixelsize)).map fun (i : ℕ) => e.newframe (d.lineStart y + i) := by
    unfold frameBytes lineStart
    rw [hd.pitch, hd.width, hd.height, hpixel]
  rw [hrows, ← hpalsize] at hwork
  obtain ⟨hfit, hpicture, hpalette⟩ := decodeKey_spec hd hwork
  have hpixel' : d.decodeKey.pixelsize = e.pixelsize := by
    rw [hfit.pixelsize, ← hd.pixelsize, hpixel]
  refine ⟨hfit, colour_of_picture he.newframe
    ((hfit.bordered_iff hpixel').mp hfit.arranged.newframe) ?_, ?_⟩
  · intro y hy x hx k hk
    rw [← hpixel] at hk
    have hbyte := hpicture y (hd.height.symm ▸ hy) x (hd.width.symm ▸ hx) k hk
    rw [hpixel, hd.pixelIndex] at hbyte
    exact hbyte
  · rw [← hpalsize]
    exact hpalette

/-- The picture of a delta frame in the decoder. -/
theorem unXorFrame_spec {eold enew dold dnew : Frame} {work' : ℕ → PixelByte} {pos : ℕ}
    (hold : ∀ i, colour c.pixelsize eold i = colour c.pixelsize dold i) (henew : c.Bordered enew)
    (hdnew : c.Bordered dnew)
    (hforward : ∀ block ∈ c.frameBlocks 16 16, block.Forward c.pixelsize c.pitch eold enew)
    (hwork : Holds work pos (AddXorFrame c.pixelsize c.pitch eold enew
      (c.frameBlocks 16 16) work' pos))
    :
    (∀ i, colour c.pixelsize enew i = colour c.pixelsize
        (UnXorFrame c.pixelsize c.pitch dold dnew work (c.frameBlocks 16 16) pos) i) ∧
      c.Bordered (UnXorFrame c.pixelsize c.pitch dold dnew work (c.frameBlocks 16 16) pos) := by
  obtain ⟨hvectors, hdata⟩ := holds_addXorFrame hwork
  -- outside of the picture nothing is written
  have houtside : ∀ i, ¬c.Inside i → ∀ k < c.pixelsize,
      UnXorFrame c.pixelsize c.pitch dold dnew work (c.frameBlocks 16 16) pos
        (c.pixelsize * i + k) = 0 := by
    intro i hi k hk
    rw [UnXorFrame, unXorBlocks_outside _ hk]
    · exact hdnew i hi k hk
    · intro block hblock hhas
      exact hi (inside_iff.mpr ⟨block, hblock, hhas⟩)
  refine ⟨fun i => colour_eq_of_bytes fun k hk => ?_, houtside⟩
  by_cases hinside : c.Inside i
  · exact (unXorBlocks_colour _ hold hforward hvectors hdata hk
      (.inl (inside_iff.mp hinside))).symm
  · rw [houtside i hinside k (by omega), henew i hinside k (by omega)]

/-- What a delta frame does to the decoder, for each of the two first bytes. -/
theorem decodeDelta_eq (tag : PixelByte) :
    ∃ palette pos, c.decodeDelta tag = { c.swapFrames with palette := palette }.setNewframe
        (UnXorFrame c.pixelsize c.pitch c.newframe c.oldframe c.work c.blocks pos) ∧
      ((tag &&& Mask_DeltaPalette = 0 ∧ pos = 0 ∧ palette = c.palette) ∨
        (tag &&& Mask_DeltaPalette ≠ 0 ∧ pos = 3 * c.palsize ∧
          palette = fun j => if j < 4 * c.palsize ∧ j % 4 < 3
            then c.palette j ^^^ c.work (3 * (j / 4) + j % 4) else c.palette j)) := by
  by_cases htag : tag &&& Mask_DeltaPalette = 0
  · refine ⟨c.palette, 0, ?_, .inl ⟨htag, rfl, rfl⟩⟩
    unfold decodeDelta
    simp only [htag, ne_eq, not_true, if_false, oldframe_swapFrames, newframe_swapFrames]
    rfl
  · refine ⟨_, _, ?_, .inr ⟨htag, rfl, rfl⟩⟩
    unfold decodeDelta
    simp only [htag, ne_eq, not_false_eq_true, if_true]
    have hold : (c.swapFrames.setPalette fun i byte => byte ^^^ c.swapFrames.work i).oldframe =
        c.newframe := oldframe_swapFrames
    have hnew : (c.swapFrames.setPalette fun i byte => byte ^^^ c.swapFrames.work i).newframe =
        c.oldframe := newframe_swapFrames
    rw [hold, hnew]
    rfl

end VideoCodec

/-! ## Frames -/

namespace Recording

open VideoCodec

/-- The decoder's picture has the colours of the encoder's, and their palettes agree. -/
structure InStep (r : Recording) : Prop where
  encoder : r.encoder.Arranged
  decoder : Fitted r.encoder (headerFormat r.encoder.format) r.decoder
  colour : ∀ i, colour r.encoder.pixelsize r.encoder.newframe i =
    colour r.encoder.pixelsize r.decoder.newframe i
  palette : ∀ j < 1024, r.decoder.palette j = r.encoder.palette j
  unused : ∀ i, r.decoder.palette (4 * i + 3) = 0

/-- An encoder and a decoder for pictures of this size. -/
def start (width height : ℕ) : Recording := ⟨.setup width height, .setup width height⟩

theorem inStep_start (width height : ℕ) : (start width height).InStep :=
  ⟨arranged_setup width height, ⟨arranged_setup width height, rfl, rfl, rfl⟩, fun _ => rfl,
    fun _ _ => rfl, fun _ => rfl⟩

/-- The work buffer has room for a whole picture with its palette and vectors, and all
sizes are those of an `int`. -/
def WorkFits (width height : ℕ) (format : ZMBV_FORMAT) : Prop :=
  768 + (2 * ((height + 15) / 16 * ((width + 15) / 16)) + 3) +
      width * (height * ZMBV_ToBytesPerPixel format) ≤
    (height + 2 * MAX_VECTOR) * (width + 2 * MAX_VECTOR) * ZMBV_ToBytesPerPixel format + 2048 ∧
  (height + 2 * MAX_VECTOR) * (width + 2 * MAX_VECTOR) * ZMBV_ToBytesPerPixel format + 2048 < 2 ^ 31

/-- The motion that the search of the encoder finds in a delta frame: no block has its best
match to the left of its place in the last picture, or above it. -/
def Forward (c : VideoCodec) (input : FrameInput) : Prop :=
  input.key = false → input.format = c.format → ∀ s, c.collect input = some s →
    ∀ block ∈ s.1.blocks,
      block.Forward s.1.pixelsize s.1.pitch s.1.oldframe s.1.newframe

/-- A picture that the codec can take. -/
structure Proper (r : Recording) (input : FrameInput) : Prop where
  format : ZMBV_ToBytesPerPixel input.format ≠ 0
  lines : input.calls.flatten.length = r.encoder.height
  fits : WorkFits r.encoder.width r.encoder.height input.format
  forward : Forward r.encoder input

/-- The decoder shows the picture: every line, every pixel, every byte of its colour. -/
def Shows (r : Recording) (input : FrameInput) : Prop :=
  ∀ y line, input.calls.flatten[y]? = some line → ∀ x < r.decoder.width,
    ∀ k < min (ZMBV_ToBytesPerPixel input.format) 3,
      r.decoder.newframe
          (ZMBV_ToBytesPerPixel input.format * r.decoder.pixelIndex y x + k) =
        line (ZMBV_ToBytesPerPixel input.format * x + k)

variable {r : Recording} {input : FrameInput}

variable {c e d : VideoCodec} {format : ZMBV_FORMAT}

theorem palette_end {c' : VideoCodec} (h : Fitted c format c') :
    c'.palsize = 0 ∨ 4 * c'.palsize = 1024 := by
  rw [h.palsize]
  split
  · exact .inr rfl
  · exact .inl rfl

/-- What the encoder's new frame and the decoder's have in common makes the picture. -/
theorem shows_of_colour (he : Fitted r.encoder input.format e)
    (hd : Fitted e (headerFormat input.format) d) (hdraws : e.Draws input.calls.flatten)
    (hcolour : ∀ i, colour e.pixelsize e.newframe i = colour e.pixelsize d.newframe i) :
    Shows ⟨e, d⟩ input := by
  intro y line hline x hx k hk
  have hsize := he.pixelsize
  rw [← hsize] at hk ⊢
  change d.newframe (e.pixelsize * d.pixelIndex y x + k) = line (e.pixelsize * x + k)
  rw [hd.pixelIndex, ← byte_of_colour (hcolour _) hk]
  exact hdraws y line hline x (hd.width ▸ hx) k (by omega)

theorem inStep_of (he : Fitted r.encoder input.format e)
    (hd : Fitted e (headerFormat input.format) d) (hdraws : e.Draws input.calls.flatten)
    (hcolour : ∀ i, colour e.pixelsize e.newframe i = colour e.pixelsize d.newframe i)
    (hpalette : ∀ j < 1024, d.palette j = e.palette j) (hunused : ∀ i, d.palette (4 * i + 3) = 0) :
    InStep ⟨e, d⟩ ∧ Shows ⟨e, d⟩ input ∧ Fitted r.encoder input.format e :=
  ⟨⟨he.arranged, he.format.symm ▸ hd, hcolour, hpalette, hunused⟩,
    shows_of_colour he hd hdraws hcolour, he⟩

theorem refit_ends (h : d.Arranged) (hformat : ZMBV_ToBytesPerPixel format ≠ 0) :
    Ends (if d.format ≠ format then d.SetupBuffers format 16 16 else some d) fun d' =>
      Fitted d format d' ∧ d'.palette = d.palette := by
  apply Ends.ite
  · intro _
    exact setupBuffers_fitted hformat
  · intro hsame
    rw [not_not] at hsame
    rw [← hsame]
    exact ends_some ⟨h.fitted, rfl⟩

/-- Two palettes that agree on the bytes in use. -/
theorem palette_agree {palette palette' : ℕ → PixelByte} {palsize : ℕ}
    (hend : palsize = 0 ∨ 4 * palsize = 1024)
    (hbytes : ∀ j < 4 * palsize, j % 4 < 3 → palette j = palette' j)
    (hzero : palsize = 0 → ∀ j < 1024, palette j = palette' j)
    (hunused : ∀ i, palette (4 * i + 3) = 0) (hunused' : palsize ≠ 0 → ∀ i, palette' (4 * i + 3) = 0) :
    ∀ j < 1024, palette j = palette' j := by
  intro j hj
  rcases hend with hnone | hfull
  · exact hzero hnone j hj
  · by_cases hused : j % 4 < 3
    · exact hbytes j (by omega) hused
    · have hsplit : j = 4 * (j / 4) + 3 := by omega
      rw [hsplit, hunused, hunused' (by omega)]

theorem key_fits (hformat : ZMBV_ToBytesPerPixel input.format ≠ 0)
    (he : Fitted r.encoder input.format e)
    (hfits : WorkFits r.encoder.width r.encoder.height input.format) (f : ℕ → PixelByte) :
    ¬e.bufsize < (paletteBytes e.palsize f ++ e.frameBytes).length := by
  have hbuf := he.arranged.bufsize (he.format ▸ ne_none_of_bytes hformat)
  have hframe : e.frameBytes.length = e.height * (e.width * e.pixelsize) :=
    length_rows (fun y i => e.newframe (e.lineStart y + (i : ℕ))) _ _
  have hpalette : 3 * e.palsize ≤ 768 := by
    rcases palette_end he with hend | hend <;> omega
  have hswap : e.height * (e.width * e.pixelsize) = e.width * (e.height * e.pixelsize) := by ring
  rw [List.length_append, length_paletteBytes, hframe, hswap, hbuf, he.pitch, he.pixelsize,
    he.width, he.height]
  have hle := hfits.1
  unfold pitch
  omega

/-- The packet of a key frame. -/
def keyPacket (e : VideoCodec) (format : ZMBV_FORMAT) : Packet :=
  ⟨Mask_KeyFrame, some ⟨0, 1, 1, headerFormat format, 16, 16⟩,
    paletteBytes e.palsize e.palette ++ e.frameBytes⟩

/-- What the encoder makes of a key frame. -/
theorem compressFrame_key (h : r.encoder.Arranged) (hp : r.Proper input)
    (hkey : input.key = true ∨ input.format ≠ r.encoder.format) :
    Ends (r.encoder.compressFrame input) fun p =>
      Fitted r.encoder input.format p.1 ∧ p.1.Draws input.calls.flatten ∧
        p.2 = keyPacket p.1 input.format ∧
        (p.1.palsize = 0 → p.1.palette = r.encoder.palette) ∧
        (p.1.palsize ≠ 0 → ∀ i, p.1.palette (4 * i + 3) = 0) := by
  refine (collect_key h hp.format hp.lines hkey).bind ?_
  rintro ⟨e, compress⟩ ⟨he, hdraws, htag, hheader, hbytes, hsame, hunused⟩
  dsimp only at he hdraws htag hheader hbytes hsame hunused ⊢
  have hmask : Mask_KeyFrame &&& Mask_KeyFrame ≠ 0 := by decide
  rw [FinishCompressFrame, htag, hheader, hbytes]
  simp only [if_pos hmask]
  rw [if_neg (key_fits hp.format he hp.fits _)]
  exact ends_some ⟨he.withData e.palette _ e.newIsBuf1, hdraws, rfl, hsame, hunused⟩

theorem decompressFrame_key (hd : d.Arranged) (hformat : ZMBV_ToBytesPerPixel format ≠ 0) :
    Ends (d.DecompressFrame (keyPacket e format)) fun d' => ∃ d'',
      Fitted d (headerFormat format) d'' ∧ d''.palette = d.palette ∧
        d' = decodeKey { d'' with work := overlay d''.work (keyPacket e format).payload } := by
  have hformat' : ZMBV_ToBytesPerPixel (headerFormat format) ≠ 0 := by
    rw [toBytesPerPixel_headerFormat]
    exact hformat
  have hmask : Mask_KeyFrame &&& Mask_KeyFrame ≠ 0 := by decide
  unfold DecompressFrame
  simp only [keyPacket, if_pos hmask, Option.bind_some, ne_eq, not_true, or_self, if_false]
  exact (refit_ends hd hformat').map fun d'' hfit => ⟨d'', hfit.1, hfit.2, rfl⟩

theorem frame_key (h : r.InStep) (hp : r.Proper input)
    (hkey : input.key = true ∨ input.format ≠ r.encoder.format) :
    Ends (r.frame input) fun r' => r'.InStep ∧ r'.Shows input ∧
      Fitted r.encoder input.format r'.encoder := by
  refine (compressFrame_key h.encoder hp hkey).bind ?_
  rintro ⟨e, packet⟩ ⟨he, hdraws, hpacket, hsame, hunused⟩
  dsimp only at he hdraws hpacket hsame hunused ⊢
  subst hpacket
  refine (decompressFrame_key h.decoder.arranged hp.format).map ?_
  rintro _ ⟨d, hd, hdpal, rfl⟩
  -- both codecs are arranged in the same way
  have hdwidth : d.width = e.width := (hd.width.trans h.decoder.width).trans he.width.symm
  have hdheight : d.height = e.height := (hd.height.trans h.decoder.height).trans he.height.symm
  have hdpixel : d.pixelsize = e.pixelsize := by
    rw [hd.pixelsize, he.pixelsize, toBytesPerPixel_headerFormat]
  have hdpalsize : d.palsize = e.palsize := by
    rw [hd.palsize, he.palsize]
    simp only [headerFormat_eq_8]
  have hdfit : Fitted e (headerFormat input.format) { d with
      work := overlay d.work (keyPacket e input.format).payload } :=
    ⟨(hd.withData d.palette _ d.newIsBuf1).arranged, hd.format, hdwidth, hdheight⟩
  obtain ⟨hfit, hcolour, hpalette⟩ :=
    decodeKey_packet he.arranged hdfit hdpixel hdpalsize (holds_overlay d.work _)
  have hdunused : ∀ i, d.palette (4 * i + 3) = 0 := hdpal ▸ h.unused
  have hunused' : ∀ i, (decodeKey { d with
      work := overlay d.work (keyPacket e input.format).payload }).palette (4 * i + 3) = 0 := by
    intro i
    rw [hpalette, if_neg (by omega)]
    exact hdunused i
  refine inStep_of he hfit hdraws hcolour ?_ hunused'
  refine palette_agree (palette_end he) ?_ ?_ hunused' hunused
  · intro j hj hused
    rw [hpalette, if_pos ⟨hj, hused⟩]
  · intro hzero j hj
    rw [hpalette, if_neg (by omega), hsame hzero]
    exact (congrFun hdpal j).trans (h.palette j hj)

theorem delta_fits {workBytes : List PixelByte} (hformat : ZMBV_ToBytesPerPixel input.format ≠ 0)
    (he : Fitted r.encoder input.format e)
    (hfits : WorkFits r.encoder.width r.encoder.height input.format)
    (hbytes : workBytes.length ≤ 768) :
    ¬e.bufsize < (workBytes ++ AddXorFrame e.pixelsize e.pitch e.oldframe e.newframe e.blocks e.work
      workBytes.length).length := by
  have hnone : e.format ≠ .NONE := he.format ▸ ne_none_of_bytes hformat
  have hlength := @length_addXorFrame_le e.pixelsize e.pitch e.oldframe e.newframe e.blocks e.work
    workBytes.length
  rw [he.arranged.blocks hnone, sum_length_bytes, length_frameBlocks, he.pixelsize, he.width,
    he.height] at hlength
  rw [List.length_append, he.arranged.bufsize hnone, he.arranged.blocks hnone, he.pixelsize, he.height]
  have hle := hfits.1
  have hpitch : e.pitch = r.encoder.width + 2 * MAX_VECTOR := he.pitch
  rw [hpitch] at hlength ⊢
  omega

/-- The packet of a delta frame: what it says about the palette, then the blocks. -/
def IsDelta (c e : VideoCodec) (packet : Packet) : Prop :=
  ∃ workBytes work,
    packet.payload = workBytes ++ AddXorFrame e.pixelsize e.pitch e.oldframe e.newframe
      (e.frameBlocks 16 16) work workBytes.length ∧
    (e.palsize = 0 → e.palette = c.palette) ∧
    c.PaletteDelta (e, ⟨0, packet.tag, none, workBytes⟩)

theorem IsDelta.not_key {packet : Packet} (h : IsDelta c e packet) :
    packet.tag &&& Mask_KeyFrame = 0 := by
  obtain ⟨workBytes, work, -, -, ⟨htag, -, -⟩ | ⟨htag, -, -⟩⟩ := h
  · change packet.tag = 0 at htag
    rw [htag]
    decide
  · change packet.tag = Mask_DeltaPalette at htag
    rw [htag]
    decide

/-- What the encoder makes of a delta frame. -/
theorem compressFrame_delta (h : r.encoder.Arranged) (hp : r.Proper input)
    (hkey : input.key = false) (hformat : input.format = r.encoder.format) :
    Ends (r.encoder.compressFrame input) fun p =>
      Fitted r.encoder input.format p.1 ∧ p.1.Draws input.calls.flatten ∧
        p.1.oldframe = r.encoder.newframe ∧
        (∀ block ∈ p.1.frameBlocks 16 16,
          block.Forward p.1.pixelsize p.1.pitch p.1.oldframe p.1.newframe) ∧
        IsDelta r.encoder p.1 p.2 := by
  obtain ⟨⟨e, compress⟩, hcollect, he, hdraws, hold, -, hsame, hdelta⟩ :=
    collect_delta h hp.lines hkey hformat
  have hforward := hp.forward hkey hformat _ hcollect
  dsimp only at he hdraws hold hsame hforward
  rw [← hformat] at he
  have hnone : e.format ≠ .NONE := he.format ▸ ne_none_of_bytes hp.format
  rw [he.arranged.blocks hnone] at hforward
  have hlength : compress.workBytes.length ≤ 768 := by
    have hend := palette_end he
    rcases hdelta with ⟨-, hbytes, -⟩ | ⟨-, hbytes, -⟩
    · rw [hbytes]
      exact Nat.zero_le _
    · rw [hbytes, length_paletteBytes]
      dsimp only
      omega
  have hdelta' : IsDelta r.encoder e ⟨compress.firstByte, compress.header,
      compress.workBytes ++ AddXorFrame e.pixelsize e.pitch e.oldframe e.newframe e.blocks e.work
        compress.workBytes.length⟩ := by
    refine ⟨compress.workBytes, e.work, ?_, hsame, hdelta⟩
    rw [he.arranged.blocks hnone]
  have hmask := hdelta'.not_key
  dsimp only at hmask
  rw [compressFrame, hcollect, Option.bind_some, FinishCompressFrame]
  simp only [hmask, ne_eq, not_true, if_false]
  rw [if_neg (delta_fits hp.format he hp.fits hlength)]
  exact ends_some ⟨he.withData e.palette _ e.newIsBuf1, hdraws, hold, hforward, hdelta'⟩

/-- The palette of a delta frame, and where its blocks begin. -/
theorem palette_delta {workBytes : List PixelByte} {tag : PixelByte} (hd : Fitted e format d)
    (hpalsize : d.palsize = e.palsize) (hwork : Holds d.work 0 workBytes)
    (hsame : e.palsize = 0 → e.palette = c.palette)
    (hdelta : c.PaletteDelta (e, ⟨0, tag, none, workBytes⟩))
    (hpal : ∀ j < 1024, d.palette j = c.palette j) (hunused : ∀ i, d.palette (4 * i + 3) = 0) :
    ∃ palette, d.decodeDelta tag = { d.swapFrames with palette := palette }.setNewframe
        (UnXorFrame d.pixelsize d.pitch d.newframe d.oldframe d.work d.blocks workBytes.length) ∧
      (∀ j < 1024, palette j = e.palette j) ∧ ∀ i, palette (4 * i + 3) = 0 := by
  obtain ⟨palette, pos, hdecode, hcases⟩ := @decodeDelta_eq d tag
  have hend : e.palsize = 0 ∨ 4 * e.palsize = 1024 := hpalsize ▸ palette_end hd
  refine ⟨palette, ?_⟩
  rcases hdelta with ⟨htag, hbytes, hkept⟩ | ⟨htag, hbytes, hzero⟩
  · change tag = 0 at htag
    change workBytes = [] at hbytes
    subst htag hbytes
    obtain ⟨-, rfl, rfl⟩ := hcases.resolve_right fun hne => hne.1 (by decide)
    refine ⟨hdecode, fun j hj => ?_, hunused⟩
    rw [hpal j hj]
    rcases hend with hnone | hfull
    · rw [hsame hnone]
    · exact (hkept j (by dsimp only; omega)).symm
  · change tag = Mask_DeltaPalette at htag
    change workBytes = paletteBytes e.palsize fun j => c.palette j ^^^ e.palette j at hbytes
    subst htag
    obtain ⟨-, rfl, rfl⟩ := hcases.resolve_left fun heq => absurd heq.1 (by decide)
    have hunused' : ∀ i, (if 4 * i + 3 < 4 * d.palsize ∧ (4 * i + 3) % 4 < 3
        then d.palette (4 * i + 3) ^^^ d.work (3 * ((4 * i + 3) / 4) + (4 * i + 3) % 4)
        else d.palette (4 * i + 3)) = 0 := by
      intro i
      rw [if_neg (by omega)]
      exact hunused i
    refine ⟨?_, palette_agree hend ?_ ?_ hunused' fun _ => hzero, hunused'⟩
    · rw [hbytes, length_paletteBytes, ← hpalsize]
      exact hdecode
    · intro j hj hused
      rw [hbytes] at hwork
      rw [if_pos ⟨hpalsize.symm ▸ hj, hused⟩, work_paletteBytes hwork hj hused,
        hpal j (by omega), ← BitVec.xor_assoc, BitVec.xor_self, BitVec.zero_xor]
    · intro hnone j hj
      rw [if_neg (by omega), hpal j hj, hsame hnone]

/-- A delta frame of the encoder in the decoder. -/
theorem decodeDelta_packet {packet : Packet} (he : e.Arranged) (hd : Fitted e format d)
    (hnone : format ≠ .NONE) (hpixel : d.pixelsize = e.pixelsize) (hpalsize : d.palsize = e.palsize)
    (hdelta : IsDelta c e packet) (hwork : Holds d.work 0 packet.payload)
    (hold : ∀ i, colour e.pixelsize e.oldframe i = colour e.pixelsize d.newframe i)
    (hforward : ∀ block ∈ e.frameBlocks 16 16,
      block.Forward e.pixelsize e.pitch e.oldframe e.newframe)
    (hpal : ∀ j < 1024, d.palette j = c.palette j) (hunused : ∀ i, d.palette (4 * i + 3) = 0) :
    Fitted e format (d.decodeDelta packet.tag) ∧
      (∀ i, colour e.pixelsize e.newframe i =
        colour e.pixelsize (d.decodeDelta packet.tag).newframe i) ∧
      (∀ j < 1024, (d.decodeDelta packet.tag).palette j = e.palette j) ∧
      ∀ i, (d.decodeDelta packet.tag).palette (4 * i + 3) = 0 := by
  obtain ⟨workBytes, work, hpayload, hsame, hpalettes⟩ := hdelta
  rw [hpayload] at hwork
  obtain ⟨palette, hdecode, hpalette, hunused'⟩ :=
    palette_delta hd hpalsize hwork.append_left hsame hpalettes hpal hunused
  have hblocks : d.blocks = e.frameBlocks 16 16 := by
    rw [hd.arranged.blocks (hd.format.symm ▸ hnone)]
    unfold frameBlocks
    rw [hd.pitch, hd.width, hd.height]
  have hwork' := hwork.append_right
  rw [Nat.zero_add] at hwork'
  obtain ⟨hcolour, hborder⟩ := unXorFrame_spec hold he.newframe
    ((hd.bordered_iff hpixel).mp hd.arranged.oldframe) hforward hwork'
  rw [hdecode, hblocks, hpixel, hd.pitch]
  refine ⟨?_, ?_, hpalette, hunused'⟩
  · exact (hd.swapFrames.withData palette d.work (!d.newIsBuf1)).setNewframe
      ((hd.bordered_iff hpixel).mpr hborder)
  · intro i
    rw [newframe_setNewframe]
    exact hcolour i

theorem frame_delta (h : r.InStep) (hp : r.Proper input) (hkey : input.key = false)
    (hformat : input.format = r.encoder.format) :
    Ends (r.frame input) fun r' => r'.InStep ∧ r'.Shows input ∧
      Fitted r.encoder input.format r'.encoder := by
  refine (compressFrame_delta h.encoder hp hkey hformat).bind ?_
  rintro ⟨e, packet⟩ ⟨he, hdraws, hold, hforward, hdelta⟩
  dsimp only at he hdraws hold hforward hdelta ⊢
  have hmask := hdelta.not_key
  unfold DecompressFrame
  simp only [hmask, ne_eq, not_true, if_false]
  refine ends_some ?_
  -- both codecs are arranged in the same way
  have hdfit : Fitted e (headerFormat input.format) { r.decoder with
      work := overlay r.decoder.work packet.payload } := by
    have hdecoder := h.decoder
    rw [← hformat] at hdecoder
    exact ⟨(hdecoder.withData r.decoder.palette _ r.decoder.newIsBuf1).arranged, hdecoder.format,
      hdecoder.width.trans he.width.symm, hdecoder.height.trans he.height.symm⟩
  have hdpixel : r.decoder.pixelsize = e.pixelsize := by
    rw [h.decoder.pixelsize, he.pixelsize, toBytesPerPixel_headerFormat, hformat]
  have hdpalsize : r.decoder.palsize = e.palsize := by
    rw [h.decoder.palsize, he.palsize, hformat]
    simp only [headerFormat_eq_8]
  have hsize : r.encoder.pixelsize = e.pixelsize := by
    rw [h.encoder.pixelsize, he.pixelsize, hformat]
  have hnone : headerFormat input.format ≠ .NONE := by
    refine ne_none_of_bytes ?_
    rw [toBytesPerPixel_headerFormat]
    exact hp.format
  have hbefore := h.colour
  rw [← hold, hsize] at hbefore
  obtain ⟨hfit, hcolour, hpalette, hunused⟩ := decodeDelta_packet he.arranged hdfit hnone hdpixel
    hdpalsize hdelta (holds_overlay r.decoder.work _) hbefore hforward h.palette h.unused
  exact inStep_of he hfit hdraws hcolour hpalette hunused

/-- **One frame** is shown, and the two codecs stay in step. -/
theorem frame_ends (h : r.InStep) (hp : r.Proper input) :
    Ends (r.frame input) fun r' => r'.InStep ∧ r'.Shows input ∧
      Fitted r.encoder input.format r'.encoder := by
  by_cases hkey : input.key = true ∨ input.format ≠ r.encoder.format
  · exact frame_key h hp hkey
  · rw [not_or, not_not, Bool.not_eq_true] at hkey
    exact frame_delta h hp hkey.1 hkey.2

/-! ## Recordings -/

/-- The frames, one after another. -/
def run (r : Recording) (inputs : List FrameInput) : Option Recording := inputs.foldlM frame r

/-- Each picture is a proper one when its turn comes. -/
def Complies : Recording → List FrameInput → Prop
  | _, [] => True
  | r, input :: inputs => r.Proper input ∧ ∀ r', r.frame input = some r' → r'.Complies inputs

theorem Complies.left {inputs inputs' : List FrameInput} (h : r.Complies (inputs ++ inputs')) :
    r.Complies inputs := by
  induction inputs generalizing r with
  | nil => trivial
  | cons input inputs ih => exact ⟨h.1, fun r' hr' => ih (h.2 r' hr')⟩

/-- The last frame of a recording is shown.  The induction is on the frames before it. -/
theorem run_ends (inputs : List FrameInput) (h : r.InStep) (hc : r.Complies (inputs ++ [input])) :
    Ends (r.run (inputs ++ [input])) fun r' => r'.InStep ∧ r'.Shows input ∧
      r'.encoder.width = r.encoder.width ∧ r'.encoder.height = r.encoder.height := by
  induction inputs generalizing r with
  | nil =>
    rw [List.nil_append, run, List.foldlM_cons]
    refine (frame_ends h hc.1).bind fun r' ⟨hstep, hshows, hfit⟩ => ?_
    exact ends_some ⟨hstep, hshows, hfit.width, hfit.height⟩
  | cons first inputs ih =>
    obtain ⟨r', hframe, hstep, -, hfit⟩ := frame_ends h hc.1
    rw [List.cons_append, run, List.foldlM_cons, hframe]
    refine (ih hstep (hc.2 r' hframe)).mono ?_
    rintro r'' ⟨hstep', hshows, hwidth, hheight⟩
    exact ⟨hstep', hshows, hwidth.trans hfit.width, hheight.trans hfit.height⟩

/-- **Every frame of a recording is shown**, with its palette, when no block of a delta frame
has its best match to the left or above. -/
theorem run_shows (width height : ℕ) (inputs : List FrameInput) (input : FrameInput)
    (inputs' : List FrameInput)
    (hc : (start width height).Complies (inputs ++ input :: inputs')) :
    Ends ((start width height).run (inputs ++ [input])) fun r =>
      r.decoder.width = width ∧ r.decoder.height = height ∧ r.Shows input ∧
        ∀ j < 1024, r.decoder.palette j = r.encoder.palette j := by
  have hsplit : inputs ++ input :: inputs' = (inputs ++ [input]) ++ inputs' := by simp
  rw [hsplit] at hc
  refine (run_ends inputs (inStep_start width height) hc.left).mono ?_
  rintro r ⟨hstep, hshows, hwidth, hheight⟩
  exact ⟨hstep.decoder.width.trans hwidth, hstep.decoder.height.trans hheight, hshows,
    hstep.palette⟩

/-- A line of pixels with the values from `first` on. -/
def rampInput (key : Bool) (first : PixelByte) : FrameInput :=
  ⟨key, .BPP_15, none, [[fun i => BitVec.ofNat 8 (i / 2) + first]]⟩

/-- A line, and the same line moved to the left. -/
theorem complies_ramp : (start 8 1).Complies ([rampInput true 1] ++ [rampInput false 2]) := by
  refine ⟨⟨by decide, rfl, by unfold WorkFits; decide, fun h => absurd h (by decide)⟩, ?_⟩
  intro r hr
  obtain rfl := Option.some.inj hr
  refine ⟨⟨by decide, rfl, by unfold WorkFits; decide, ?_⟩, fun _ _ => trivial⟩
  intro _ _ s hs
  obtain rfl := Option.some.inj hs
  unfold FrameBlock.Forward
  decide

theorem run_shows_ramp :
    (start 8 1).Complies ([rampInput true 1] ++ [rampInput false 2]) ∧
      Ends ((start 8 1).run ([rampInput true 1] ++ [rampInput false 2])) fun r =>
        r.decoder.width = 8 ∧ r.decoder.height = 1 ∧ r.Shows (rampInput false 2) ∧
          ∀ j < 1024, r.decoder.palette j = r.encoder.palette j :=
  ⟨complies_ramp, run_shows 8 1 [rampInput true 1] (rampInput false 2) [] complies_ramp⟩

/-- Not every recording is shown: of a line that has moved to the right the decoder takes the
vector (-1, 0) for (127, 0), and copies the border. -/
theorem run_not_shown :
    ¬∀ (width height : ℕ) (inputs : List FrameInput) (input : FrameInput),
      (∀ i ∈ inputs ++ [input], ZMBV_ToBytesPerPixel i.format ≠ 0 ∧
        i.calls.flatten.length = height) →
      Ends ((start width height).run (inputs ++ [input])) fun r =>
        r.Shows input ∧ ∀ j < 1024, r.decoder.palette j = r.encoder.palette j := by
  intro hall
  obtain ⟨r, hr, hshows, -⟩ := hall 8 1 [rampInput true 1] (rampInput false 0) (by decide)
  obtain rfl := Option.some.inj hr
  have hpixel := hshows 0 _ rfl 1 (by decide) 0 (by decide)
  revert hpixel
  decide +kernel

end Recording

end AugraDosbox
