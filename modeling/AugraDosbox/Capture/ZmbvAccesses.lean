import AugraDosbox.Capture.ZmbvRuns

/-!
# The indices of the codec

Every access of the encoder and of the decoder to the work buffer and to the two frame buffers.

* `Access` — an index into one of the buffers; `AddXorFrame`, `CompressLines`, ... each have a
  list of `accesses` beside their result;
* `VideoCodec.Sized` — the buffers, the blocks and the sizes belong to one format;
* **`Sized.encode`** — the encoder never leaves its buffers.
-/

namespace AugraDosbox

/-- An index of a byte that is read or written. -/
inductive Access where
  | work (i : ℕ)
  | oldframe (i : ℤ)
  | newframe (i : ℤ)
deriving DecidableEq, Repr

/-- The index is that of a byte of the buffer. -/
def Access.Below (bufsize : ℕ) : Access → Prop
  | .work i => i < bufsize
  | .oldframe i => 0 ≤ i ∧ i < bufsize
  | .newframe i => 0 ≤ i ∧ i < bufsize

instance {bufsize : ℕ} : DecidablePred (Access.Below bufsize)
  | .work i => inferInstanceAs (Decidable (i < bufsize))
  | .oldframe i => inferInstanceAs (Decidable (0 ≤ i ∧ i < bufsize))
  | .newframe i => inferInstanceAs (Decidable (0 ≤ i ∧ i < bufsize))

/-! ## Blocks -/

section Blocks

variable (n pitch : ℕ) (oldframe newframe : Frame)

/-- The pixels of a block in the new frame, and those in the old one at the end of a vector. -/
def FrameBlock.accesses (block : FrameBlock) (v : CodecVector) (offsets : List ℕ) : List Access :=
  offsets.flatMap fun (p : ℕ) => (List.range n).flatMap fun (k : ℕ) =>
    [.oldframe (n * (block.source pitch v + p) + k), .newframe (n * (block.start + p) + k)]

/-- The accesses of the search for a vector. -/
def searchAccesses (block : FrameBlock) : List CodecVector → ℕ → ℕ → List Access
  | [], _, _ => []
  | v :: vs, possibles, bestchange =>
    if possibles = 0 ∨ bestchange < 4 then []
    else block.accesses n pitch v (block.samples pitch) ++
      if PossibleBlock n pitch oldframe newframe v block < 4 then
        block.accesses n pitch v (block.pixels pitch) ++
          searchAccesses block vs (possibles - 1)
            (min (CompareBlock n pitch oldframe newframe v block) bestchange)
      else searchAccesses block vs possibles bestchange

/-- The loop of `AddXorFrame`: `vectors` is where the bytes of the next block are. -/
def xorAccesses : List FrameBlock → (vectors workUsed : ℕ) → List Access
  | [], _, _ => []
  | block :: blocks, vectors, workUsed =>
    let found := blockVector n pitch oldframe newframe block
    let search := block.accesses n pitch (0, 0) (block.pixels pitch) ++
      searchAccesses n pitch oldframe newframe block VectorTable 64
        (CompareBlock n pitch oldframe newframe (0, 0) block)
    let written := if found.2 = 0 then [] else (block.bytes n pitch)
    search ++ [.work vectors, .work (vectors + 1)] ++
      (if found.2 = 0 then [] else block.accesses n pitch found.1 (block.pixels pitch)) ++
      (List.range written.length).map (fun k => .work (workUsed + k)) ++
      xorAccesses blocks (vectors + 2) (workUsed + written.length)

/-- The accesses of the decoder to the frames: those of the blocks at the vectors that it reads. -/
def unXorAccesses (work : ℕ → PixelByte) : List FrameBlock → (vectors : ℕ) → List Access
  | [], _ => []
  | block :: blocks, vectors =>
    block.accesses n pitch (readVector work vectors) (block.pixels pitch) ++
      unXorAccesses work blocks (vectors + 2)

end Blocks

/-! ## Frames -/

namespace VideoCodec

variable (c : VideoCodec)

/-- The accesses of a `memcpy` of a line into or out of the new frame. -/
def lineAccesses (y : ℕ) : List Access :=
  (List.range (c.width * c.pixelsize)).map fun (i : ℕ) => .newframe (c.lineStart y + i)

def CompressLines.accesses : List Line → VideoCodec × Compress → List Access
  | [], _ => []
  | line :: lines, s =>
    if s.2.linesDone < s.1.height then
      s.1.lineAccesses s.2.linesDone ++
        CompressLines.accesses lines (VideoCodec.CompressLines [line] s)
    else []

def callAccesses : List (List Line) → VideoCodec × Compress → List Access
  | [], _ => []
  | lines :: calls, s =>
    CompressLines.accesses lines s ++ callAccesses calls (VideoCodec.CompressLines lines s)

/-- The bytes that `FinishCompressFrame` adds, with the pixel type of the format. -/
def finishBytes (compress : Compress) : List PixelByte :=
  if compress.firstByte &&& Mask_KeyFrame ≠ 0 then c.frameBytes
  else AddXorFrame (ZMBV_ToBytesPerPixel c.format) c.pitch c.oldframe c.newframe c.blocks c.work
    compress.workBytes.length

def finishAccesses (compress : Compress) : List Access :=
  if compress.firstByte &&& Mask_KeyFrame ≠ 0 then
    (List.range c.height).flatMap c.lineAccesses ++
      (List.range c.frameBytes.length).map fun i => .work (compress.workBytes.length + i)
  else xorAccesses (ZMBV_ToBytesPerPixel c.format) c.pitch c.oldframe c.newframe c.blocks
    compress.workBytes.length (alignWork c.blocks.length compress.workBytes.length)

/-- `FinishCompressFrame`, where the work buffer has no end. -/
def finish (compress : Compress) : VideoCodec × Packet :=
  let bytes := compress.workBytes ++ c.finishBytes compress
  ({ c with work := overlay c.work bytes }, ⟨compress.firstByte, compress.header, bytes⟩)

/-- What `SetupBuffers` leaves of a codec when it does not know the format. -/
def refused : VideoCodec := { c with palsize := 0, pixelsize := 0 }

/-- A frame of the encoder. -/
def encode (input : FrameInput) : VideoCodec × Option Packet :=
  match c.PrepareCompressFrame input.key input.format input.pal with
  | none => (c.refused, none)
  | some s =>
    let s := input.calls.foldl (fun s lines => CompressLines lines s) s
    let p := s.1.finish s.2
    (p.1, some p.2)

def encodeAccesses (input : FrameInput) : List Access :=
  match c.PrepareCompressFrame input.key input.format input.pal with
  | none => []
  | some s =>
    let done := input.calls.foldl (fun s lines => CompressLines lines s) s
    (List.range s.2.workBytes.length).map .work ++ callAccesses input.calls s ++
      done.1.finishAccesses done.2

/-- A frame of the decoder. -/
def decode (packet : Packet) : VideoCodec := (c.DecompressFrame packet).getD c

/-- The accesses of `DecompressFrame` to the frames. -/
def decodeAccesses (packet : Packet) : List Access :=
  match c.DecompressFrame packet with
  | none => []
  | some d =>
    if packet.tag &&& Mask_KeyFrame ≠ 0 then (List.range d.height).flatMap d.lineAccesses
    else unXorAccesses (ZMBV_ToBytesPerPixel d.format) d.pitch d.work d.blocks
      (if packet.tag &&& Mask_DeltaPalette ≠ 0 then 3 * d.palsize else 0)

/-! ## Pixels of a frame buffer -/

variable {c} {n bufsize : ℕ}

/-- The pixels that there is room for. -/
def roomFor (c : VideoCodec) : ℕ := (c.height + 2 * MAX_VECTOR) * c.pitch

theorem byte_below {i : ℤ} {k room : ℕ} (hroom : n * room ≤ bufsize) (hi : 0 ≤ i ∧ i < room)
    (hk : k < n) : 0 ≤ n * i + k ∧ n * i + k < bufsize := by
  obtain ⟨j, rfl⟩ := Int.eq_ofNat_of_zero_le hi.1
  have hj : j + 1 ≤ room := by omega
  have hmul : n * (j + 1) ≤ n * room := Nat.mul_le_mul_left n hj
  rw [Nat.mul_add, Nat.mul_one] at hmul
  have hbyte : (n : ℤ) * (j : ℤ) + k = (n * j + k : ℕ) := by
    push_cast
    ring
  rw [hbyte]
  omega

theorem pixel_below {row column : ℤ} (hrow : 0 ≤ row ∧ row < c.height + 2 * MAX_VECTOR)
    (hcolumn : 0 ≤ column ∧ column < c.pitch) :
    0 ≤ row * c.pitch + column ∧ row * c.pitch + column < c.roomFor := by
  have hrow' : (row + 1) * c.pitch ≤ (c.height + 2 * MAX_VECTOR) * c.pitch :=
    Int.mul_le_mul_of_nonneg_right (by omega) (by omega)
  have hzero : 0 ≤ row * c.pitch := Int.mul_nonneg hrow.1 (by omega)
  rw [Int.add_mul, Int.one_mul] at hrow'
  have hroom : (c.roomFor : ℤ) = (c.height + 2 * MAX_VECTOR) * c.pitch := by
    rw [roomFor]
    push_cast
    rfl
  omega

variable {block : FrameBlock} {v : CodecVector} {format : ZMBV_FORMAT} {s : VideoCodec × Compress}

theorem exists_corner (h : block ∈ c.frameBlocks 16 16) :
    ∃ y x : ℕ, block.start = (y + MAX_VECTOR) * c.pitch + (x + MAX_VECTOR) ∧
      0 < block.dy ∧ y + block.dy ≤ c.height ∧ 0 < block.dx ∧ x + block.dx ≤ c.width := by
  obtain ⟨by', hy, bx, hx, rfl⟩ := mem_frameBlocks.mp h
  refine ⟨by' * 16, bx * 16, by dsimp only; omega, ?_⟩
  dsimp only
  split_ifs at * <;> omega

theorem mem_pixels_of_samples {pitch p : ℕ} (h : p ∈ block.samples pitch) :
    p ∈ block.pixels pitch := by
  rw [FrameBlock.samples] at h
  simp only [List.mem_flatMap, List.mem_range, List.mem_map] at h
  obtain ⟨y, hy, x, hx, rfl⟩ := h
  exact FrameBlock.mem_pixels.mpr ⟨4 * y, by omega, 4 * x, by omega, rfl⟩

/-- A block that is displaced by less than the border. -/
theorem source_below (hblock : block ∈ c.frameBlocks 16 16) (hx : -10 ≤ v.1 ∧ v.1 ≤ 10)
    (hy : -10 ≤ v.2 ∧ v.2 ≤ 10) {p : ℕ} (hp : p ∈ block.pixels c.pitch) :
    0 ≤ block.source c.pitch v + p ∧ block.source c.pitch v + p < c.roomFor := by
  obtain ⟨y, x, hstart, -, hheight, -, hwidth⟩ := exists_corner hblock
  obtain ⟨dy, hdy, dx, hdx, rfl⟩ := FrameBlock.mem_pixels.mp hp
  have hindex : block.source c.pitch v + (dy * c.pitch + dx : ℕ) =
      (y + MAX_VECTOR + v.2 + dy) * c.pitch + (x + MAX_VECTOR + v.1 + dx) := by
    rw [FrameBlock.source, hstart]
    push_cast
    ring
  rw [hindex]
  have hpitch : c.pitch = c.width + 2 * MAX_VECTOR := rfl
  rw [MAX_VECTOR] at *
  exact pixel_below (by rw [MAX_VECTOR]; omega) (by omega)

theorem accesses_below {offsets : List ℕ} (hroom : n * c.roomFor ≤ bufsize)
    (hold : ∀ p ∈ offsets, 0 ≤ block.source c.pitch v + p ∧ block.source c.pitch v + p < c.roomFor)
    (hnew : ∀ p ∈ offsets, 0 ≤ (block.start : ℤ) + p ∧ (block.start : ℤ) + p < c.roomFor) :
    ∀ a ∈ block.accesses n c.pitch v offsets, a.Below bufsize := by
  intro a ha
  simp only [FrameBlock.accesses, List.mem_flatMap, List.mem_range] at ha
  obtain ⟨p, hp, k, hk, ha⟩ := ha
  rcases List.mem_cons.1 ha with rfl | ha
  · exact byte_below hroom (hold p hp) hk
  · rw [List.mem_singleton.1 ha]
    exact byte_below hroom (hnew p hp) hk

theorem vectorTable_bounds : ∀ v ∈ VectorTable, (-10 ≤ v.1 ∧ v.1 ≤ 10) ∧ -10 ≤ v.2 ∧ v.2 ≤ 10 := by
  decide +kernel

theorem start_below (hblock : block ∈ c.frameBlocks 16 16) {p : ℕ} (hp : p ∈ block.pixels c.pitch) :
    0 ≤ (block.start : ℤ) + p ∧ (block.start : ℤ) + p < c.roomFor := by
  have hsource := source_below (v := (0, 0)) hblock (by decide) (by decide) hp
  rw [FrameBlock.source, Int.zero_mul, Int.add_zero, Int.add_zero] at hsource
  exact hsource

/-- The pixels of a block at a vector of the table. -/
theorem table_accesses {offsets : List ℕ} (hroom : n * c.roomFor ≤ bufsize)
    (hblock : block ∈ c.frameBlocks 16 16) (hv : v ∈ VectorTable)
    (hoffsets : ∀ p ∈ offsets, p ∈ block.pixels c.pitch) :
    ∀ a ∈ block.accesses n c.pitch v offsets, a.Below bufsize := by
  obtain ⟨hx, hy⟩ := vectorTable_bounds v hv
  exact accesses_below hroom (fun p hp => source_below hblock hx hy (hoffsets p hp))
    fun p hp => start_below hblock (hoffsets p hp)

/-! ## The encoder -/

theorem search_below {oldframe newframe : Frame} {vs : List CodecVector} {possibles bestchange : ℕ}
    (hroom : n * c.roomFor ≤ bufsize) (hblock : block ∈ c.frameBlocks 16 16)
    (hvs : ∀ v ∈ vs, v ∈ VectorTable) :
    ∀ a ∈ searchAccesses n c.pitch oldframe newframe block vs possibles bestchange,
      a.Below bufsize := by
  induction vs generalizing possibles bestchange with
  | nil => exact fun a ha => absurd ha List.not_mem_nil
  | cons v vs ih =>
    have hv := hvs v List.mem_cons_self
    have hrest (possibles bestchange : ℕ) : ∀ a ∈ searchAccesses n c.pitch oldframe newframe block
        vs possibles bestchange, a.Below bufsize :=
      ih fun v' hv' => hvs v' (List.mem_cons_of_mem v hv')
    intro a ha
    rw [searchAccesses] at ha
    split at ha
    · exact absurd ha List.not_mem_nil
    rcases List.mem_append.1 ha with ha | ha
    · exact table_accesses hroom hblock hv (fun p hp => mem_pixels_of_samples hp) a ha
    · split at ha
      · rcases List.mem_append.1 ha with ha | ha
        · exact table_accesses hroom hblock hv (fun p hp => hp) a ha
        · exact hrest _ _ a ha
      · exact hrest _ _ a ha

/-- The loop over the blocks, where there is room for their vectors and their pixels. -/
theorem xor_below {blocks : List FrameBlock} {oldframe newframe : Frame} {vectors workUsed : ℕ}
    (hroom : n * c.roomFor ≤ bufsize) (hblocks : ∀ block ∈ blocks, block ∈ c.frameBlocks 16 16)
    (hvectors : vectors + 2 * blocks.length ≤ bufsize)
    (hwork : workUsed + (blocks.map fun block => (block.bytes n c.pitch).length).sum ≤ bufsize) :
    ∀ a ∈ xorAccesses n c.pitch oldframe newframe blocks vectors workUsed, a.Below bufsize := by
  induction blocks generalizing vectors workUsed with
  | nil => exact fun a ha => absurd ha List.not_mem_nil
  | cons block blocks ih =>
    have hblock := hblocks block List.mem_cons_self
    rw [List.length_cons] at hvectors
    rw [List.map_cons, List.sum_cons] at hwork
    have htable : (blockVector n c.pitch oldframe newframe block).1 ∈ VectorTable :=
      blockVector_spec.2
    generalize hfound : blockVector n c.pitch oldframe newframe block = found at htable
    have hwritten : (if found.2 = 0 then [] else block.bytes n c.pitch).length ≤
        (block.bytes n c.pitch).length := by
      split
      · exact Nat.zero_le _
      · exact Nat.le_refl _
    intro a ha
    rw [xorAccesses, hfound] at ha
    generalize (if found.2 = 0 then [] else block.bytes n c.pitch).length = written
      at ha hwritten
    rcases List.mem_append.1 ha with ha | ha
    · rcases List.mem_append.1 ha with ha | ha
      · rcases List.mem_append.1 ha with ha | ha
        · rcases List.mem_append.1 ha with ha | ha
          · rcases List.mem_append.1 ha with ha | ha
            · exact table_accesses hroom hblock List.mem_cons_self (fun p hp => hp) a ha
            · exact search_below hroom hblock (fun v hv => hv) a ha
          · simp only [List.mem_cons, List.not_mem_nil, or_false] at ha
            rcases ha with rfl | rfl
            · exact (by omega : vectors < bufsize)
            · exact (by omega : vectors + 1 < bufsize)
        · split at ha
          · exact absurd ha List.not_mem_nil
          · exact table_accesses hroom hblock htable (fun p hp => hp) a ha
      · obtain ⟨k, hk, rfl⟩ := List.mem_map.1 ha
        have hlt := List.mem_range.1 hk
        exact (by omega : workUsed + k < bufsize)
    · exact ih (fun block' hb => hblocks block' (List.mem_cons_of_mem block hb)) (by omega)
        (by omega) a ha

/-- The sizes, the blocks and the buffers belong to the format. A format that the codec does not
know leaves a codec without a pixel size, but with the buffers and blocks that it had. -/
structure Sized (c : VideoCodec) : Prop where
  pixelsize : c.pixelsize = 0 ∨ c.pixelsize = ZMBV_ToBytesPerPixel c.format
  palsize : c.palsize = 0 ∨ c.palsize = 256 ∧ c.format = .BPP_8
  noBlocks : ZMBV_ToBytesPerPixel c.format = 0 → c.blocks = []
  blocks : ZMBV_ToBytesPerPixel c.format ≠ 0 → c.blocks = c.frameBlocks 16 16
  bufsize : ZMBV_ToBytesPerPixel c.format ≠ 0 →
    c.bufsize = ZMBV_ToBytesPerPixel c.format * c.roomFor + 2048

/-- Two codecs that differ in what is in their buffers. -/
structure Alike (c c' : VideoCodec) : Prop where
  width : c'.width = c.width
  height : c'.height = c.height
  format : c'.format = c.format
  palsize : c'.palsize = c.palsize
  pixelsize : c'.pixelsize = c.pixelsize
  bufsize : c'.bufsize = c.bufsize
  blocks : c'.blocks = c.blocks

namespace Alike

variable {c' c'' : VideoCodec}

theorem refl (c : VideoCodec) : Alike c c := ⟨rfl, rfl, rfl, rfl, rfl, rfl, rfl⟩

theorem trans (h : Alike c c') (h' : Alike c' c'') : Alike c c'' :=
  ⟨h'.width.trans h.width, h'.height.trans h.height, h'.format.trans h.format,
    h'.palsize.trans h.palsize, h'.pixelsize.trans h.pixelsize, h'.bufsize.trans h.bufsize,
    h'.blocks.trans h.blocks⟩

theorem pitch (h : Alike c c') : c'.pitch = c.pitch := by
  rw [VideoCodec.pitch, VideoCodec.pitch, h.width]

theorem frameBlocks (h : Alike c c') : c'.frameBlocks 16 16 = c.frameBlocks 16 16 := by
  rw [VideoCodec.frameBlocks, VideoCodec.frameBlocks, h.width, h.height, h.pitch]

theorem roomFor (h : Alike c c') : c'.roomFor = c.roomFor := by
  rw [VideoCodec.roomFor, VideoCodec.roomFor, h.height, h.pitch]

theorem sized (h : Alike c c') (hc : c.Sized) : c'.Sized where
  pixelsize := by
    rw [h.pixelsize, h.format]
    exact hc.pixelsize
  palsize := by
    rw [h.palsize, h.format]
    exact hc.palsize
  noBlocks := by
    rw [h.format, h.blocks]
    exact hc.noBlocks
  blocks := by
    rw [h.format, h.blocks, h.frameBlocks]
    exact hc.blocks
  bufsize := by
    rw [h.format, h.bufsize, h.roomFor]
    exact hc.bufsize

end Alike

theorem sized_setup (width height : ℕ) : (setup width height).Sized :=
  ⟨.inl rfl, .inl rfl, fun _ => rfl, fun h => absurd rfl h, fun h => absurd rfl h⟩

theorem Sized.refused (h : c.Sized) : c.refused.Sized :=
  ⟨.inl rfl, .inl rfl, h.noBlocks, h.blocks, h.bufsize⟩

theorem sized_setupBuffers {c' : VideoCodec} (h : c.SetupBuffers format 16 16 = some c') :
    c'.Sized ∧ c'.width = c.width ∧ c'.height = c.height ∧ c'.format = format := by
  rw [SetupBuffers] at h
  split at h
  · exact absurd h.symm (Option.some_ne_none c')
  · next hformat =>
    obtain rfl := Option.some.inj h
    refine ⟨⟨.inr rfl, ?_, fun hzero => absurd hzero hformat, fun _ => rfl, fun _ => ?_⟩,
      rfl, rfl, rfl⟩
    · dsimp only
      split
      · next hpal => exact .inr ⟨rfl, hpal⟩
      · exact .inl rfl
    · exact congrArg (· + 2048) (Nat.mul_comm _ _)

/-- A frame that has been begun: the tag, the header and how much has been written. -/
structure Begun (s : VideoCodec × Compress) : Prop where
  sized : s.1.Sized
  kind :
    s.2.firstByte = Mask_KeyFrame ∧ s.2.header = some ⟨0, 1, 1, headerFormat s.1.format, 16, 16⟩ ∧
        s.2.workBytes.length = 3 * s.1.palsize ∨
      s.2.firstByte = 0 ∧ s.2.workBytes = [] ∨
      s.2.firstByte = Mask_DeltaPalette ∧ s.1.palsize ≠ 0 ∧
        s.2.workBytes.length = 3 * s.1.palsize

theorem begun_prepareKey (h : c.Sized) (pal : Option Palette) :
    Begun (c.prepareKey pal) ∧ Alike c (c.prepareKey pal).1 := by
  rw [prepareKey]
  dsimp only
  split
  · have halike : Alike c { c with palette := pal.elim (fun _ => 0) Palette.bytes } :=
      ⟨rfl, rfl, rfl, rfl, rfl, rfl, rfl⟩
    exact ⟨⟨halike.sized h, .inl ⟨rfl, rfl, length_paletteBytes _ _⟩⟩, halike⟩
  · next hzero =>
    exact ⟨⟨h, .inl ⟨rfl, rfl, (by omega : 0 = 3 * c.palsize)⟩⟩, Alike.refl c⟩

theorem begun_prepareDelta (h : c.Sized) (pal : Option Palette) :
    Begun (c.prepareDelta pal) ∧ Alike c (c.prepareDelta pal).1 := by
  cases pal with
  | none => exact ⟨⟨h, .inr (.inl ⟨rfl, rfl⟩)⟩, Alike.refl c⟩
  | some pal =>
    rw [prepareDelta]
    split
    · next hpal =>
      have halike : Alike c { c with palette := pal.bytes } := ⟨rfl, rfl, rfl, rfl, rfl, rfl, rfl⟩
      have hlength := length_paletteBytes c.palsize fun j => c.palette j ^^^ pal.bytes j
      exact ⟨⟨halike.sized h, .inr (.inr ⟨rfl, hpal.1, hlength⟩)⟩, halike⟩
    · exact ⟨⟨h, .inr (.inl ⟨rfl, rfl⟩)⟩, Alike.refl c⟩

theorem alike_swapFrames (c : VideoCodec) : Alike c c.swapFrames :=
  ⟨rfl, rfl, rfl, rfl, rfl, rfl, rfl⟩

theorem alike_setNewframe (c : VideoCodec) (frame : Frame) : Alike c (c.setNewframe frame) :=
  ⟨rfl, rfl, rfl, rfl, rfl, rfl, rfl⟩

/-- `PrepareCompressFrame`: a delta frame is for the codec as it is, with the frames swapped. -/
theorem begun_prepare {key : Bool} {pal : Option Palette} (h : c.Sized)
    (hs : c.PrepareCompressFrame key format pal = some s) :
    Begun s ∧ s.1.width = c.width ∧ s.1.height = c.height ∧ s.1.format = format := by
  rw [PrepareCompressFrame] at hs
  split at hs
  · obtain ⟨c', hsetup, rfl⟩ := Option.map_eq_some_iff.1 hs
    obtain ⟨hsized, hwidth, hheight, hformat⟩ := sized_setupBuffers hsetup
    obtain ⟨hbegun, halike⟩ := begun_prepareKey ((alike_swapFrames c').sized hsized) pal
    exact ⟨hbegun, halike.width.trans hwidth, halike.height.trans hheight,
      halike.format.trans hformat⟩
  · next hformat =>
    rw [not_not] at hformat
    obtain rfl := Option.some.inj hs
    have hswap := (alike_swapFrames c).sized h
    split
    · obtain ⟨hbegun, halike⟩ := begun_prepareKey hswap pal
      exact ⟨hbegun, halike.width, halike.height, halike.format.trans hformat.symm⟩
    · obtain ⟨hbegun, halike⟩ := begun_prepareDelta hswap pal
      exact ⟨hbegun, halike.width, halike.height, halike.format.trans hformat.symm⟩

/-- Lines change nothing but the new frame. -/
theorem alike_compressLines (lines : List Line) (s : VideoCodec × Compress) :
    Alike s.1 (CompressLines lines s).1 ∧
      (CompressLines lines s).2.firstByte = s.2.firstByte ∧
      (CompressLines lines s).2.header = s.2.header ∧
      (CompressLines lines s).2.workBytes = s.2.workBytes := by
  induction lines generalizing s with
  | nil => exact ⟨Alike.refl s.1, rfl, rfl, rfl⟩
  | cons line lines ih =>
    rw [CompressLines]
    split
    · obtain ⟨halike, hbyte, hheader, hbytes⟩ := ih _
      exact ⟨(alike_setNewframe s.1 _).trans halike, hbyte, hheader, hbytes⟩
    · exact ⟨Alike.refl s.1, rfl, rfl, rfl⟩

theorem alike_calls (calls : List (List Line)) (s : VideoCodec × Compress) :
    let done := calls.foldl (fun s lines => CompressLines lines s) s
    Alike s.1 done.1 ∧ done.2.firstByte = s.2.firstByte ∧ done.2.header = s.2.header ∧
      done.2.workBytes = s.2.workBytes := by
  induction calls generalizing s with
  | nil => exact ⟨Alike.refl s.1, rfl, rfl, rfl⟩
  | cons lines calls ih =>
    obtain ⟨hlines, hbyte, hheader, hbytes⟩ := alike_compressLines lines s
    obtain ⟨halike, hbyte', hheader', hbytes'⟩ := ih (CompressLines lines s)
    exact ⟨hlines.trans halike, hbyte'.trans hbyte, hheader'.trans hheader,
      hbytes'.trans hbytes⟩

theorem Begun.calls (h : Begun s) (calls : List (List Line)) :
    Begun (calls.foldl (fun s lines => CompressLines lines s) s) := by
  obtain ⟨halike, hbyte, hheader, hbytes⟩ := alike_calls calls s
  refine ⟨halike.sized h.sized, ?_⟩
  rw [hbyte, hheader, hbytes, halike.format, halike.palsize]
  exact h.kind

/-! ## Room -/

/-- A line of the picture is a row of the buffer. -/
theorem lineAccesses_below (h : c.Sized) {y : ℕ} (hy : y < c.height) :
    ∀ a ∈ c.lineAccesses y, a.Below c.bufsize := by
  intro a ha
  obtain ⟨i, hi, rfl⟩ := List.mem_map.1 ha
  have hlt := List.mem_range.1 hi
  have hpixelsize : c.pixelsize ≠ 0 := by
    intro hzero
    rw [hzero, Nat.mul_zero] at hlt
    exact Nat.not_lt_zero i hlt
  have hsize := h.pixelsize.resolve_left hpixelsize
  rw [hsize] at hpixelsize
  have hroom : c.pixelsize * c.roomFor ≤ c.bufsize := by
    rw [h.bufsize hpixelsize, hsize]
    exact Nat.le_add_right _ 2048
  rw [← hsize] at hpixelsize
  -- the byte is one of the pixel `x` of the line
  have hx : i / c.pixelsize < c.width := Nat.div_lt_of_lt_mul (Nat.mul_comm _ _ ▸ hlt)
  have hpixel : 0 ≤ ((y : ℤ) + MAX_VECTOR) * c.pitch + (MAX_VECTOR + (i / c.pixelsize : ℕ)) ∧
      ((y : ℤ) + MAX_VECTOR) * c.pitch + (MAX_VECTOR + (i / c.pixelsize : ℕ)) < c.roomFor := by
    generalize i / c.pixelsize = x at hx
    have hpitch : c.pitch = c.width + 2 * MAX_VECTOR := rfl
    rw [MAX_VECTOR] at *
    exact pixel_below (by rw [MAX_VECTOR]; omega) (by omega)
  have hbyte := byte_below hroom hpixel (Nat.mod_lt i (Nat.pos_of_ne_zero hpixelsize))
  have hsplit : (i : ℤ) = c.pixelsize * (i / c.pixelsize : ℕ) + (i % c.pixelsize : ℕ) := by
    exact_mod_cast (Nat.div_add_mod i c.pixelsize).symm
  have heq : c.lineStart y + i = c.pixelsize * (((y : ℤ) + MAX_VECTOR) * c.pitch +
      (MAX_VECTOR + (i / c.pixelsize : ℕ))) + (i % c.pixelsize : ℕ) := by
    rw [lineStart]
    conv_lhs => rw [hsplit]
    ring
  rw [← heq] at hbyte
  exact hbyte

theorem lines_below (lines : List Line) (h : s.1.Sized) :
    ∀ a ∈ CompressLines.accesses lines s, a.Below s.1.bufsize := by
  induction lines generalizing s with
  | nil => exact fun a ha => absurd ha List.not_mem_nil
  | cons line lines ih =>
    intro a ha
    rw [CompressLines.accesses] at ha
    split at ha
    · next hlt =>
      obtain ⟨halike, -⟩ := alike_compressLines [line] s
      rcases List.mem_append.1 ha with ha | ha
      · exact lineAccesses_below h hlt a ha
      · rw [← halike.bufsize]
        exact ih (halike.sized h) a ha
    · exact absurd ha List.not_mem_nil

theorem calls_below (calls : List (List Line)) (h : s.1.Sized) :
    ∀ a ∈ callAccesses calls s, a.Below s.1.bufsize := by
  induction calls generalizing s with
  | nil => exact fun a ha => absurd ha List.not_mem_nil
  | cons lines calls ih =>
    intro a ha
    rw [callAccesses] at ha
    obtain ⟨halike, -⟩ := alike_compressLines lines s
    rcases List.mem_append.1 ha with ha | ha
    · exact lines_below lines h a ha
    · rw [← halike.bufsize]
      exact ih (halike.sized h) a ha

/-- **The work buffer is large enough** for the palette, the vectors and all pixels: a block of
256 pixels needs a vector of two bytes, and the border has as many pixels as that for each row
and column of blocks. -/
theorem room_of_le {width height : ℕ} (hwidth : width ≤ 8192) (hheight : height ≤ 8192) (hn : n ≠ 0)
    :
    768 + (2 * (((height + 15) / 16) * ((width + 15) / 16)) + 3) + width * (height * n) ≤
      n * ((height + 2 * MAX_VECTOR) * (width + 2 * MAX_VECTOR)) + 2048 := by
  rw [MAX_VECTOR]
  obtain ⟨rows, hrows⟩ : ∃ rows, rows = (height + 15) / 16 := ⟨_, rfl⟩
  obtain ⟨columns, hcolumns⟩ : ∃ columns, columns = (width + 15) / 16 := ⟨_, rfl⟩
  rw [← hrows, ← hcolumns]
  have hrow : rows * columns ≤ 512 * columns := Nat.mul_le_mul_right columns (by omega)
  have hcolumn : rows * columns ≤ rows * 512 := Nat.mul_le_mul_left rows (by omega)
  have hborder : 1 * (height + width + 32) ≤ n * (height + width + 32) :=
    Nat.mul_le_mul_right _ (Nat.one_le_iff_ne_zero.2 hn)
  have hexpand : n * ((height + 2 * 16) * (width + 2 * 16)) =
      width * (height * n) + 32 * (n * (height + width + 32)) := by ring
  rw [hexpand]
  omega

/-- A picture that a codec can be asked for. -/
structure Possible (c : VideoCodec) : Prop where
  width : c.width ≤ 8192
  height : c.height ≤ 8192

theorem Sized.room (h : c.Sized) (hc : c.Possible) (hformat : ZMBV_ToBytesPerPixel c.format ≠ 0) :
    768 + (2 * c.blocks.length + 3) + c.width * (c.height * ZMBV_ToBytesPerPixel c.format) ≤
      c.bufsize := by
  rw [h.blocks hformat, h.bufsize hformat, length_frameBlocks]
  exact room_of_le hc.width hc.height hformat

theorem Sized.roomFor_le (h : c.Sized) (hformat : ZMBV_ToBytesPerPixel c.format ≠ 0) :
    ZMBV_ToBytesPerPixel c.format * c.roomFor ≤ c.bufsize := by
  rw [h.bufsize hformat]
  exact Nat.le_add_right _ 2048

theorem Begun.length_le (h : Begun s) : s.2.workBytes.length ≤ 768 := by
  have hpalsize := h.sized.palsize
  rcases h.kind with ⟨-, -, hlength⟩ | ⟨-, hlength⟩ | ⟨-, -, hlength⟩
  · omega
  · rw [hlength]
    exact Nat.zero_le 768
  · omega

/-- Without a pixel type there is nothing in the work buffer. -/
theorem Begun.length_eq_zero (h : Begun s) (hformat : ZMBV_ToBytesPerPixel s.1.format = 0) :
    s.2.workBytes.length = 0 := by
  have hpalsize : s.1.palsize = 0 := by
    refine h.sized.palsize.resolve_right fun hpal => ?_
    rw [hpal.2] at hformat
    exact absurd hformat (by decide)
  rcases h.kind with ⟨-, -, hlength⟩ | ⟨-, hlength⟩ | ⟨-, hne, -⟩
  · omega
  · rw [hlength]
    rfl
  · exact absurd hpalsize hne

theorem Sized.length_frameBytes_le (h : c.Sized) :
    c.frameBytes.length ≤ c.width * (c.height * ZMBV_ToBytesPerPixel c.format) := by
  have hlength : c.frameBytes.length = c.height * (c.width * c.pixelsize) :=
    length_rows (fun y i => c.newframe (c.lineStart y + (i : ℕ))) _ _
  rw [hlength]
  rcases h.pixelsize with hzero | hsize
  · rw [hzero, Nat.mul_zero, Nat.mul_zero]
    exact Nat.zero_le _
  · rw [hsize, Nat.mul_left_comm]

theorem finish_below (h : Begun s) (hc : s.1.Possible) :
    ∀ a ∈ s.1.finishAccesses s.2, a.Below s.1.bufsize := by
  intro a ha
  have hlength := h.length_le
  rw [finishAccesses] at ha
  split at ha
  · rcases List.mem_append.1 ha with ha | ha
    · obtain ⟨y, hy, ha⟩ := List.mem_flatMap.1 ha
      exact lineAccesses_below h.sized (List.mem_range.1 hy) a ha
    · obtain ⟨i, hi, rfl⟩ := List.mem_map.1 ha
      have hlt := List.mem_range.1 hi
      have hframe := h.sized.length_frameBytes_le
      by_cases hformat : ZMBV_ToBytesPerPixel s.1.format = 0
      · rw [hformat, Nat.mul_zero, Nat.mul_zero] at hframe
        omega
      · have hroom := h.sized.room hc hformat
        exact (by omega : s.2.workBytes.length + i < s.1.bufsize)
  · by_cases hformat : ZMBV_ToBytesPerPixel s.1.format = 0
    · rw [h.sized.noBlocks hformat] at ha
      exact absurd ha List.not_mem_nil
    · have hroom := h.sized.room hc hformat
      refine xor_below (h.sized.roomFor_le hformat) ?_ ?_ ?_ a ha
      · rw [h.sized.blocks hformat]
        exact fun block hblock => hblock
      · omega
      · have halign := alignWork_bounds s.1.blocks.length s.2.workBytes.length
        have hsum := sum_length_bytes s.1 (ZMBV_ToBytesPerPixel s.1.format)
        rw [← h.sized.blocks hformat] at hsum
        rw [hsum]
        omega

theorem begin_below (h : Begun s) (hc : s.1.Possible) :
    ∀ a ∈ (List.range s.2.workBytes.length).map Access.work, a.Below s.1.bufsize := by
  intro a ha
  obtain ⟨i, hi, rfl⟩ := List.mem_map.1 ha
  have hlt := List.mem_range.1 hi
  have hlength := h.length_le
  have hformat : ZMBV_ToBytesPerPixel s.1.format ≠ 0 := by
    intro hformat
    have hzero := h.length_eq_zero hformat
    omega
  have hroom := h.sized.room hc hformat
  exact (by omega : i < s.1.bufsize)

theorem alike_finish (compress : Compress) : Alike c (c.finish compress).1 :=
  ⟨rfl, rfl, rfl, rfl, rfl, rfl, rfl⟩

/-- **A frame of the encoder** stays inside its buffers. -/
theorem Sized.encode (h : c.Sized) (hc : c.Possible) (input : FrameInput) :
    (c.encode input).1.Sized ∧ (c.encode input).1.width = c.width ∧
      (c.encode input).1.height = c.height ∧
      ∀ a ∈ c.encodeAccesses input, a.Below (c.encode input).1.bufsize := by
  rw [VideoCodec.encode, encodeAccesses]
  cases hprepare : c.PrepareCompressFrame input.key input.format input.pal with
  | none => exact ⟨h.refused, rfl, rfl, fun a ha => absurd ha List.not_mem_nil⟩
  | some s =>
    obtain ⟨hbegun, hwidth, hheight, -⟩ := begun_prepare h hprepare
    obtain ⟨halike, -⟩ := alike_calls input.calls s
    have hdone := hbegun.calls input.calls
    dsimp only
    generalize input.calls.foldl (fun s lines => CompressLines lines s) s = done
      at halike hdone ⊢
    have hfinish := alike_finish (c := done.1) done.2
    have hpossible : s.1.Possible := ⟨hwidth ▸ hc.width, hheight ▸ hc.height⟩
    have hpossible' : done.1.Possible :=
      ⟨halike.width ▸ hpossible.width, halike.height ▸ hpossible.height⟩
    refine ⟨hfinish.sized hdone.sized, hfinish.width.trans (halike.width.trans hwidth),
      hfinish.height.trans (halike.height.trans hheight), fun a ha => ?_⟩
    rw [hfinish.bufsize]
    rcases List.mem_append.1 ha with ha | ha
    · rw [halike.bufsize]
      rcases List.mem_append.1 ha with ha | ha
      · exact begin_below hbegun hpossible a ha
      · exact calls_below input.calls hbegun.sized a ha
    · exact finish_below hdone hpossible' a ha

end VideoCodec

end AugraDosbox
