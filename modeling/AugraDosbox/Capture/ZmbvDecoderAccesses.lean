import AugraDosbox.Capture.ZmbvAccesses

/-!
# The indices of a decoder

A decoder that gets the frames of an encoder, and takes the encoder's vectors for unsigned ones.

* `unsignedVector` — what the decoder reads for a vector;
* `FrameBlock.Lands`, `VideoCodec.LandsInside` — the vectors for which it stays in its buffers;
* **`Recording.buffers_suffice_iff`** — encoder and decoder access their buffers at indices of
  the buffers exactly when all vectors are such.
-/

namespace AugraDosbox

/-! ## Vectors -/

/-- A vector with its components read as seven bits without a sign. -/
def unsignedVector (v : CodecVector) : CodecVector := (v.1 % 128, v.2 % 128)

theorem readVector_unsigned {work : ℕ → PixelByte} {pos change : ℕ} {v : CodecVector}
    (hwork : Holds work pos (vectorBytes v change)) (hx : -10 ≤ v.1 ∧ v.1 ≤ 10)
    (hy : -10 ≤ v.2 ∧ v.2 ≤ 10) : readVector work pos = unsignedVector v := by
  have hfirst : work pos = BitVec.ofInt 8 (2 * v.1) ||| (if change = 0 then 0#8 else 1#8) :=
    hwork 0 _ rfl
  have hsecond : work (pos + 1) = BitVec.ofInt 8 (2 * v.2) := hwork 1 _ rfl
  have htable : ∀ a : Fin 21, ∀ flag : Bool,
      (((BitVec.ofInt 8 (2 * ((a : ℤ) - 10)) ||| (if flag then 0#8 else 1#8)) >>> 1).toNat : ℤ) =
        ((a : ℤ) - 10) % 128 ∧
      ((BitVec.ofInt 8 (2 * ((a : ℤ) - 10)) >>> 1).toNat : ℤ) = ((a : ℤ) - 10) % 128 := by decide
  obtain ⟨a, ha⟩ := Int.eq_ofNat_of_zero_le (by omega : 0 ≤ v.1 + 10)
  obtain ⟨b, hb⟩ := Int.eq_ofNat_of_zero_le (by omega : 0 ≤ v.2 + 10)
  have hvx : v.1 = (a : ℤ) - 10 := by omega
  have hvy : v.2 = (b : ℤ) - 10 := by omega
  obtain ⟨hx', -⟩ := htable ⟨a, by omega⟩ (decide (change = 0))
  obtain ⟨-, hy'⟩ := htable ⟨b, by omega⟩ true
  rw [readVector, unsignedVector, hfirst, hsecond, hvx, hvy]
  refine Prod.ext_iff.mpr ⟨?_, hy'⟩
  simpa using hx'

/-- The vector does not lead up, or else the block is so far up that it is in the buffer also when
the vector, taken for unsigned, leads 128 rows further down. -/
def FrameBlock.Lands (n pitch bufsize : ℕ) (v : CodecVector) (block : FrameBlock) : Prop :=
  0 ≤ v.2 ∨ n * (block.source pitch (unsignedVector v) + (block.dy - 1) * pitch + block.dx) ≤ bufsize

namespace VideoCodec

variable {c : VideoCodec} {n bufsize : ℕ}

variable {block : FrameBlock} {e d : VideoCodec} {format : ZMBV_FORMAT} {s : VideoCodec × Compress}

/-- A vector that does not lead up is read with its rows, and with up to 127 pixels to the right. -/
theorem unsigned_below {v : CodecVector} (hblock : block ∈ c.frameBlocks 16 16)
    (hv : 0 ≤ v.2 ∧ v.2 ≤ 10) {p : ℕ} (hp : p ∈ block.pixels c.pitch) :
    0 ≤ block.source c.pitch (unsignedVector v) + p ∧
      block.source c.pitch (unsignedVector v) + p < c.roomFor := by
  obtain ⟨y, x, hstart, -, hheight, -, hwidth⟩ := exists_corner hblock
  obtain ⟨dy, hdy, dx, hdx, rfl⟩ := FrameBlock.mem_pixels.mp hp
  have hvx : 0 ≤ v.1 % 128 ∧ v.1 % 128 < 128 :=
    ⟨Int.emod_nonneg _ (by decide), Int.emod_lt_of_pos _ (by decide)⟩
  have hvy : v.2 % 128 = v.2 := Int.emod_eq_of_lt hv.1 (by omega)
  have hpitch : c.pitch = c.width + 2 * MAX_VECTOR := rfl
  have hindex : block.source c.pitch (unsignedVector v) + (dy * c.pitch + dx : ℕ) =
      (y + MAX_VECTOR + v.2 + dy) * c.pitch + (x + MAX_VECTOR + dx + v.1 % 128) := by
    rw [FrameBlock.source, unsignedVector, hvy, hstart]
    push_cast
    ring
  rw [hindex]
  generalize v.1 % 128 = vx at hvx
  rw [MAX_VECTOR] at *
  have hrow : ((y : ℤ) + 16 + v.2 + dy) * c.pitch ≤ (c.height + 25) * c.pitch :=
    Int.mul_le_mul_of_nonneg_right (by omega) (by omega)
  have hzero : 0 ≤ ((y : ℤ) + 16 + v.2 + dy) * c.pitch :=
    Int.mul_nonneg (by omega) (by omega)
  have hroom : (c.roomFor : ℤ) = (c.height + 25) * c.pitch + 7 * c.pitch := by
    rw [roomFor, MAX_VECTOR]
    push_cast
    ring
  -- the columns beyond the line are at most four rows
  refine ⟨by push_cast; omega, ?_⟩
  rw [hroom]
  push_cast
  omega

/-- The last pixel of a block is the one furthest down. -/
theorem le_last {p : ℕ} (hp : p ∈ block.pixels c.pitch) :
    (p : ℤ) + 1 ≤ (block.dy - 1) * c.pitch + block.dx := by
  obtain ⟨y, hy, x, hx, rfl⟩ := FrameBlock.mem_pixels.mp hp
  have hrow : (y : ℤ) * c.pitch ≤ (block.dy - 1) * c.pitch :=
    Int.mul_le_mul_of_nonneg_right (by omega) (by omega)
  push_cast
  omega

theorem unsigned_accesses_iff {v : CodecVector} (hn : n ≠ 0) (hroom : n * c.roomFor ≤ bufsize)
    (hblock : block ∈ c.frameBlocks 16 16) (hv : v ∈ VectorTable) :
    (∀ a ∈ block.accesses n c.pitch (unsignedVector v) (block.pixels c.pitch), a.Below bufsize) ↔
      block.Lands n c.pitch bufsize v := by
  obtain ⟨-, hy⟩ := vectorTable_bounds v hv
  obtain ⟨y, x, hstart, hdy, hheight, hdx, hwidth⟩ := exists_corner hblock
  constructor
  · intro h
    by_cases hup : 0 ≤ v.2
    · exact .inl hup
    -- the last byte of the last pixel
    have hlast : (block.dy - 1) * c.pitch + (block.dx - 1) ∈ block.pixels c.pitch :=
      FrameBlock.mem_pixels.mpr ⟨block.dy - 1, by omega, block.dx - 1, by omega, rfl⟩
    have hbelow := h (.oldframe (n * (block.source c.pitch (unsignedVector v) +
      ((block.dy - 1) * c.pitch + (block.dx - 1) : ℕ)) + (n - 1 : ℕ))) (by
        simp only [FrameBlock.accesses, List.mem_flatMap, List.mem_range]
        exact ⟨_, hlast, n - 1, by omega, List.mem_cons_self⟩)
    refine .inr ?_
    have hlt := hbelow.2
    have hcast : (((block.dy - 1) * c.pitch + (block.dx - 1) : ℕ) : ℤ) =
        (block.dy - 1) * c.pitch + (block.dx - 1) := by
      push_cast [Nat.one_le_iff_ne_zero.2 hdy.ne', Nat.one_le_iff_ne_zero.2 hdx.ne']
      rfl
    rw [hcast] at hlt
    have hexpand : (n : ℤ) * (block.source c.pitch (unsignedVector v) + (block.dy - 1) * c.pitch +
        block.dx) = n * (block.source c.pitch (unsignedVector v) + ((block.dy - 1) * c.pitch +
          (block.dx - 1))) + n := by ring
    rw [hexpand]
    omega
  · rintro (hup | hdown)
    · exact accesses_below hroom (fun p hp => unsigned_below hblock ⟨hup, hy.2⟩ hp)
        fun p hp => start_below hblock hp
    intro a ha
    simp only [FrameBlock.accesses, List.mem_flatMap, List.mem_range] at ha
    obtain ⟨p, hp, k, hk, ha⟩ := ha
    rcases List.mem_cons.1 ha with rfl | ha
    · have hlast := le_last hp
      have hsource : 0 ≤ block.source c.pitch (unsignedVector v) := by
        have hrows : 0 ≤ v.2 % 128 * c.pitch :=
          Int.mul_nonneg (Int.emod_nonneg _ (by decide)) (by omega)
        have hcolumns : 0 ≤ v.1 % 128 := Int.emod_nonneg _ (by decide)
        exact Int.add_nonneg (Int.add_nonneg (Int.natCast_nonneg _) hrows) hcolumns
      generalize block.source c.pitch (unsignedVector v) = source at hdown hsource ⊢
      have hmul : (n : ℤ) * (source + p + 1) ≤ n * (source + (block.dy - 1) * c.pitch + block.dx) :=
        Int.mul_le_mul_of_nonneg_left (by omega) (by omega)
      rw [Int.mul_add, Int.mul_one] at hmul
      have hzero : 0 ≤ (n : ℤ) * (source + p) := Int.mul_nonneg (by omega) (by omega)
      exact ⟨by omega, by omega⟩
    · rw [List.mem_singleton.1 ha]
      exact byte_below hroom (start_below hblock hp) hk

/-- The decoder reads the vectors that the encoder has written. -/
theorem unXor_below_iff {blocks : List FrameBlock} {oldframe newframe : Frame}
    {work : ℕ → PixelByte} {vectors : ℕ} (hn : n ≠ 0) (hroom : n * c.roomFor ≤ bufsize)
    (hblocks : ∀ block ∈ blocks, block ∈ c.frameBlocks 16 16)
    (hwork : Holds work vectors (blocks.flatMap (blockVectorBytes n c.pitch oldframe newframe))) :
    (∀ a ∈ unXorAccesses n c.pitch work blocks vectors, a.Below bufsize) ↔
      ∀ block ∈ blocks,
        block.Lands n c.pitch bufsize (blockVector n c.pitch oldframe newframe block).1 := by
  induction blocks generalizing vectors with
  | nil => exact ⟨fun _ block hblock => absurd hblock List.not_mem_nil,
      fun _ a ha => absurd ha List.not_mem_nil⟩
  | cons block blocks ih =>
    rw [List.flatMap_cons] at hwork
    have hvector : (blockVector n c.pitch oldframe newframe block).1 ∈ VectorTable :=
      blockVector_spec.2
    obtain ⟨hx, hy⟩ := vectorTable_bounds _ hvector
    have hread : readVector work vectors =
        unsignedVector (blockVector n c.pitch oldframe newframe block).1 :=
      readVector_unsigned hwork.append_left hx hy
    have hrest := ih (fun b hb => hblocks b (List.mem_cons_of_mem block hb)) hwork.append_right
    have hfirst := unsigned_accesses_iff hn hroom (hblocks block List.mem_cons_self) hvector
    rw [unXorAccesses, hread, List.forall_mem_append, List.forall_mem_cons, hfirst]
    exact and_congr_right fun _ => hrest

/-! ## The decoder -/

theorem alike_decodeKey (c : VideoCodec) : Alike c c.decodeKey := by
  have hpalette : Alike c (if c.palsize ≠ 0 then c.setPalette fun i _ => c.work i else c) := by
    split
    · exact ⟨rfl, rfl, rfl, rfl, rfl, rfl, rfl⟩
    · exact Alike.refl c
  exact hpalette.trans ⟨rfl, rfl, rfl, rfl, rfl, rfl, rfl⟩

theorem alike_decodeDelta (c : VideoCodec) (tag : PixelByte) :
    Alike c (c.decodeDelta tag) ∧ (c.decodeDelta tag).work = c.work := by
  obtain ⟨palette, pos, hdelta, -⟩ := @decodeDelta_eq c tag
  rw [hdelta]
  exact ⟨⟨rfl, rfl, rfl, rfl, rfl, rfl, rfl⟩, rfl⟩

theorem alike_work (c : VideoCodec) (work : ℕ → PixelByte) : Alike c { c with work := work } :=
  ⟨rfl, rfl, rfl, rfl, rfl, rfl, rfl⟩

/-- A decoder that has had all frames of an encoder. -/
structure Follows (e d : VideoCodec) : Prop where
  width : d.width = e.width
  height : d.height = e.height
  sized : d.Sized
  format : d.format = headerFormat e.format
  palsize : d.palsize = if d.format = .BPP_8 then 256 else 0

theorem Follows.of_alike {e' d' : VideoCodec} (h : Follows e d) (he : Alike e e')
    (hd : Alike d d') : Follows e' d' where
  width := (hd.width.trans h.width).trans he.width.symm
  height := (hd.height.trans h.height).trans he.height.symm
  sized := hd.sized h.sized
  format := by rw [hd.format, h.format, he.format]
  palsize := by rw [hd.palsize, h.palsize, hd.format]

/-- The buffers of a decoder for the format of a key frame. -/
theorem follows_setup (h : Follows e d)
    (hformat : ZMBV_ToBytesPerPixel format ≠ 0 ∨ format = headerFormat e.format) :
    ∃ d', (if d.format ≠ format then d.SetupBuffers format 16 16 else some d) = some d' ∧
      d'.width = d.width ∧ d'.height = d.height ∧ d'.Sized ∧ d'.format = format ∧
      d'.palsize = if d'.format = .BPP_8 then 256 else 0 := by
  by_cases hsame : d.format = format
  · rw [if_neg (not_not.2 hsame)]
    exact ⟨d, rfl, rfl, rfl, h.sized, hsame, h.palsize⟩
  · have hbytes : ZMBV_ToBytesPerPixel format ≠ 0 :=
      hformat.resolve_right fun heq => hsame (h.format.trans heq.symm)
    rw [if_pos hsame]
    cases hsetup : d.SetupBuffers format 16 16 with
    | none =>
      rw [SetupBuffers, if_neg hbytes] at hsetup
      exact absurd hsetup (Option.some_ne_none _)
    | some d' =>
      obtain ⟨hsized, hwidth, hheight, hformat'⟩ := sized_setupBuffers hsetup
      refine ⟨d', rfl, hwidth, hheight, hsized, hformat', ?_⟩
      rw [SetupBuffers, if_neg hbytes] at hsetup
      rw [← Option.some.inj hsetup]

theorem follows_key {e' : VideoCodec} {packet : Packet} (h : Follows e d)
    (htag : packet.tag = Mask_KeyFrame)
    (hheader : packet.header = some ⟨0, 1, 1, headerFormat e'.format, 16, 16⟩)
    (hwidth : e'.width = e.width) (hheight : e'.height = e.height)
    (hformat : ZMBV_ToBytesPerPixel e'.format ≠ 0 ∨ e'.format = e.format) :
    Follows e' (d.decode packet) ∧
      ∀ a ∈ d.decodeAccesses packet, a.Below (d.decode packet).bufsize := by
  have hformat' : ZMBV_ToBytesPerPixel (headerFormat e'.format) ≠ 0 ∨
      headerFormat e'.format = headerFormat e.format := by
    rw [toBytesPerPixel_headerFormat]
    exact hformat.imp id fun heq => congrArg headerFormat heq
  obtain ⟨d', hsetup, hdwidth, hdheight, hsized, hdformat, hpalsize⟩ := follows_setup h hformat'
  have hmask : packet.tag &&& Mask_KeyFrame ≠ 0 := by
    rw [htag]
    decide
  have hdecode : d.DecompressFrame packet =
      some (decodeKey { d' with work := overlay d'.work packet.payload }) := by
    rw [DecompressFrame, if_pos hmask, hheader, Option.bind_some,
      if_neg (by rintro (h | h) <;> exact h rfl)]
    dsimp only
    rw [hsetup]
    rfl
  have halike := (alike_work d' (overlay d'.work packet.payload)).trans (alike_decodeKey _)
  rw [decode, decodeAccesses, hdecode]
  dsimp only [Option.getD_some]
  rw [if_pos hmask]
  generalize decodeKey { d' with work := overlay d'.work packet.payload } = d'' at halike
  refine ⟨⟨?_, ?_, halike.sized hsized, halike.format.trans hdformat, ?_⟩, ?_⟩
  · exact ((halike.width.trans hdwidth).trans h.width).trans hwidth.symm
  · exact ((halike.height.trans hdheight).trans h.height).trans hheight.symm
  · rw [halike.palsize, halike.format]
    exact hpalsize
  · intro a ha
    obtain ⟨y, hy, ha⟩ := List.mem_flatMap.1 ha
    exact lineAccesses_below (halike.sized hsized) (List.mem_range.1 hy) a ha

/-- The palette of a delta frame ends where the decoder expects it. -/
theorem Begun.length_eq (hs : Begun s) (htag : s.2.firstByte &&& Mask_KeyFrame = 0) {palsize : ℕ}
    (hpalsize : palsize = if s.1.format = .BPP_8 then 256 else 0) :
    (if s.2.firstByte &&& Mask_DeltaPalette ≠ 0 then 3 * palsize else 0) =
      s.2.workBytes.length := by
  rcases hs.kind with ⟨hkey, -, -⟩ | ⟨hnone, hbytes⟩ | ⟨hdelta, hne, hbytes⟩
  · rw [hkey] at htag
    exact absurd htag (by decide)
  · rw [hnone, hbytes, if_neg (by decide)]
    rfl
  · obtain ⟨hpal, hformat⟩ := hs.sized.palsize.resolve_left hne
    rw [hdelta, if_pos (by decide), hbytes, hpal, hpalsize, if_pos hformat]

theorem follows_delta (h : Follows s.1 d) (hs : Begun s)
    (htag : s.2.firstByte &&& Mask_KeyFrame = 0) :
    Follows (s.1.finish s.2).1 (d.decode (s.1.finish s.2).2) ∧
      ((∀ a ∈ d.decodeAccesses (s.1.finish s.2).2,
          a.Below (d.decode (s.1.finish s.2).2).bufsize) ↔
        ∀ block ∈ s.1.blocks, block.Lands (ZMBV_ToBytesPerPixel s.1.format) s.1.pitch s.1.bufsize
          (blockVector (ZMBV_ToBytesPerPixel s.1.format) s.1.pitch s.1.oldframe s.1.newframe
            block).1) := by
  obtain ⟨packet, hpacket⟩ : ∃ packet, packet = (s.1.finish s.2).2 := ⟨_, rfl⟩
  have hmask : ¬ packet.tag &&& Mask_KeyFrame ≠ 0 := by
    rw [hpacket]
    exact not_not.2 htag
  have hdecode : d.DecompressFrame packet =
      some (decodeDelta { d with work := overlay d.work packet.payload } packet.tag) := by
    rw [DecompressFrame, if_neg hmask]
  obtain ⟨hdelta, hwork⟩ :=
    alike_decodeDelta { d with work := overlay d.work packet.payload } packet.tag
  have halike := (alike_work d (overlay d.work packet.payload)).trans hdelta
  rw [← hpacket, decode, decodeAccesses, hdecode]
  dsimp only [Option.getD_some]
  rw [if_neg hmask]
  generalize decodeDelta { d with work := overlay d.work packet.payload } packet.tag = d'
    at halike hwork
  have hfollows := h.of_alike (alike_finish s.2) halike
  refine ⟨hfollows, ?_⟩
  have hformat : ZMBV_ToBytesPerPixel d'.format = ZMBV_ToBytesPerPixel s.1.format := by
    rw [halike.format, h.format, toBytesPerPixel_headerFormat]
  by_cases hbytes : ZMBV_ToBytesPerPixel s.1.format = 0
  · rw [hfollows.sized.noBlocks (hformat.trans hbytes), hs.sized.noBlocks hbytes]
    exact ⟨fun _ block hblock => absurd hblock List.not_mem_nil,
      fun _ a ha => absurd ha List.not_mem_nil⟩
  have hpitch : d'.pitch = s.1.pitch := by
    rw [halike.pitch, pitch, pitch, h.width]
  have hframe : d'.frameBlocks 16 16 = s.1.frameBlocks 16 16 := by
    rw [frameBlocks, frameBlocks, hpitch, halike.width, halike.height, h.width, h.height]
  have hroom : d'.roomFor = s.1.roomFor := by
    rw [roomFor, roomFor, hpitch, halike.height, h.height]
  have hbuf : d'.bufsize = s.1.bufsize := by
    rw [hfollows.sized.bufsize (hformat ▸ hbytes), hs.sized.bufsize hbytes, hformat, hroom]
  have hblocks : d'.blocks = s.1.blocks := by
    rw [hfollows.sized.blocks (hformat ▸ hbytes), hs.sized.blocks hbytes, hframe]
  have hstart : (if packet.tag &&& Mask_DeltaPalette ≠ 0 then 3 * d'.palsize else 0) =
      s.2.workBytes.length := by
    rw [hpacket]
    refine hs.length_eq htag ?_
    rw [halike.palsize, h.palsize, h.format]
    simp only [headerFormat_eq_8]
  have hpayload : packet.payload = s.2.workBytes ++ AddXorFrame (ZMBV_ToBytesPerPixel s.1.format)
      s.1.pitch s.1.oldframe s.1.newframe s.1.blocks s.1.work s.2.workBytes.length := by
    rw [hpacket, finish, finishBytes, if_neg (not_not.2 htag)]
  have hholds := holds_overlay d.work packet.payload
  rw [hpayload] at hholds
  have hright := hholds.append_right
  rw [Nat.zero_add] at hright
  have hvectors := (holds_addXorFrame hright).1
  rw [← hpayload] at hvectors
  rw [hstart, hwork, hblocks, hbuf, hformat, hpitch]
  refine unXor_below_iff hbytes (hs.sized.roomFor_le hbytes) ?_ hvectors
  rw [hs.sized.blocks hbytes]
  exact fun block hblock => hblock

/-! ## Recordings -/

/-- The vectors that the encoder finds for the blocks of a delta frame do not lead the decoder
out of its buffers. -/
def LandsInside (c : VideoCodec) (input : FrameInput) : Prop :=
  input.key = false → input.format = c.format → ∀ s, c.collect input = some s →
    ∀ block ∈ s.1.blocks, block.Lands (ZMBV_ToBytesPerPixel s.1.format) s.1.pitch s.1.bufsize
      (blockVector (ZMBV_ToBytesPerPixel s.1.format) s.1.pitch s.1.oldframe s.1.newframe block).1

theorem prepare_tag {key : Bool} {pal : Option Palette}
    (hs : c.PrepareCompressFrame key format pal = some s) :
    (s.2.firstByte = Mask_KeyFrame ∧ ¬ (key = false ∧ format = c.format)) ∨
      (s.2.firstByte &&& Mask_KeyFrame = 0 ∧ key = false ∧ format = c.format) := by
  have hkey {c : VideoCodec} : (c.prepareKey pal).2.firstByte = Mask_KeyFrame := by
    rw [prepareKey]
    dsimp only
    split <;> rfl
  rw [PrepareCompressFrame] at hs
  split at hs
  · next hformat =>
    obtain ⟨c', -, rfl⟩ := Option.map_eq_some_iff.1 hs
    exact .inl ⟨hkey, fun h => hformat h.2⟩
  · next hformat =>
    rw [not_not] at hformat
    obtain rfl := Option.some.inj hs
    cases key with
    | true => exact .inl ⟨hkey, fun h => absurd h.1 (by decide)⟩
    | false =>
      refine .inr ⟨?_, rfl, hformat⟩
      rw [if_neg (by decide)]
      cases pal with
      | none => exact (by decide : (0 : PixelByte) &&& Mask_KeyFrame = 0)
      | some pal =>
        rw [prepareDelta]
        split
        · exact (by decide : Mask_DeltaPalette &&& Mask_KeyFrame = 0)
        · exact (by decide : (0 : PixelByte) &&& Mask_KeyFrame = 0)

theorem prepare_format {key : Bool} {pal : Option Palette}
    (hs : c.PrepareCompressFrame key format pal = some s) :
    ZMBV_ToBytesPerPixel format ≠ 0 ∨ format = c.format := by
  by_cases hformat : format = c.format
  · exact .inr hformat
  · refine .inl fun hbytes => ?_
    rw [PrepareCompressFrame, if_pos hformat, SetupBuffers, if_pos hbytes] at hs
    exact absurd hs.symm (Option.some_ne_none s)

theorem follows_encode (h : Follows e d) (he : e.Sized) (input : FrameInput) :
    Follows (e.encode input).1 ((e.encode input).2.elim d d.decode) ∧
      ((∀ packet, (e.encode input).2 = some packet → ∀ a ∈ d.decodeAccesses packet,
          a.Below (d.decode packet).bufsize) ↔ e.LandsInside input) := by
  rw [LandsInside, collect, encode]
  cases hprepare : e.PrepareCompressFrame input.key input.format input.pal with
  | none =>
    refine ⟨⟨h.width, h.height, h.sized, h.format, h.palsize⟩, fun _ _ _ s hs => ?_,
      fun _ packet hpacket => ?_⟩
    · exact absurd hs.symm (Option.some_ne_none s)
    · exact absurd hpacket.symm (Option.some_ne_none packet)
  | some s =>
    obtain ⟨hbegun, hwidth, hheight, hformat⟩ := begun_prepare he hprepare
    obtain ⟨halike, hbyte, -⟩ := alike_calls input.calls s
    have hdone := hbegun.calls input.calls
    have htag := prepare_tag hprepare
    dsimp only
    rw [Option.map_some]
    generalize input.calls.foldl (fun s lines => CompressLines lines s) s = done
      at halike hbyte hdone ⊢
    rw [← hbyte] at htag
    have hsize : done.1.width = e.width ∧ done.1.height = e.height :=
      ⟨halike.width.trans hwidth, halike.height.trans hheight⟩
    have hformat' := halike.format.trans hformat
    rcases htag with ⟨hkey, hnot⟩ | ⟨hdelta, hkey, hsame⟩
    · have hheader : done.2.header = some ⟨0, 1, 1, headerFormat done.1.format, 16, 16⟩ := by
        rcases hdone.kind with ⟨-, hheader, -⟩ | ⟨hzero, -⟩ | ⟨hpal, -⟩
        · exact hheader
        · exact absurd (hkey.symm.trans hzero) (by decide)
        · exact absurd (hkey.symm.trans hpal) (by decide)
      have hknown : ZMBV_ToBytesPerPixel done.1.format ≠ 0 ∨ done.1.format = e.format := by
        rw [hformat']
        exact prepare_format hprepare
      have hframe : Follows (done.1.finish done.2).1 (d.decode (done.1.finish done.2).2) ∧
          ∀ a ∈ d.decodeAccesses (done.1.finish done.2).2,
            a.Below (d.decode (done.1.finish done.2).2).bufsize :=
        follows_key h hkey hheader hsize.1 hsize.2 hknown
      obtain ⟨hfollows, hbelow⟩ := hframe
      refine ⟨hfollows, fun _ hfalse hsame => absurd ⟨hfalse, hsame⟩ hnot, ?_⟩
      rintro - packet hpacket
      obtain rfl := Option.some.inj hpacket
      exact hbelow
    · have hdone' : Follows done.1 d := ⟨h.width.trans hsize.1.symm, h.height.trans hsize.2.symm,
        h.sized, by rw [h.format, hformat', hsame], h.palsize⟩
      obtain ⟨hfollows, hiff⟩ := follows_delta hdone' hdone hdelta
      refine ⟨hfollows, ?_⟩
      constructor
      · rintro hbelow - - s hs
        obtain rfl := Option.some.inj hs
        exact hiff.1 (hbelow _ rfl)
      · intro hlands packet hpacket
        obtain rfl := Option.some.inj hpacket
        exact hiff.2 (hlands hkey hsame done rfl)

end VideoCodec

namespace Recording

open VideoCodec

/-- A frame of both codecs; the decoder gets it if there is one. -/
def play (r : Recording) (input : FrameInput) : Recording :=
  let frame := r.encoder.encode input
  ⟨frame.1, frame.2.elim r.decoder r.decoder.decode⟩

/-- Every index of the frame is one of a byte of the buffers. -/
structure Safe (r : Recording) (input : FrameInput) : Prop where
  encoder : ∀ a ∈ r.encoder.encodeAccesses input, a.Below (r.encoder.encode input).1.bufsize
  decoder : ∀ packet, (r.encoder.encode input).2 = some packet →
    ∀ a ∈ r.decoder.decodeAccesses packet, a.Below (r.decoder.decode packet).bufsize

def SafeRun : Recording → List FrameInput → Prop
  | _, [] => True
  | r, input :: inputs => r.Safe input ∧ SafeRun (r.play input) inputs

def LandsRun : Recording → List FrameInput → Prop
  | _, [] => True
  | r, input :: inputs => r.encoder.LandsInside input ∧ LandsRun (r.play input) inputs

variable {r : Recording}

/-- One frame: the encoder is always safe. -/
theorem safe_iff (he : r.encoder.Sized) (hc : r.encoder.Possible) (h : Follows r.encoder r.decoder)
    (input : FrameInput) : r.Safe input ↔ r.encoder.LandsInside input := by
  obtain ⟨-, -, -, hencoder⟩ := he.encode hc input
  obtain ⟨-, hdecoder⟩ := follows_encode h he input
  exact ⟨fun hsafe => hdecoder.1 hsafe.decoder, fun hlands => ⟨hencoder, hdecoder.2 hlands⟩⟩

theorem safeRun_iff_of_follows (he : r.encoder.Sized) (hc : r.encoder.Possible)
    (h : Follows r.encoder r.decoder) (inputs : List FrameInput) :
    r.SafeRun inputs ↔ r.LandsRun inputs := by
  induction inputs generalizing r with
  | nil => exact Iff.rfl
  | cons input inputs ih =>
    obtain ⟨hsized, hwidth, hheight, -⟩ := he.encode hc input
    have hpossible : (r.play input).encoder.Possible := ⟨hwidth ▸ hc.width, hheight ▸ hc.height⟩
    exact and_congr (safe_iff he hc h input) (ih hsized hpossible (follows_encode h he input).1)

theorem follows_start (width height : ℕ) :
    Follows (start width height).encoder (start width height).decoder :=
  ⟨rfl, rfl, sized_setup width height, rfl, rfl⟩

/-- **The buffers are large enough** for every recording, except for blocks that have come from
above: the decoder looks for them 128 rows further down. -/
theorem buffers_suffice_iff (width height : ℕ) (hwidth : 1 ≤ width ∧ width ≤ 8192)
    (hheight : 1 ≤ height ∧ height ≤ 8192) (inputs : List FrameInput) :
    (start width height).SafeRun inputs ↔ (start width height).LandsRun inputs :=
  safeRun_iff_of_follows (sized_setup width height) ⟨hwidth.2, hheight.2⟩
    (follows_start width height) inputs

/-- A line that moves to the left. -/
theorem buffers_suffice_ramp : (start 8 1).SafeRun [rampInput true 1, rampInput false 2] := by
  refine (buffers_suffice_iff 8 1 (by decide) (by decide) _).2
    ⟨fun h => absurd h (by decide), ?_, trivial⟩
  intro _ _ s hs
  obtain rfl := Option.some.inj hs
  unfold FrameBlock.Lands
  decide +kernel

/-- A line that turns black: its best match is the border above the line. -/
theorem blackLine_not_safe :
    ¬ ∀ width height : ℕ, 1 ≤ width ∧ width ≤ 8192 → 1 ≤ height ∧ height ≤ 8192 →
      ∀ inputs, (start width height).SafeRun inputs := by
  intro hall
  obtain ⟨-, hsafe, -⟩ := hall 8 1 (by decide) (by decide)
    [rampInput true 1, ⟨false, .BPP_15, none, [[fun _ => 0]]⟩]
  exact absurd (hsafe.decoder _ rfl) (by decide +kernel)

end Recording

end AugraDosbox
