import Mathlib.Data.Int.Basic
import Mathlib.Logic.Function.Basic
import Mathlib.Tactic.Common

/-!
# The ZMBV video codec

`VideoCodec` of `src/capture/video/zmbv.cpp`: the encoder that records a video, and the
decoder for it.

* `SetupBuffers` — the two frame buffers, with a border of `MAX_VECTOR` pixels, and the
  blocks they are cut into.  Buffers are functions from byte offsets; the pixel type `P`
  of the templates is its size `n`, on a little-endian host;
* `PrepareCompressFrame`, `CompressLines`, `FinishCompressFrame` — the encoder; a delta
  frame says for each block where it was in the last frame and what has changed;
* `DecompressFrame` — the decoder;
* `Packet` — a compressed frame.  The compression library is left out: `payload` is what
  was in the work buffer, and what will be in the decoder's.  So are the size checks that
  depend on it.

`none` stands for a call that returns false, and for one that writes past the end of the
work buffer.
-/

namespace AugraDosbox

/-- A byte of a picture, a palette or the work buffer. -/
abbrev PixelByte := BitVec 8

/-- The bytes behind a pointer into a frame buffer. -/
abbrev Frame := ℤ → PixelByte

/-- A line of a picture, as the bytes behind its pointer. -/
abbrev Line := ℕ → PixelByte

inductive ZMBV_FORMAT where
  | NONE | BPP_1 | BPP_2 | BPP_4 | BPP_8 | BPP_15 | BPP_16 | BPP_24 | BPP_32
deriving DecidableEq, Repr

def ZMBV_ToBytesPerPixel : ZMBV_FORMAT → ℕ
  | .BPP_8 => 1
  | .BPP_15 | .BPP_16 => 2
  | .BPP_24 | .BPP_32 => 4
  | _ => 0

/-- The format the header names: the public codec has no 24 bit content. -/
def headerFormat (format : ZMBV_FORMAT) : ZMBV_FORMAT :=
  if format = .BPP_24 then .BPP_32 else format

def MAX_VECTOR : ℕ := 16

/-- The palette that is given to the encoder: 256 entries of four bytes, the last of which
is not used and is zero. -/
structure Palette where
  bytes : ℕ → PixelByte
  unused : ∀ i, bytes (4 * i + 3) = 0

/-! ## Blocks -/

/-- A block of the picture; `start` counts pixels. -/
structure FrameBlock where
  start : ℕ
  dx : ℕ
  dy : ℕ
deriving DecidableEq, Repr

namespace FrameBlock

/-- The offsets of the pixels of a block, in the order of the loops over it. -/
def pixels (pitch : ℕ) (block : FrameBlock) : List ℕ :=
  (List.range block.dy).flatMap fun y => (List.range block.dx).map fun x => y * pitch + x

/-- The offsets of the pixels that `PossibleBlock` looks at. -/
def samples (pitch : ℕ) (block : FrameBlock) : List ℕ :=
  (List.range ((block.dy + 3) / 4)).flatMap fun y =>
    (List.range ((block.dx + 3) / 4)).map fun x => 4 * y * pitch + 4 * x

/-- The offsets of the bytes of a block. -/
def bytes (n pitch : ℕ) (block : FrameBlock) : List ℕ :=
  (block.pixels pitch).flatMap fun p => (List.range n).map fun k => n * p + k

end FrameBlock

/-- A motion vector. -/
abbrev CodecVector := ℤ × ℤ

/-- `CreateVectorTable`: the origin, and the squares around it up to a distance of 10. -/
def VectorTable : List CodecVector :=
  (0, 0) :: (List.range' 1 10).flatMap fun s =>
    (List.range (2 * s + 1)).flatMap fun (y : ℕ) =>
      (List.range (2 * s + 1)).filterMap fun (x : ℕ) =>
      let v : CodecVector := ((x : ℤ) - s, (y : ℤ) - s)
      if v.1.natAbs = s ∨ v.2.natAbs = s then some v else none

section Blocks

variable (n pitch : ℕ) (oldframe newframe : Frame)

/-- The part of a pixel under the mask `0x00ffffff`. -/
def colour (frame : Frame) (i : ℤ) : List PixelByte :=
  (List.range (min n 3)).map fun (k : ℕ) => frame (n * i + k)

/-- The offset of a block's first pixel in the old frame. -/
def FrameBlock.source (block : FrameBlock) (v : CodecVector) : ℤ :=
  block.start + v.2 * pitch + v.1

/-- `PossibleBlock`.  The subtraction of `uint32_t` pixels is unsigned, so that the shift
gives 1 and not -1, and the count goes down instead of up. -/
def PossibleBlock (v : CodecVector) (block : FrameBlock) : ℤ :=
  let count := (block.samples pitch).countP fun (p : ℕ) =>
    colour n oldframe (block.source pitch v + p) ≠ colour n newframe (block.start + p)
  if n = 4 then -count else count

def CompareBlock (v : CodecVector) (block : FrameBlock) : ℕ :=
  (block.pixels pitch).countP fun (p : ℕ) =>
    colour n oldframe (block.source pitch v + p) ≠ colour n newframe (block.start + p)

def AddXorBlock (v : CodecVector) (block : FrameBlock) : List PixelByte :=
  (block.bytes n pitch).map fun (o : ℕ) =>
    newframe (n * block.start + o) ^^^ oldframe (n * block.source pitch v + o)

/-- The search for the best vector of a block; `bestchange` pixels differ at `best`. -/
def searchVectors (block : FrameBlock) :
    List CodecVector → ℕ → CodecVector → ℕ → CodecVector × ℕ
  | [], _, best, bestchange => (best, bestchange)
  | v :: vs, possibles, best, bestchange =>
    if possibles = 0 ∨ bestchange < 4 then (best, bestchange)
    else if PossibleBlock n pitch oldframe newframe v block < 4 then
      let testchange := CompareBlock n pitch oldframe newframe v block
      if testchange < bestchange then searchVectors block vs (possibles - 1) v testchange
      else searchVectors block vs (possibles - 1) best bestchange
    else searchVectors block vs possibles best bestchange

/-- The vector of a block, and how many pixels differ there. -/
def blockVector (block : FrameBlock) : CodecVector × ℕ :=
  searchVectors n pitch oldframe newframe block VectorTable 64 (0, 0)
    (CompareBlock n pitch oldframe newframe (0, 0) block)

/-- The two bytes of a block: the vector shifted by one, and whether there is more data. -/
def vectorBytes (v : CodecVector) (bestchange : ℕ) : List PixelByte :=
  [BitVec.ofInt 8 (2 * v.1) ||| (if bestchange = 0 then 0#8 else 1#8), BitVec.ofInt 8 (2 * v.2)]

def alignWork (count offset : ℕ) : ℕ := (offset + count * 2 + 3) / 4 * 4

/-- `AddXorFrame`: the bytes from `workUsed` on.  Those that only align the rest are what
the work buffer had there before. -/
def AddXorFrame (blocks : List FrameBlock) (work : ℕ → PixelByte) (workUsed : ℕ) :
    List PixelByte :=
  let found := blocks.map fun block => (block, blockVector n pitch oldframe newframe block)
  let vectors := found.flatMap fun p => vectorBytes p.2.1 p.2.2
  let used := workUsed + 2 * blocks.length
  let padding := (List.range (alignWork blocks.length workUsed - used)).map fun i => work (used + i)
  vectors ++ padding ++ found.flatMap fun p =>
    if p.2.2 = 0 then [] else AddXorBlock n pitch oldframe newframe p.2.1 p.1

variable (work : ℕ → PixelByte)

def UnXorBlock (v : CodecVector) (block : FrameBlock) (workPos : ℕ) : Frame :=
  ((block.bytes n pitch).zipIdx workPos).foldl (fun frame p =>
    Function.update frame (n * block.start + p.1)
      (oldframe (n * block.source pitch v + p.1) ^^^ work p.2)) newframe

def CopyBlock (v : CodecVector) (block : FrameBlock) : Frame :=
  (block.bytes n pitch).foldl (fun (frame : Frame) (o : ℕ) =>
    Function.update frame (n * block.start + o) (oldframe (n * block.source pitch v + o))) newframe

/-- The vector in the two bytes of a block.  The bytes are unsigned. -/
def readVector (vectors : ℕ) : CodecVector :=
  ((work vectors >>> 1).toNat, (work (vectors + 1) >>> 1).toNat)

/-- The loop of `UnXorFrame`: `vectors` is where the bytes of the next block are. -/
def unXorBlocks : List FrameBlock → ℕ → ℕ → Frame → Frame
  | [], _, _, newframe => newframe
  | block :: blocks, vectors, workPos, newframe =>
    let v := readVector work vectors
    if (work vectors).getLsbD 0 then
      unXorBlocks blocks (vectors + 2) (workPos + (block.bytes n pitch).length)
        (UnXorBlock n pitch oldframe newframe work v block workPos)
    else unXorBlocks blocks (vectors + 2) workPos (CopyBlock n pitch oldframe newframe v block)

def UnXorFrame (blocks : List FrameBlock) (workPos : ℕ) : Frame :=
  unXorBlocks n pitch oldframe work blocks workPos (alignWork blocks.length workPos) newframe

end Blocks

/-! ## The codec -/

structure VideoCodec where
  width : ℕ
  height : ℕ
  format : ZMBV_FORMAT
  palsize : ℕ
  pixelsize : ℕ
  bufsize : ℕ
  buf1 : Frame
  buf2 : Frame
  /-- Whether `newframe` points to `buf1`, and `oldframe` to `buf2`. -/
  newIsBuf1 : Bool
  blocks : List FrameBlock
  work : ℕ → PixelByte
  palette : ℕ → PixelByte

structure KeyframeHeader where
  high_version : ℕ
  low_version : ℕ
  compression : ℕ
  format : ZMBV_FORMAT
  blockwidth : ℕ
  blockheight : ℕ
deriving DecidableEq, Repr

/-- A frame that is being compressed: `workBytes` are the first `workUsed` bytes of the work
buffer. -/
structure Compress where
  linesDone : ℕ
  firstByte : PixelByte
  header : Option KeyframeHeader
  workBytes : List PixelByte

/-- A compressed frame. -/
structure Packet where
  tag : PixelByte
  header : Option KeyframeHeader
  payload : List PixelByte
deriving DecidableEq, Repr

def Mask_KeyFrame : PixelByte := 0x01
def Mask_DeltaPalette : PixelByte := 0x02

/-- `memcpy` of a line. -/
def copyLine (frame : Frame) (base : ℤ) (length : ℕ) (line : Line) : Frame := fun o =>
  if base ≤ o ∧ o < base + length then line (o - base).toNat else frame o

/-- A buffer after bytes have been written to its beginning. -/
def overlay (work : ℕ → PixelByte) (bytes : List PixelByte) : ℕ → PixelByte := fun i =>
  bytes.getD i (work i)

/-- Three bytes of each palette entry. -/
def paletteBytes (palsize : ℕ) (f : ℕ → PixelByte) : List PixelByte :=
  (List.range palsize).flatMap fun i => [f (4 * i), f (4 * i + 1), f (4 * i + 2)]

namespace VideoCodec

variable (c : VideoCodec)

def pitch : ℕ := c.width + 2 * MAX_VECTOR

def newframe : Frame := if c.newIsBuf1 then c.buf1 else c.buf2

def oldframe : Frame := if c.newIsBuf1 then c.buf2 else c.buf1

/-- The codec with another content of `newframe`. -/
def setNewframe (frame : Frame) : VideoCodec :=
  { c with
    buf1 := if c.newIsBuf1 then frame else c.buf1, buf2 := if c.newIsBuf1 then c.buf2 else frame }

def swapFrames : VideoCodec := { c with newIsBuf1 := !c.newIsBuf1 }

/-- The blocks of a picture. -/
def frameBlocks (blockwidth blockheight : ℕ) : List FrameBlock :=
  let xleft := c.width % blockwidth
  let xblocks := c.width / blockwidth + if xleft ≠ 0 then 1 else 0
  let yleft := c.height % blockheight
  let yblocks := c.height / blockheight + if yleft ≠ 0 then 1 else 0
  (List.range yblocks).flatMap fun y => (List.range xblocks).map fun x =>
    { start := (y * blockheight + MAX_VECTOR) * c.pitch + x * blockwidth + MAX_VECTOR
      dx := if xleft ≠ 0 ∧ x = xblocks - 1 then xleft else blockwidth
      dy := if yleft ≠ 0 ∧ y = yblocks - 1 then yleft else blockheight }

def SetupBuffers (format : ZMBV_FORMAT) (blockwidth blockheight : ℕ) : Option VideoCodec :=
  let pixelsize := ZMBV_ToBytesPerPixel format
  if pixelsize = 0 then none
  else some { c with
    palsize := if format = .BPP_8 then 256 else 0, pixelsize := pixelsize
    bufsize := (c.height + 2 * MAX_VECTOR) * c.pitch * pixelsize + 2048
    buf1 := fun _ => 0, buf2 := fun _ => 0, work := fun _ => 0
    blocks := c.frameBlocks blockwidth blockheight, newIsBuf1 := false, format := format }

/-- The codec after `SetupCompress` or `SetupDecompress`. -/
def setup (width height : ℕ) : VideoCodec :=
  { width := width, height := height, format := .NONE, palsize := 0, pixelsize := 0, bufsize := 0
    buf1 := fun _ => 0, buf2 := fun _ => 0, newIsBuf1 := false, blocks := [], work := fun _ => 0
    palette := fun _ => 0 }

/-- `memcmp(pal, palette, palette_bytes)`. -/
def paletteDiffers (pal : Palette) : Bool :=
  (List.range (c.palsize * 4)).any fun j => pal.bytes j != c.palette j

/-- The beginning of a key frame. -/
def prepareKey (pal : Option Palette) : VideoCodec × Compress :=
  let header := ⟨0, 1, 1, headerFormat c.format, 16, 16⟩
  if c.palsize ≠ 0 then
    let palette := pal.elim (fun _ => 0) Palette.bytes
    ({ c with palette := palette },
      ⟨0, Mask_KeyFrame, some header, paletteBytes c.palsize palette⟩)
  else (c, ⟨0, Mask_KeyFrame, some header, []⟩)

/-- The beginning of a delta frame. -/
def prepareDelta (pal : Option Palette) : VideoCodec × Compress :=
  match pal with
  | none => (c, ⟨0, 0, none, []⟩)
  | some pal =>
    if c.palsize ≠ 0 ∧ c.paletteDiffers pal = true then
      ({ c with palette := pal.bytes },
        ⟨0, Mask_DeltaPalette, none, paletteBytes c.palsize fun j => c.palette j ^^^ pal.bytes j⟩)
    else (c, ⟨0, 0, none, []⟩)

/-- `PrepareCompressFrame`; `key` is bit 0 of the flags. -/
def PrepareCompressFrame (key : Bool) (format : ZMBV_FORMAT) (pal : Option Palette) :
    Option (VideoCodec × Compress) :=
  if format ≠ c.format then (c.SetupBuffers format 16 16).map fun c => c.swapFrames.prepareKey pal
  else some (if key then c.swapFrames.prepareKey pal else c.swapFrames.prepareDelta pal)

/-- The first byte of a line of the picture. -/
def lineStart (y : ℕ) : ℤ := c.pixelsize * (MAX_VECTOR + (y + MAX_VECTOR) * c.pitch)

def CompressLines : List Line → VideoCodec × Compress → VideoCodec × Compress
  | [], s => s
  | line :: lines, (c, compress) =>
    if compress.linesDone < c.height then
      CompressLines lines
        (c.setNewframe (copyLine c.newframe (c.lineStart compress.linesDone)
            (c.width * c.pixelsize) line),
          { compress with linesDone := compress.linesDone + 1 })
    else (c, compress)

/-- All lines of the picture, one after another. -/
def frameBytes : List PixelByte :=
  (List.range c.height).flatMap fun y =>
    (List.range (c.width * c.pixelsize)).map fun (i : ℕ) => c.newframe (c.lineStart y + i)

def FinishCompressFrame (compress : Compress) : Option (VideoCodec × Packet) :=
  let bytes := compress.workBytes ++
    if compress.firstByte &&& Mask_KeyFrame ≠ 0 then c.frameBytes
    else AddXorFrame c.pixelsize c.pitch c.oldframe c.newframe c.blocks c.work
      compress.workBytes.length
  if c.bufsize < bytes.length then none
  else some ({ c with work := overlay c.work bytes },
    ⟨compress.firstByte, compress.header, bytes⟩)

/-- The lines of a key frame, copied from `workPos` on into rows of the picture. -/
def readLines : List ℕ → ℕ → Frame → Frame
  | [], _, frame => frame
  | y :: ys, workPos, frame =>
    readLines ys (workPos + c.width * c.pixelsize)
      (copyLine frame (c.lineStart y) (c.width * c.pixelsize) fun i => c.work (workPos + i))

/-- The palette with three bytes of each entry replaced. -/
def setPalette (f : ℕ → PixelByte → PixelByte) : VideoCodec :=
  { c with palette := fun j =>
      if j < 4 * c.palsize ∧ j % 4 < 3 then f (3 * (j / 4) + j % 4) (c.palette j) else c.palette j }

/-- What `DecompressFrame` does once the work buffer is filled. -/
def decodeKey : VideoCodec :=
  let c := if c.palsize ≠ 0 then c.setPalette fun i _ => c.work i else c
  let c := { c with newIsBuf1 := true }
  c.setNewframe (c.readLines (List.range c.height) (3 * c.palsize) c.newframe)

def decodeDelta (tag : PixelByte) : VideoCodec :=
  let c := c.swapFrames
  if tag &&& Mask_DeltaPalette ≠ 0 then
    let c := c.setPalette fun i byte => byte ^^^ c.work i
    c.setNewframe
      (UnXorFrame c.pixelsize c.pitch c.oldframe c.newframe c.work c.blocks (3 * c.palsize))
  else c.setNewframe (UnXorFrame c.pixelsize c.pitch c.oldframe c.newframe c.work c.blocks 0)

def DecompressFrame (packet : Packet) : Option VideoCodec :=
  if packet.tag &&& Mask_KeyFrame ≠ 0 then
    packet.header.bind fun header =>
    if header.low_version ≠ 1 ∨ header.high_version ≠ 0 then none
    else
      (if c.format ≠ header.format then
        c.SetupBuffers header.format header.blockwidth header.blockheight
        else some c).map fun c => decodeKey { c with work := overlay c.work packet.payload }
  else some (decodeDelta { c with work := overlay c.work packet.payload } packet.tag)

end VideoCodec

/-! ## A recording -/

/-- A picture, with the calls of `CompressLines` that hand it over. -/
structure FrameInput where
  key : Bool
  format : ZMBV_FORMAT
  pal : Option Palette
  calls : List (List Line)

namespace VideoCodec

/-- The encoder and the frame when all lines have been handed over. -/
def collect (c : VideoCodec) (input : FrameInput) : Option (VideoCodec × Compress) :=
  (c.PrepareCompressFrame input.key input.format input.pal).map fun s =>
    input.calls.foldl (fun s lines => CompressLines lines s) s

def compressFrame (c : VideoCodec) (input : FrameInput) : Option (VideoCodec × Packet) :=
  (c.collect input).bind fun s => s.1.FinishCompressFrame s.2

end VideoCodec

/-- An encoder and a decoder that gets its frames. -/
structure Recording where
  encoder : VideoCodec
  decoder : VideoCodec

def Recording.frame (r : Recording) (input : FrameInput) : Option Recording :=
  (r.encoder.compressFrame input).bind fun p =>
    (r.decoder.DecompressFrame p.2).map fun decoder => ⟨p.1, decoder⟩

end AugraDosbox
