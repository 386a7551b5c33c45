import AugraDosbox.Capture.ZmbvBlocks
import Mathlib.Tactic.Linarith

/-!
# The picture inside its border

Where the pixels of a picture are in a frame buffer, and what writing its lines does.

* `VideoCodec.Inside` — the pixel numbers of the picture; the rest is border;
* **`VideoCodec.inside_iff`** — the blocks cover exactly the picture;
* `VideoCodec.drawLines` — lines copied into consecutive rows, which is what
  `CompressLines` does in one call or many (`compressLines_calls`) and what the decoder does
  with a key frame (`readLines_eq`).
-/

namespace AugraDosbox

namespace VideoCodec

variable {c : VideoCodec}

/-- The number of a pixel of the picture. -/
def pixelIndex (c : VideoCodec) (y x : ℕ) : ℤ := MAX_VECTOR + (y + MAX_VECTOR) * c.pitch + x

/-- The pixel belongs to the picture. -/
def Inside (c : VideoCodec) (i : ℤ) : Prop :=
  ∃ y < c.height, ∃ x < c.width, i = c.pixelIndex y x

/-- The border is black. -/
def Bordered (c : VideoCodec) (frame : Frame) : Prop :=
  ∀ i, ¬c.Inside i → ∀ k < c.pixelsize, frame (c.pixelsize * i + k) = 0

theorem pixelIndex_inj {y x y' x' : ℕ} (hx : x < c.width) (hx' : x' < c.width)
    (h : c.pixelIndex y x = c.pixelIndex y' x') : y = y' ∧ x = x' := by
  have hpitch : c.width < c.pitch := by
    unfold pitch MAX_VECTOR
    omega
  have haddress : (c.pitch : ℤ) * y + x = c.pitch * y' + x' := by
    unfold pixelIndex at h
    linarith
  obtain ⟨hy, hxx⟩ := byte_address_inj (by omega) (by omega) haddress
  exact ⟨by exact_mod_cast hy, hxx⟩

/-! ## Blocks -/

theorem mem_frameBlocks {bw bh : ℕ} {block : FrameBlock} :
    block ∈ c.frameBlocks bw bh ↔
      ∃ y < c.height / bh + (if c.height % bh ≠ 0 then 1 else 0),
        ∃ x < c.width / bw + (if c.width % bw ≠ 0 then 1 else 0),
          block = ⟨(y * bh + MAX_VECTOR) * c.pitch + x * bw + MAX_VECTOR,
            if c.width % bw ≠ 0 ∧ x = c.width / bw + (if c.width % bw ≠ 0 then 1 else 0) - 1
              then c.width % bw else bw,
            if c.height % bh ≠ 0 ∧ y = c.height / bh + (if c.height % bh ≠ 0 then 1 else 0) - 1
              then c.height % bh else bh⟩ := by
  simp only [frameBlocks, List.mem_flatMap, List.mem_range, List.mem_map]
  constructor
  · rintro ⟨y, hy, x, hx, rfl⟩
    exact ⟨y, hy, x, hx, rfl⟩
  · rintro ⟨y, hy, x, hx, rfl⟩
    exact ⟨y, hy, x, hx, rfl⟩

/-- One coordinate of a pixel: its block and its place in the block. -/
theorem block_coordinate {size a : ℕ} :
    a < size ↔ a / 16 < size / 16 + (if size % 16 ≠ 0 then 1 else 0) ∧
      a % 16 < if size % 16 ≠ 0 ∧ a / 16 = size / 16 + (if size % 16 ≠ 0 then 1 else 0) - 1
        then size % 16 else 16 := by
  split_ifs <;> omega

/-- A place in a block is one in the picture. -/
theorem coordinate_of_block {size b d : ℕ}
    (hb : b < size / 16 + (if size % 16 ≠ 0 then 1 else 0))
    (hd : d < if size % 16 ≠ 0 ∧ b = size / 16 + (if size % 16 ≠ 0 then 1 else 0) - 1
      then size % 16 else 16) : b * 16 + d < size := by
  split_ifs at hb hd <;> omega

/-- **The blocks are the picture.** -/
theorem inside_iff {i : ℤ} :
    c.Inside i ↔ ∃ block ∈ c.frameBlocks 16 16, block.HasPixel c.pitch i := by
  constructor
  · rintro ⟨y, hy, x, hx, rfl⟩
    obtain ⟨hyb, hyd⟩ := block_coordinate.mp hy
    obtain ⟨hxb, hxd⟩ := block_coordinate.mp hx
    refine ⟨_, mem_frameBlocks.mpr ⟨y / 16, hyb, x / 16, hxb, rfl⟩, y % 16 * c.pitch + x % 16,
      FrameBlock.mem_pixels.mpr ⟨y % 16, hyd, x % 16, hxd, rfl⟩, ?_⟩
    have hysplit : (y : ℤ) = (y / 16 : ℕ) * 16 + (y % 16 : ℕ) := by omega
    have hxsplit : (x : ℤ) = (x / 16 : ℕ) * 16 + (x % 16 : ℕ) := by omega
    unfold pixelIndex
    rw [hysplit, hxsplit]
    push_cast
    ring
  · rintro ⟨block, hblock, p, hp, rfl⟩
    obtain ⟨by', hby, bx, hbx, rfl⟩ := mem_frameBlocks.mp hblock
    obtain ⟨y, hy, x, hx, rfl⟩ := FrameBlock.mem_pixels.mp hp
    refine ⟨by' * 16 + y, coordinate_of_block hby hy, bx * 16 + x, coordinate_of_block hbx hx, ?_⟩
    unfold pixelIndex
    push_cast
    ring

/-! ## Lines -/

theorem lineStart_eq (y : ℕ) : c.lineStart y = c.pixelsize * c.pixelIndex y 0 := by
  simp [lineStart, pixelIndex]

theorem copyLine_row (frame : Frame) (line : Line) (y : ℕ) {x k : ℕ} (hx : x < c.width)
    (hk : k < c.pixelsize) :
    copyLine frame (c.lineStart y) (c.width * c.pixelsize) line
      (c.pixelsize * c.pixelIndex y x + k) = line (c.pixelsize * x + k) := by
  have haddress : (c.pixelsize : ℤ) * c.pixelIndex y x + k =
      c.lineStart y + (c.pixelsize * x + k : ℕ) := by
    unfold lineStart pixelIndex
    push_cast
    ring
  have hlt : c.pixelsize * x + k < c.width * c.pixelsize := by
    have hmul : c.pixelsize * (x + 1) ≤ c.pixelsize * c.width := Nat.mul_le_mul_left _ hx
    rw [Nat.mul_comm c.width]
    rw [Nat.mul_add, Nat.mul_one] at hmul
    omega
  rw [haddress, copyLine, if_pos ⟨by omega, by omega⟩]
  congr 1
  omega

theorem copyLine_other (frame : Frame) (line : Line) (y : ℕ) {i : ℤ} {k : ℕ}
    (hk : k < c.pixelsize) (hi : ∀ x < c.width, i ≠ c.pixelIndex y x) :
    copyLine frame (c.lineStart y) (c.width * c.pixelsize) line (c.pixelsize * i + k) =
      frame (c.pixelsize * i + k) := by
  apply if_neg
  rintro ⟨hle, hlt⟩
  rw [lineStart_eq] at hle hlt
  have hge : c.pixelIndex y 0 ≤ i := by
    by_contra hless
    have hmul : (c.pixelsize : ℤ) * (i + 1) ≤ c.pixelsize * c.pixelIndex y 0 :=
      Int.mul_le_mul_of_nonneg_left (by omega) (by omega)
    rw [mul_add, mul_one] at hmul
    omega
  have hwidth : i < c.pixelIndex y 0 + c.width := by
    by_contra hmore
    have hmul : (c.pixelsize : ℤ) * (c.pixelIndex y 0 + c.width) ≤ c.pixelsize * i :=
      Int.mul_le_mul_of_nonneg_left (by omega) (by omega)
    push_cast at hlt
    rw [mul_add, mul_comm (c.pixelsize : ℤ) (c.width : ℤ)] at hmul
    omega
  refine hi (i - c.pixelIndex y 0).toNat (by omega) ?_
  have hx : ((i - c.pixelIndex y 0).toNat : ℤ) = i - c.pixelIndex y 0 := by omega
  unfold pixelIndex at hx ⊢
  rw [hx]
  push_cast
  ring

/-- Lines copied into the rows from `done` on. -/
def drawLines (c : VideoCodec) : List Line → ℕ → Frame → Frame
  | [], _, frame => frame
  | line :: lines, done, frame =>
    drawLines c lines (done + 1) (copyLine frame (c.lineStart done) (c.width * c.pixelsize) line)

theorem drawLines_other (lines : List Line) (done : ℕ) (frame : Frame) {i : ℤ} {k : ℕ}
    (hk : k < c.pixelsize)
    (hi : ∀ y, done ≤ y → y < done + lines.length → ∀ x < c.width, i ≠ c.pixelIndex y x) :
    c.drawLines lines done frame (c.pixelsize * i + k) = frame (c.pixelsize * i + k) := by
  induction lines generalizing done frame with
  | nil => rfl
  | cons line lines ih =>
    rw [List.length_cons] at hi
    rw [drawLines, ih]
    · exact copyLine_other frame line done hk (hi done (Nat.le_refl _) (by omega))
    · intro y hy hy'
      exact hi y (by omega) (by omega)

theorem drawLines_row (lines : List Line) (done : ℕ) (frame : Frame) {j x k : ℕ} {line : Line}
    (hline : lines[j]? = some line) (hx : x < c.width) (hk : k < c.pixelsize) :
    c.drawLines lines done frame (c.pixelsize * c.pixelIndex (done + j) x + k) =
      line (c.pixelsize * x + k) := by
  induction lines generalizing done frame j with
  | nil => simp at hline
  | cons line' lines ih =>
    rw [drawLines]
    cases j with
    | zero =>
      have hsame : line' = line := by simpa using hline
      rw [drawLines_other _ _ _ hk]
      · rw [Nat.add_zero, copyLine_row _ _ _ hx hk, hsame]
      · intro y hy _ x' hx' heq
        have hrow := (pixelIndex_inj hx hx' heq).1
        omega
    | succ j =>
      rw [List.getElem?_cons_succ] at hline
      have hrow := ih (done + 1) (copyLine frame (c.lineStart done) (c.width * c.pixelsize) line')
        hline
      rw [Nat.add_assoc, Nat.add_comm 1] at hrow
      exact hrow

theorem drawLines_bordered {lines : List Line} {done : ℕ} {frame : Frame}
    (h : c.Bordered frame) (hlength : done + lines.length ≤ c.height) :
    c.Bordered (c.drawLines lines done frame) := by
  intro i hi k hk
  rw [drawLines_other _ _ _ hk]
  · exact h i hi k hk
  · intro y _ hy x hx heq
    exact hi ⟨y, by omega, x, hx, heq⟩

theorem drawLines_append (lines lines' : List Line) (done : ℕ) (frame : Frame) :
    c.drawLines (lines ++ lines') done frame =
      c.drawLines lines' (done + lines.length) (c.drawLines lines done frame) := by
  induction lines generalizing done frame with
  | nil => rfl
  | cons line lines ih =>
    rw [List.cons_append, drawLines, drawLines, ih, List.length_cons]
    congr 1
    omega

/-! ## The frame pointers -/

@[simp] theorem newframe_setNewframe (frame : Frame) : (c.setNewframe frame).newframe = frame := by
  unfold newframe setNewframe
  cases c.newIsBuf1 <;> rfl

@[simp] theorem oldframe_setNewframe (frame : Frame) :
    (c.setNewframe frame).oldframe = c.oldframe := by
  unfold oldframe setNewframe
  cases c.newIsBuf1 <;> rfl

@[simp] theorem setNewframe_setNewframe (frame frame' : Frame) :
    (c.setNewframe frame).setNewframe frame' = c.setNewframe frame' := by
  unfold setNewframe
  cases c.newIsBuf1 <;> rfl

@[simp] theorem setNewframe_newframe (c : VideoCodec) : c.setNewframe c.newframe = c := by
  unfold setNewframe newframe
  cases hnew : c.newIsBuf1 <;> cases c <;> simp_all

@[simp] theorem oldframe_swapFrames : c.swapFrames.oldframe = c.newframe := by
  unfold oldframe newframe swapFrames
  cases c.newIsBuf1 <;> rfl

@[simp] theorem newframe_swapFrames : c.swapFrames.newframe = c.oldframe := by
  unfold oldframe newframe swapFrames
  cases c.newIsBuf1 <;> rfl

/-- Only the size of the picture and of its pixels matters. -/
@[simp] theorem drawLines_setNewframe (lines : List Line) (done : ℕ) (frame frame' : Frame) :
    (c.setNewframe frame').drawLines lines done frame = c.drawLines lines done frame := by
  induction lines generalizing done frame with
  | nil => rfl
  | cons line lines ih =>
    rw [drawLines, drawLines, ih]
    rfl

/-! ## Handing over a picture -/

theorem compressLines_eq (lines : List Line) (c : VideoCodec) (compress : Compress)
    (h : compress.linesDone + lines.length ≤ c.height) :
    CompressLines lines (c, compress) =
      (c.setNewframe (c.drawLines lines compress.linesDone c.newframe),
        { compress with linesDone := compress.linesDone + lines.length }) := by
  induction lines generalizing c compress with
  | nil =>
    rw [CompressLines, drawLines, setNewframe_newframe]
    rfl
  | cons line lines ih =>
    rw [List.length_cons] at h
    rw [CompressLines, if_pos (by omega), ih]
    · rw [newframe_setNewframe, setNewframe_setNewframe, drawLines_setNewframe]
      refine Prod.ext_iff.mpr ⟨rfl, ?_⟩
      rw [List.length_cons]
      simp only [Compress.mk.injEq, and_self, and_true]
      omega
    · change compress.linesDone + 1 + lines.length ≤ c.height
      omega

theorem compressLines_calls (calls : List (List Line)) (c : VideoCodec) (compress : Compress)
    (h : compress.linesDone + calls.flatten.length ≤ c.height) :
    calls.foldl (fun s lines => CompressLines lines s) (c, compress) =
      (c.setNewframe (c.drawLines calls.flatten compress.linesDone c.newframe),
        { compress with linesDone := compress.linesDone + calls.flatten.length }) := by
  induction calls generalizing c compress with
  | nil =>
    rw [List.foldl_nil, List.flatten_nil, drawLines, setNewframe_newframe]
    rfl
  | cons lines calls ih =>
    rw [List.flatten_cons, List.length_append] at h
    rw [List.foldl_cons, compressLines_eq _ _ _ (by omega), ih]
    · rw [newframe_setNewframe, setNewframe_setNewframe, drawLines_setNewframe, List.flatten_cons,
        drawLines_append]
      refine Prod.ext_iff.mpr ⟨rfl, ?_⟩
      rw [List.length_append]
      simp only [Compress.mk.injEq, and_self, and_true]
      omega
    · change compress.linesDone + lines.length + calls.flatten.length ≤ c.height
      omega

/-! ## Reading a key frame -/

/-- The lines in the work buffer. -/
def workLines (c : VideoCodec) (workPos : ℕ) : ℕ → List Line
  | 0 => []
  | m + 1 => (fun i => c.work (workPos + i)) :: workLines c (workPos + c.width * c.pixelsize) m

theorem workLines_getElem (m : ℕ) {workPos j : ℕ} (hj : j < m) :
    (c.workLines workPos m)[j]? =
      some fun i => c.work (workPos + j * (c.width * c.pixelsize) + i) := by
  induction m generalizing workPos j with
  | zero => omega
  | succ m ih =>
    cases j with
    | zero => simp [workLines]
    | succ j =>
      rw [workLines, List.getElem?_cons_succ, ih (by omega)]
      congr 1
      funext i
      congr 1
      ring

theorem length_workLines (m workPos : ℕ) : (c.workLines workPos m).length = m := by
  induction m generalizing workPos with
  | zero => rfl
  | succ m ih => rw [workLines, List.length_cons, ih]

/-- Only the sizes and the work buffer matter. -/
theorem readLines_congr {d : VideoCodec} (hwidth : d.width = c.width)
    (hpixelsize : d.pixelsize = c.pixelsize) (hwork : d.work = c.work) (ys : List ℕ) (workPos : ℕ)
    (frame : Frame) : d.readLines ys workPos frame = c.readLines ys workPos frame := by
  induction ys generalizing workPos frame with
  | nil => rfl
  | cons y ys ih =>
    rw [readLines, readLines, ih]
    simp only [lineStart, pitch, hwidth, hpixelsize, hwork]

theorem readLines_eq (m : ℕ) (done workPos : ℕ) (frame : Frame) :
    c.readLines (List.range' done m) workPos frame =
      c.drawLines (c.workLines workPos m) done frame := by
  induction m generalizing done workPos frame with
  | zero => rfl
  | succ m ih => rw [List.range'_succ, readLines, workLines, drawLines, ih]

end VideoCodec

end AugraDosbox
