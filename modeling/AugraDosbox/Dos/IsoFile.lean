import AugraDosbox.Dos.FatFile
import AugraDosbox.Lib.StepRuns

/-!
# Files on compact discs

The class `isoFile` of `src/dos/drive_iso.cpp`, whose files the guest only reads.

* `Disc` — the sectors; what a failed read makes of a buffer is open;
* `IsoFile`, `Read`, `Seek` — a file, which keeps the last sector that it has read;
* `Cursor`, `Represents` — what a file is for: a position among the bytes of an extent;
* **`file_answers`** — the file over whole runs.
-/

namespace AugraDosbox.Iso

open StepRuns
open Fat (SeekType u32 u32_lt u32_of_lt)

def ISO_FRAMESIZE : ℕ := 2048

structure Disc where
  image : ByteMemory.Memory
  readable : ℕ → Bool
  spoiled : ℕ → ByteMemory.Memory → ByteMemory.Memory

variable (disc : Disc)

def Disc.sector (sector : ℕ) : ByteMemory.Memory := fun k => disc.image (ISO_FRAMESIZE * sector + k)

/-! ## Files -/

/-- The members `cachedSector` and `buffer` of a file. -/
structure Cache where
  cachedSector : ℤ
  buffer : ByteMemory.Memory

/-- `readSector` into the buffer, with the number that the buffer gets when this succeeds. -/
def Cache.fill (sector : ℕ) (cachedSector : ℤ) (c : Cache) : Bool × Cache :=
  if disc.readable sector then (true, ⟨cachedSector, disc.sector sector⟩)
  else (false, ⟨-1, disc.spoiled sector c.buffer⟩)

structure IsoFile where
  fileBegin : ℕ
  filePos : ℕ
  fileEnd : ℕ
  cache : Cache

def isoFile (size offset : ℕ) : IsoFile where
  fileBegin := offset
  filePos := offset
  fileEnd := u32 (offset + size)
  cache := ⟨-1, fun _ => 0⟩

/-- The `n` bytes of a buffer from `sectorPos` on. -/
def copied (buffer : ByteMemory.Memory) (sectorPos n : ℕ) : List UInt8 :=
  (List.range' sectorPos n).map buffer

/-- The loop of `Read`, with `remSize` bytes to go. -/
def readLoop (remSize : ℕ) (sectorPos : Fin ISO_FRAMESIZE) (sector : ℕ) (c : Cache) :
    List UInt8 × Cache :=
  let remSector := ISO_FRAMESIZE - sectorPos
  if remSector < remSize then
    let data := copied c.buffer sectorPos remSector
    match c.fill disc (sector + 1) (c.cachedSector + 1) with
    | (true, c) =>
      let (rest, c) := readLoop (remSize - remSector) ⟨0, by decide⟩ (sector + 1) c
      (data ++ rest, c)
    -- the size becomes the number of bytes so far, which ends the loop
    | (false, c) => (data, c)
  else
    (copied c.buffer sectorPos remSize, c)
termination_by remSize
decreasing_by have := sectorPos.isLt; omega

/-- The part of `Read` behind the check for the end. -/
def readAt (size filePos : ℕ) (c : Cache) : List UInt8 × Cache :=
  let sector := filePos / ISO_FRAMESIZE
  let (size, c) :=
    if (sector : ℤ) ≠ c.cachedSector then
      match c.fill disc sector sector with
      | (true, c) => (size, c)
      | (false, c) => (0, c)
    else (size, c)
  readLoop disc size ⟨filePos % ISO_FRAMESIZE, Nat.mod_lt _ (by decide)⟩ sector c

/-- The size of a read, which ends at the end of the file. -/
def limited (size : ℕ) (f : IsoFile) : ℕ :=
  if f.fileEnd < u32 (f.filePos + size) then u32 (f.fileEnd + 2 ^ 32 - f.filePos) % 2 ^ 16 else size

/-- The bytes that are read; the call itself always succeeds. -/
def Read (size : ℕ) (f : IsoFile) : List UInt8 × IsoFile :=
  let (data, cache) := readAt disc (limited size f) f.filePos f.cache
  (data, { f with filePos := u32 (f.filePos + data.length), cache })

/-- Where a seek begins to count; `none` for a type that there is not. -/
def seekBase (first current last : ℕ) : SeekType → Option ℕ
  | .DOS_SEEK_SET => some first
  | .DOS_SEEK_CUR => some current
  | .DOS_SEEK_END => some last
  | .other => none

/-- The new position, counted from the beginning of the file. -/
def Seek (pos : ℕ) (type : SeekType) (f : IsoFile) : Option ℕ × IsoFile :=
  match seekBase f.fileBegin f.filePos f.fileEnd type with
  | none => (none, f)
  | some base =>
    let filePos := u32 (base + pos)
    let filePos := if f.fileEnd < filePos ∨ filePos < f.fileBegin then f.fileEnd else filePos
    (some (u32 (filePos + 2 ^ 32 - f.fileBegin)), { f with filePos })

inductive FileCall where
  | read (size : UInt16)
  | seek (pos : UInt32) (type : SeekType)

def answer (f : IsoFile) : FileCall → (List UInt8 ⊕ Option ℕ) × IsoFile
  | .read size => (Read disc size.toNat f).map .inl id
  | .seek pos type => (Seek pos.toNat type f).map .inr id

/-! ## What a file is for -/

/-- The `n` bytes from `a` on, up to the first one that cannot be read. -/
def Disc.bytes (n a : ℕ) : List UInt8 :=
  match n with
  | 0 => []
  | n + 1 => if disc.readable (a / ISO_FRAMESIZE) then disc.image a :: Disc.bytes n (a + 1) else []

/-- A position among the `size` bytes from `start` on. -/
structure Cursor where
  start : ℕ
  size : ℕ
  pos : ℕ

def Cursor.read (asked : ℕ) (c : Cursor) : List UInt8 × Cursor :=
  let data := disc.bytes (min asked (c.size - c.pos)) (c.start + c.pos)
  (data, { c with pos := c.pos + data.length })

/-- A place outside of the file becomes its end, in front of the file as well as behind it. -/
def Cursor.seek (pos : ℕ) (type : SeekType) (c : Cursor) : Option ℕ × Cursor :=
  match seekBase 0 c.pos c.size type with
  | none => (none, c)
  | some base =>
    let pos := min (u32 (base + pos)) c.size
    (some pos, { c with pos })

def Cursor.answer (c : Cursor) : FileCall → (List UInt8 ⊕ Option ℕ) × Cursor
  | .read size => (c.read disc size.toNat).map .inl id
  | .seek pos type => (c.seek pos.toNat type).map .inr id

/-! ## Bytes of a disc -/

variable {disc} {n m a s p : ℕ}

theorem bytes_of_not_readable (h : ¬ disc.readable (a / ISO_FRAMESIZE)) : disc.bytes n a = [] := by
  cases n with
  | zero => rfl
  | succ n => rw [Disc.bytes, if_neg h]

theorem length_bytes_le (disc : Disc) (n a : ℕ) : (disc.bytes n a).length ≤ n := by
  induction n generalizing a with
  | zero => exact le_rfl
  | succ n ih =>
    rw [Disc.bytes]
    split
    · exact Nat.succ_le_succ (ih _)
    · exact Nat.zero_le _

/-- Bytes from a sector, and those behind them. -/
theorem copied_append (hread : disc.readable s) (hp : p + n ≤ ISO_FRAMESIZE) (m : ℕ) :
    copied (disc.sector s) p n ++ disc.bytes m (ISO_FRAMESIZE * s + (p + n))
      = disc.bytes (n + m) (ISO_FRAMESIZE * s + p) := by
  induction n generalizing p with
  | zero => rw [Nat.zero_add]; rfl
  | succ n ih =>
    have hs : (ISO_FRAMESIZE * s + p) / ISO_FRAMESIZE = s := by
      rw [ISO_FRAMESIZE] at *
      omega
    have hrest := ih (p := p + 1) (by omega)
    rw [Nat.add_right_comm, Disc.bytes, hs, if_pos hread, Nat.add_assoc _ p 1, ← hrest,
      Nat.add_right_comm p 1 n]
    rfl

/-! ## A file stands for a cursor -/

/-- A sector that is in the buffer is the one that the file takes it for. -/
def Cached (disc : Disc) (c : Cache) : Prop :=
  c.cachedSector = -1 ∨ ∃ s : ℕ, disc.readable s ∧ c = ⟨s, disc.sector s⟩

theorem readLoop_spec (sectorPos : Fin ISO_FRAMESIZE) (hread : disc.readable s) :
    (readLoop disc n sectorPos s ⟨s, disc.sector s⟩).1
        = disc.bytes n (ISO_FRAMESIZE * s + sectorPos) ∧
      Cached disc (readLoop disc n sectorPos s ⟨s, disc.sector s⟩).2 := by
  induction n using Nat.strongRecOn generalizing sectorPos s with
  | _ n ih =>
    have hlt := sectorPos.isLt
    rw [readLoop]
    by_cases hmore : ISO_FRAMESIZE - sectorPos < n
    · have hfirst := copied_append (p := sectorPos) (n := ISO_FRAMESIZE - sectorPos) hread
        (by omega) (n - (ISO_FRAMESIZE - sectorPos))
      rw [Nat.add_sub_cancel' hmore.le, Nat.add_sub_cancel' hlt.le, ← Nat.mul_succ] at hfirst
      rw [if_pos hmore, ← hfirst, Cache.fill]
      by_cases hgood : disc.readable (s + 1)
      · obtain ⟨hdata, hkept⟩ := ih (n - (ISO_FRAMESIZE - sectorPos)) (by omega)
          ⟨0, by decide⟩ hgood
        rw [if_pos hgood]
        exact ⟨congrArg _ hdata, hkept⟩
      · have hnone : disc.bytes (n - (ISO_FRAMESIZE - sectorPos)) (ISO_FRAMESIZE * (s + 1)) = [] :=
          bytes_of_not_readable (by rwa [Nat.mul_div_cancel_left _ (by decide)])
        rw [if_neg hgood, hnone, List.append_nil]
        exact ⟨rfl, .inl rfl⟩
    · have hlast := copied_append (p := sectorPos) (n := n) hread (by omega) 0
      rw [if_neg hmore]
      exact ⟨(List.append_nil _).symm.trans hlast, .inr ⟨s, hread, rfl⟩⟩

theorem readAt_spec {c : Cache} (hcached : Cached disc c) :
    (readAt disc n p c).1 = disc.bytes n p ∧ Cached disc (readAt disc n p c).2 := by
  have hgood (hread : disc.readable (p / ISO_FRAMESIZE)) :=
    readLoop_spec (n := n) ⟨p % ISO_FRAMESIZE, Nat.mod_lt _ (by decide)⟩ hread
  simp only [Nat.div_add_mod] at hgood
  rw [readAt, Cache.fill]
  by_cases hother : ((p / ISO_FRAMESIZE : ℕ) : ℤ) ≠ c.cachedSector
  · rw [if_pos hother]
    by_cases hread : disc.readable (p / ISO_FRAMESIZE)
    · rw [if_pos hread]
      exact hgood hread
    · rw [if_neg hread, bytes_of_not_readable hread]
      simp only
      rw [readLoop, if_neg (Nat.not_lt_zero _)]
      exact ⟨rfl, .inl rfl⟩
  · rw [if_neg hother]
    push Not at hother
    rcases hcached with hnone | ⟨s, hread, rfl⟩
    · generalize p / ISO_FRAMESIZE = s at hother
      omega
    · obtain rfl : p / ISO_FRAMESIZE = s := Int.ofNat.inj hother
      exact hgood hread

/-- The file `f` is at the position of the cursor, with room behind its end for a read. -/
structure Represents (disc : Disc) (c : Cursor) (f : IsoFile) : Prop where
  fileBegin : f.fileBegin = c.start
  filePos : f.filePos = c.start + c.pos
  fileEnd : f.fileEnd = c.start + c.size
  pos_le : c.pos ≤ c.size
  room : c.start + c.size + 2 ^ 16 ≤ 2 ^ 32
  cached : Cached disc f.cache

variable {c : Cursor} {f : IsoFile}

theorem Represents.limited (h : Represents disc c f) (hn : n < 2 ^ 16) :
    limited n f = min n (c.size - c.pos) := by
  obtain ⟨-, hpos, hend, hle, hroom, -⟩ := h
  rw [Iso.limited, hpos, hend, u32_of_lt (n := c.start + c.pos + n) (by omega), u32]
  split <;> omega

/-- **A read returns the bytes at the position**, as far as the disc and the file go. -/
theorem Represents.read (h : Represents disc c f) (hn : n < 2 ^ 16) :
    (Read disc n f).1 = (c.read disc n).1 ∧
      Represents disc (c.read disc n).2 (Read disc n f).2 := by
  have hsize := h.limited hn
  obtain ⟨hbegin, hpos, hend, hle, hroom, hcached⟩ := h
  obtain ⟨hdata, hkept⟩ :=
    readAt_spec (n := min n (c.size - c.pos)) (p := c.start + c.pos) hcached
  have hlength := length_bytes_le disc (min n (c.size - c.pos)) (c.start + c.pos)
  rw [Read, hsize, hpos, Cursor.read, ← hdata] at *
  refine ⟨rfl, hbegin, ?_, hend, ?_, hroom, hkept⟩
  · show u32 _ = _
    rw [u32_of_lt (by omega), Nat.add_assoc]
  · show c.pos + _ ≤ c.size
    omega

/-- **A seek goes to the place in the file**, though it counts in the bytes of the disc. -/
theorem Represents.seek (h : Represents disc c f) (type : SeekType) :
    (Seek p type f).1 = (c.seek p type).1 ∧
      Represents disc (c.seek p type).2 (Seek p type f).2 := by
  obtain ⟨hbegin, hpos, hend, hle, hroom, hcached⟩ := h
  have hbase : seekBase f.fileBegin f.filePos f.fileEnd type
      = (seekBase 0 c.pos c.size type).map (c.start + ·) := by
    cases type <;> simp [seekBase, hbegin, hpos, hend]
  rw [Seek, Cursor.seek, hbase]
  cases seekBase 0 c.pos c.size type with
  | none => exact ⟨rfl, hbegin, hpos, hend, hle, hroom, hcached⟩
  | some base =>
    have hlt := u32_lt (base + p)
    have hmod : u32 (c.start + base + p) = (c.start + u32 (base + p)) % 2 ^ 32 := by
      rw [u32, u32, Nat.add_mod_mod, Nat.add_assoc]
    simp only [Option.map_some, hbegin, hend, hmod]
    generalize u32 (base + p) = x at hlt ⊢
    rw [show (if c.start + c.size < (c.start + x) % 2 ^ 32 ∨ (c.start + x) % 2 ^ 32 < c.start
      then c.start + c.size else (c.start + x) % 2 ^ 32) = c.start + min x c.size by
        split <;> omega]
    refine ⟨congrArg some ?_, rfl, rfl, rfl, Nat.min_le_right .., hroom, hcached⟩
    rw [u32]
    omega

/-- **Whatever the guest reads and wherever it seeks, a file is a cursor** over its own bytes. -/
theorem file_answers {size offset : ℕ} (h : offset + size + 2 ^ 16 ≤ 2 ^ 32)
    (calls : List FileCall) :
    outputs (answer disc) (isoFile size offset) calls
      = outputs (Cursor.answer disc) ⟨offset, size, 0⟩ calls := by
  refine outputs_eq (R := Represents disc) (fun c f hf call => ?_)
    ⟨rfl, rfl, u32_of_lt (by omega), Nat.zero_le _, h, .inl rfl⟩ calls
  cases call with
  | read n => exact (hf.read n.toNat_lt).imp_left (congrArg _)
  | seek pos type => exact (hf.seek type).imp_left (congrArg _)

/-- A file of one byte. -/
theorem file_answers_byte : outputs (answer ⟨fun _ => 7, fun _ => true, fun _ m => m⟩)
    (isoFile 1 0) [.read 9, .read 9] = [.inl [7], .inl []] := by
  rw [file_answers (by decide)]
  rfl

end AugraDosbox.Iso
