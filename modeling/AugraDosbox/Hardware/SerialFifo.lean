import AugraDosbox.Lib.RingBuffer

/-!
# The FIFO buffers of a serial port

`MyFifo` of `src/hardware/serialport/serialport.h`.  The assertions on the indices are fields of
the structure here.

* `addb`, `getb`, `getTop`, `probeByte` — the operations: a full buffer overwrites its newest
  byte, and an empty one answers the byte that was there last;
* `contents` — the bytes of the buffer, oldest first, and what each operation does to them.
-/

namespace AugraDosbox

namespace Serial

abbrev Byte := BitVec 8

/-- `MyFifo`, whose `data` always has `size` bytes. -/
structure MyFifo where
  data : List Byte
  size : ℕ
  pos : ℕ
  used : ℕ
  data_length : data.length = size
  pos_lt : pos < size
  used_le : used ≤ size
deriving DecidableEq

namespace MyFifo

/-- The constructor. -/
def new (n : ℕ) [NeZero n] : MyFifo where
  data := List.replicate n 0#8
  size := n
  pos := 0
  used := 0
  data_length := List.length_replicate
  pos_lt := Nat.pos_of_neZero n
  used_le := Nat.zero_le n

variable (f : MyFifo) (val : Byte)

def getFree : ℕ := f.size - f.used

abbrev isEmpty : Prop := f.used = 0

abbrev isFull : Prop := f.getFree = 0

def getUsage : ℕ := f.used

/-- `setSize`: `resize` keeps the bytes that were there. -/
def setSize (n : ℕ) [NeZero n] : MyFifo where
  data := f.data.takeD n 0#8
  size := n
  pos := 0
  used := 0
  data_length := List.takeD_length ..
  pos_lt := Nat.pos_of_neZero n
  used_le := Nat.zero_le n

def clear : MyFifo where
  data := List.replicate f.size 0#8
  size := f.size
  pos := 0
  used := 0
  data_length := List.length_replicate
  pos_lt := Nat.zero_lt_of_lt f.pos_lt
  used_le := Nat.zero_le _

/-- `where` behind the newest byte. -/
def free : ℕ := if f.size ≤ f.pos + f.used then f.pos + f.used - f.size else f.pos + f.used

/-- `where` at the newest byte. -/
def last : ℕ := if f.free = 0 then f.size - 1 else f.free - 1

theorem free_lt : f.free < f.size := by
  have := f.pos_lt
  have := f.used_le
  unfold free
  split <;> omega

theorem last_lt : f.last < f.size := by
  have := f.free_lt
  unfold last
  split <;> omega

/-- `addb`: whether there was room. -/
def addb : MyFifo × Bool :=
  if hfull : f.size ≤ f.used then
    ({ f with
        data := f.data.set f.last val
        data_length := List.length_set.trans f.data_length }, false)
  else
    ({ f with
        data := f.data.set f.free val
        used := f.used + 1
        data_length := List.length_set.trans f.data_length
        used_le := Nat.lt_of_not_le hfull }, true)

def probeByte : Byte := f.data.get ⟨f.pos, f.data_length.symm ▸ f.pos_lt⟩

/-- The position after a byte was taken: that of the last byte stays. -/
def advance : ℕ :=
  let pos := if f.used - 1 ≠ 0 then f.pos + 1 else f.pos
  if f.size ≤ pos then pos - f.size else pos

theorem advance_lt : f.advance < f.size := by
  have := f.pos_lt
  unfold advance
  dsimp only
  split <;> split <;> omega

def getb : MyFifo × Byte :=
  if f.used = 0 then (f, f.probeByte)
  else
    ({ f with
        used := f.used - 1
        pos := f.advance
        pos_lt := f.advance_lt
        used_le := (Nat.sub_le ..).trans f.used_le }, f.probeByte)

def getTop : Byte :=
  f.data.get ⟨if f.size ≤ f.used then f.last else f.free, by
    rw [f.data_length]
    split
    · exact f.last_lt
    · exact f.free_lt⟩

/-! ## The bytes of a buffer -/

/-- The bytes of the buffer, oldest first. -/
def contents : List Byte := RingBuffer.contents f.data f.pos f.used

variable {f val}

theorem pos_lt_length : f.pos < f.data.length := f.data_length.symm ▸ f.pos_lt

theorem used_le_length : f.used ≤ f.data.length := f.data_length.symm ▸ f.used_le

@[simp] theorem length_contents : f.contents.length = f.used :=
  RingBuffer.length_contents used_le_length

theorem contents_eq_nil_iff : f.contents = [] ↔ f.isEmpty := by
  rw [← List.length_eq_zero_iff, length_contents]

@[simp] theorem contents_setSize {n : ℕ} [NeZero n] : (f.setSize n).contents = [] :=
  RingBuffer.contents_zero

@[simp] theorem contents_clear : f.clear.contents = [] := RingBuffer.contents_zero

@[simp] theorem size_setSize {n : ℕ} [NeZero n] : (f.setSize n).size = n := rfl

@[simp] theorem size_clear : f.clear.size = f.size := rfl

theorem isFull_iff : f.isFull ↔ f.used = f.size := by
  have := f.used_le
  unfold isFull getFree
  omega

@[simp] theorem size_addb : (f.addb val).1.size = f.size := by
  unfold addb
  split <;> rfl

@[simp] theorem size_getb : f.getb.1.size = f.size := by
  unfold getb
  split <;> rfl

theorem addb_snd : (f.addb val).2 = decide (f.used < f.size) := by
  unfold addb
  split
  · exact (decide_eq_false (by omega)).symm
  · exact (decide_eq_true (by omega)).symm

theorem free_eq_next : f.free = RingBuffer.next f.data f.pos f.used := by
  unfold free RingBuffer.next
  rw [f.data_length]
  split <;> split <;> omega

theorem last_eq_next (h : f.used = f.size) :
    f.last = RingBuffer.next f.data f.pos (f.used - 1) := by
  have := f.pos_lt
  unfold last free RingBuffer.next
  rw [f.data_length]
  split <;> split <;> split <;> omega

/-- A byte goes behind the newest one as long as there is room. -/
theorem contents_addb (h : f.used < f.size) : (f.addb val).1.contents = f.contents ++ [val] := by
  unfold addb contents
  rw [dif_neg (by omega)]
  dsimp only
  rw [free_eq_next]
  exact RingBuffer.contents_push pos_lt_length (by rwa [f.data_length])

/-- After that it takes the place of the newest one. -/
theorem contents_addb_full (h : f.used = f.size) :
    (f.addb val).1.contents = f.contents.dropLast ++ [val] := by
  have hpos := f.pos_lt
  have hlen := f.data_length
  obtain ⟨n, hn⟩ : ∃ n, f.used = n + 1 := ⟨f.used - 1, by omega⟩
  unfold addb contents
  rw [dif_pos h.ge]
  dsimp only
  rw [last_eq_next h, hn, Nat.add_sub_cancel]
  exact RingBuffer.contents_replace pos_lt_length (by omega)

theorem getb_snd : f.getb.2 = f.probeByte := by
  unfold getb
  split <;> rfl

theorem contents_eq_cons (h : ¬ f.isEmpty) : f.contents = f.probeByte :: f.contents.tail := by
  obtain ⟨n, hn⟩ : ∃ n, f.used = n + 1 := ⟨f.used - 1, by unfold isEmpty at h; omega⟩
  have hlt : n < f.data.length := by
    have := f.used_le
    have := f.data_length
    omega
  rw [contents, hn, RingBuffer.contents_succ pos_lt_length hlt, List.tail_cons]
  rfl

/-- Reading takes the oldest byte, if there is one. -/
theorem contents_getb : f.getb.1.contents = f.contents.tail := by
  have hle := f.used_le
  have hlen := f.data_length
  unfold getb
  split
  · rw [contents_eq_nil_iff.2 ‹_›, List.tail_nil]
  · rename_i hne
    obtain ⟨n, hn⟩ : ∃ n, f.used = n + 1 := ⟨f.used - 1, by omega⟩
    unfold contents
    dsimp only
    rw [hn, Nat.add_sub_cancel]
    cases n with
    | zero =>
      rw [RingBuffer.contents_succ pos_lt_length (by omega), List.tail_cons,
        RingBuffer.contents_zero, RingBuffer.contents_zero]
    | succ n =>
      have hadvance : f.advance = RingBuffer.next f.data f.pos 1 := by
        have hmore : f.used - 1 ≠ 0 := by omega
        unfold advance RingBuffer.next
        dsimp only
        rw [hlen, if_pos hmore]
        split <;> split <;> omega
      rw [hadvance, RingBuffer.contents_pop pos_lt_length (by omega)]

theorem contents_eq_append_top (h : f.isFull) :
    f.contents = f.contents.dropLast ++ [f.getTop] := by
  have hfull := isFull_iff.1 h
  have hpos := f.pos_lt
  have hlen := f.data_length
  have hne : f.contents ≠ [] := by
    rw [Ne, contents_eq_nil_iff]
    unfold isEmpty
    omega
  have htop : f.contents.getLast hne = f.getTop := by
    have hget : (RingBuffer.contents f.data f.pos f.used)[f.used - 1]? = _ :=
      RingBuffer.getElem?_contents pos_lt_length used_le_length (by omega)
    have hlast : f.last < f.data.length := hlen.symm ▸ f.last_lt
    rw [← last_eq_next hfull, List.getElem?_eq_getElem hlast] at hget
    rw [← Option.some_inj, ← List.getLast?_eq_some_getLast, List.getLast?_eq_getElem?,
      length_contents, contents, hget]
    unfold getTop
    simp only [List.get_eq_getElem, if_pos hfull.ge]
  rw [← htop, List.dropLast_append_getLast]

end MyFifo

end Serial

end AugraDosbox
