import AugraDosbox.Lib.Ring
import AugraDosbox.Network.Ne2000
import Mathlib.Tactic.IntervalCases

/-!
# The receive ring of the NE2000

What receiving and reading do to a ring whose bytes are counted without end.

* `Nic.at`, `Stored` — the ring as bytes that are counted without end, and the frames that
  lie in it one after another;
* `rx_frame_spec` — a frame that is accepted is written behind the others, and does not
  touch them;
* `readData_spec` — an access to the data port gives the next bytes.
-/

namespace AugraDosbox.Ne2000

open Ring

set_option maxRecDepth 4096

/-! ## Positions in the ring -/

/-- How many pages the ring has. -/
@[irreducible] def Nic.pages (s : Nic) : ℕ := s.page_stop - s.page_start

/-- The page of a position that is counted without end. -/
@[irreducible] def Nic.page (s : Nic) (v : ℕ) : ℕ := slot s.page_start s.pages v

/-- The address of a position. -/
@[irreducible] def Nic.address (s : Nic) (v : ℕ) : ℕ := slot (s.page_start * 256) (s.pages * 256) v

/-- The byte at a position. -/
def Nic.at (s : Nic) (v : ℕ) : Byte := s.mem (s.address v - MEMSTART)

/-- The ring lies in chip memory. -/
structure Nic.RingValid (s : Nic) : Prop where
  first : 64 ≤ s.page_start
  lt : s.page_start < s.page_stop
  last : s.page_stop ≤ 192

section

variable {s : Nic} {v w : ℕ}

theorem address_page {i : ℕ} (hi : i < 256) : s.address (v * 256 + i) = s.page v * 256 + i := by
  unfold Nic.address Nic.page
  exact slot_scale hi

theorem address_page_zero : s.address (v * 256) = s.page v * 256 := by
  have hzero := address_page (s := s) (v := v) (i := 0) (by omega)
  rwa [Nat.add_zero, Nat.add_zero] at hzero

variable {s' : Nic}

/-- The positions depend on where the ring begins and ends only. -/
theorem pages_congr (hstart : s'.page_start = s.page_start) (hstop : s'.page_stop = s.page_stop) :
    s'.pages = s.pages := by
  unfold Nic.pages
  rw [hstart, hstop]

theorem page_congr (hstart : s'.page_start = s.page_start) (hstop : s'.page_stop = s.page_stop) :
    s'.page = s.page := by
  funext v
  unfold Nic.page
  rw [hstart, pages_congr hstart hstop]

theorem address_congr (hstart : s'.page_start = s.page_start) (hstop : s'.page_stop = s.page_stop) :
    s'.address = s.address := by
  funext v
  unfold Nic.address
  rw [hstart, pages_congr hstart hstop]

theorem at_congr (hstart : s'.page_start = s.page_start) (hstop : s'.page_stop = s.page_stop)
    (hmem : s'.mem = s.mem) : s'.at = s.at := by
  funext v
  unfold Nic.at
  rw [hmem, address_congr hstart hstop]

theorem Nic.RingValid.pages_pos (h : s.RingValid) : 0 < s.pages := by
  unfold Nic.pages
  exact Nat.sub_pos_of_lt h.lt

theorem Nic.RingValid.start_add (h : s.RingValid) : s.page_start + s.pages = s.page_stop := by
  unfold Nic.pages
  exact Nat.add_sub_cancel' h.lt.le

theorem Nic.RingValid.le_page (_ : s.RingValid) : s.page_start ≤ s.page v := by
  unfold Nic.page
  exact le_slot

theorem Nic.RingValid.page_lt (h : s.RingValid) : s.page v < s.page_stop := by
  rw [← h.start_add]
  unfold Nic.page
  exact slot_lt h.pages_pos

theorem page_add {k : ℕ} (h : k ≤ s.pages) : s.page (v + k) =
    if s.page v + k < s.page_start + s.pages then s.page v + k
    else s.page v + k - s.pages := by
  unfold Nic.page
  exact slot_add h

theorem Nic.RingValid.le_address (_ : s.RingValid) : s.page_start * 256 ≤ s.address v := by
  unfold Nic.address
  exact le_slot

theorem Nic.RingValid.address_lt (h : s.RingValid) : s.address v < s.page_stop * 256 := by
  have hpos := h.pages_pos
  have hlt : s.address v < s.page_start * 256 + s.pages * 256 := by
    unfold Nic.address
    exact slot_lt (by omega)
  have hstop : s.page_stop * 256 = s.page_start * 256 + s.pages * 256 := by
    rw [← h.start_add, Nat.add_mul]
  exact hstop ▸ hlt

end

/-! ## Frames in the ring -/

/-- What is written for a frame. -/
def record (nextpage : ℕ) (frame : List Byte) : List Byte :=
  pkthdr (frame.getD 0 0) nextpage frame.length ++ frame

theorem length_record {nextpage : ℕ} {frame : List Byte} :
    (record nextpage frame).length = frame.length + 4 := by
  simp [record, pkthdr]

/-- From position `r` on there are bytes. -/
def Holds (s : Nic) (v : ℕ) (bytes : List Byte) : Prop :=
  ∀ i (h : i < bytes.length), s.at (v + i) = bytes[i]

/-- The frames lie one after another from page `r` up to page `c`. -/
def Stored (s : Nic) : ℕ → List (List Byte) → ℕ → Prop
  | r, [], c => r = c
  | r, frame :: frames, c =>
    Holds s (r * 256) (record (s.page (r + framePages frame.length)) frame) ∧
      Stored s (r + framePages frame.length) frames c

section

variable {s s' : Nic} {r c : ℕ} {frames : List (List Byte)}

theorem framePages_pos {n : ℕ} : 0 < framePages n := by
  unfold framePages
  omega

theorem le_framePages {n : ℕ} : n + 8 ≤ framePages n * 256 := by
  unfold framePages
  omega

theorem framePages_le {n : ℕ} (h : n ≤ 1514) : framePages n ≤ 6 := by
  unfold framePages
  omega

theorem Stored.le (h : Stored s r frames c) : r ≤ c := by
  induction frames generalizing r with
  | nil => exact h.le
  | cons frame frames ih => exact Nat.le_trans (Nat.le_add_right ..) (ih h.2)

/-- The ring is empty when the next frame would be where the next one comes in. -/
theorem Stored.eq_nil (h : Stored s r frames c) (heq : r = c) : frames = [] := by
  cases frames with
  | nil => rfl
  | cons frame frames =>
    have hle := Stored.le h.2
    have hpos := framePages_pos (n := frame.length)
    omega

theorem Stored.congr (h : Stored s r frames c) (hpage : s'.page = s.page)
    (hat : ∀ v, r * 256 ≤ v → v < c * 256 → s'.at v = s.at v) : Stored s' r frames c := by
  induction frames generalizing r with
  | nil => exact h
  | cons frame frames ih =>
    have hle := Stored.le h.2
    have hroom := le_framePages (n := frame.length)
    have hframe : Holds s' (r * 256) (record (s.page (r + framePages frame.length)) frame) := by
      intro i hi
      have hlength := hi
      rw [length_record] at hlength
      rw [hat (r * 256 + i) (by omega) (by omega)]
      exact h.1 i hi
    have hbegin : r * 256 ≤ (r + framePages frame.length) * 256 :=
      Nat.mul_le_mul_right 256 (Nat.le_add_right r _)
    rw [Stored, hpage]
    exact ⟨hframe, ih h.2 fun v hv hv' => hat v (hbegin.trans hv) hv'⟩

theorem Stored.snoc (h : Stored s r frames c) {frame : List Byte}
    (hframe : Holds s (c * 256) (record (s.page (c + framePages frame.length)) frame)) :
    Stored s r (frames ++ [frame]) (c + framePages frame.length) := by
  induction frames generalizing r with
  | nil =>
    obtain rfl : r = c := h
    exact ⟨hframe, rfl⟩
  | cons first frames ih => exact ⟨h.1, ih h.2⟩

end

/-! ## A frame comes in -/

theorem memcpy_at {mem : ℕ → Byte} {dst n p : ℕ} {src : ℕ → Byte} (hdst : MEMSTART ≤ dst)
    (hp : MEMSTART ≤ p) : memcpy mem (dst - MEMSTART) src n (p - MEMSTART) =
      if dst ≤ p ∧ p < dst + n then src (p - dst) else mem (p - MEMSTART) := by
  unfold memcpy
  have hsub : p - MEMSTART - (dst - MEMSTART) = p - dst := by omega
  rw [hsub]
  by_cases h : dst ≤ p ∧ p < dst + n
  · rw [if_pos h, if_pos (by omega)]
  · rw [if_neg h, if_neg (by omega)]

section

variable {s : Nic} {b c : ℕ}

/-- The free pages are those of the ring without those from BNRY up to CURR. -/
theorem avail_eq (hr : s.RingValid) (hb : s.bound_ptr = s.page b) (hc : s.curr_page = s.page c)
    (hle : b ≤ c) (hroom : c < b + s.pages) : s.avail = (b : ℤ) + s.pages - c := by
  have hadd : s.page c = if s.page b + (c - b) < s.page_start + s.pages then s.page b + (c - b)
      else s.page b + (c - b) - s.pages := by
    have hslot := page_add (s := s) (v := b) (k := c - b) (by omega)
    rwa [Nat.add_sub_cancel' hle] at hslot
  have hstart := hr.start_add
  have hlo := hr.le_page (v := b)
  have hhi := hr.page_lt (v := b)
  unfold Nic.avail
  rw [hb, hc, hadd]
  split <;> split <;> omega

theorem nextPage_eq (hr : s.RingValid) (hc : s.curr_page = s.page c) {pages : ℕ}
    (hle : pages ≤ s.pages) (hsmall : pages ≤ 6) : s.nextPage pages = s.page (c + pages) := by
  have hadd : s.page (c + pages) = if s.page c + pages < s.page_start + s.pages
      then s.page c + pages else s.page c + pages - s.pages := page_add hle
  have hstart := hr.start_add
  have hfirst := hr.first
  have hlast := hr.last
  have hlo := hr.le_page (v := c)
  have hhi := hr.page_lt (v := c)
  have hpages : s.page_stop - s.page_start = s.pages := by rw [Nic.pages]
  unfold Nic.nextPage
  rw [hc, hadd, hpages, hstart]
  dsimp only
  rw [Nat.mod_eq_of_lt (by omega)]
  split
  · rw [if_neg (by omega)]
    omega
  · rw [if_pos (by omega)]

variable {n io_len : ℕ} {buf : ℕ → Byte}

/-- A run of addresses that does not go over the end is a run of positions. -/
theorem address_run (hr : s.RingValid) {lo a v : ℕ} (ha : lo ≤ a) (ha' : a + n ≤ lo + s.pages * 256)
    (hv : lo ≤ v) (hv' : v < lo + s.pages * 256) (hend : s.address a + n ≤ s.page_stop * 256) :
    (s.address a ≤ s.address v ∧ s.address v < s.address a + n) ↔ (a ≤ v ∧ v < a + n) := by
  rw [← hr.start_add, Nat.add_mul] at hend
  unfold Nic.address at hend ⊢
  exact mem_run_iff ha ha' hv hv' hend

theorem address_sub (hr : s.RingValid) {a v : ℕ} (hv : a ≤ v) (hv' : v < a + n)
    (hend : s.address a + n ≤ s.page_stop * 256) : s.address v - s.address a = v - a := by
  rw [← hr.start_add, Nat.add_mul] at hend
  unfold Nic.address at hend ⊢
  exact slot_sub hv hv' hend

/-- The header and the bytes behind it, seen from an address of chip memory. -/
theorem memcpy_frame {mem header : ℕ → Byte} {dst p : ℕ} (hdst : MEMSTART ≤ dst) (hp : MEMSTART ≤ p)
    :
    memcpy (memcpy mem (dst - MEMSTART) header 4) (dst - MEMSTART + 4) buf n (p - MEMSTART) =
      if dst + 4 ≤ p ∧ p < dst + 4 + n then buf (p - (dst + 4))
      else if dst ≤ p ∧ p < dst + 4 then header (p - dst) else mem (p - MEMSTART) := by
  have hadd : dst - MEMSTART + 4 = dst + 4 - MEMSTART := by omega
  rw [hadd, memcpy_at (by omega) hp, memcpy_at hdst hp]

/-- What is in the ring after a frame has been copied. -/
structure Copied (s : Nic) (b c : ℕ) (buf : ℕ → Byte) (io_len nextpage : ℕ) (mem : ℕ → Byte) :
    Prop where
  before : ∀ v, b * 256 ≤ v → v < c * 256 → mem (s.address v - MEMSTART) = s.at v
  header : ∀ i < 4, mem (s.address (c * 256 + i) - MEMSTART) =
    (pkthdr (buf 0) nextpage io_len).getD i 0
  data : ∀ i < io_len, mem (s.address (c * 256 + 4 + i) - MEMSTART) = buf i

theorem mem_start_le (hr : s.RingValid) (v : ℕ) : MEMSTART ≤ s.address v := by
  have hle := hr.le_address (v := v)
  have hfirst := hr.first
  have hstart : MEMSTART = 64 * 256 := rfl
  omega

/-- The frame lies before the end of the ring, or up to it. -/
theorem copied_straight (hr : s.RingValid) (hle : b ≤ c) {pages nextpage : ℕ}
    (hroom : c + pages < b + s.pages) (hlen : io_len + 8 ≤ pages * 256)
    (hend : s.page c + pages ≤ s.page_stop) :
    Copied s b c buf io_len nextpage (memcpy (memcpy s.mem (s.page c * 256 - MEMSTART)
      ((pkthdr (buf 0) nextpage io_len).getD · 0) 4) (s.page c * 256 - MEMSTART + 4) buf io_len) := by
  have hstart : MEMSTART ≤ s.page c * 256 := by
    rw [← address_page_zero]
    exact mem_start_le hr _
  have hend' : s.address (c * 256) + pages * 256 ≤ s.page_stop * 256 := by
    rw [address_page_zero]
    omega
  have hfit : c * 256 + pages * 256 ≤ b * 256 + s.pages * 256 := by omega
  have hrun : ∀ v, b * 256 ≤ v → v < b * 256 + s.pages * 256 →
      ((s.page c * 256 ≤ s.address v ∧ s.address v < s.page c * 256 + pages * 256) ↔
        (c * 256 ≤ v ∧ v < c * 256 + pages * 256)) := by
    intro v hv hv'
    rw [← address_page_zero]
    exact address_run hr (Nat.mul_le_mul_right 256 hle) hfit hv hv' hend'
  have hsub : ∀ v, c * 256 ≤ v → v < c * 256 + pages * 256 →
      s.address v - s.page c * 256 = v - c * 256 := by
    intro v hv hv'
    rw [← address_page_zero]
    exact address_sub hr hv hv' hend'
  constructor
  case before =>
    intro v hv hv'
    have hout := hrun v hv (by omega)
    rw [memcpy_frame hstart (mem_start_le hr v), if_neg (by omega), if_neg (by omega)]
    rfl
  case header =>
    intro i hi
    have hin := hrun (c * 256 + i) (by omega) (by omega)
    have hoff := hsub (c * 256 + i) (by omega) (by omega)
    rw [memcpy_frame hstart (mem_start_le hr _), if_neg (by omega), if_pos (by omega), hoff,
      Nat.add_sub_cancel_left]
  case data =>
    intro i hi
    have hin := hrun (c * 256 + 4 + i) (by omega) (by omega)
    have hoff := hsub (c * 256 + 4 + i) (by omega) (by omega)
    rw [memcpy_frame hstart (mem_start_le hr _), if_pos (by omega)]
    exact congrArg buf (by omega)

/-- The frame goes over the end of the ring and on from its beginning. -/
theorem copied_split (hr : s.RingValid) (hle : b ≤ c) {pages nextpage : ℕ}
    (hroom : c + pages < b + s.pages) (hlen : io_len + 8 ≤ pages * 256)
    (hfull : pages * 256 < io_len + 8 + 256) (hend : s.page_stop < s.page c + pages) :
    let endbytes := (s.page_stop - s.page c) * 256
    Copied s b c buf io_len nextpage (memcpy (memcpy (memcpy s.mem (s.page c * 256 - MEMSTART)
      ((pkthdr (buf 0) nextpage io_len).getD · 0) 4) (s.page c * 256 - MEMSTART + 4) buf
        (endbytes - 4)) (s.page_start * 256 - MEMSTART) (fun i => buf (endbytes - 4 + i))
        (io_len + 8 - endbytes)) := by
  intro endbytes
  have hlt := hr.page_lt (v := c)
  have hstart : MEMSTART ≤ s.page c * 256 := by
    rw [← address_page_zero]
    exact mem_start_le hr _
  have hstart' : MEMSTART ≤ s.page_start * 256 := by
    have hfirst := hr.first
    have hmem : MEMSTART = 64 * 256 := rfl
    omega
  -- the first run goes up to the end, the second begins at the beginning
  have hbytes : endbytes = (s.page_stop - s.page c) * 256 := rfl
  clear_value endbytes
  generalize hk : s.page_stop - s.page c = k at hbytes
  have hkpages : k < pages := by omega
  have hsplit : s.address (c * 256 + k * 256) = s.page_start * 256 := by
    have hadd : s.page (c + k) = s.page_start := by
      rw [page_add (by omega), hr.start_add, if_neg (by omega)]
      have hpages := hr.start_add
      omega
    rw [← Nat.add_mul, address_page_zero, hadd]
  have hend₁ : s.address (c * 256) + k * 256 ≤ s.page_stop * 256 := by
    rw [address_page_zero]
    omega
  have hend₂ : s.address (c * 256 + k * 256) + (pages - k) * 256 ≤ s.page_stop * 256 := by
    have hpages := hr.start_add
    rw [hsplit]
    omega
  have hrun₁ : ∀ v, b * 256 ≤ v → v < b * 256 + s.pages * 256 →
      ((s.page c * 256 ≤ s.address v ∧ s.address v < s.page c * 256 + k * 256) ↔
        (c * 256 ≤ v ∧ v < c * 256 + k * 256)) := by
    intro v hv hv'
    rw [← address_page_zero]
    exact address_run hr (by omega) (by omega) hv hv' hend₁
  have hrun₂ : ∀ v, b * 256 ≤ v → v < b * 256 + s.pages * 256 →
      ((s.page_start * 256 ≤ s.address v ∧
        s.address v < s.page_start * 256 + (pages - k) * 256) ↔
        (c * 256 + k * 256 ≤ v ∧ v < c * 256 + k * 256 + (pages - k) * 256)) := by
    intro v hv hv'
    rw [← hsplit]
    exact address_run hr (by omega) (by omega) hv hv' hend₂
  have hsub₁ : ∀ v, c * 256 ≤ v → v < c * 256 + k * 256 →
      s.address v - s.page c * 256 = v - c * 256 := by
    intro v hv hv'
    rw [← address_page_zero]
    exact address_sub hr hv hv' hend₁
  have hsub₂ : ∀ v, c * 256 + k * 256 ≤ v → v < c * 256 + k * 256 + (pages - k) * 256 →
      s.address v - s.page_start * 256 = v - (c * 256 + k * 256) := by
    intro v hv hv'
    rw [← hsplit]
    exact address_sub hr hv hv' hend₂
  constructor
  case before =>
    intro v hv hv'
    have hout₁ := hrun₁ v hv (by omega)
    have hout₂ := hrun₂ v hv (by omega)
    rw [memcpy_at hstart' (mem_start_le hr v), if_neg (by omega),
      memcpy_frame hstart (mem_start_le hr v), if_neg (by omega), if_neg (by omega)]
    rfl
  case header =>
    intro i hi
    have hin := hrun₁ (c * 256 + i) (by omega) (by omega)
    have hout := hrun₂ (c * 256 + i) (by omega) (by omega)
    have hoff := hsub₁ (c * 256 + i) (by omega) (by omega)
    rw [memcpy_at hstart' (mem_start_le hr _), if_neg (by omega),
      memcpy_frame hstart (mem_start_le hr _), if_neg (by omega), if_pos (by omega), hoff,
      Nat.add_sub_cancel_left]
  case data =>
    intro i hi
    by_cases hfirst : 4 + i < k * 256
    · have hin := hrun₁ (c * 256 + 4 + i) (by omega) (by omega)
      have hout := hrun₂ (c * 256 + 4 + i) (by omega) (by omega)
      have hoff := hsub₁ (c * 256 + 4 + i) (by omega) (by omega)
      rw [memcpy_at hstart' (mem_start_le hr _), if_neg (by omega),
        memcpy_frame hstart (mem_start_le hr _), if_pos (by omega)]
      exact congrArg buf (by omega)
    · have hin := hrun₂ (c * 256 + 4 + i) (by omega) (by omega)
      have hoff := hsub₂ (c * 256 + 4 + i) (by omega) (by omega)
      rw [memcpy_at hstart' (mem_start_le hr _), if_pos (by omega)]
      exact congrArg buf (by omega)

/-- A frame that fits is written behind the others. -/
theorem copyFrame_copied (hr : s.RingValid) (hc : s.curr_page = s.page c) (hle : b ≤ c)
    (hroom : c + framePages io_len < b + s.pages) :
    Copied s b c buf io_len (s.page (c + framePages io_len))
      (s.copyFrame buf io_len (framePages io_len) (s.page (c + framePages io_len))) := by
  have hpos := framePages_pos (n := io_len)
  have hlen := le_framePages (n := io_len)
  have hfull : framePages io_len * 256 < io_len + 8 + 256 := by
    unfold framePages
    omega
  have hadd : s.page (c + framePages io_len) =
      if s.page c + framePages io_len < s.page_start + s.pages then s.page c + framePages io_len
      else s.page c + framePages io_len - s.pages := page_add (by omega)
  have hstart := hr.start_add
  have hlo := hr.le_page (v := c)
  have hlt := hr.page_lt (v := c)
  unfold Nic.copyFrame
  dsimp only
  rw [hc]
  by_cases hend : s.page c + framePages io_len ≤ s.page_stop
  · rw [if_pos]
    · exact copied_straight hr hle hroom hlen hend
    · rw [hadd]
      split <;> omega
  · rw [if_neg]
    · exact copied_split hr hle hroom hlen hfull (by omega)
    · rw [hadd, if_neg (by omega)]
      omega

/-- The bytes of the frame, as they are in the ring. -/
theorem Copied.holds {nextpage : ℕ} {s' : Nic} {frame : List Byte}
    (h : Copied s b c buf io_len nextpage s'.mem) (haddress : s'.address = s.address)
    (hlength : frame.length = io_len) (hbuf : ∀ i (hi : i < frame.length), buf i = frame[i])
    (hpos : 0 < frame.length) : Holds s' (c * 256) (record nextpage frame) := by
  have hfirst : buf 0 = frame.getD 0 0 := by
    rw [hbuf 0 hpos]
    simp [hpos]
  intro i hi
  have hi' := hi
  rw [length_record] at hi'
  unfold Nic.at
  rw [haddress]
  by_cases hheader : i < 4
  · rw [h.header i hheader, hfirst, ← hlength]
    simp only [record]
    rw [List.getElem_append_left (by simpa [pkthdr] using hheader)]
    simp [pkthdr, hheader]
  · obtain ⟨j, rfl⟩ : ∃ j, i = 4 + j := ⟨i - 4, by omega⟩
    rw [← Nat.add_assoc, h.data j (by omega), hbuf j (by omega)]
    simp only [record]
    rw [List.getElem_append_right (by simp [pkthdr])]
    simp [pkthdr]

theorem Frame.buf_eq (frame : Frame) (i : ℕ) (h : i < frame.bytes.length) :
    frame.buf i = frame.bytes[i] := by
  unfold Frame.buf
  simp [h]

/-- A frame that is accepted is written behind the others, and does not touch them. -/
theorem rx_frame_spec {frame : Frame} {s' : Nic} (hr : s.RingValid) (hb : s.bound_ptr = s.page b)
    (hc : s.curr_page = s.page c) (hle : b ≤ c) (hroom : c < b + s.pages)
    (h : s.rx_frame frame.buf frame.bytes.length = some (s', n)) :
    let pages := framePages frame.bytes.length
    c + pages < b + s.pages ∧
      s' = { s with mem := s'.mem, curr_page := s.page (c + pages) } ∧
      (∀ v, b * 256 ≤ v → v < c * 256 → s'.at v = s.at v) ∧
      Holds s' (c * 256) (record (s.page (c + pages)) frame.bytes) := by
  intro pages
  have hge := frame.le_length
  have hlength : (if frame.bytes.length < 60 then 60 else frame.bytes.length) =
      frame.bytes.length := if_neg (by omega)
  unfold Nic.rx_frame at h
  split at h
  · exact absurd h (by simp)
  split at h
  · exact absurd h (by simp)
  split at h
  · exact absurd h (by simp)
  rename_i havail
  split at h
  · exact absurd h (by simp)
  dsimp only at h
  split at h
  · exact absurd h (by simp)
  split at h
  · exact absurd h (by simp)
  rw [avail_eq hr hb hc hle hroom] at havail
  have hfits : c + pages < b + s.pages := by omega
  have hsmall : pages ≤ 6 := framePages_le frame.length_le
  have hnext : s.nextPage pages = s.page (c + pages) := nextPage_eq hr hc (by omega) hsmall
  rw [hlength] at h
  obtain ⟨rfl, rfl⟩ := Prod.ext_iff.mp (Option.some.inj h)
  have hcopied : Copied s b c frame.buf frame.bytes.length (s.page (c + pages))
      (s.copyFrame frame.buf frame.bytes.length pages (s.page (c + pages))) :=
    copyFrame_copied hr hc hle hfits
  rw [← hnext] at hcopied ⊢
  have haddress : Nic.address { s with
      mem := s.copyFrame frame.buf frame.bytes.length pages (s.nextPage pages)
      curr_page := s.nextPage pages } = s.address := address_congr rfl rfl
  refine ⟨hfits, rfl, fun v hv hv' => ?_, ?_⟩
  · unfold Nic.at
    rw [haddress]
    exact hcopied.before v hv hv'
  · exact hcopied.holds haddress rfl frame.buf_eq (by omega)

end

/-! ## Remote reads -/

theorem register_halves (x a : BitVec 16) :
    (((x &&& 0xff00#16) ||| (a.setWidth 8).setWidth 16) &&& 0x00ff#16) |||
      (((a >>> 8).setWidth 8).setWidth 16 <<< 8) = a := by
  refine BitVec.eq_of_getLsbD_eq fun i hi => ?_
  simp only [BitVec.getLsbD_or, BitVec.getLsbD_and, BitVec.getLsbD_setWidth,
    BitVec.getLsbD_shiftLeft, BitVec.getLsbD_ushiftRight]
  interval_cases i <;> simp

theorem startRemoteRead_eq (s : Nic) (address count : BitVec 16) :
    startRemoteRead s address count = { s with
      stop := false, remote_start := address, remote_dma := address, remote_bytes := count } := by
  have haddress := register_halves s.remote_start address
  have hcount := register_halves s.remote_bytes count
  unfold startRemoteRead Nic.write_cr
  simp only [Nic.page0_write]
  rw [haddress, hcount]
  rfl

theorem low_of_word (b₀ b₁ : Byte) : (b₀.setWidth 32 ||| b₁.setWidth 32 <<< 8).setWidth 8 = b₀ := by
  refine BitVec.eq_of_getLsbD_eq fun i hi => ?_
  simp only [BitVec.getLsbD_or, BitVec.getLsbD_setWidth, BitVec.getLsbD_shiftLeft]
  interval_cases i <;> simp

theorem high_of_word (b₀ b₁ : Byte) :
    ((b₀.setWidth 32 ||| b₁.setWidth 32 <<< 8) >>> 8).setWidth 8 = b₁ := by
  refine BitVec.eq_of_getLsbD_eq fun i hi => ?_
  simp only [BitVec.getLsbD_or, BitVec.getLsbD_setWidth, BitVec.getLsbD_shiftLeft,
    BitVec.getLsbD_ushiftRight]
  interval_cases i <;> simp

/-- A part of what lies from a position on has been read, and the card is set up to go on. -/
structure Reading (s : Nic) (v : ℕ) (content got : List Byte) : Prop where
  taken : got = content.take got.length
  le : got.length ≤ content.length
  bytes : s.remote_bytes.toNat = content.length - got.length
  dma : got.length < content.length → s.remote_dma.toNat = s.address (v + got.length)
  even : s.wdsize = true → got.length < content.length → got.length % 2 = 0

section

variable {s : Nic} {v w : ℕ} {content got : List Byte}

theorem address_even (hw : w % 2 = 0) : s.address w % 2 = 0 := by
  have hmod : w % (s.pages * 256) % 2 = w % 2 :=
    Nat.mod_mod_of_dvd w ⟨s.pages * 128, by omega⟩
  unfold Nic.address slot
  omega

theorem address_add (hr : s.RingValid) {k : ℕ} (hk : k ≤ 2) (hword : k = 2 → w % 2 = 0) :
    s.address (w + k) =
      if s.address w + k = s.page_stop * 256 then s.page_start * 256 else s.address w + k := by
  have hpages := hr.pages_pos
  have hstart := hr.start_add
  have hlt := hr.address_lt (v := w)
  have hadd : s.address (w + k) = if s.address w + k < s.page_start * 256 + s.pages * 256
      then s.address w + k else s.address w + k - s.pages * 256 := by
    unfold Nic.address
    exact slot_add (by omega)
  have heven : k = 2 → s.address w % 2 = 0 := fun h => address_even (hword h)
  rw [hadd]
  split <;> split <;> omega

/-- The two bytes of a word lie behind each other. -/
theorem address_succ (hr : s.RingValid) (hw : w % 2 = 0) :
    s.address (w + 1) = s.address w + 1 ∧ s.address w + 1 < MEMEND := by
  have hadd := address_add (w := w) hr (k := 1) (by omega) (by omega)
  have heven := address_even (s := s) hw
  have hlt := hr.address_lt (v := w)
  have hlast := hr.last
  have hmem : MEMEND = 192 * 256 := rfl
  rw [if_neg (by omega)] at hadd
  exact ⟨hadd, by omega⟩

theorem chipmem_read_at (hr : s.RingValid) (io_len : Width) :
    s.chipmem_read (s.address v) io_len =
      Nic.assemble (fun a => s.mem (a - MEMSTART)) MEMEND (s.address v) io_len := by
  have hge := mem_start_le hr v
  have hlt := hr.address_lt (v := v)
  have hlast := hr.last
  have hstart : MEMSTART = 64 * 256 := rfl
  have hmem : MEMEND = 192 * 256 := rfl
  unfold Nic.chipmem_read
  rw [if_neg (by omega), if_pos (by omega)]

theorem bumpAddress_toNat (hr : s.RingValid) (hdma : s.remote_dma.toNat = s.address w)
    (hword : s.wdsize = true → w % 2 = 0) :
    s.bumpAddress.toNat = s.address (w + s.wordSize) := by
  have hlt := hr.address_lt (v := w)
  have hlast := hr.last
  have hring := hr.lt
  have hsize : s.wordSize ≤ 2 := by
    unfold Nic.wordSize
    split <;> omega
  have hparity : s.wordSize = 2 → w % 2 = 0 := by
    intro h
    refine hword (by_contra fun hw => ?_)
    simp [Nic.wordSize, hw] at h
  have hsum : (s.remote_dma + BitVec.ofNat 16 s.wordSize).toNat =
      s.address w + s.wordSize := by
    rw [BitVec.toNat_add, BitVec.toNat_ofNat, hdma, Nat.mod_eq_of_lt (a := s.wordSize) (by omega),
      Nat.mod_eq_of_lt (by omega)]
  rw [address_add hr hsize hparity]
  unfold Nic.bumpAddress
  dsimp only
  rw [hsum]
  split
  · rw [BitVec.toNat_ofNat, Nat.mod_eq_of_lt (by omega)]
  · exact hsum

/-- The access as such: the bytes that are read, and where the card stands afterwards. -/
theorem asic_read_eq {n : ℕ} (hbytes : s.remote_bytes.toNat = n) (hpos : 0 < n) (io_len : Width) :
    (s.asic_read io_len).1 = { s with
        remote_dma := s.bumpAddress
        remote_bytes := BitVec.ofNat 16 (n - s.wordSize) } ∧
      (s.asic_read io_len).2 =
        s.chipmem_read s.remote_dma.toNat (if n = 1 then .byte else io_len) := by
  have hne : s.remote_bytes ≠ 0 := by
    intro h
    rw [h] at hbytes
    exact absurd hbytes (by simpa using hpos.ne)
  have hone : s.remote_bytes = 1 ↔ n = 1 := by
    rw [← hbytes]
    constructor
    · intro h
      rw [h]
      rfl
    · exact fun h => BitVec.eq_of_toNat_eq h
  have hsmall := s.remote_bytes.isLt
  have hleft : (if 1 < s.remote_bytes.toNat then
      s.remote_bytes - BitVec.ofNat 16 s.wordSize else 0) = BitVec.ofNat 16 (n - s.wordSize) := by
    apply BitVec.eq_of_toNat_eq
    have hsize : s.wordSize ≤ 2 ∧ 1 ≤ s.wordSize := by
      unfold Nic.wordSize
      split <;> omega
    split
    · rw [BitVec.toNat_sub, BitVec.toNat_ofNat, BitVec.toNat_ofNat]
      omega
    · rw [BitVec.toNat_ofNat, show n - s.wordSize = 0 by omega]
      rfl
  unfold Nic.asic_read
  rw [if_neg hne]
  simp only [hone, hleft, and_self]

/-- An access to the data port gives the next bytes. -/
theorem readData_spec (hr : s.RingValid) (h : Reading s v content got) (hv : v % 2 = 0)
    (hlt : got.length < content.length) (hholds : Holds s v content) :
    ∃ dma bytes, (readData s (content.length - got.length)).1 =
        { s with remote_dma := dma, remote_bytes := bytes } ∧
      (readData s (content.length - got.length)).2 ≠ [] ∧
      Reading (readData s (content.length - got.length)).1 v content
        (got ++ (readData s (content.length - got.length)).2) := by
  have hdma := h.dma hlt
  have hparity : s.wdsize = true → (v + got.length) % 2 = 0 := by
    intro hword
    have heven := h.even hword hlt
    omega
  have hsmall := s.remote_bytes.isLt
  rw [h.bytes] at hsmall
  obtain ⟨hnic, hvalue⟩ := asic_read_eq (s := s) h.bytes (by omega)
    (if s.wdsize = true then Width.word else Width.byte)
  have hbump := bumpAddress_toNat hr hdma hparity
  rw [hdma, chipmem_read_at hr] at hvalue
  have hbyte : s.mem (s.address (v + got.length) - MEMSTART) = content[got.length] :=
    hholds got.length hlt
  -- a single byte, or the two bytes of a word
  have hbytes : ∃ new, (readData s (content.length - got.length)).2 = new ∧ new ≠ [] ∧
      got ++ new = content.take (got.length + new.length) ∧
      got.length + new.length ≤ content.length ∧
      (got.length + new.length < content.length → new.length = s.wordSize) ∧
      content.length - got.length - s.wordSize = content.length - (got.length + new.length) := by
    have hone : got ++ [content[got.length]] = content.take (got.length + 1) := by
      rw [← List.take_append_getElem hlt, ← h.taken]
    by_cases hword : s.wdsize = true ∧ content.length - got.length ≠ 1
    · have hlt' : got.length + 1 < content.length := by omega
      obtain ⟨hnext, hend⟩ := address_succ hr (hparity hword.1)
      have hbyte' : s.mem (s.address (v + got.length) + 1 - MEMSTART) =
          content[got.length + 1] := by
        have hat := hholds (got.length + 1) hlt'
        unfold Nic.at at hat
        rwa [← Nat.add_assoc, hnext] at hat
      rw [if_pos hword.1, if_neg hword.2, Nic.assemble, Nic.part, if_pos hend, hbyte, hbyte']
        at hvalue
      refine ⟨[content[got.length], content[got.length + 1]], ?_, by simp, ?_, hlt',
        fun _ => by simp [Nic.wordSize, hword.1], by simp [Nic.wordSize, hword.1]; omega⟩
      · unfold readData
        dsimp only
        rw [if_pos hword, if_pos hword.1, hvalue, Nat.mul_one, low_of_word, high_of_word]
      · change got ++ ([content[got.length]] ++ [content[got.length + 1]]) =
          content.take (got.length + 1 + 1)
        rw [← List.append_assoc, hone, List.take_append_getElem]
    · have hsize : got.length + 1 < content.length → 1 = s.wordSize := by
        intro hmore
        have hbytewise : ¬ s.wdsize = true := fun hw => hword ⟨hw, by omega⟩
        simp [Nic.wordSize, hbytewise]
      have hwidth : (if content.length - got.length = 1 then Width.byte
          else if s.wdsize = true then Width.word else Width.byte) = Width.byte := by
        split
        · rfl
        · exact if_neg fun hw => hword ⟨hw, by assumption⟩
      rw [hwidth, Nic.assemble, hbyte] at hvalue
      refine ⟨[content[got.length]], ?_, by simp, hone, hlt, hsize, ?_⟩
      · unfold readData
        dsimp only
        rw [if_neg hword, hvalue]
        simp
      · have hpos : 1 ≤ s.wordSize := by
          unfold Nic.wordSize
          split <;> omega
        simp only [List.length_singleton]
        by_cases hmore : got.length + 1 < content.length
        · have := hsize hmore
          omega
        · omega
  obtain ⟨new, hnew, hne, htaken, hle, hsize, hleft⟩ := hbytes
  rw [hnew]
  refine ⟨_, _, hnic, hne, ?_⟩
  have haddress : (readData s (content.length - got.length)).1.address = s.address := by
    rw [readData, hnic]
    exact address_congr rfl rfl
  constructor
  case taken => rw [List.length_append, htaken]
  case le => simpa using hle
  case bytes =>
    change (s.asic_read _).1.remote_bytes.toNat = _
    rw [hnic, List.length_append, ← hleft, BitVec.toNat_ofNat, Nat.mod_eq_of_lt (by omega)]
  case dma =>
    intro hmore
    rw [List.length_append] at hmore ⊢
    rw [haddress]
    change (s.asic_read _).1.remote_dma.toNat = _
    rw [hnic, hbump, ← hsize hmore, Nat.add_assoc]
  case even =>
    intro hword hmore
    have hword' : s.wdsize = true := by
      change (s.asic_read _).1.wdsize = true at hword
      rwa [hnic] at hword
    rw [List.length_append] at hmore ⊢
    have heven := h.even hword' hlt
    have hsize' := hsize hmore
    simp only [Nic.wordSize, hword', if_true] at hsize'
    omega

end

end AugraDosbox.Ne2000
