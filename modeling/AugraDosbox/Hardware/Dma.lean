import Mathlib.Data.UInt
import Mathlib.Tactic.Ring
import Mathlib.Tactic.Common

/-!
# Transfers of a DMA channel

`DmaChannel::ReadOrWrite` moves a number of words and goes through terminal count on its way, and
`perform_dma_io` cuts what it gets at the ends of 4 KB pages.

* `Dma` — the channel, the memory with its two mappings, and a record of what has been moved;
* `ioLoop`, `perform_dma_io`, `again`, `ReadOrWrite` — the transfer;
* `DmaChannel.wordAddress`, `DmaChannel.after` — where word `i` of a transfer goes, over every
  reload of an auto-initialising channel, and the channel after `n` words;
* **`DmaChannel.after_after`** — a channel goes on after a break as it would have without one.

Asserts are left out, as in a release build.
-/

namespace AugraDosbox

namespace Hardware

/-- `DmaDirection`, seen from the device. -/
inductive DmaDirection where
  | Read
  | Write
  deriving DecidableEq, Repr

inductive DmaEvent where
  | ReachedTerminalCount
  | IsMasked
  | IsUnmasked
  deriving DecidableEq, Repr

/-- The registers of a channel that a transfer uses. -/
structure DmaChannel where
  page_base : UInt32
  curr_addr : UInt32
  base_addr : UInt16
  base_count : UInt16
  curr_count : UInt16
  is_16bit : Bool
  is_autoiniting : Bool
  is_masked : Bool
  has_reached_terminal_count : Bool
  deriving DecidableEq

/-- The words up to terminal count. -/
def DmaChannel.left (c : DmaChannel) : ℕ := c.curr_count.toNat + 1

/-- One byte that has been moved: its address on the bus, its place in memory, and the byte. -/
structure Moved where
  address : UInt32
  phys : UInt32
  value : UInt8
  deriving DecidableEq

/-- A channel with the memory.  `DMA_SetWrapping` is only called for 64 KB and for no wrapping. -/
structure Dma where
  chan : DmaChannel
  mem : UInt32 → UInt8
  firstmb : UInt32 → UInt32
  ems_board_mapping : UInt32 → UInt32
  dma_wrapping : UInt32
  wrapping : dma_wrapping = 0xffff ∨ dma_wrapping = 0xffffffff
  moved : List Moved
  /-- What the channel's callback has been told. -/
  events : List DmaEvent

def EMM_PAGEFRAME4K : UInt32 := 0xe0
def LINK_START : UInt32 := (1024 + 64) / 4
def DosPageSize : ℕ := 4096

namespace Dma

/-- The page that is found in the place of `page`. -/
def mappedPage (s : Dma) (page : UInt32) : UInt32 :=
  if page < EMM_PAGEFRAME4K then s.firstmb page
  else if page < EMM_PAGEFRAME4K + 0x10 then s.ems_board_mapping page
  else if page < LINK_START then s.firstmb page
  else page

/-- `phys_readb` into the buffer, or `phys_writeb` of a byte of the buffer. -/
def moveByte (s : Dma) (direction : DmaDirection) (address phys : UInt32) (data : UInt8) : Dma :=
  match direction with
  | .Read => { s with moved := s.moved ++ [⟨address, phys, s.mem phys⟩] }
  | .Write => { s with
      mem := Function.update s.mem phys data
      moved := s.moved ++ [⟨address, phys, data⟩] }

/-- `moveByte` for `n` bytes, with address, place and byte of each. -/
def moveBytes (s : Dma) (direction : DmaDirection) (address phys : ℕ → UInt32) (data : ℕ → UInt8)
    (n : ℕ) : Dma :=
  (List.range n).foldl (fun s k => s.moveByte direction (address k) (phys k) (data k)) s

/-- The loop of `perform_dma_io`. -/
def ioLoop (s : Dma) (direction : DmaDirection) (spage mem_address : UInt32) (data_pt : ℕ → UInt8)
    (remaining_bytes : ℕ) : Dma :=
  let page := s.mappedPage ((spage >>> 12) + (mem_address >>> 12))
  let pos_in_page := mem_address &&& 4095
  let bytes_to_page_end := DosPageSize - pos_in_page.toNat
  let chunk_start := page * 4096 + pos_in_page
  let chunk_bytes := min remaining_bytes bytes_to_page_end
  let s := s.moveBytes direction (fun i => spage + mem_address + UInt32.ofNat i)
    (fun i => chunk_start + UInt32.ofNat i) data_pt chunk_bytes
  if remaining_bytes - chunk_bytes = 0 then s
  else ioLoop s direction spage (mem_address + UInt32.ofNat chunk_bytes)
    (fun i => data_pt (chunk_bytes + i)) (remaining_bytes - chunk_bytes)
termination_by remaining_bytes
decreasing_by
  have hpos : (mem_address &&& 4095).toNat < 4096 := by
    rw [UInt32.toNat_and]
    exact lt_of_le_of_lt Nat.and_le_right (by decide)
  simp only [DosPageSize] at *
  omega

/-- `is_dma16`. -/
def shift (c : DmaChannel) : ℕ := if c.is_16bit then 1 else 0

def perform_dma_io (s : Dma) (direction : DmaDirection) (spage mem_address : UInt32)
    (data_start : ℕ → UInt8) (num_words : ℕ) (is_dma16 : ℕ) : Dma :=
  s.ioLoop direction spage (mem_address <<< UInt32.ofNat is_dma16) data_start
    (num_words <<< is_dma16)

def UpdateEMSMapping (s : Dma) : Dma :=
  { s with ems_board_mapping := fun page =>
      if EMM_PAGEFRAME4K ≤ page ∧ page < EMM_PAGEFRAME4K + 0x10 then s.firstmb page
      else s.ems_board_mapping page }

def DoCallback (s : Dma) (event : DmaEvent) : Dma := { s with events := s.events ++ [event] }

def ReachedTerminalCount (s : Dma) : Dma :=
  { s with chan := { s.chan with has_reached_terminal_count := true } }.DoCallback
    .ReachedTerminalCount

/-- `curr_addr += want` and `curr_count -= want`. -/
def advance (s : Dma) (want : ℕ) : Dma :=
  { s with chan := { s.chan with
      curr_addr := s.chan.curr_addr + UInt32.ofNat want
      curr_count := s.chan.curr_count - UInt16.ofNat want } }

/-- Auto-initialisation. -/
def reload (s : Dma) : Dma :=
  { s with chan := { s.chan with
      curr_count := s.chan.base_count
      curr_addr := s.chan.base_addr.toUInt32 } }

/-- The end of a transfer without auto-initialisation. -/
def stop (s : Dma) (left : ℕ) : Dma :=
  { s with chan := { s.chan with
      curr_addr := s.chan.curr_addr + UInt32.ofNat left
      curr_count := 0xffff
      is_masked := true } }

/-- `again:` in `ReadOrWrite`, with `curr_buffer` and what has been `done`. -/
def again (s : Dma) (direction : DmaDirection) (want : ℕ) (curr_buffer : ℕ → UInt8) (done : ℕ) :
    Dma × ℕ :=
  let left := s.chan.left
  if want < left then
    let s := s.perform_dma_io direction s.chan.page_base s.chan.curr_addr curr_buffer want
      (shift s.chan)
    (s.advance want, done + want)
  else
    let s := s.perform_dma_io direction s.chan.page_base s.chan.curr_addr curr_buffer left
      (shift s.chan)
    let s := s.ReachedTerminalCount
    if s.chan.is_autoiniting then
      let s := s.reload
      if want - left ≠ 0 then
        s.again direction (want - left) (fun i => curr_buffer (left <<< shift s.chan + i))
          (done + left)
      else (s.UpdateEMSMapping, done + left)
    else
      let s := s.stop left
      (s.UpdateEMSMapping.DoCallback .IsMasked, done + left)
termination_by want
decreasing_by
  exact Nat.sub_lt (by omega) (Nat.succ_pos _)

/-- `curr_addr &= dma_wrapping`. -/
def wrap (s : Dma) : Dma :=
  { s with chan := { s.chan with curr_addr := s.chan.curr_addr &&& s.dma_wrapping } }

/-- `ReadOrWrite`, with the number of words that it returns. -/
def ReadOrWrite (s : Dma) (direction : DmaDirection) (words : ℕ) (buffer : ℕ → UInt8) : Dma × ℕ :=
  s.wrap.again direction words buffer 0

end Dma

/-! ## Where a transfer goes -/

namespace DmaChannel

variable {c : DmaChannel} {a b i n : ℕ}

/-- The words of a whole round. -/
def period (c : DmaChannel) : ℕ := c.base_count.toNat + 1

/-- The bytes of a word. -/
def width (c : DmaChannel) : ℕ := if c.is_16bit then 2 else 1

/-- The address of word `i` of a transfer. -/
def wordAddress (c : DmaChannel) (i : ℕ) : UInt32 :=
  if i < c.left then c.curr_addr + UInt32.ofNat i
  else c.base_addr.toUInt32 + UInt32.ofNat ((i - c.left) % c.period)

/-- The address of byte `k`, within the channel's page. -/
def byteAddress (c : DmaChannel) (k : ℕ) : UInt32 :=
  c.wordAddress (k / c.width) * UInt32.ofNat c.width + UInt32.ofNat (k % c.width)

/-- The channel after `n` words. -/
def after (c : DmaChannel) (n : ℕ) : DmaChannel :=
  if n < c.left then
    { c with
      curr_addr := c.curr_addr + UInt32.ofNat n
      curr_count := c.curr_count - UInt16.ofNat n }
  else if c.is_autoiniting then
    { c with
      curr_addr := c.base_addr.toUInt32 + UInt32.ofNat ((n - c.left) % c.period)
      curr_count := c.base_count - UInt16.ofNat ((n - c.left) % c.period)
      has_reached_terminal_count := true }
  else
    { c with
      curr_addr := c.curr_addr + UInt32.ofNat n
      curr_count := 0xffff
      is_masked := true
      has_reached_terminal_count := true }

/-- The last of `n` words reaches terminal count. -/
def EndsAtTC (c : DmaChannel) (n : ℕ) : Prop := c.left ≤ n ∧ (n - c.left) % c.period = 0

/-- How often `n` words reach terminal count. -/
def rounds (c : DmaChannel) (n : ℕ) : ℕ := if n < c.left then 0 else (n - c.left) / c.period + 1

/-- What the callback is told of `n` words. -/
def told (c : DmaChannel) (n : ℕ) : List DmaEvent :=
  List.replicate (c.rounds n) .ReachedTerminalCount ++
    if c.is_autoiniting = false ∧ c.left ≤ n then [.IsMasked] else []

/-- The transfers that the channel takes whole. -/
def Takes (c : DmaChannel) (n : ℕ) : Prop := c.is_autoiniting = true ∨ n ≤ c.left

/-- A transfer that reaches no reload ends at terminal count. -/
theorem Takes.le_left (h : c.Takes n) (hnot : ¬(c.is_autoiniting = true ∧ c.left ≤ n)) :
    n ≤ c.left := by
  rcases h with hauto | hle
  · exact (not_le.1 fun hle => hnot ⟨hauto, hle⟩).le
  · exact hle

theorem left_pos : 0 < c.left := Nat.succ_pos _

theorem period_pos : 0 < c.period := Nat.succ_pos _

theorem width_pos : 0 < c.width := by
  unfold width
  split <;> decide

@[simp] theorem after_width : (c.after n).width = c.width := by
  unfold after
  split
  · rfl
  · split <;> rfl

@[simp] theorem after_period : (c.after n).period = c.period := by
  unfold after
  split
  · rfl
  · split <;> rfl

@[simp] theorem after_base_addr : (c.after n).base_addr = c.base_addr := by
  unfold after
  split
  · rfl
  · split <;> rfl

@[simp] theorem after_is_autoiniting : (c.after n).is_autoiniting = c.is_autoiniting := by
  unfold after
  split
  · rfl
  · split <;> rfl

@[simp] theorem after_page_base : (c.after n).page_base = c.page_base := by
  unfold after
  split
  · rfl
  · split <;> rfl

theorem toNat_sub_ofNat {count : UInt16} (h : n ≤ count.toNat) :
    (count - UInt16.ofNat n).toNat = count.toNat - n := by
  have hlt : count.toNat < 2 ^ 16 := count.toNat_lt
  have hn : (UInt16.ofNat n).toNat = n := by
    rw [UInt16.toNat_ofNat']
    omega
  rw [UInt16.toNat_sub_of_le _ _ (UInt16.le_iff_toNat_le.2 (by rw [hn]; exact h)), hn]

theorem left_after_of_lt (h : n < c.left) : (c.after n).left = c.left - n := by
  have hle : n ≤ c.curr_count.toNat := Nat.lt_succ_iff.1 h
  rw [after, if_pos h, left, toNat_sub_ofNat hle]
  unfold left
  omega

theorem left_after_of_le (hauto : c.is_autoiniting = true) (h : c.left ≤ n) :
    (c.after n).left = c.period - (n - c.left) % c.period := by
  have hle : (n - c.left) % c.period ≤ c.base_count.toNat :=
    Nat.lt_succ_iff.1 (Nat.mod_lt _ c.period_pos)
  rw [after, if_neg (not_lt.2 h), if_pos hauto, left, toNat_sub_ofNat hle]
  unfold period at *
  omega

/-- The words after the first `a` go where they would have gone. -/
theorem wordAddress_after (h : c.is_autoiniting = true ∨ a + i < c.left) :
    (c.after a).wordAddress i = c.wordAddress (a + i) := by
  rcases lt_or_ge a c.left with ha | ha
  · rw [wordAddress, wordAddress, left_after_of_lt ha, after_period, after_base_addr]
    have hcurr : (c.after a).curr_addr = c.curr_addr + UInt32.ofNat a := by
      rw [after, if_pos ha]
    rw [hcurr, UInt32.add_assoc, ← UInt32.ofNat_add]
    by_cases hi : a + i < c.left
    · rw [if_pos (by omega), if_pos hi]
    · rw [if_neg (by omega), if_neg hi, show i - (c.left - a) = a + i - c.left by omega]
  · have hauto := h.resolve_right (by omega)
    have hp := c.period_pos
    have hmod := Nat.mod_lt (a - c.left) hp
    rw [wordAddress, wordAddress, left_after_of_le hauto ha, after_period, after_base_addr,
      if_neg (show ¬a + i < c.left by omega)]
    have hcurr : (c.after a).curr_addr =
        c.base_addr.toUInt32 + UInt32.ofNat ((a - c.left) % c.period) := by
      rw [after, if_neg (not_lt.2 ha), if_pos hauto]
    have hsum : (a + i - c.left) % c.period = ((a - c.left) % c.period + i) % c.period := by
      rw [Nat.mod_add_mod, show a + i - c.left = a - c.left + i by omega]
    rw [hcurr, hsum, UInt32.add_assoc, ← UInt32.ofNat_add]
    by_cases hi : i < c.period - (a - c.left) % c.period
    · rw [if_pos hi, Nat.mod_eq_of_lt (show (a - c.left) % c.period + i < c.period by omega)]
    · rw [if_neg hi, Nat.mod_eq_sub_mod (show (a - c.left) % c.period + i ≥ c.period by omega),
        show i - (c.period - (a - c.left) % c.period) =
          (a - c.left) % c.period + i - c.period by omega]

theorem byteAddress_after {k : ℕ} (h : c.is_autoiniting = true ∨ a + k / c.width < c.left) :
    (c.after a).byteAddress k = c.byteAddress (a * c.width + k) := by
  rw [byteAddress, byteAddress, after_width, wordAddress_after h, Nat.mul_comm,
    Nat.mul_add_div c.width_pos, Nat.mul_add_mod]

theorem after_zero : c.after 0 = c := by
  rw [after, if_pos c.left_pos]
  simp

/-- Position and count after `a` words, for `b` more. -/
theorem mod_after (ha : c.left ≤ a) :
    (a + b - c.left) % c.period = ((a - c.left) % c.period + b) % c.period := by
  rw [Nat.mod_add_mod, show a + b - c.left = a - c.left + b by omega]

/-- The round in which `b` more words end. -/
theorem mod_of_after (ha : c.left ≤ a) (hb : c.period - (a - c.left) % c.period ≤ b) :
    (b - (c.period - (a - c.left) % c.period)) % c.period = (a + b - c.left) % c.period := by
  have hmod := Nat.mod_lt (a - c.left) c.period_pos
  rw [mod_after ha, Nat.mod_eq_sub_mod (show (a - c.left) % c.period + b ≥ c.period by omega),
    show b - (c.period - (a - c.left) % c.period) = (a - c.left) % c.period + b - c.period by
      omega]

theorem mod_of_not_after (ha : c.left ≤ a) (hb : b < c.period - (a - c.left) % c.period) :
    (a + b - c.left) % c.period = (a - c.left) % c.period + b := by
  rw [mod_after ha]
  exact Nat.mod_eq_of_lt (by omega)

theorem sub_ofNat_add (count : UInt16) (m n : ℕ) :
    count - UInt16.ofNat m - UInt16.ofNat n = count - UInt16.ofNat (m + n) := by
  rw [UInt16.ofNat_add]
  grind

theorem add_ofNat_add (addr : UInt32) (m n : ℕ) :
    addr + UInt32.ofNat m + UInt32.ofNat n = addr + UInt32.ofNat (m + n) := by
  rw [UInt32.ofNat_add, UInt32.add_assoc]

theorem after_of_lt (h : n < c.left) :
    c.after n = { c with
      curr_addr := c.curr_addr + UInt32.ofNat n
      curr_count := c.curr_count - UInt16.ofNat n } := if_pos h

theorem after_of_auto (hauto : c.is_autoiniting = true) (h : c.left ≤ n) :
    c.after n = { c with
      curr_addr := c.base_addr.toUInt32 + UInt32.ofNat ((n - c.left) % c.period)
      curr_count := c.base_count - UInt16.ofNat ((n - c.left) % c.period)
      has_reached_terminal_count := true } := by
  rw [after, if_neg (not_lt.2 h), if_pos hauto]

theorem after_of_end (hauto : c.is_autoiniting = false) (h : c.left ≤ n) :
    c.after n = { c with
      curr_addr := c.curr_addr + UInt32.ofNat n
      curr_count := 0xffff
      is_masked := true
      has_reached_terminal_count := true } := by
  rw [after, if_neg (not_lt.2 h), if_neg (by rw [hauto]; decide)]

/-- A channel is where it would have been without the break. -/
theorem after_after (h : c.Takes (a + b)) : (c.after a).after b = c.after (a + b) := by
  rcases Nat.eq_zero_or_pos b with rfl | hb
  · exact after_zero
  rcases lt_or_ge a c.left with ha | ha
  · have hleft := left_after_of_lt ha
    rcases lt_or_ge (a + b) c.left with hab | hab
    · rw [after_of_lt (n := b) (by omega), after_of_lt ha, after_of_lt hab]
      dsimp only
      rw [sub_ofNat_add, add_ofNat_add]
    · cases hauto : c.is_autoiniting with
      | true =>
        rw [after_of_auto (n := b) (by rw [after_is_autoiniting, hauto]) (by omega),
          after_of_auto hauto hab, hleft, after_period, after_base_addr,
          show b - (c.left - a) = a + b - c.left by omega, after_of_lt ha]
      | false =>
        rw [after_of_end (n := b) (by rw [after_is_autoiniting, hauto]) (by omega),
          after_of_end hauto hab, after_of_lt ha]
        dsimp only
        rw [add_ofNat_add]
  · have hauto := h.resolve_right (by omega)
    have hauto' : (c.after a).is_autoiniting = true := by rw [after_is_autoiniting, hauto]
    have hleft := left_after_of_le hauto ha
    rcases lt_or_ge b (c.period - (a - c.left) % c.period) with hround | hround
    · rw [after_of_lt (n := b) (by omega), after_of_auto hauto ha,
        after_of_auto hauto (show c.left ≤ a + b by omega)]
      dsimp only
      rw [sub_ofNat_add, add_ofNat_add, mod_of_not_after ha hround]
    · rw [after_of_auto (n := b) hauto' (by omega),
        after_of_auto hauto (show c.left ≤ a + b by omega),
        hleft, after_period, after_base_addr, mod_of_after ha hround, after_of_auto hauto ha]

theorem endsAtTC_after (h : c.Takes (a + b)) (hb : 0 < b) :
    (c.after a).EndsAtTC b ↔ c.EndsAtTC (a + b) := by
  unfold EndsAtTC
  rw [after_period]
  rcases lt_or_ge a c.left with ha | ha
  · rw [left_after_of_lt ha, show b - (c.left - a) = a + b - c.left by omega]
    exact and_congr_left fun _ => by omega
  · rw [left_after_of_le (h.resolve_right (by omega)) ha]
    have hmod := Nat.mod_lt (a - c.left) c.period_pos
    rcases lt_or_ge b (c.period - (a - c.left) % c.period) with hround | hround
    · refine iff_of_false (fun hends => ?_) fun hends => ?_
      · exact absurd hends.1 (not_le.2 hround)
      · rw [mod_of_not_after ha hround] at hends
        omega
    · rw [mod_of_after ha hround]
      exact and_congr_left fun _ => by omega

theorem rounds_after (h : c.Takes (a + b)) :
    c.rounds (a + b) = c.rounds a + (c.after a).rounds b := by
  unfold rounds
  rw [after_period]
  rcases lt_or_ge a c.left with ha | ha
  · rw [if_pos ha, left_after_of_lt ha, Nat.zero_add,
      show b - (c.left - a) = a + b - c.left by omega]
    by_cases hab : a + b < c.left
    · rw [if_pos hab, if_pos (by omega)]
    · rw [if_neg hab, if_neg (by omega)]
  · rcases Nat.eq_zero_or_pos b with rfl | hb
    · rw [if_pos (c.after a).left_pos]
      rfl
    rw [left_after_of_le (h.resolve_right (by omega)) ha, if_neg (not_lt.2 ha),
      if_neg (show ¬a + b < c.left by omega)]
    have hmod := Nat.mod_lt (a - c.left) c.period_pos
    have hdiv := Nat.div_add_mod (a - c.left) c.period
    have hsum : a + b - c.left =
        (a - c.left) % c.period + b + c.period * ((a - c.left) / c.period) := by omega
    rw [hsum, Nat.add_mul_div_left _ _ c.period_pos]
    by_cases hround : b < c.period - (a - c.left) % c.period
    · rw [if_pos hround, Nat.div_eq_of_lt (by omega)]
      omega
    · rw [if_neg hround, Nat.div_eq_sub_div c.period_pos (by omega),
        show (a - c.left) % c.period + b - c.period =
          b - (c.period - (a - c.left) % c.period) by omega]
      omega

theorem told_after (h : c.Takes (a + b)) : c.told (a + b) = c.told a ++ (c.after a).told b := by
  unfold told
  rw [rounds_after h, after_is_autoiniting, List.replicate_add]
  cases hauto : c.is_autoiniting with
  | true => simp
  | false =>
    have hle : a + b ≤ c.left := h.resolve_left (by rw [hauto]; decide)
    rcases lt_or_ge a c.left with ha | ha
    · have hnone : c.rounds a = 0 := if_pos ha
      rw [left_after_of_lt ha, hnone, if_neg (show ¬(false = false ∧ c.left ≤ a) by omega)]
      by_cases hab : c.left ≤ a + b
      · rw [if_pos ⟨rfl, hab⟩, if_pos ⟨rfl, by omega⟩]
        rfl
      · rw [if_neg (fun hc => hab hc.2), if_neg (fun hc => hab (by omega))]
        rfl
    · obtain rfl : b = 0 := by omega
      have hnone : (c.after a).rounds 0 = 0 := if_pos (c.after a).left_pos
      have hnot : ¬(false = false ∧ (c.after a).left ≤ 0) :=
        fun hc => absurd hc.2 (not_le.2 (c.after a).left_pos)
      rw [hnone, if_neg hnot, List.replicate_zero, List.append_nil, List.append_nil,
        List.append_nil, Nat.add_zero]

end DmaChannel

end Hardware

end AugraDosbox
