import AugraDosbox.Network.Ne2000Card
import AugraDosbox.Network.Ne2000Ring

/-!
# The bounds of the NE2000

Which accesses of the card stay inside chip memory and inside the frame.

* `Nic.copyAccesses_inside_iff` — a copy stays in chip memory; it stays in the frame when the frame
  is as long as it is taken for, and four bytes longer when it goes around the ring;
* `Nic.BoundaryKept` — BNRY is a page of chip memory, or zero since the reset;
* **`Card.accesses_inside_iff`**, **`Card.step_mem`** — the accesses of one step, and that it
  changes nothing else;
* **`Card.safeRun_iff`** — the accesses of a run.
-/

namespace AugraDosbox.Ne2000

/-- All bytes of all accesses are there. -/
def AllInside (accesses : List Access) : Prop := ∀ a ∈ accesses, a.Inside

@[simp] theorem allInside_nil : AllInside [] := fun _ h => absurd h List.not_mem_nil

@[simp] theorem allInside_cons {a : Access} {accesses : List Access} :
    AllInside (a :: accesses) ↔ a.Inside ∧ AllInside accesses := List.forall_mem_cons

@[simp] theorem allInside_append {first second : List Access} :
    AllInside (first ++ second) ↔ AllInside first ∧ AllInside second := List.forall_mem_append

theorem inside_mem {first count : ℤ} :
    (Access.mem first count).Inside ↔ 0 ≤ first ∧ 0 ≤ count ∧ first + count ≤ 32768 := Iff.rfl

theorem inside_frame {first count : ℤ} {length : ℕ} :
    (Access.frame first count length).Inside ↔ 0 ≤ first ∧ 0 ≤ count ∧ first + count ≤ length :=
  Iff.rfl

theorem inside_frame_zero {count length : ℕ} :
    (Access.frame 0 count length).Inside ↔ count ≤ length := by
  rw [inside_frame]
  omega

theorem page_in_range_iff {page : ℕ} : ne2k_page_in_range page = true ↔ 64 ≤ page ∧ page ≤ 191 := by
  rw [ne2k_page_in_range, decide_eq_true_eq]
  rfl

/-! ## A frame -/

namespace Nic

variable (s : Nic)

/-- The page behind the frame is one of the ring. -/
def HasRoom (io_len : ℕ) : Prop :=
  s.curr_page + framePages io_len < 256 ∧
    s.curr_page + framePages io_len + s.page_start < 2 * s.page_stop

/-- The frame goes over the end of the ring, and not over the whole ring. -/
def GoesAround (io_len : ℕ) : Prop :=
  s.page_stop < s.curr_page + framePages io_len ∧ framePages io_len + s.page_start ≤ s.page_stop

/-- BNRY is a page of chip memory, or zero since the reset. -/
def BoundaryKept : Prop := s.bound_ptr = 0 ∨ ne2k_page_in_range s.bound_ptr = true

/-- How long a frame has to be for its bytes to be there. -/
def FrameFits (buf : ℕ → Byte) (io_len length : ℕ) : Prop :=
  s.refuses io_len = false →
    (s.promisc = false → 6 ≤ length) ∧
      (s.filtered buf = false → 12 ≤ length ∧
        (s.HasRoom io_len → 60 ≤ length ∧ (s.GoesAround io_len → io_len + 4 ≤ length)))

variable {s} {buf : ℕ → Byte} {io_len length : ℕ}

/-- What has been checked of a frame that is looked at. -/
theorem of_not_refuses (h : s.refuses io_len = false) :
    s.RingValid ∧ s.page_start ≤ s.curr_page ∧ s.curr_page < s.page_stop ∧
      (framePages io_len : ℤ) < s.avail := by
  simp only [refuses, Bool.or_eq_false_iff, decide_eq_false_iff_not, Bool.not_eq_false'] at h
  obtain ⟨⟨⟨-, hring⟩, havail⟩, -⟩ := h
  simp only [ne2k_rx_ring_is_valid, decide_eq_true_eq, page_in_range_iff,
    ne2k_page_stop_in_range] at hring
  obtain ⟨hfirst, hstop, hlt, hcurr, hcurr'⟩ := hring
  exact ⟨⟨hfirst.1, hlt, hstop.2⟩, hcurr, hcurr', by omega⟩

/-- The free pages end at BNRY, or the frame is smaller than the ring. -/
theorem pages_lt (hbound : s.BoundaryKept) (h : s.refuses io_len = false) :
    s.curr_page + framePages io_len < 191 ∨ framePages io_len + s.page_start < s.page_stop := by
  obtain ⟨hr, -, -, havail⟩ := of_not_refuses h
  have hlt := hr.lt
  have hlast : s.bound_ptr ≤ 191 := by
    rcases hbound with hzero | hrange
    · omega
    · exact (page_in_range_iff.1 hrange).2
  unfold avail at havail
  split at havail <;> omega

/-- The page that `rx_frame` computes in eight bits. -/
theorem nextPage_of_hasRoom (h : s.refuses io_len = false) (hroom : s.HasRoom io_len) :
    s.nextPage (framePages io_len) =
      if s.curr_page + framePages io_len < s.page_stop then s.curr_page + framePages io_len
      else s.curr_page + framePages io_len + s.page_start - s.page_stop := by
  obtain ⟨hr, hcurr, -, -⟩ := of_not_refuses h
  have hfirst := hr.first
  have hlt := hr.lt
  have hlast := hr.last
  obtain ⟨hbyte, -⟩ := hroom
  rw [nextPage, Nat.mod_eq_of_lt hbyte]
  split <;> split <;> omega

/-- The frames that are dropped for their size are those that leave no page of the ring behind. -/
theorem nextPage_inside_iff (hbound : s.BoundaryKept) (h : s.refuses io_len = false) :
    ¬ (s.nextPage (framePages io_len) < s.page_start ∨
      s.page_stop ≤ s.nextPage (framePages io_len)) ↔ s.HasRoom io_len := by
  obtain ⟨hr, hcurr, hcurr', -⟩ := of_not_refuses h
  have hfirst := hr.first
  have hlt := hr.lt
  have hlast := hr.last
  have hpages := pages_lt hbound h
  constructor
  · intro hinside
    by_contra hroom
    rw [HasRoom] at hroom
    rw [nextPage] at hinside
    split at hinside <;> omega
  · intro hroom
    rw [nextPage_of_hasRoom h hroom]
    obtain ⟨-, htwice⟩ := hroom
    split <;> omega

theorem copyAccesses_inside_iff {padded : ℕ} (hbound : s.BoundaryKept)
    (h : s.refuses io_len = false) (hroom : s.HasRoom io_len) (hle : io_len ≤ length)
    (hpadded : padded = if io_len < 60 then 60 else io_len) :
    AllInside (s.copyAccesses length padded (framePages io_len)
        (s.nextPage (framePages io_len))) ↔
      60 ≤ length ∧ (s.GoesAround io_len → io_len + 4 ≤ length) := by
  obtain ⟨hr, hcurr, hcurr', -⟩ := of_not_refuses h
  have hfirst := hr.first
  have hlt := hr.lt
  have hlast := hr.last
  have hpages := pages_lt hbound h
  have hpos := framePages_pos (n := io_len)
  have hfits : io_len + 8 ≤ framePages io_len * 256 := le_framePages
  have htight : framePages io_len * 256 ≤ io_len + 263 := by
    unfold framePages
    omega
  have hnext := nextPage_of_hasRoom h hroom
  obtain ⟨-, htwice⟩ := hroom
  generalize s.nextPage (framePages io_len) = nextpage at hnext
  rw [copyAccesses]
  simp only [pageAddress, MEMSTART]
  by_cases hstraight : nextpage > s.curr_page ∨ s.curr_page + framePages io_len = s.page_stop
  · -- the last page of the frame is a page of chip memory
    have hend : s.curr_page + framePages io_len ≤ 192 := by
      split at hnext <;> omega
    have hbefore : ¬ s.GoesAround io_len := by
      rintro ⟨hover, hring⟩
      split at hnext <;> omega
    rw [if_pos hstraight]
    simp only [allInside_cons, allInside_nil, inside_mem, inside_frame, hbefore, false_implies,
      and_true]
    split at hpadded <;> omega
  · have hover : s.page_stop < s.curr_page + framePages io_len ∧
        framePages io_len + s.page_start ≤ s.page_stop := by
      split at hnext <;> omega
    have haround : s.GoesAround io_len := hover
    have hlong : ¬ io_len < 60 := by omega
    rw [if_neg hlong] at hpadded
    rw [if_neg hstraight]
    simp only [allInside_cons, allInside_nil, inside_mem, inside_frame, haround, true_implies,
      and_true]
    split at hnext <;> omega

/-- **The accesses for a frame.** -/
theorem rx_accesses_inside_iff (hbound : s.BoundaryKept) (hle : io_len ≤ length) :
    AllInside (s.rx_accesses buf io_len length) ↔ s.FrameFits buf io_len length := by
  rw [FrameFits, rx_accesses]
  cases hrefuses : s.refuses io_len with
  | true => simp
  | false =>
    have hnext := nextPage_inside_iff hbound hrefuses
    have hcompare : AllInside (if s.promisc = true then [] else [.frame 0 6 length]) ↔
        (s.promisc = false → 6 ≤ length) := by
      cases s.promisc with
      | true => simp
      | false => simp [inside_frame]
    rw [if_neg Bool.false_ne_true, allInside_append, hcompare]
    simp only [true_implies]
    refine and_congr_right fun _ => ?_
    cases s.filtered buf with
    | true => simp
    | false =>
      have hlog : (Access.frame 0 12 length).Inside ↔ 12 ≤ length := inside_frame_zero
      rw [if_neg Bool.false_ne_true, allInside_cons, hlog]
      simp only [true_implies]
      refine and_congr_right fun htwelve => ?_
      by_cases hroom : s.HasRoom io_len
      · have hone : 1 ≤ length := by omega
        have hfirst : (Access.frame 0 1 length).Inside := inside_frame_zero.2 hone
        have hcopy := copyAccesses_inside_iff hbound hrefuses hroom hle rfl
        rw [if_neg (hnext.2 hroom), allInside_cons, hcopy]
        simp only [hfirst, hroom, true_and, true_implies]
      · have hdropped := not_not.1 (mt hnext.1 hroom)
        rw [if_pos hdropped]
        simp only [allInside_nil, hroom, false_implies]

/-- A word at the end of chip memory is cut off. -/
theorem wordAccesses_inside (address count : ℕ) : AllInside (wordAccesses address count) := by
  rw [wordAccesses]
  split
  · rename_i haddress
    intro a ha
    obtain ⟨k, hk, rfl⟩ := List.mem_map.1 ha
    have hend : address + k < MEMEND := by simpa using (List.mem_filter.1 hk).2
    rw [inside_mem]
    simp only [MEMSTART, MEMEND, MEMSIZ] at haddress hend ⊢
    omega
  · exact allInside_nil

theorem readAccesses_inside (s : Nic) (io_len : Width) : AllInside (s.readAccesses io_len) := by
  rw [readAccesses]
  split
  · exact allInside_nil
  · exact wordAccesses_inside _ _

theorem writeAccesses_inside (s : Nic) (io_len : Width) : AllInside (s.writeAccesses io_len) := by
  rw [writeAccesses]
  split
  · exact allInside_nil
  · exact wordAccesses_inside _ _

/-! ### BNRY -/

theorem BoundaryKept.of_eq {s' : Nic} (h : s.BoundaryKept) (heq : s'.bound_ptr = s.bound_ptr) :
    s'.BoundaryKept := by
  rwa [BoundaryKept, heq]

theorem rx_frame_bound_ptr {s' : Nic} {n : ℕ} (h : s.rx_frame buf io_len = some (s', n)) :
    s'.bound_ptr = s.bound_ptr := by
  unfold rx_frame at h
  split at h
  · cases h
  split at h
  · cases h
  split at h
  · cases h
  split at h
  · cases h
  dsimp only at h
  split at h
  · cases h
  split at h
  · cases h
  obtain ⟨rfl, -⟩ := Prod.ext_iff.1 (Option.some.inj h)
  rfl

theorem asic_read_bound_ptr (s : Nic) (io_len : Width) :
    (s.asic_read io_len).1.bound_ptr = s.bound_ptr := by
  rw [asic_read]
  split <;> rfl

theorem asic_write_bound_ptr (s : Nic) (value : BitVec 16) (io_len : Width) :
    (s.asic_write value io_len).bound_ptr = s.bound_ptr := by
  rw [asic_write]
  split
  · rfl
  · rw [chipmem_write]
    split <;> rfl

theorem write_cr_bound_ptr (s : Nic) (value : Byte) :
    (s.write_cr value).bound_ptr = s.bound_ptr := by
  rw [write_cr]
  dsimp only
  generalize (if value &&& 0x38 = 0 then value ||| 0x20 else value) = value
  split <;> rfl

/-- BNRY is set to pages of chip memory only. -/
theorem BoundaryKept.page0_write (h : s.BoundaryKept) (offset : ℕ) (value : Byte) :
    (s.page0_write offset value).BoundaryKept := by
  unfold Nic.page0_write
  split
  case h_3 =>
    split
    · rename_i hrange
      exact .inr hrange
    · exact h
  case h_1 => split <;> exact h
  case h_2 => split <;> exact h
  all_goals exact h

end Nic

/-! ## The card -/

namespace Card

variable {c : Card}

theorem transmit_bound_ptr (c : Card) : c.transmit.nic.bound_ptr = c.nic.bound_ptr := by
  rw [transmit]
  split
  · split
    · rename_i hframe
      exact Nic.rx_frame_bound_ptr hframe
    · rfl
  · rfl

theorem write_cr_bound_ptr (c : Card) (value : Byte) :
    (c.write_cr value).nic.bound_ptr = c.nic.bound_ptr := by
  rw [write_cr]
  split
  · rw [transmit_bound_ptr]
    exact Nic.write_cr_bound_ptr _ _
  · exact Nic.write_cr_bound_ptr _ _

theorem boundaryKept_page0_write (h : c.nic.BoundaryKept) (offset : ℕ) (value : Byte) :
    (c.page0_write offset value).nic.BoundaryKept := by
  unfold page0_write
  split
  case h_1 => split <;> exact h
  case h_7 => exact h.page0_write _ _
  all_goals exact h

theorem boundaryKept_page_write (h : c.nic.BoundaryKept) (offset : ℕ) (value : BitVec 16)
    (io_len : Width) : (c.page_write offset value io_len).nic.BoundaryKept := by
  rw [page_write]
  split
  · dsimp only
    split
    · exact boundaryKept_page0_write (boundaryKept_page0_write h _ _) _ _
    · exact boundaryKept_page0_write h _ _
  split
  · rw [page1_write]
    split
    · exact h
    split
    · split <;> exact h
    · split <;> exact h
  · exact h

/-- **BNRY stays where it may be**, whatever is done to the card. -/
theorem boundaryKept_step (h : c.nic.BoundaryKept) (event : Event) :
    (c.step event).nic.BoundaryKept := by
  cases event with
  | read offset io_len =>
    rw [step]
    split
    · exact h.of_eq (Nic.asic_read_bound_ptr _ _)
    split
    · exact .inl rfl
    · exact h
  | write offset value io_len =>
    rw [step]
    split
    · exact h.of_eq (Nic.asic_write_bound_ptr _ _ _)
    split
    · exact .inl rfl
    split
    · exact h.of_eq (write_cr_bound_ptr _ _)
    split
    · exact boundaryKept_page_write h _ _ _
    · exact h
  | packet buf len =>
    rw [step]
    split
    · split
      · rename_i hframe
        exact h.of_eq (Nic.rx_frame_bound_ptr hframe)
      · exact h
    · exact h

/-! ### One step -/

variable (c)

/-- The frame that the card sends to itself is long enough. -/
def TransmitFits : Prop :=
  c.loop_cntl = 1 → ne2k_tx_buffer_in_range c.tx_page_start c.tx_bytes.toNat = true →
    c.nic.FrameFits c.txBuffer c.tx_bytes.toNat c.tx_bytes.toNat

/-- A step that has all its bytes. The command register is the only port with a condition: BNRY
has been set when the command is to send the packet there, and a frame in loopback is long
enough. -/
def Fits : Event → Prop
  | .read _ _ => True
  | .write offset value _ =>
    offset.val = 0 →
      ((command (value.setWidth 8) &&& 0x38) >>> 3 = 3 → c.nic.bound_ptr ≠ 0) ∧
      ((command (value.setWidth 8)).getLsbD 2 = true →
        (c.setCommand (command (value.setWidth 8))).TransmitFits)
  | .packet buf len => c.listens = true → c.nic.FrameFits buf (len % 65536) len

variable {c}

theorem inside_txBuffer (h : ne2k_tx_buffer_in_range c.tx_page_start c.tx_bytes.toNat = true) :
    (Access.mem (Nic.pageAddress c.tx_page_start) c.tx_bytes.toNat).Inside := by
  rw [ne2k_tx_buffer_in_range, decide_eq_true_eq, page_in_range_iff] at h
  obtain ⟨⟨hfirst, -⟩, hend⟩ := h
  rw [inside_mem]
  simp only [Nic.pageAddress, MEMSTART, MEMSIZ] at hend ⊢
  omega

theorem transmitAccesses_inside_iff (hbound : c.nic.BoundaryKept) :
    AllInside c.transmitAccesses ↔ c.TransmitFits := by
  rw [transmitAccesses, TransmitFits]
  dsimp only
  by_cases hrange : ne2k_tx_buffer_in_range c.tx_page_start c.tx_bytes.toNat = true
  · rw [if_pos hrange]
    have hbuffer := inside_txBuffer hrange
    by_cases hnormal : c.loop_cntl = 0
    · rw [if_pos hnormal]
      simp [hbuffer, hnormal]
    rw [if_neg hnormal]
    by_cases hloop : c.loop_cntl = 1
    · rw [if_pos hloop, allInside_cons, Nic.rx_accesses_inside_iff hbound le_rfl]
      simp only [hbuffer, hloop, hrange, true_and, true_implies]
    · rw [if_neg hloop]
      simp [hloop]
  · rw [if_neg hrange]
    simp [hrange]

theorem inside_packetLength_iff (hbound : c.nic.BoundaryKept) :
    (Access.mem (Nic.pageAddress c.nic.bound_ptr + 2) 2).Inside ↔ c.nic.bound_ptr ≠ 0 := by
  have hbound : c.nic.bound_ptr = 0 ∨ (64 ≤ c.nic.bound_ptr ∧ c.nic.bound_ptr ≤ 191) :=
    hbound.imp_right page_in_range_iff.1
  rw [inside_mem]
  simp only [Nic.pageAddress, MEMSTART]
  omega

/-- **The accesses of one step.** -/
theorem accesses_inside_iff (hbound : c.nic.BoundaryKept) (event : Event) :
    AllInside (c.accesses event) ↔ c.Fits event := by
  cases event with
  | read offset io_len =>
    rw [accesses, Fits, iff_true]
    split
    · exact Nic.readAccesses_inside _ _
    · exact allInside_nil
  | write offset value io_len =>
    rw [accesses, Fits]
    split
    · rename_i hdata
      have hport : offset.val ≠ 0 := by
        rw [hdata]
        decide
      simp only [Nic.writeAccesses_inside, hport, false_implies]
    split
    · rename_i hcommand
      have hafter : (c.setCommand (command (value.setWidth 8))).nic.BoundaryKept :=
        hbound.of_eq (Nic.write_cr_bound_ptr _ _)
      have hlength : AllInside (if (command (value.setWidth 8) &&& 0x38) >>> 3 = 3 then
          [.mem (Nic.pageAddress c.nic.bound_ptr + 2) 2] else []) ↔
            ((command (value.setWidth 8) &&& 0x38) >>> 3 = 3 → c.nic.bound_ptr ≠ 0) := by
        split <;> simp_all [inside_packetLength_iff hbound]
      have htransmit : AllInside (if (command (value.setWidth 8)).getLsbD 2 then
          (c.setCommand (command (value.setWidth 8))).transmitAccesses else []) ↔
            ((command (value.setWidth 8)).getLsbD 2 = true →
              (c.setCommand (command (value.setWidth 8))).TransmitFits) := by
        rw [← transmitAccesses_inside_iff hafter]
        split <;> simp_all
      rw [crAccesses, allInside_append, hlength, htransmit]
      simp only [hcommand, Fin.val_zero, true_implies]
    · rename_i hcommand
      simp only [allInside_nil, Fin.val_eq_zero_iff, hcommand, false_implies]
  | packet buf len =>
    rw [accesses, Fits, ← Nic.rx_accesses_inside_iff hbound (Nat.mod_le len 65536)]
    split <;> simp_all

/-! ### Runs -/

/-- Every step of a run finds all bytes that it accesses. -/
def SafeRun : Card → List Event → Prop
  | _, [] => True
  | c, event :: events => AllInside (c.accesses event) ∧ SafeRun (c.step event) events

/-- Every step of a run is one that has all its bytes. -/
def FitsRun : Card → List Event → Prop
  | _, [] => True
  | c, event :: events => c.Fits event ∧ FitsRun (c.step event) events

/-- The accesses of a run, from any card whose BNRY is where it may be. -/
theorem safeRun_iff_of_boundaryKept (hbound : c.nic.BoundaryKept) (events : List Event) :
    c.SafeRun events ↔ c.FitsRun events := by
  induction events generalizing c with
  | nil => exact Iff.rfl
  | cons event events ih =>
    rw [SafeRun, FitsRun, accesses_inside_iff hbound event, ih (boundaryKept_step hbound event)]

/-- **The accesses of a run** are inside chip memory and inside the frames exactly when each of its
steps has all its bytes. -/
theorem safeRun_iff (physaddr : List Byte) (macaddr : ℕ → Byte) (events : List Event) :
    (start physaddr macaddr).SafeRun events ↔ (start physaddr macaddr).FitsRun events :=
  safeRun_iff_of_boundaryKept (.inl rfl) events

/-- The command to send a packet, while BNRY is still what the reset has left. -/
theorem sendPacket_not_safe : ¬ (start [] fun _ => 0).SafeRun [.write 0 0x1a .byte] := by
  rintro ⟨hinside, -⟩
  exact absurd (hinside (.mem (-16382) 2) (by decide)) (by decide)

end Card

end AugraDosbox.Ne2000
