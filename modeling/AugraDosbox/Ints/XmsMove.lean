import AugraDosbox.Ints.Xms

/-!
# Moves between XMS blocks

`xms_move_memory` of `src/ints/xms.cpp`, which copies between XMS blocks and real-mode
addresses, with the A20 line and port 92h of `src/hardware/memory.cpp`.

* `Move.Right` — a move that is served stays inside its blocks, a refused one changes no byte,
  and neither changes the A20 line or its local enable count;
* **`Move.move_right_iff`** — that is so exactly when not both addresses are real-mode addresses that
  wrap around at 4 GB together with the length;
* `move_wraps` — a move of almost 4 GB that is served.
-/

namespace AugraDosbox

/-! ## The A20 line -/

/-- Port 92h and the state of the A20 line.  Bit 1 of the port is the line, and nothing is ever
stored with bit 0 set, which is a reset. -/
structure FastA20 where
  controlport : BitVec 8
  enabled : Bool
  reserved : controlport &&& 3 = 0
deriving DecidableEq

namespace FastA20

def read_p92 (a20 : FastA20) : BitVec 8 := a20.controlport ||| if a20.enabled then 2 else 0

/-- `write_p92`; `none` is `E_Exit`. -/
def write_p92 (val : BitVec 8) : Option FastA20 :=
  if hreset : val &&& 1 = 0 then
    some
      { controlport := val &&& ~~~2
        enabled := decide (val &&& 2 ≠ 0)
        reserved := by rw [BitVec.and_assoc]; exact hreset }
  else none

def a20_enable (a20 : FastA20) (enable : Bool) : Option FastA20 :=
  let val := a20.read_p92
  write_p92 (if enable then val ||| 2 else val &&& ~~~2)

def a20_is_enabled (a20 : FastA20) : Bool := decide (a20.read_p92 &&& 2 ≠ 0)

/-- Bit 1 of the port is the line, and a write of it changes nothing else. -/
theorem port_bits : ∀ c : BitVec 8, c &&& 3 = 0 →
    c &&& 2#8 = 0#8 ∧ ¬ (c ||| 2#8) &&& 2#8 = 0#8 ∧ c &&& 1#8 = 0#8 ∧
      (c ||| 2#8) &&& 1#8 = 0#8 ∧ c &&& 253#8 = c ∧ (c ||| 2#8) &&& 253#8 = c ∧
      c ||| 2#8 ||| 2#8 = c ||| 2#8 := by
  decide

variable (a20 : FastA20)

theorem a20_is_enabled_eq : a20.a20_is_enabled = a20.enabled := by
  obtain ⟨controlport, enabled, reserved⟩ := a20
  obtain ⟨hclear, hset, -⟩ := port_bits controlport reserved
  cases enabled
  · simp [a20_is_enabled, read_p92, hclear]
  · simp [a20_is_enabled, read_p92, hset]

theorem write_p92_eq (enable : Bool) :
    write_p92 (a20.controlport ||| if enable then 2 else 0) =
      some { a20 with enabled := enable } := by
  obtain ⟨controlport, enabled, reserved⟩ := a20
  obtain ⟨hclear, hset, hreset, hreset', hline, hline', -⟩ := port_bits controlport reserved
  cases enable
  · simp [write_p92, hclear, hreset, hline]
  · simp [write_p92, hset, hreset', hline']

/-- Nothing but the line changes, and the guest is not reset. -/
theorem a20_enable_eq (enable : Bool) :
    a20.a20_enable enable = some { a20 with enabled := enable } := by
  rw [← write_p92_eq]
  obtain ⟨controlport, enabled, reserved⟩ := a20
  obtain ⟨-, -, -, -, hline, hline', htwice⟩ := port_bits controlport reserved
  cases enable <;> cases enabled <;> simp [a20_enable, read_p92, hline, hline', htwice]

end FastA20

/-! ## Copying -/

/-- Where a linear address goes: without the A20 line the 16 pages from 1 MB on are those from
0 on. -/
def physical (enabled : Bool) (address : BitVec 32) : ℕ :=
  if !enabled && decide (0x100000 ≤ address.toNat ∧ address.toNat < 0x110000) then
    address.toNat - 0x100000
  else address.toNat

/-- `mem_memcpy`, byte by byte from the lowest address on. -/
def mem_memcpy (enabled : Bool) : ℕ → BitVec 32 → BitVec 32 → MemoryBlock → MemoryBlock
  | 0, _, _, m => m
  | size + 1, dest, src, m =>
    let bytes := Function.update m.bytes (physical enabled dest) (m.bytes (physical enabled src))
    mem_memcpy enabled size (dest + 1) (src + 1) { m with bytes }

theorem mem_memcpy_outside {size : ℕ} : ∀ {dest src : BitVec 32} {m : MemoryBlock} {i : ℕ},
    dest.toNat + size ≤ 2 ^ 32 → i < dest.toNat ∨ dest.toNat + size ≤ i →
      (mem_memcpy true size dest src m).bytes i = m.bytes i := by
  induction size with
  | zero => exact fun _ _ => rfl
  | succ size ih =>
    intro dest src m i hfits hout
    have hne : i ≠ physical true dest := by
      simp only [physical, Bool.not_true, Bool.false_and, Bool.false_eq_true, if_false]
      omega
    rw [mem_memcpy]
    rcases Nat.eq_zero_or_pos size with rfl | hpos
    · rw [mem_memcpy]
      exact Function.update_of_ne hne ..
    · have hnext : (dest + 1).toNat = dest.toNat + 1 := by
        rw [BitVec.toNat_add]
        exact Nat.mod_eq_of_lt (by change dest.toNat + 1 < _; omega)
      rw [ih (by omega) (by omega)]
      exact Function.update_of_ne hne ..

/-! ## A move -/

/-- The results of a move. -/
inductive MoveResult where
  | OK
  | XmsInvalidSrcHandle
  | XmsInvalidSrcOffset
  | XmsInvalidDestHandle
  | XmsInvalidDestOffset
  | XmsInvalidLength
  | XmsParityError
deriving DecidableEq, Repr

/-- `XMS_MemMove`: an offset is a real-mode address when its handle is 0. -/
structure XMS_MemMove where
  length : BitVec 32
  src_handle : BitVec 16
  src : BitVec 32
  dest_handle : BitVec 16
  dest : BitVec 32
deriving DecidableEq, Repr

/-- The driver with the A20 line and `a20.num_times_enabled`. -/
structure MoveDriver where
  xms : Xms
  a20 : FastA20
  num_times_enabled : BitVec 32

def RealToPhysical (pt : BitVec 32) : BitVec 32 := ((pt >>> 16) <<< 4) + (pt &&& 0xffff)

/-- The address of one side of a move, or the error for a bad handle, offset or length. -/
def operand (s : Xms) (handle : BitVec 16) (offset length : BitVec 32)
    (badHandle badOffset : MoveResult) : Except MoveResult (BitVec 32) :=
  if handle ≠ 0 then
    if !s.xms_is_handle_valid handle.toNat then .error badHandle
    else
      let size := BitVec.ofNat 32 (s.handles handle.toNat).size_kb * 1024
      if size ≤ offset then .error badOffset
      else if size - offset < length then .error .XmsInvalidLength
      else .ok (BitVec.ofInt 32 (s.handles handle.toNat).mem_handle * 4096 + offset)
  else
    let pt := RealToPhysical offset
    if 0x10FFF0 < pt + length then .error .XmsInvalidLength else .ok pt

/-- The copy with the A20 line on; `none` is `E_Exit`. -/
def MoveDriver.copy (d : MoveDriver) (destpt srcpt length : BitVec 32) : Option MoveDriver := do
  let a20_was_enabled := d.a20.a20_is_enabled
  let num_times_enabled := d.num_times_enabled + 1
  let a20 ← d.a20.a20_enable true
  let mem := mem_memcpy a20.enabled length.toNat destpt srcpt d.xms.mem
  let num_times_enabled := num_times_enabled - 1
  let a20 ← if a20_was_enabled then some a20 else a20.a20_enable false
  some { xms := { d.xms with mem }, a20, num_times_enabled }

/-- `xms_move_memory` of the request that is read from guest memory. -/
def xms_move_memory (d : MoveDriver) (move : XMS_MemMove) : Option (MoveResult × MoveDriver) :=
  if move.length % 2 ≠ 0 then some (.XmsParityError, d)
  else
    match operand d.xms move.src_handle move.src move.length .XmsInvalidSrcHandle
      .XmsInvalidSrcOffset with
    | .error result => some (result, d)
    | .ok srcpt =>
      match operand d.xms move.dest_handle move.dest move.length .XmsInvalidDestHandle
        .XmsInvalidDestOffset with
      | .error result => some (result, d)
      | .ok destpt =>
        if move.length ≠ 0 then (d.copy destpt srcpt move.length).map (.OK, ·)
        else some (.OK, d)

/-! ## The claim about a move -/

namespace Move

/-- The blocks lie inside physical memory. -/
def BlocksInside (s : Xms) : Prop := ∀ handle, s.xms_is_handle_valid handle = true →
  0 ≤ (s.handles handle).mem_handle ∧
    (s.handles handle).mem_handle * 4096 + (s.handles handle).size_kb * 1024 ≤ s.mem.pages * 4096

/-- The first address of one side, without wrapping around. -/
def start (s : Xms) (handle : BitVec 16) (offset : BitVec 32) : ℤ :=
  if handle ≠ 0 then (s.handles handle.toNat).mem_handle * 4096 + offset.toNat
  else (offset.toNat / 2 ^ 16) * 16 + offset.toNat % 2 ^ 16

/-- The range of one side lies inside its block, or below the end of the HMA. -/
def Inside (s : Xms) (handle : BitVec 16) (offset length : BitVec 32) : Prop :=
  if handle ≠ 0 then
    s.xms_is_handle_valid handle.toNat = true ∧
      offset.toNat + length.toNat ≤ (s.handles handle.toNat).size_kb * 1024
  else start s handle offset + length.toNat ≤ 0x10FFF0

/-- What is promised of a move. -/
structure Right (d : MoveDriver) (move : XMS_MemMove) (result : MoveResult) (d' : MoveDriver) :
    Prop where
  src : result = .OK → Inside d.xms move.src_handle move.src move.length
  dest : result = .OK → Inside d.xms move.dest_handle move.dest move.length
  outside : result = .OK → ∀ i : ℕ, (i : ℤ) < start d.xms move.dest_handle move.dest ∨
    start d.xms move.dest_handle move.dest + move.length.toNat ≤ i →
      d'.xms.mem.bytes i = d.xms.mem.bytes i
  refused : result ≠ .OK → d'.xms = d.xms
  a20 : d'.a20 = d.a20
  count : d'.num_times_enabled = d.num_times_enabled

/-- Both sides are real-mode addresses, and both wrap around at 4 GB with the length. -/
def Wraps (move : XMS_MemMove) : Prop :=
  move.src_handle = 0 ∧ move.dest_handle = 0 ∧ move.length % 2 = 0 ∧
    2 ^ 32 ≤ (RealToPhysical move.src).toNat + move.length.toNat ∧
    2 ^ 32 ≤ (RealToPhysical move.dest).toNat + move.length.toNat

/-! ## One side -/

section Sides

variable {s : Xms} {handle : BitVec 16} {offset length pt : BitVec 32}
  {badHandle badOffset : MoveResult}

theorem RealToPhysical_toNat (pt : BitVec 32) :
    (RealToPhysical pt).toNat = pt.toNat / 2 ^ 16 * 16 + pt.toNat % 2 ^ 16 := by
  have hoff : (pt &&& 0xffff).toNat = pt.toNat % 2 ^ 16 := by
    rw [BitVec.toNat_and]
    exact Nat.and_two_pow_sub_one_eq_mod pt.toNat 16
  have hseg : ((pt >>> 16) <<< 4).toNat = pt.toNat / 2 ^ 16 * 16 := by
    rw [BitVec.toNat_shiftLeft, BitVec.toNat_ushiftRight, Nat.shiftLeft_eq,
      Nat.shiftRight_eq_div_pow]
    exact Nat.mod_eq_of_lt (by omega)
  rw [RealToPhysical, BitVec.toNat_add, hseg, hoff]
  exact Nat.mod_eq_of_lt (by omega)

theorem RealToPhysical_le (pt : BitVec 32) : (RealToPhysical pt).toNat ≤ 0x10FFEF := by
  rw [RealToPhysical_toNat]
  omega

/-- The bounds of a block, in the 32 bits of the source. -/
theorem BlocksInside.bounds (h : BlocksInside s) (hvalid : s.xms_is_handle_valid handle.toNat) :
    (s.handles handle.toNat).size_kb * 1024 ≤ 0xC0000000 ∧
      0 ≤ (s.handles handle.toNat).mem_handle ∧
      (s.handles handle.toNat).mem_handle * 4096 + (s.handles handle.toNat).size_kb * 1024 ≤
        0xC0000000 := by
  obtain ⟨hlo, hhi⟩ := h _ hvalid
  have hpages := s.mem.pages_le
  simp only [MaxPages] at hpages
  omega

theorem toNat_ofNat_mul {n k : ℕ} (h : n * k < 2 ^ 32) :
    (BitVec.ofNat 32 n * BitVec.ofNat 32 k).toNat = n * k := by
  rw [BitVec.toNat_mul, BitVec.toNat_ofNat, BitVec.toNat_ofNat, ← Nat.mul_mod]
  exact Nat.mod_eq_of_lt h

/-- A side that passes its checks in a block lies inside it. -/
theorem operand_block (hblocks : BlocksInside s) (hhandle : handle ≠ 0)
    (hok : operand s handle offset length badHandle badOffset = .ok pt) :
    (pt.toNat : ℤ) = start s handle offset ∧ Inside s handle offset length := by
  simp only [operand, if_pos hhandle] at hok
  cases hvalid : s.xms_is_handle_valid handle.toNat with
  | false => simp [hvalid] at hok
  | true =>
    obtain ⟨hsize, hlo, hhi⟩ := hblocks.bounds hvalid
    have hsize' : (BitVec.ofNat 32 (s.handles handle.toNat).size_kb * 1024).toNat =
        (s.handles handle.toNat).size_kb * 1024 := toNat_ofNat_mul (k := 1024) (by omega)
    simp only [hvalid, Bool.not_true, Bool.false_eq_true, if_false] at hok
    split at hok
    · cases hok
    · next hoffset =>
      split at hok
      · cases hok
      · next hlength =>
        cases hok
        simp only [BitVec.le_def, BitVec.lt_def, hsize', not_le, not_lt] at hoffset hlength
        rw [BitVec.toNat_sub_of_le (by rw [BitVec.le_def, hsize']; omega), hsize'] at hlength
        rw [start, Inside, if_pos hhandle, if_pos hhandle]
        refine ⟨?_, hvalid, by omega⟩
        obtain ⟨page, hpage⟩ := Int.eq_ofNat_of_zero_le hlo
        rw [hpage] at hhi ⊢
        have hpage' : (BitVec.ofNat 32 page * 4096).toNat = page * 4096 :=
          toNat_ofNat_mul (k := 4096) (by omega)
        rw [BitVec.ofInt_natCast, BitVec.toNat_add, hpage', Nat.mod_eq_of_lt (by omega)]
        simp only [Int.natCast_add, Int.natCast_mul]
        rfl

/-- A side that passes its check as a real-mode address lies below the end of the HMA, or wraps
around. -/
theorem operand_real (hok : operand s 0 offset length badHandle badOffset = .ok pt) :
    pt = RealToPhysical offset ∧
      (Inside s 0 offset length ∨ 2 ^ 32 ≤ (RealToPhysical offset).toNat + length.toNat) := by
  simp only [operand, ne_eq, not_true_eq_false, if_false] at hok
  split at hok
  · cases hok
  · next hlength =>
    cases hok
    refine ⟨rfl, ?_⟩
    by_cases hwraps : 2 ^ 32 ≤ (RealToPhysical offset).toNat + length.toNat
    · exact .inr hwraps
    · refine .inl ?_
      rw [BitVec.lt_def, BitVec.toNat_add, Nat.mod_eq_of_lt (by omega), not_lt] at hlength
      have hstart := RealToPhysical_toNat offset
      simp only [Inside, start, ne_eq, not_true_eq_false, if_false]
      change _ ≤ 0x10FFF0 at hlength
      omega

theorem operand_wraps (hwraps : 2 ^ 32 ≤ (RealToPhysical offset).toNat + length.toNat) :
    operand s 0 offset length badHandle badOffset = .ok (RealToPhysical offset) := by
  have hle := RealToPhysical_le offset
  have hsum : (RealToPhysical offset + length).toNat =
      (RealToPhysical offset).toNat + length.toNat - 2 ^ 32 := by
    rw [BitVec.toNat_add, Nat.mod_eq_sub_mod hwraps, Nat.mod_eq_of_lt (by omega)]
  simp only [operand, ne_eq, not_true_eq_false, if_false]
  rw [if_neg]
  rw [BitVec.lt_def, hsum, not_lt]
  change _ ≤ 0x10FFF0
  omega

end Sides

/-! ## Both sides -/

theorem copy_eq (d : MoveDriver) (destpt srcpt length : BitVec 32) :
    d.copy destpt srcpt length = some { d with
      xms := { d.xms with mem := mem_memcpy true length.toNat destpt srcpt d.xms.mem } } := by
  obtain ⟨xms, ⟨controlport, enabled, reserved⟩, num_times_enabled⟩ := d
  have hcount : num_times_enabled + 1#32 - 1#32 = num_times_enabled := BitVec.add_sub_cancel ..
  cases enabled <;>
    simp [MoveDriver.copy, FastA20.a20_is_enabled_eq, FastA20.a20_enable_eq, hcount]

variable {d : MoveDriver} {move : XMS_MemMove}

/-- A side that is inside ends within 3 GB. -/
theorem Inside.end_le {s : Xms} (hblocks : BlocksInside s) {handle : BitVec 16}
    {offset length : BitVec 32} (h : Inside s handle offset length) :
    start s handle offset + length.toNat ≤ 0xC0000000 := by
  rw [Inside] at h
  split at h
  · next hhandle =>
    obtain ⟨-, -, hbounds⟩ := hblocks.bounds h.1
    simp only [start, if_pos hhandle]
    omega
  · exact h.trans (by decide)

theorem Inside.length_le {s : Xms} (hblocks : BlocksInside s) {handle : BitVec 16}
    {offset length : BitVec 32} (h : Inside s handle offset length) :
    length.toNat ≤ 0xC0000000 := by
  have hend := h.end_le hblocks
  have hstart : 0 ≤ start s handle offset := by
    rw [Inside] at h
    rw [start]
    split at h
    · next hhandle =>
      have hlo := (hblocks.bounds h.1).2.1
      rw [if_pos hhandle]
      omega
    · next hhandle =>
      rw [if_neg hhandle]
      omega
  omega

/-- One side of a move that passes its checks. -/
theorem operand_ok {s : Xms} (hblocks : BlocksInside s) {handle : BitVec 16}
    {offset length pt : BitVec 32} {badHandle badOffset : MoveResult}
    (hok : operand s handle offset length badHandle badOffset = .ok pt) :
    (pt.toNat : ℤ) = start s handle offset ∧ (Inside s handle offset length ∨
      (handle = 0 ∧ 2 ^ 32 ≤ (RealToPhysical offset).toNat + length.toNat)) := by
  by_cases hhandle : handle = 0
  · subst hhandle
    obtain ⟨rfl, hinside⟩ := operand_real hok
    refine ⟨?_, hinside.imp_right fun h => ⟨rfl, h⟩⟩
    rw [RealToPhysical_toNat]
    simp only [start, ne_eq, not_true_eq_false, if_false]
    omega
  · obtain ⟨hstart, hinside⟩ := operand_block hblocks hhandle hok
    exact ⟨hstart, .inl hinside⟩

/-- Two sides that pass their checks are inside, or both wrap around. -/
theorem inside_of_not_wraps (hblocks : BlocksInside d.xms) (heven : move.length % 2 = 0)
    {srcpt destpt : BitVec 32} {b₁ b₂ b₃ b₄ : MoveResult}
    (hsrc : operand d.xms move.src_handle move.src move.length b₁ b₂ = .ok srcpt)
    (hdest : operand d.xms move.dest_handle move.dest move.length b₃ b₄ = .ok destpt)
    (hwraps : ¬ Wraps move) :
    Inside d.xms move.src_handle move.src move.length ∧
      Inside d.xms move.dest_handle move.dest move.length := by
  have hsmall := RealToPhysical_le move.src
  have hsmall' := RealToPhysical_le move.dest
  rcases (operand_ok hblocks hsrc).2 with hin | ⟨hs, hws⟩
  · rcases (operand_ok hblocks hdest).2 with hin' | ⟨-, hwd⟩
    · exact ⟨hin, hin'⟩
    · have hle := hin.length_le hblocks
      omega
  · rcases (operand_ok hblocks hdest).2 with hin' | ⟨hd, hwd⟩
    · have hle := hin'.length_le hblocks
      omega
    · exact absurd ⟨hs, hd, heven, hws, hwd⟩ hwraps

/-- A move that is refused changes nothing. -/
theorem right_of_refused {result : MoveResult} (h : result ≠ .OK) : Right d move result d :=
  ⟨fun h' => absurd h' h, fun h' => absurd h' h, fun h' => absurd h' h, fun _ => rfl, rfl, rfl⟩

theorem operand_error {s : Xms} {handle : BitVec 16} {offset length : BitVec 32}
    {badHandle badOffset result : MoveResult}
    (h : operand s handle offset length badHandle badOffset = .error result)
    (hh : badHandle ≠ .OK) (ho : badOffset ≠ .OK) : result ≠ .OK := by
  simp only [operand] at h
  split at h
  · split at h
    · cases h
      exact hh
    · split at h
      · cases h
        exact ho
      · split at h
        · cases h
          nofun
        · cases h
  · split at h
    · cases h
      nofun
    · cases h

/-- A move that does not wrap around keeps what is promised. -/
theorem right_of_not_wraps (hblocks : BlocksInside d.xms) (hwraps : ¬ Wraps move) :
    ∃ result d', xms_move_memory d move = some (result, d') ∧ Right d move result d' := by
  by_cases heven : move.length % 2 = 0
  · simp only [xms_move_memory, heven, ne_eq, not_true_eq_false, if_false]
    cases hsrc : operand d.xms move.src_handle move.src move.length .XmsInvalidSrcHandle
        .XmsInvalidSrcOffset with
    | error result =>
      exact ⟨result, d, rfl, right_of_refused (operand_error hsrc nofun nofun)⟩
    | ok srcpt =>
      cases hdest : operand d.xms move.dest_handle move.dest move.length .XmsInvalidDestHandle
          .XmsInvalidDestOffset with
      | error result =>
        exact ⟨result, d, rfl, right_of_refused (operand_error hdest nofun nofun)⟩
      | ok destpt =>
        obtain ⟨hin, hin'⟩ := inside_of_not_wraps hblocks heven hsrc hdest hwraps
        have hstart := (operand_ok hblocks hdest).1
        by_cases hzero : move.length = 0
        · exact ⟨.OK, d, if_neg (not_not_intro hzero), fun _ => hin, fun _ => hin',
            fun _ _ _ => rfl, absurd rfl, rfl, rfl⟩
        · have hend := hin'.end_le hblocks
          dsimp only
          rw [if_pos hzero, copy_eq]
          refine ⟨.OK, _, rfl, fun _ => hin, fun _ => hin', fun _ i hi => ?_, absurd rfl, rfl, rfl⟩
          exact mem_memcpy_outside (by omega) (by omega)
  · refine ⟨.XmsParityError, d, ?_, right_of_refused nofun⟩
    simp only [xms_move_memory, ne_eq, heven, not_false_eq_true, if_true]

/-- A move of which both sides wrap around is served, outside of anything. -/
theorem served_of_wraps (hwraps : Wraps move) :
    ∃ d', xms_move_memory d move = some (.OK, d') ∧
      ¬ Inside d.xms move.src_handle move.src move.length := by
  obtain ⟨hsrc, hdest, heven, hws, hwd⟩ := hwraps
  have hout : ¬ Inside d.xms 0 move.src move.length := by
    have hle := RealToPhysical_toNat move.src
    simp only [Inside, start, ne_eq, not_true_eq_false, if_false]
    omega
  simp only [xms_move_memory, heven, hsrc, hdest, operand_wraps hws, operand_wraps hwd, copy_eq,
    ne_eq, not_true_eq_false, if_false, Option.map_some]
  split
  · exact ⟨_, rfl, hout⟩
  · exact ⟨_, rfl, hout⟩

/-- **A move keeps what is promised** exactly when not both of its sides are real-mode addresses
that wrap around. -/
theorem move_right_iff (hblocks : BlocksInside d.xms) :
    (∃ result d', xms_move_memory d move = some (result, d') ∧ Right d move result d') ↔
      ¬ Wraps move := by
  constructor
  · rintro ⟨result, d', hmove, hright⟩ hwraps
    obtain ⟨d'', hserved, hout⟩ := served_of_wraps hwraps
    rw [hmove] at hserved
    cases hserved
    exact hout (hright.src rfl)
  · exact right_of_not_wraps hblocks

/-! ## A move that is right, and one that wraps around -/

/-- Two MB of memory, and one block of 4 KB at page `0x110`. -/
def oneBlock : MoveDriver where
  xms :=
    { mem :=
        { pages := 512
          mhandles := fun i => if i = 0x110 then -1 else 0
          bytes := fun _ => 0
          pages_le := by decide }
      handles := fun i =>
        if i = 1 then { is_free := false, mem_handle := 0x110, size_kb := 4 } else {} }
  a20 := { controlport := 0, enabled := false, reserved := rfl }
  num_times_enabled := 0

theorem oneBlock_inside : BlocksInside oneBlock.xms := by
  intro handle hvalid
  have hone : handle = 1 := by
    by_contra hne
    simp [Xms.xms_is_handle_valid, oneBlock, hne] at hvalid
  subst hone
  decide

/-- Four bytes from the start of the block to the start of the HMA. -/
theorem move_right_oneBlock :
    ∃ result d', xms_move_memory oneBlock ⟨4, 1, 0, 0, 0xFFFF0010⟩ = some (result, d') ∧
      Right oneBlock ⟨4, 1, 0, 0, 0xFFFF0010⟩ result d' :=
  (move_right_iff oneBlock_inside).mpr fun h => absurd h.1 (by decide)

/-- **A move of almost 4 GB is served**: the source and the destination are FFFF:FFFF, and the
length is `0xFFFFFFFE`. -/
theorem move_wraps : BlocksInside oneBlock.xms ∧
    ¬ ∃ result d',
      xms_move_memory oneBlock ⟨0xFFFFFFFE, 0, 0xFFFFFFFF, 0, 0xFFFFFFFF⟩ = some (result, d') ∧
        Right oneBlock ⟨0xFFFFFFFE, 0, 0xFFFFFFFF, 0, 0xFFFFFFFF⟩ result d' := by
  refine ⟨oneBlock_inside, fun ⟨result, d', hmove, hright⟩ => ?_⟩
  have hwraps : Wraps ⟨0xFFFFFFFE, 0, 0xFFFFFFFF, 0, 0xFFFFFFFF⟩ :=
    ⟨rfl, rfl, rfl, by decide, by decide⟩
  obtain ⟨d'', hserved, hout⟩ := served_of_wraps (d := oneBlock) hwraps
  rw [hmove] at hserved
  cases hserved
  exact hout (hright.src rfl)

end Move

end AugraDosbox
