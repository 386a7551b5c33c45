import AugraDosbox.Network.Ne2000

/-!
# The NE2000 as the guest sees it

The 32 ports of the card, with the transmitter and its loopback, over the receiver of `Nic`.

* `Card` — the receiver and the registers that decide when it gets which frame;
* `Card.write_cr`, `Card.page0_write`, `Card.page1_write`, `Card.asic_write` — the ports;
* `Access` — an access to chip memory or to a received frame; every function that makes some has
  a list of `accesses` beside it, under the same conditions;
* `Card.Event`, `Card.step` — port accesses of any kind, and frames of any length.

Status bits and interrupts are left out. A `memcpy` within chip memory copies what was there
before it.
-/

namespace AugraDosbox.Ne2000

/-- A run of bytes that is read or written: of `s.mem`, or of a frame of `length` bytes. -/
inductive Access where
  | mem (first count : ℤ)
  | frame (first count : ℤ) (length : ℕ)
deriving DecidableEq, Repr

/-- The bytes are all there. -/
def Access.Inside : Access → Prop
  | .mem first count => 0 ≤ first ∧ 0 ≤ count ∧ first + count ≤ MEMSIZ
  | .frame first count length => 0 ≤ first ∧ 0 ≤ count ∧ first + count ≤ length

instance : DecidablePred Access.Inside
  | .mem first count => inferInstanceAs (Decidable (0 ≤ first ∧ 0 ≤ count ∧ first + count ≤ MEMSIZ))
  | .frame first count length =>
    inferInstanceAs (Decidable (0 ≤ first ∧ 0 ≤ count ∧ first + count ≤ length))

/-- How many bytes a width has. -/
def Width.bytes : Width → ℕ
  | .byte => 1
  | .word => 2
  | .dword => 4

/-! ## The receiver -/

namespace Nic

variable (s : Nic)

/-- The first byte of a page in chip memory. -/
def pageAddress (page : ℕ) : ℤ := (page : ℤ) * 256 - MEMSTART

/-- The copies of `rx_frame`. -/
def copyAccesses (length io_len pages nextpage : ℕ) : List Access :=
  let startptr := pageAddress s.curr_page
  if nextpage > s.curr_page ∨ s.curr_page + pages = s.page_stop then
    [.mem startptr 4, .mem (startptr + 4) io_len, .frame 0 io_len length]
  else
    let endbytes := ((s.page_stop : ℤ) - s.curr_page) * 256
    [.mem startptr 4, .mem (startptr + 4) (endbytes - 4), .frame 0 (endbytes - 4) length,
      .mem (pageAddress s.page_start) (io_len - endbytes + 8),
      .frame (endbytes - 4) (io_len - endbytes + 8) length]

/-- A frame that `rx_frame` turns away without a look at it. -/
def refuses (io_len : ℕ) : Bool :=
  s.stop || decide (s.page_start = 0) ||
    !ne2k_rx_ring_is_valid s.page_start s.page_stop s.curr_page ||
    decide (s.avail ≤ framePages io_len) || (decide (io_len < 40) && !s.runts_ok)

/-- The accesses of `rx_frame` to chip memory and to a frame of `length` bytes: the comparison of
the address, the twelve bytes that are logged, the first byte for the status, and the copies. -/
def rx_accesses (buf : ℕ → Byte) (io_len length : ℕ) : List Access :=
  if s.refuses io_len then []
  else
    let pages := framePages io_len
    let io_len := if io_len < 60 then 60 else io_len
    (if s.promisc then [] else [.frame 0 6 length]) ++
    if s.filtered buf then []
    else .frame 0 12 length ::
      let nextpage := s.nextPage pages
      if nextpage < s.page_start ∨ s.page_stop ≤ nextpage then []
      else .frame 0 1 length :: s.copyAccesses length io_len pages nextpage

/-- The bytes of chip memory at an address, as far as it has any. -/
def wordAccesses (address : ℕ) (count : ℕ) : List Access :=
  if MEMSTART ≤ address ∧ address < MEMEND then
    ((List.range count).filter fun k => address + k < MEMEND).map fun (k : ℕ) =>
      .mem ((address : ℤ) - MEMSTART + k) 1
  else []

def chipmem_write (address : ℕ) (value : BitVec 16) (io_len : Width) : Nic :=
  if MEMSTART ≤ address ∧ address < MEMEND then
    let mem := Function.update s.mem (address - MEMSTART) (value.setWidth 8)
    { s with
      mem := if io_len = .word ∧ address + 1 < MEMEND then
        Function.update mem (address - MEMSTART + 1) ((value >>> 8).setWidth 8) else mem }
  else s

/-- `asic_write` of the data register. -/
def asic_write (value : BitVec 16) (io_len : Width) : Nic :=
  if io_len = .word ∧ s.wdsize = false then s
  else
    let next := s.remote_dma + BitVec.ofNat 16 io_len.bytes
    let left := s.remote_bytes - BitVec.ofNat 16 io_len.bytes
    { s.chipmem_write s.remote_dma.toNat value io_len with
      remote_dma := if next.toNat = s.page_stop * 256 then BitVec.ofNat 16 (s.page_start * 256)
        else next
      remote_bytes := if MEMSIZ < left.toNat then 0 else left }

def readAccesses (io_len : Width) : List Access :=
  if s.remote_bytes = 0 then []
  else wordAccesses s.remote_dma.toNat (if s.remote_bytes = 1 then 1 else io_len.bytes)

def writeAccesses (io_len : Width) : List Access :=
  if io_len = .word ∧ s.wdsize = false then []
  else wordAccesses s.remote_dma.toNat (if io_len = .word then 2 else 1)

end Nic

/-! ## The card -/

def ne2k_tx_buffer_in_range (tx_page_start tx_bytes : ℕ) : Bool :=
  ne2k_page_in_range tx_page_start ∧ tx_page_start * 256 - MEMSTART + tx_bytes ≤ MEMSIZ

structure Card where
  nic : Nic
  /-- `CR.pgsel`. -/
  pgsel : ℕ
  /-- `DCR.loop`. -/
  loop : Bool
  /-- `TCR.loop_cntl`. -/
  loop_cntl : ℕ
  tx_page_start : ℕ
  tx_bytes : BitVec 16

namespace Card

variable (c : Card)

def reset : Card :=
  { nic := { c.nic with
      stop := true, wdsize := false, page_start := 0, page_stop := 0, bound_ptr := 0, curr_page := 0
      remote_start := 0, remote_dma := 0, remote_bytes := 0, mem := fun _ => 0 }
    pgsel := 0, loop := false, loop_cntl := 0, tx_page_start := 0, tx_bytes := 0 }

/-- What is in chip memory from the page on that is sent. -/
def txBuffer (i : ℕ) : Byte := c.nic.mem (c.tx_page_start * 256 - MEMSTART + i)

/-- A transmission. In loopback the card receives what it sends; otherwise the frame goes to the
host. -/
def transmit : Card :=
  if c.loop_cntl = 1 ∧ ne2k_tx_buffer_in_range c.tx_page_start c.tx_bytes.toNat then
    match c.nic.rx_frame c.txBuffer c.tx_bytes.toNat with
    | some (nic, _) => { c with nic := nic }
    | none => c
  else c

def transmitAccesses : List Access :=
  let bytes := c.tx_bytes.toNat
  if ne2k_tx_buffer_in_range c.tx_page_start bytes then
    let buffer := Access.mem (Nic.pageAddress c.tx_page_start) bytes
    if c.loop_cntl = 0 then [buffer]
    else if c.loop_cntl = 1 then buffer :: c.nic.rx_accesses c.txBuffer bytes bytes
    else []
  else []

/-- A command without a remote-DMA command aborts remote DMA. -/
def command (value : Byte) : Byte := if value &&& 0x38 = 0 then value ||| 0x20 else value

/-- The command register, without its transmit bit. -/
def setCommand (value : Byte) : Card :=
  { c with nic := c.nic.write_cr value, pgsel := (value >>> 6).toNat }

def write_cr (value : Byte) : Card :=
  let c := c.setCommand (command value)
  if (command value).getLsbD 2 then c.transmit else c

def crAccesses (value : Byte) : List Access :=
  (if (command value &&& 0x38) >>> 3 = 3 then [.mem (Nic.pageAddress c.nic.bound_ptr + 2) 2]
    else []) ++
  if (command value).getLsbD 2 then (c.setCommand (command value)).transmitAccesses else []

/-- The registers of page 0. -/
def page0_write (offset : ℕ) (value : Byte) : Card :=
  match offset with
  | 0x4 => if ne2k_page_in_range value.toNat then { c with tx_page_start := value.toNat } else c
  | 0x5 => { c with tx_bytes := (c.tx_bytes &&& 0xff00#16) ||| value.setWidth 16 }
  | 0x6 => { c with tx_bytes := (c.tx_bytes &&& 0x00ff#16) ||| (value.setWidth 16 <<< 8) }
  | 0xc =>
    { c with
      nic := { c.nic with
        runts_ok := value.getLsbD 1, broadcast := value.getLsbD 2
        multicast := value.getLsbD 3, promisc := value.getLsbD 4 } }
  | 0xd => { c with loop_cntl := ((value &&& 0x06) >>> 1).toNat }
  | 0xe => { c with nic := { c.nic with wdsize := value.getLsbD 0 }, loop := value.getLsbD 3 }
  | offset => { c with nic := c.nic.page0_write offset value }

def page1_write (offset : ℕ) (value : Byte) : Card :=
  if 1 ≤ offset ∧ offset ≤ 6 then
    { c with nic := { c.nic with physaddr := c.nic.physaddr.set (offset - 1) value } }
  else if offset = 7 then
    if ne2k_page_in_range value.toNat then
      { c with nic := { c.nic with curr_page := value.toNat } }
    else c
  else if 8 ≤ offset ∧ offset ≤ 15 then
    { c with nic := { c.nic with mchash := Function.update c.nic.mchash (offset - 8) value } }
  else c

/-- A write to one of the ports 1 to 15: a word goes to two registers of page 0. -/
def page_write (offset : ℕ) (value : BitVec 16) (io_len : Width) : Card :=
  if c.pgsel = 0 then
    let c := c.page0_write offset (value.setWidth 8)
    if io_len = .word then c.page0_write (offset + 1) ((value >>> 8).setWidth 8) else c
  else if c.pgsel = 1 then c.page1_write offset (value.setWidth 8)
  else c

/-! ## Steps -/

/-- What happens to the card: an access to a port, or a frame from the host. -/
inductive Event where
  | read (offset : Fin 32) (io_len : Width)
  | write (offset : Fin 32) (value : BitVec 32) (io_len : Width)
  | packet (buf : ℕ → Byte) (len : ℕ)

/-- Whether the poller passes frames on. -/
def listens : Bool := c.loop && decide (c.loop_cntl = 0)

/-- `read`, `write` and `NE2000_Poller`. -/
def step : Event → Card
  | .read offset io_len =>
    if offset = 16 then { c with nic := (c.nic.asic_read io_len).1 }
    else if offset = 31 then c.reset
    else c
  | .write offset value io_len =>
    if offset = 16 then { c with nic := c.nic.asic_write (value.setWidth 16) io_len }
    else if offset = 31 then c.reset
    else if offset = 0 then c.write_cr (value.setWidth 8)
    else if offset < 16 then c.page_write offset (value.setWidth 16) io_len
    else c
  | .packet buf len =>
    if c.listens then
      match c.nic.rx_frame buf (len % 65536) with
      | some (nic, _) => { c with nic := nic }
      | none => c
    else c

def accesses : Event → List Access
  | .read offset io_len => if offset = 16 then c.nic.readAccesses io_len else []
  | .write offset value io_len =>
    if offset = 16 then c.nic.writeAccesses io_len
    else if offset = 0 then c.crAccesses (value.setWidth 8)
    else []
  | .packet buf len => if c.listens then c.nic.rx_accesses buf (len % 65536) len else []

/-- The card after `init`. -/
def start (physaddr : List Byte) (macaddr : ℕ → Byte) : Card where
  nic :=
    { stop := true, wdsize := false, promisc := false, broadcast := false, multicast := false
      runts_ok := false, physaddr := physaddr, mchash := fun _ => 0, macaddr := macaddr
      page_start := 0, page_stop := 0, bound_ptr := 0, curr_page := 0, remote_start := 0
      remote_dma := 0, remote_bytes := 0, mem := fun _ => 0 }
  pgsel := 0
  loop := false
  loop_cntl := 0
  tx_page_start := 0
  tx_bytes := 0

end Card

end AugraDosbox.Ne2000
