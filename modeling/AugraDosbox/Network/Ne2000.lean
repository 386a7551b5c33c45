import Mathlib.Algebra.GroupWithZero.Nat
import Mathlib.Data.BitVec
import Mathlib.Logic.Function.Basic
import Mathlib.Tactic.Common

/-!
# The NE2000

The receiver of the network card of `src/hardware/network/ne2000.cpp`, and a driver that
empties its ring.

* `Nic` — the registers and the chip memory that receiving and remote DMA use;
* `rx_frame` — a frame comes in; `none` stands for -1;
* `chipmem_read`, `asic_read` — the data port; `page0_write`, `write_cr` — the registers;
* `Driver`, `driverStep` — a driver that reads the header and the frame on the next page
  through the data port, and then sets BNRY to the page that the header names;
* `Machine`, `step` — the card and the driver, with frames coming in between any of the
  driver's accesses.

Transmission, the status bits and interrupts are left out.
-/

namespace AugraDosbox.Ne2000

abbrev Byte := BitVec 8

def MEMSIZ : ℕ := 32 * 1024
def MEMSTART : ℕ := 16 * 1024
def MEMEND : ℕ := MEMSTART + MEMSIZ

def PAGE_FIRST : ℕ := MEMSTART / 256
def PAGE_LAST : ℕ := MEMEND / 256 - 1
def PAGE_STOP_LAST : ℕ := MEMEND / 256

structure Nic where
  /-- `CR.stop`. -/
  stop : Bool
  /-- `DCR.wdsize`: words and not bytes are transferred. -/
  wdsize : Bool
  promisc : Bool
  broadcast : Bool
  multicast : Bool
  runts_ok : Bool
  physaddr : List Byte
  mchash : ℕ → Byte
  macaddr : ℕ → Byte
  page_start : ℕ
  page_stop : ℕ
  bound_ptr : ℕ
  curr_page : ℕ
  remote_start : BitVec 16
  remote_dma : BitVec 16
  remote_bytes : BitVec 16
  mem : ℕ → Byte

/-- Writing `n` bytes from `dst` on. -/
def memcpy (mem : ℕ → Byte) (dst : ℕ) (src : ℕ → Byte) (n : ℕ) : ℕ → Byte :=
  fun i => if dst ≤ i ∧ i < dst + n then src (i - dst) else mem i

def ne2k_page_in_range (page : ℕ) : Bool := PAGE_FIRST ≤ page ∧ page ≤ PAGE_LAST

def ne2k_page_stop_in_range (page : ℕ) : Bool := PAGE_FIRST ≤ page ∧ page ≤ PAGE_STOP_LAST

def ne2k_rx_ring_is_valid (page_start page_stop curr_page : ℕ) : Bool :=
  ne2k_page_in_range page_start ∧ ne2k_page_stop_in_range page_stop ∧ page_start < page_stop ∧
    page_start ≤ curr_page ∧ curr_page < page_stop

/-! ## Receiving -/

/-- One bit of an address goes into the checksum of `mcast_index`. -/
def crcStep (crc : BitVec 32) (bit : Bool) : BitVec 32 :=
  if crc.msb ^^ bit then ((crc <<< 1) ^^^ 0x04c11db6) ||| 1 else crc <<< 1

def mcast_index (dst : ℕ → Byte) : ℕ :=
  let bits := (List.range 6).flatMap fun i => (List.range 8).map fun j => (dst i).getLsbD j
  ((bits.foldl crcStep 0xffffffff) >>> 26).toNat

/-- The filter for the addresses. -/
def Nic.filtered (s : Nic) (buf : ℕ → Byte) : Bool :=
  if s.promisc then false
  else if (List.range 6).map buf = List.replicate 6 0xff then !s.broadcast
  else if (buf 0).getLsbD 0 then
    !s.multicast || !(s.mchash (mcast_index buf >>> 3)).getLsbD (mcast_index buf &&& 7)
  else (List.range 6).map buf ≠ s.physaddr

/-- How many pages a frame takes, with its header and checksum. -/
def framePages (io_len : ℕ) : ℕ := (io_len + 4 + 4 + 255) / 256

def pkthdr (first : Byte) (nextpage io_len : ℕ) : List Byte :=
  [if first.getLsbD 0 then 1 ||| 0x20 else 1, BitVec.ofNat 8 nextpage,
    BitVec.ofNat 8 ((io_len + 4) % 256), BitVec.ofNat 8 ((io_len + 4) / 256)]

namespace Nic

variable (s : Nic)

/-- The pages that are free. -/
def avail : ℤ :=
  if s.curr_page < s.bound_ptr then (s.bound_ptr : ℤ) - s.curr_page
  else ((s.page_stop : ℤ) - s.page_start) - ((s.curr_page : ℤ) - s.bound_ptr)

/-- The page after a frame, in the arithmetic of `uint8_t`. -/
def nextPage (pages : ℕ) : ℕ :=
  let nextpage := (s.curr_page + pages) % 256
  if nextpage ≥ s.page_stop then (nextpage + 256 - (s.page_stop - s.page_start)) % 256
  else nextpage

/-- The frame is copied into the ring. -/
def copyFrame (buf : ℕ → Byte) (io_len pages nextpage : ℕ) : ℕ → Byte :=
  let header := pkthdr (buf 0) nextpage io_len
  let startptr := s.curr_page * 256 - MEMSTART
  if nextpage > s.curr_page ∨ s.curr_page + pages = s.page_stop then
    memcpy (memcpy s.mem startptr (header.getD · 0) 4) (startptr + 4) buf io_len
  else
    let endbytes := (s.page_stop - s.curr_page) * 256
    let atEnd := memcpy (memcpy s.mem startptr (header.getD · 0) 4) (startptr + 4) buf (endbytes - 4)
    memcpy atEnd (s.page_start * 256 - MEMSTART) (fun i => buf (endbytes - 4 + i))
      (io_len + 8 - endbytes)

/-- A frame comes in. -/
def rx_frame (buf : ℕ → Byte) (io_len : ℕ) : Option (Nic × ℕ) :=
  if s.stop ∨ s.page_start = 0 then none
  else if ne2k_rx_ring_is_valid s.page_start s.page_stop s.curr_page = false then none
  else if s.avail < framePages io_len ∨ s.avail = framePages io_len then none
  else if io_len < 40 ∧ s.runts_ok = false then none
  else
    let pages := framePages io_len
    let io_len := if io_len < 60 then 60 else io_len
    if s.filtered buf then none
    else
      let nextpage := s.nextPage pages
      if nextpage < s.page_start ∨ s.page_stop ≤ nextpage then none
      else some ({ s with
        mem := s.copyFrame buf io_len pages nextpage
        curr_page := nextpage }, io_len)

end Nic

/-! ## The data port -/

inductive Width where
  | byte | word | dword
deriving DecidableEq

namespace Nic

variable (s : Nic)

/-- A byte of a longer value, if it is below the limit. -/
def part (read : ℕ → Byte) (limit address k : ℕ) : BitVec 32 :=
  if address + k < limit then (read (address + k)).setWidth 32 <<< (8 * k) else 0

/-- As many bytes as the width asks for, those beyond the limit being left out. -/
def assemble (read : ℕ → Byte) (limit address : ℕ) : Width → BitVec 32
  | .byte => (read address).setWidth 32
  | .word => (read address).setWidth 32 ||| part read limit address 1
  | .dword => (read address).setWidth 32 ||| part read limit address 1 |||
      part read limit address 2 ||| part read limit address 3

def chipmem_read (address : ℕ) (io_len : Width) : BitVec 32 :=
  if address ≤ 31 then assemble s.macaddr 32 address io_len
  else if MEMSTART ≤ address ∧ address < MEMEND then
    assemble (fun a => s.mem (a - MEMSTART)) MEMEND address io_len
  else 0xff

/-- `DCR.wdsize + 1`. -/
def wordSize : ℕ := if s.wdsize then 2 else 1

/-- The address moves on and wraps at the end of the ring. -/
def bumpAddress : BitVec 16 :=
  let next := s.remote_dma + BitVec.ofNat 16 s.wordSize
  if next.toNat = s.page_stop * 256 then BitVec.ofNat 16 (s.page_start * 256) else next

/-- `asic_read` of the data register. -/
def asic_read (io_len : Width) : Nic × BitVec 32 :=
  if s.remote_bytes = 0 then (s, 0)
  else
    let io_len := if s.remote_bytes = 1 then .byte else io_len
    ({ s with
        remote_dma := s.bumpAddress
        remote_bytes := if 1 < s.remote_bytes.toNat then
          s.remote_bytes - BitVec.ofNat 16 s.wordSize else 0 },
      s.chipmem_read s.remote_dma.toNat io_len)

/-! ## Registers -/

/-- The registers of page 0 that a driver of the ring writes. -/
def page0_write (offset : ℕ) (value : Byte) : Nic :=
  match offset with
  | 0x1 => if ne2k_page_in_range value.toNat then { s with page_start := value.toNat } else s
  | 0x2 => if ne2k_page_stop_in_range value.toNat then { s with page_stop := value.toNat } else s
  | 0x3 => if ne2k_page_in_range value.toNat then { s with bound_ptr := value.toNat } else s
  | 0x8 =>
    let start := (s.remote_start &&& 0xff00#16) ||| value.setWidth 16
    { s with remote_start := start, remote_dma := start }
  | 0x9 =>
    let start := (s.remote_start &&& 0x00ff#16) ||| (value.setWidth 16 <<< 8)
    { s with remote_start := start, remote_dma := start }
  | 0xa => { s with remote_bytes := (s.remote_bytes &&& 0xff00#16) ||| value.setWidth 16 }
  | 0xb => { s with remote_bytes := (s.remote_bytes &&& 0x00ff#16) ||| (value.setWidth 16 <<< 8) }
  | _ => s

/-- The command register, without its transmit bit. -/
def write_cr (value : Byte) : Nic :=
  let value := if value &&& 0x38 = 0 then value ||| 0x20 else value
  let s := { s with stop := value.getLsbD 0 }
  if (value &&& 0x38) >>> 3 = 3 then
    let page := s.bound_ptr * 256
    { s with
      remote_start := BitVec.ofNat 16 page
      remote_dma := BitVec.ofNat 16 page
      remote_bytes := s.mem (page + 3 - MEMSTART) ++ s.mem (page + 2 - MEMSTART) }
  else s

end Nic

/-! ## The driver -/

inductive Phase where
  | idle
  | header (got : List Byte)
  | body (nextpage length : ℕ) (got : List Byte)

structure Driver where
  /-- The page of the frame that is read next. -/
  page : ℕ
  phase : Phase
  received : List (List Byte)

/-- A remote read is set up, byte by byte and the low one first. -/
def startRemoteRead (s : Nic) (address count : BitVec 16) : Nic :=
  ((((s.page0_write 0x8 (address.setWidth 8)).page0_write 0x9 ((address >>> 8).setWidth 8)).page0_write
    0xa (count.setWidth 8)).page0_write 0xb ((count >>> 8).setWidth 8)).write_cr 0x0a

/-- One access to the data port, in the width that the card has been set to.  Of the last odd
byte only that one counts. -/
def readData (s : Nic) (left : ℕ) : Nic × List Byte :=
  let r := s.asic_read (if s.wdsize then .word else .byte)
  (r.1, if s.wdsize ∧ left ≠ 1 then [r.2.setWidth 8, (r.2 >>> 8).setWidth 8] else [r.2.setWidth 8])

/-- One access of the driver to the card. -/
def driverStep (s : Nic) (driver : Driver) : Nic × Driver :=
  match driver.phase with
  | .idle =>
    if s.curr_page = driver.page then (s, driver)
    else (startRemoteRead s (BitVec.ofNat 16 (driver.page * 256)) 4,
      { driver with phase := .header [] })
  | .header got =>
    if got.length < 4 then
      let r := readData s (4 - got.length)
      (r.1, { driver with phase := .header (got ++ r.2) })
    else
      let length := (got.getD 2 0).toNat + (got.getD 3 0).toNat * 256 - 4
      (startRemoteRead s (BitVec.ofNat 16 (driver.page * 256 + 4)) (BitVec.ofNat 16 length),
        { driver with phase := .body (got.getD 1 0).toNat length [] })
  | .body nextpage length got =>
    if got.length < length then
      let r := readData s (length - got.length)
      (r.1, { driver with phase := .body nextpage length (got ++ r.2) })
    else
      (s.page0_write 0x3 (BitVec.ofNat 8 nextpage),
        { page := nextpage, phase := .idle, received := driver.received ++ [got] })

/-! ## Runs -/

/-- A frame of 60 to 1514 bytes, and what lies behind it in the memory of the host. -/
structure Frame where
  bytes : List Byte
  behind : ℕ → Byte
  le_length : 60 ≤ bytes.length
  length_le : bytes.length ≤ 1514

def Frame.buf (frame : Frame) (i : ℕ) : Byte := frame.bytes.getD i (frame.behind i)

/-- The card, the driver, and the frames that have been accepted. -/
structure Machine where
  nic : Nic
  driver : Driver
  accepted : List (List Byte)

inductive Event where
  | rx_frame (frame : Frame)
  | driver

namespace Machine

def step (m : Machine) : Event → Machine
  | .rx_frame frame =>
    match m.nic.rx_frame frame.buf frame.bytes.length with
    | none => m
    | some (nic, _) => { m with nic := nic, accepted := m.accepted ++ [frame.bytes] }
  | .driver =>
    let r := driverStep m.nic m.driver
    { m with nic := r.1, driver := r.2 }

def run (m : Machine) (events : List Event) : Machine := events.foldl step m

end Machine

end AugraDosbox.Ne2000
