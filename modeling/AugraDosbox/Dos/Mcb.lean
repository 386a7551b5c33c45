import AugraDosbox.Hardware.Pages
import AugraDosbox.Lib.Loop

/-!
# Memory control blocks of `dos/dos_memory.cpp`

DOS hands out conventional and upper memory in blocks of paragraphs of 16 bytes.
The paragraph before a block is its header, the MCB: a type byte, the PSP of the
owner (0 for a free block), the size in paragraphs and a file name.  The headers
live in the memory they describe; the next header is found behind the block.

Segments and sizes are 16-bit numbers, so every computed one is taken modulo
2 ^ 16 where the source stores it in a `uint16_t`.
-/

namespace AugraDosbox

/-- Guest memory, byte by byte. -/
abbrev Memory := ℕ → UInt8

/-- Storing a value in a `uint16_t`. -/
def u16 (n : ℕ) : ℕ := n % 2 ^ 16

namespace Memory

/-- `mem_readw`. -/
def readw (mem : Memory) (addr : ℕ) : ℕ := (mem addr).toNat + 256 * (mem (addr + 1)).toNat

/-- `mem_writeb`. -/
def writeb (mem : Memory) (addr val : ℕ) : Memory := Function.update mem addr (UInt8.ofNat val)

/-- `mem_writew`. -/
def writew (mem : Memory) (addr val : ℕ) : Memory :=
  (mem.writeb addr val).writeb (addr + 1) (val / 256)

end Memory

/-! ## The header of a block -/

namespace DOS_MCB

def middle_mcb_type : ℕ := 0x4d

def ending_mcb_type : ℕ := 0x5a

/-- `MCB_FREE`, the owner of a free block. -/
def MCB_FREE : ℕ := 0x0000

/-- `MCB_DOS`, the owner of a system block. -/
def MCB_DOS : ℕ := 0x0008

def GetType (mem : Memory) (seg : ℕ) : ℕ := (mem (seg * 16)).toNat

def SetType (mem : Memory) (seg mcb_type : ℕ) : Memory := mem.writeb (seg * 16) mcb_type

def GetPSPSeg (mem : Memory) (seg : ℕ) : ℕ := mem.readw (seg * 16 + 1)

def SetPSPSeg (mem : Memory) (seg psp : ℕ) : Memory := mem.writew (seg * 16 + 1) psp

def GetSize (mem : Memory) (seg : ℕ) : ℕ := mem.readw (seg * 16 + 3)

def SetSize (mem : Memory) (seg size_paras : ℕ) : Memory := mem.writew (seg * 16 + 3) size_paras

def GetFileName (mem : Memory) (seg : ℕ) : Fin 8 → UInt8 := fun i => mem (seg * 16 + 8 + i)

def SetFileName (mem : Memory) (seg : ℕ) (name : Fin 8 → UInt8) : Memory := fun a =>
  if h : seg * 16 + 8 ≤ a ∧ a < seg * 16 + 16 then name ⟨a - (seg * 16 + 8), by omega⟩ else mem a

end DOS_MCB

open DOS_MCB

def umb_start_seg : ℕ := 0x9fff

def DOS_MEM_START : ℕ := 0x16f

def max_allowed_faults : ℕ := 100

inductive McbFaultStrategy where
  | Deny
  | Repair
  | Report
  | Allow
  deriving DecidableEq, Repr

/-- The error codes that the functions set. -/
inductive DosError where
  | MCB_DESTROYED
  | INSUFFICIENT_MEMORY
  | MB_ADDRESS_INVALID
  deriving DecidableEq, Repr

/-- The memory manager: guest memory and what it keeps beside it. -/
structure DosMemory where
  mem : Memory
  /-- `dos.firstMCB`. -/
  firstMCB : ℕ := DOS_MEM_START
  /-- `dos_infoblock.GetStartOfUMBChain()`. -/
  umb_start : ℕ := 0xffff
  /-- `dos_infoblock.GetUMBChainState()`. -/
  umb_state : ℕ := 0
  /-- `dos.psp()`, the PSP of the running program. -/
  psp : ℕ
  allocation_strategy : ℕ := 0
  mcb_fault_strategy : McbFaultStrategy := .Repair
  /-- `dos.errorcode`. -/
  errorcode : Option DosError := none

namespace DosMemory

/-- As many rounds as there are segments, more than any chain has blocks. -/
def maxRounds : ℕ := 2 ^ 16

/-- `triage_block`: whether the block needed triaging. -/
def triage_block (strategy : McbFaultStrategy) (mem : Memory) (mcb repair_type : ℕ) :
    Except Fault (Bool × Memory) :=
  if GetType mem mcb = middle_mcb_type ∨ GetType mem mcb = ending_mcb_type then .ok (false, mem)
  else
    match strategy with
    | .Deny => .error .exit
    | .Repair => .ok (true, SetType mem mcb repair_type)
    | .Report => .ok (true, mem)
    | .Allow => .ok (true, mem)

/-- The loop of `DOS_CompressMemory`. -/
def compressLoop (strategy : McbFaultStrategy) : ℕ → ℕ → ℕ → Memory → Except Fault Memory
  | 0, _, _, _ => .error .diverges
  | rounds + 1, faults, mcb, mem =>
      if GetType mem mcb = ending_mcb_type ∨ max_allowed_faults ≤ faults then .ok mem
      else
        let mcb_next := u16 (mcb + GetSize mem mcb + 1)
        if GetPSPSeg mem mcb = MCB_FREE ∧ GetPSPSeg mem mcb_next = MCB_FREE then do
          let (fault, mem) ← triage_block strategy mem mcb_next (GetType mem mcb)
          let mem := SetSize mem mcb (u16 (GetSize mem mcb + GetSize mem mcb_next + 1))
          let mem := SetType mem mcb (GetType mem mcb_next)
          compressLoop strategy rounds (faults + fault.toNat) mcb mem
        else compressLoop strategy rounds faults (u16 (mcb + GetSize mem mcb + 1)) mem

def DOS_CompressMemory (s : DosMemory) : Except Fault DosMemory := do
  let mem ← compressLoop s.mcb_fault_strategy maxRounds 0 s.firstMCB s.mem
  .ok { s with mem := mem }

/-- The two loops of `DOS_FreeProcessMemory`. -/
def freeProcessLoop (strategy : McbFaultStrategy) (pspseg : ℕ) :
    ℕ → ℕ → ℕ → Memory → Except Fault Memory
  | 0, _, _, _ => .error .diverges
  | rounds + 1, faults, mcb, mem =>
      if max_allowed_faults ≤ faults then .ok mem
      else
        let mem := if GetPSPSeg mem mcb = pspseg then SetPSPSeg mem mcb MCB_FREE else mem
        if GetType mem mcb = ending_mcb_type then .ok mem
        else do
          let (fault, mem) ← triage_block strategy mem mcb middle_mcb_type
          freeProcessLoop strategy pspseg rounds (faults + fault.toNat)
            (u16 (mcb + GetSize mem mcb + 1)) mem

def DOS_FreeProcessMemory (s : DosMemory) (pspseg : ℕ) : Except Fault DosMemory := do
  let mem ← freeProcessLoop s.mcb_fault_strategy pspseg maxRounds 0 s.firstMCB s.mem
  let mem ←
    if s.umb_start = umb_start_seg then
      freeProcessLoop s.mcb_fault_strategy pspseg maxRounds 0 s.umb_start mem
    else .ok mem
  DOS_CompressMemory { s with mem := mem }

def DOS_SetMemAllocStrategy (s : DosMemory) (strat : ℕ) : Bool × DosMemory :=
  if strat &&& 0x3f < 3 then (true, { s with allocation_strategy := strat }) else (false, s)

/-! ## Allocating -/

/-- What `DOS_AllocateMemory` returns: success, `*segment` and `*blocks`. -/
structure Allocation where
  ok : Bool
  segment : ℕ
  blocks : ℕ
  deriving DecidableEq, Repr

/-- The beginning of a free block, for first fit and best fit. -/
def splitLow (s : DosMemory) (psp_name : Fin 8 → UInt8) (blocks mcb block_size : ℕ) : Memory :=
  let mcb_next := u16 (mcb + blocks + 1)
  let mem := SetPSPSeg s.mem mcb_next MCB_FREE
  let mem := SetType mem mcb_next (GetType mem mcb)
  let mem := SetSize mem mcb_next (u16 (block_size - blocks - 1))
  let mem := SetSize mem mcb blocks
  let mem := SetType mem mcb middle_mcb_type
  let mem := SetPSPSeg mem mcb s.psp
  SetFileName mem mcb psp_name

/-- The end of a free block, for last fit. -/
def splitHigh (s : DosMemory) (psp_name : Fin 8 → UInt8) (blocks found_seg found_seg_size : ℕ) :
    Memory :=
  let mcb_next := u16 (u16 (found_seg + 1 + found_seg_size - blocks) + 2 ^ 16 - 1)
  let mem := SetSize s.mem mcb_next blocks
  let mem := SetType mem mcb_next (GetType mem found_seg)
  let mem := SetPSPSeg mem mcb_next s.psp
  let mem := SetFileName mem mcb_next psp_name
  let mem := SetSize mem found_seg (u16 (found_seg_size - blocks - 1))
  let mem := SetPSPSeg mem found_seg MCB_FREE
  SetType mem found_seg middle_mcb_type

/-- The end of the search: the block that best fit or last fit noted down is
used, if there is one. -/
def allocateFound (s : DosMemory) (psp_name : Fin 8 → UInt8)
    (blocks mem_strat bigsize found_seg found_seg_size : ℕ) : Allocation × DosMemory :=
  if found_seg ≠ 0 then
    if mem_strat &&& 0x3f = 1 then
      (⟨true, u16 (found_seg + 1), blocks⟩,
        { s with mem := splitLow s psp_name blocks found_seg found_seg_size })
    else if found_seg_size = blocks then
      (⟨true, u16 (found_seg + 1), blocks⟩,
        { s with mem := SetFileName (SetPSPSeg s.mem found_seg s.psp) found_seg psp_name })
    else
      (⟨true, u16 (found_seg + 1 + found_seg_size - blocks), blocks⟩,
        { s with mem := splitHigh s psp_name blocks found_seg found_seg_size })
  else (⟨false, 0, bigsize⟩, { s with errorcode := some .INSUFFICIENT_MEMORY })

/-- The loop of `DOS_AllocateMemory`. -/
def allocateLoop (s : DosMemory) (psp_name : Fin 8 → UInt8) (blocks : ℕ) :
    ℕ → ℕ → ℕ → ℕ → ℕ → ℕ → Except Fault (Allocation × DosMemory)
  | 0, _, _, _, _, _ => .error .diverges
  | rounds + 1, mem_strat, mcb, bigsize, found_seg, found_seg_size =>
      let onward (bigsize found_seg found_seg_size : ℕ) :=
        if GetType s.mem mcb = ending_mcb_type then
          if mem_strat &&& 0x80 ≠ 0 ∧ s.umb_start = umb_start_seg then
            -- try high memory first, then low
            allocateLoop s psp_name blocks rounds (mem_strat &&& 0xff3f) s.firstMCB bigsize found_seg
              found_seg_size
          else .ok (allocateFound s psp_name blocks mem_strat bigsize found_seg found_seg_size)
        else
          allocateLoop s psp_name blocks rounds mem_strat (u16 (mcb + GetSize s.mem mcb + 1)) bigsize
            found_seg found_seg_size
      if GetPSPSeg s.mem mcb = MCB_FREE then
        let block_size := GetSize s.mem mcb
        if block_size < blocks then onward (max bigsize block_size) found_seg found_seg_size
        else if block_size = blocks ∧ mem_strat &&& 0x3f < 2 then
          .ok (⟨true, u16 (mcb + 1), blocks⟩, { s with mem := SetPSPSeg s.mem mcb s.psp })
        else if mem_strat &&& 0x3f = 0 then
          .ok (⟨true, u16 (mcb + 1), blocks⟩,
            { s with mem := splitLow s psp_name blocks mcb block_size })
        else if mem_strat &&& 0x3f = 1 then
          if found_seg_size = 0 ∨ block_size < found_seg_size then onward bigsize mcb block_size
          else onward bigsize found_seg found_seg_size
        else onward bigsize mcb block_size
      else onward bigsize found_seg found_seg_size

def DOS_AllocateMemory (s : DosMemory) (blocks : ℕ) : Except Fault (Allocation × DosMemory) := do
  let s ← DOS_CompressMemory s
  let mcb :=
    if s.umb_start = umb_start_seg ∧ s.allocation_strategy &&& 0xc0 ≠ 0 then s.umb_start
    else s.firstMCB
  let psp_name := GetFileName s.mem (u16 (s.psp + 2 ^ 16 - 1))
  allocateLoop s psp_name blocks (2 * maxRounds) s.allocation_strategy mcb 0 0 0

/-! ## Resizing and freeing -/

/-- `DOS_ResizeMemory` for a block that shrinks. -/
def shrink (s : DosMemory) (segment blocks total : ℕ) : Except Fault DosMemory :=
  let mcb := u16 (segment + 2 ^ 16 - 1)
  let mcb_new_next := u16 (segment + blocks)
  let mem := SetSize s.mem mcb blocks
  let mem := SetType mem mcb_new_next (GetType mem mcb)
  let mem := if GetType mem mcb = ending_mcb_type then SetType mem mcb middle_mcb_type else mem
  let mem := SetSize mem mcb_new_next (u16 (total - blocks - 1))
  let mem := SetPSPSeg mem mcb_new_next MCB_FREE
  let mem := SetPSPSeg mem mcb s.psp
  DOS_CompressMemory { s with mem := mem }

/-- `DOS_ResizeMemory` for a block that grows into a part of the next one. -/
def growPart (s : DosMemory) (segment blocks total : ℕ) : Except Fault DosMemory :=
  let mcb := u16 (segment + 2 ^ 16 - 1)
  let mcb_next := u16 (segment + GetSize s.mem mcb)
  let mem :=
    if GetType s.mem mcb ≠ ending_mcb_type then SetType s.mem mcb (GetType s.mem mcb_next)
    else s.mem
  let mem := SetSize mem mcb blocks
  let mcb_next := u16 (segment + blocks)
  let mem := SetSize mem mcb_next (u16 (total - blocks - 1))
  let mem := SetType mem mcb_next (GetType mem mcb)
  let mem := SetPSPSeg mem mcb_next MCB_FREE
  let mem := SetType mem mcb middle_mcb_type
  let mem := SetPSPSeg mem mcb s.psp
  DOS_CompressMemory { s with mem := mem }

/-- `DOS_ResizeMemory` for a block that grows into all of the next one, or into
nothing. -/
def growAll (s : DosMemory) (segment total : ℕ) : Memory :=
  let mcb := u16 (segment + 2 ^ 16 - 1)
  let mcb_next := u16 (segment + GetSize s.mem mcb)
  let mem :=
    if GetPSPSeg s.mem mcb_next = MCB_FREE ∧ GetType s.mem mcb ≠ ending_mcb_type then
      SetType s.mem mcb (GetType s.mem mcb_next)
    else s.mem
  let mem := SetSize mem mcb total
  SetPSPSeg mem mcb s.psp

/-- `DOS_ResizeMemory`: success, `*blocks` and the state afterwards. -/
def DOS_ResizeMemory (s : DosMemory) (segment blocks : ℕ) :
    Except Fault ((Bool × ℕ) × DosMemory) :=
  let mcb := u16 (segment + 2 ^ 16 - 1)
  if GetType s.mem mcb ≠ middle_mcb_type ∧ GetType s.mem mcb ≠ ending_mcb_type then
    .ok ((false, blocks), { s with errorcode := some .MCB_DESTROYED })
  else do
    let s ← DOS_CompressMemory s
    let total := GetSize s.mem mcb
    let mcb_next := u16 (segment + total)
    if blocks ≤ total then
      if blocks = total then .ok ((true, blocks), { s with mem := SetPSPSeg s.mem mcb s.psp })
      else do
        let s ← shrink s segment blocks total
        .ok ((true, blocks), s)
    else
      -- the block will grow, try to join with the following one
      let total :=
        if GetType s.mem mcb ≠ ending_mcb_type ∧ GetPSPSeg s.mem mcb_next = MCB_FREE then
          u16 (total + GetSize s.mem mcb_next + 1)
        else total
      if blocks < total then do
        let s ← growPart s segment blocks total
        .ok ((true, blocks), s)
      else
        let s := { s with mem := growAll s segment total }
        if blocks = total then .ok ((true, blocks), s)
        else .ok ((false, total), { s with errorcode := some .INSUFFICIENT_MEMORY })

def DOS_FreeMemory (s : DosMemory) (segment : ℕ) : Bool × DosMemory :=
  let mcb := u16 (segment + 2 ^ 16 - 1)
  if segment < DOS_MEM_START + 1 then (false, { s with errorcode := some .MB_ADDRESS_INVALID })
  else if GetType s.mem mcb ≠ middle_mcb_type ∧ GetType s.mem mcb ≠ ending_mcb_type then
    (false, { s with errorcode := some .MB_ADDRESS_INVALID })
  else (true, { s with mem := SetPSPSeg s.mem mcb MCB_FREE })

/-! ## The upper memory chain -/

/-- The loop of `DOS_LinkUMBsToMemChain`: the last block before the upper chain,
and the one before it. -/
def linkLoop (s : DosMemory) : ℕ → ℕ → ℕ → Except Fault (ℕ × ℕ)
  | 0, _, _ => .error .diverges
  | rounds + 1, prev_mcb, mcb =>
      if mcb ≠ s.umb_start ∧ GetType s.mem mcb ≠ ending_mcb_type then
        linkLoop s rounds mcb (u16 (mcb + GetSize s.mem mcb + 1))
      else .ok (prev_mcb, mcb)

def DOS_LinkUMBsToMemChain (s : DosMemory) (linkstate : ℕ) : Except Fault (Bool × DosMemory) :=
  if s.umb_start ≠ umb_start_seg then .ok (false, s)
  else if linkstate &&& 1 = s.umb_state &&& 1 then .ok (true, s)
  else do
    let (prev_mcb, mcb) ← linkLoop s maxRounds s.firstMCB s.firstMCB
    match linkstate with
    | 0 =>
        let mem :=
          if GetType s.mem prev_mcb = middle_mcb_type ∧ mcb = s.umb_start then
            SetType s.mem prev_mcb ending_mcb_type
          else s.mem
        .ok (true, { s with mem := mem, umb_state := 0 })
    | 1 =>
        if GetType s.mem mcb = ending_mcb_type then
          .ok (true, { s with mem := SetType s.mem mcb middle_mcb_type, umb_state := 1 })
        else .ok (true, s)
    | _ => .ok (false, s)

/-- The loop of `DOS_BuildUMBChain`: the last block of the chain. -/
def lastLoop (mem : Memory) : ℕ → ℕ → Except Fault ℕ
  | 0, _ => .error .diverges
  | rounds + 1, mcb =>
      if GetType mem mcb ≠ ending_mcb_type then lastLoop mem rounds (u16 (mcb + GetSize mem mcb + 1))
      else .ok mcb

/-- The machine types that lay out memory differently. -/
inductive Machine where
  | Tandy
  | PcjrExpanded
  | PcjrStandard
  | Other
  deriving DecidableEq, Repr

/-- The file name of the block that covers video memory and the ROMs. -/
def coverName (i : Fin 8) : UInt8 := [0x53, 0x43, 0x20, 0x20, 0x20, 0x20, 0x20, 0x20].getD i 0

def DOS_BuildUMBChain (machine : Machine) (s : DosMemory) (umb_active ems_active : Bool) :
    Except Fault DosMemory :=
  if umb_active ∧ machine = .Other then do
    let first_umb_seg := 0xd000
    let first_umb_size := if ems_active then 0x1000 else 0x2000
    let mem := SetPSPSeg s.mem first_umb_seg 0
    let mem := SetSize mem first_umb_seg (first_umb_size - 1)
    let mem := SetType mem first_umb_seg ending_mcb_type
    let mcb ← lastLoop mem maxRounds s.firstMCB
    let cover_mcb := u16 (mcb + GetSize mem mcb + 1)
    let mem := SetType mem cover_mcb middle_mcb_type
    let mem := SetPSPSeg mem cover_mcb 0x0008
    let mem := SetSize mem cover_mcb (u16 (first_umb_seg - cover_mcb - 1))
    let mem := SetFileName mem cover_mcb coverName
    .ok { s with mem := mem, umb_start := umb_start_seg, umb_state := 0 }
  else .ok { s with umb_start := 0xffff, umb_state := 0 }

def RealSetVec (mem : Memory) (vec seg ofs : ℕ) : Memory :=
  (mem.writew (vec * 4) ofs).writew (vec * 4 + 2) seg

/-- Writing the fields of a header. -/
def putMcb (mem : Memory) (seg psp size mcb_type : ℕ) : Memory :=
  SetType (SetSize (SetPSPSeg mem seg psp) seg size) seg mcb_type

/-- The blocks at the end of `DOS_SetupMemory`, which depend on the machine. -/
def setupFree (machine : Machine) (mem : Memory) (start : ℕ) : Memory :=
  match machine with
  | .Tandy => putMcb mem start MCB_FREE (0x9BFF - start) ending_mcb_type
  | .PcjrExpanded =>
      let application_segment := 0x1800 + 0xc00
      let mem := putMcb mem start MCB_DOS (application_segment - start - 1) middle_mcb_type
      putMcb mem application_segment MCB_FREE (umb_start_seg - application_segment - 1)
        ending_mcb_type
  | .PcjrStandard => putMcb mem start MCB_FREE (0x1800 - start - 1) ending_mcb_type
  | .Other => putMcb mem start MCB_FREE (0x9FFE - start) ending_mcb_type

def DOS_SetupMemory (machine : Machine) (s : DosMemory) : DosMemory :=
  let ihseg := 0x70
  let ihofs := 0xF4
  let mem := s.mem.writeb (ihseg * 16 + ihofs) 0xCF
  let mem := [0x01, 0x02, 0x03, 0x04, 0x0f].foldl (fun mem vec => RealSetVec mem vec ihseg ihofs) mem
  let mem := putMcb mem DOS_MEM_START MCB_DOS 1 middle_mcb_type
  let mem := putMcb mem (DOS_MEM_START + 2) MCB_FREE 4 middle_mcb_type
  let mem := putMcb mem (DOS_MEM_START + 7) 0x40 16 middle_mcb_type
  { s with mem := setupFree machine mem (DOS_MEM_START + 24), firstMCB := DOS_MEM_START }

end DosMemory

end AugraDosbox
