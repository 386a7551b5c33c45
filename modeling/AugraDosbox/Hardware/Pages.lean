import Mathlib.Algebra.GroupWithZero.Nat
import Mathlib.Algebra.Order.Group.Int
import Mathlib.Logic.Function.Basic

/-!
# The page allocator of `hardware/memory.cpp`

Guest memory above the HMA is handed out in pages of 4 KB.  The table
`memory.mhandles` has one entry per page: 0 for a free page, the number of the
next page of the same allocation, or -1 for the last page of an allocation.  A
`MemHandle` is the number of the first page, so an allocation is a linked list
threaded through the table that also records which pages are free.

The functions here are those of the source, loop by loop.  Reading or writing
`mhandles` outside the table, `E_Exit` and a loop that never ends are the three
ways a call can fail to return; they are the constructors of `Fault`.
-/

namespace AugraDosbox

/-- How a call can fail to return a result. -/
inductive Fault where
  /-- `E_Exit` was called. -/
  | exit
  /-- A table was indexed outside its bounds. -/
  | outOfBounds
  /-- A loop of the source does not end. -/
  | diverges
  deriving DecidableEq, Repr

/-- `XMS_START` of `cpu/paging.h`: the first page that is ever handed out. -/
def XMS_START : ℕ := 0x110

/-- `MemPageSize` of `hardware/memory.h`. -/
def MemPageSize : ℕ := 4096

/-- `MaxMegabytes * PagesPerMegabyte`: `check_num_megabytes` refuses to start
with more memory than this. -/
def MaxPages : ℕ := 3072 * 256

/-- The parts of `MemoryBlock` that the allocator reads and writes.  `mhandles`
and the page vector have the same size, `pages`; an address of `bytes` is a guest
address, and every address from page `XMS_START` up is mapped to itself. -/
structure MemoryBlock where
  /-- `memory.pages.size()`. -/
  pages : ℕ
  /-- The entries of `memory.mhandles`. -/
  mhandles : ℕ → ℤ
  /-- Guest memory, byte by byte. -/
  bytes : ℕ → UInt8
  /-- The size was accepted by `check_num_megabytes`. -/
  pages_le : pages ≤ MaxPages

namespace MemoryBlock

/-- Writing one entry of the table. -/
def setEntry (m : MemoryBlock) (i : ℕ) (v : ℤ) : MemoryBlock :=
  { m with mhandles := Function.update m.mhandles i v }

@[simp] theorem setEntry_pages (m : MemoryBlock) (i : ℕ) (v : ℤ) :
    (m.setEntry i v).pages = m.pages := rfl

@[simp] theorem setEntry_bytes (m : MemoryBlock) (i : ℕ) (v : ℤ) :
    (m.setEntry i v).bytes = m.bytes := rfl

@[simp] theorem setEntry_mhandles (m : MemoryBlock) (i : ℕ) (v : ℤ) :
    (m.setEntry i v).mhandles = Function.update m.mhandles i v := rfl

/-! ## Counting and searching free pages -/

/-- The loop of `MEM_FreeTotal`, with `n` pages left to look at. -/
def freeTotalLoop (mhandles : ℕ → ℤ) : ℕ → ℕ → ℕ → ℕ
  | 0, _, free => free
  | n + 1, index, free =>
      freeTotalLoop mhandles n (index + 1) (if mhandles index = 0 then free + 1 else free)

def MEM_FreeTotal (m : MemoryBlock) : ℕ :=
  freeTotalLoop m.mhandles (m.pages - XMS_START) XMS_START 0

/-- The loop of `BestMatch`, with `n` pages left to look at. -/
def bestMatchLoop (mhandles : ℕ → ℤ) (size : ℕ) : ℕ → ℕ → ℕ → ℕ → ℕ → ℕ
  | 0, index, first, best, best_first =>
      -- the check for the final block, after the loop
      if first ≠ 0 ∧ size ≤ index - first ∧ index - first < best then first else best_first
  | n + 1, index, first, best, best_first =>
      if first = 0 then
        bestMatchLoop mhandles size n (index + 1)
          (if mhandles index = 0 then index else first) best best_first
      else if mhandles index ≠ 0 then
        let pages := index - first
        if pages = size then first
        else if size < pages ∧ pages < best then
          bestMatchLoop mhandles size n (index + 1) 0 pages first
        else bestMatchLoop mhandles size n (index + 1) 0 best best_first
      else bestMatchLoop mhandles size n (index + 1) first best best_first

/-- `BestMatch`: the first page of a free run of at least `size` pages, or 0. -/
def BestMatch (m : MemoryBlock) (size : ℕ) : ℕ :=
  bestMatchLoop m.mhandles size (m.pages - XMS_START) XMS_START 0 0xfffffff 0

def MEM_GetNextFreePage (m : MemoryBlock) : ℤ := BestMatch m 1

/-! ## Allocating -/

/-- The write through `next` in `MEM_AllocatePages`: the pointer is either to
the local `ret` or to an entry of the table. -/
def writeNext (next : Option ℕ) (v : ℤ) (r : ℤ × MemoryBlock) : ℤ × MemoryBlock :=
  match next with
  | none => (v, r.2)
  | some i => (r.1, r.2.setEntry i v)

/-- The loop of the sequential branch of `MEM_AllocatePages` and the end mark
written after it. -/
def allocateSequence : ℕ → ℕ → Option ℕ → ℤ × MemoryBlock → ℤ × MemoryBlock
  | 0, _, next, r => writeNext next (-1) r
  | pages + 1, index, next, r =>
      allocateSequence pages (index + 1) (some index) (writeNext next index r)

/-- The inner loop of the scattered branch: take pages from `index` on while
they are free.  Returns what is left to allocate and the pointer `next`. -/
def takeRun : ℕ → ℕ → Option ℕ → ℤ × MemoryBlock →
    Except Fault (ℕ × Option ℕ × ℤ × MemoryBlock)
  | 0, _, next, r => .ok (0, next, r)
  | pages + 1, index, next, r =>
      if r.2.pages ≤ index then .error .outOfBounds
      else if r.2.mhandles index = 0 then
        takeRun pages (index + 1) (some index) (writeNext next index r)
      else .ok (pages + 1, next, r)

/-- The outer loop of the scattered branch.  A round takes at least one page, so
as many rounds as there are pages are enough. -/
def allocateScattered : ℕ → ℕ → Option ℕ → ℤ × MemoryBlock → Except Fault (ℤ × MemoryBlock)
  | _, 0, _, r => .ok r
  | 0, _ + 1, _, _ => .error .diverges
  | fuel + 1, pages + 1, next, r =>
      let index := BestMatch r.2 1
      if index = 0 then .error .exit
      else do
        let (left, next, r) ← takeRun (pages + 1) index next r
        allocateScattered fuel left next (writeNext next (-1) r)

/-- `MEM_AllocatePages`: the handle (0 for failure) and the new state. -/
def MEM_AllocatePages (m : MemoryBlock) (pages : ℕ) (sequence : Bool) :
    Except Fault (ℤ × MemoryBlock) :=
  if pages = 0 then .ok (0, m)
  else if sequence then
    let index := BestMatch m pages
    if index = 0 then .ok (0, m)
    else .ok (allocateSequence pages index none (0, m))
  else if MEM_FreeTotal m < pages then .ok (0, m)
  else allocateScattered pages pages none (0, m)

/-! ## Releasing -/

/-- The loop of `MEM_ReleasePages`.  Every entry it visits is set to 0, and the
loop ends at 0, so no more rounds than pages are needed. -/
def releaseLoop : ℕ → ℤ → MemoryBlock → Except Fault MemoryBlock
  | 0, handle, m => if handle ≤ 0 then .ok m else .error .diverges
  | fuel + 1, handle, m =>
      if handle ≤ 0 then .ok m
      else if (m.pages : ℤ) ≤ handle then .error .outOfBounds
      else releaseLoop fuel (m.mhandles handle.toNat) (m.setEntry handle.toNat 0)

theorem releaseLoop_of_nonpos {handle : ℤ} (h : handle ≤ 0) (fuel : ℕ) (m : MemoryBlock) :
    releaseLoop fuel handle m = .ok m := by
  cases fuel <;> simp [releaseLoop, h]

def MEM_ReleasePages (m : MemoryBlock) (handle : ℤ) : Except Fault MemoryBlock :=
  releaseLoop (m.pages + 1) handle m

/-! ## Changing the size of an allocation -/

/-- `MEM_BlockCopy`, that is `mem_memcpy`: one byte after the other, upwards. -/
def MEM_BlockCopy (bytes : ℕ → UInt8) (dest src : ℕ) : ℕ → ℕ → UInt8
  | 0 => bytes
  | size + 1 =>
      let bytes := MEM_BlockCopy bytes dest src size
      Function.update bytes (dest + size) (bytes (src + size))

/-- The address of a page as `handle*4096` is passed on, a 32-bit `PhysPt`. -/
def pageAddress (handle : ℤ) : ℕ := (handle.toNat * MemPageSize) % 2 ^ 32

/-- The copy `MEM_ReAllocatePages` makes when a block has to move. -/
def moveBytes (m : MemoryBlock) (newhandle handle : ℤ) (old_pages : ℕ) : MemoryBlock :=
  { m with
    bytes := MEM_BlockCopy m.bytes (pageAddress newhandle) (pageAddress handle)
      (old_pages * MemPageSize) }

/-- The first loop of `MEM_ReAllocatePages`: the number of pages of the chain
and its last page. -/
def countLoop (m : MemoryBlock) : ℕ → ℤ → ℕ → ℤ → Except Fault (ℕ × ℤ)
  | 0, index, old_pages, last =>
      if index ≤ 0 then .ok (old_pages, last) else .error .diverges
  | fuel + 1, index, old_pages, last =>
      if index ≤ 0 then .ok (old_pages, last)
      else if (m.pages : ℤ) ≤ index then .error .outOfBounds
      else countLoop m fuel (m.mhandles index.toNat) (old_pages + 1) index

theorem countLoop_of_nonpos {index : ℤ} (h : index ≤ 0) (m : MemoryBlock) (fuel old_pages : ℕ)
    (last : ℤ) : countLoop m fuel index old_pages last = .ok (old_pages, last) := by
  cases fuel <;> simp [countLoop, h]

/-- The loop that finds the last page kept when a block shrinks. -/
def skipLoop (m : MemoryBlock) : ℕ → ℤ → ℤ
  | 0, index => index
  | pages + 1, index => skipLoop m pages (m.mhandles index.toNat)

/-- The loop that frees the rest of the chain when a block shrinks. -/
def dropLoop : ℕ → ℤ → MemoryBlock → MemoryBlock
  | 0, _, m => m
  | old_pages + 1, index, m =>
      dropLoop old_pages (m.mhandles index.toNat) (m.setEntry index.toNat 0)

/-- The loop that counts the free pages behind a block. -/
def freeBehind (mhandles : ℕ → ℤ) : ℕ → ℕ → ℕ → ℕ
  | 0, _, free => free
  | n + 1, index, free =>
      if mhandles index = 0 then freeBehind mhandles n (index + 1) (free + 1) else free

/-- The loop that extends a block in place and the end mark after it. -/
def growLoop : ℕ → ℕ → MemoryBlock → MemoryBlock
  | 0, index, m => m.setEntry index (-1)
  | need + 1, index, m => growLoop need (index + 1) (m.setEntry index (index + 1))

/-- `MEM_ReAllocatePages`: success, the handle afterwards, and the new state. -/
def MEM_ReAllocatePages (m : MemoryBlock) (handle : ℤ) (pages : ℕ) (sequence : Bool) :
    Except Fault (Bool × ℤ × MemoryBlock) :=
  if handle ≤ 0 then
    if pages = 0 then .ok (true, handle, m)
    else do
      let (handle, m) ← MEM_AllocatePages m pages sequence
      .ok (decide (0 < handle), handle, m)
  else if pages = 0 then do
    let m ← MEM_ReleasePages m handle
    .ok (true, -1, m)
  else do
    let (old_pages, last) ← countLoop m m.pages handle 0 0
    if old_pages = pages then .ok (true, handle, m)
    else if pages < old_pages then
      -- decrease size
      let index := skipLoop m (pages - 1) handle
      let next := m.mhandles index.toNat
      .ok (true, handle, dropLoop (old_pages - pages) next (m.setEntry index.toNat (-1)))
    else
      let need := pages - old_pages
      if sequence then
        let free := freeBehind m.mhandles (m.pages - (last + 1).toNat) (last + 1).toNat 0
        if need ≤ free then
          -- enough space, allocate more pages
          .ok (true, handle, growLoop need last.toNat m)
        else do
          -- not enough space, allocate a new block and copy
          let (newhandle, m) ← MEM_AllocatePages m pages true
          if newhandle = 0 then .ok (false, handle, m)
          else
            let m ← MEM_ReleasePages (m.moveBytes newhandle handle old_pages) handle
            .ok (true, newhandle, m)
      else do
        let (rem, m) ← MEM_AllocatePages m need false
        if rem = 0 then .ok (false, handle, m)
        else .ok (true, handle, m.setEntry last.toNat rem)

/-! ## Walking over an allocation -/

def MEM_NextHandle (m : MemoryBlock) (handle : ℤ) : Except Fault ℤ :=
  if handle < 0 ∨ (m.pages : ℤ) ≤ handle then .error .outOfBounds
  else .ok (m.mhandles handle.toNat)

def MEM_NextHandleAt (m : MemoryBlock) (handle : ℤ) : ℕ → Except Fault ℤ
  | 0 => .ok handle
  | k + 1 => do
      let handle ← MEM_NextHandle m handle
      MEM_NextHandleAt m handle k

end MemoryBlock

end AugraDosbox
