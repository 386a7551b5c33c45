import AugraDosbox.Hardware.Pages

/-!
# The XMS driver of `ints/xms.cpp`

The handle table of the XMS driver and the requests that change it: allocate,
free, reallocate, lock and unlock.  The table is separate from the page table of
`hardware/memory.cpp`; the driver keeps the two in step by hand.
-/

namespace AugraDosbox

/-- The result codes the modelled requests return. -/
inductive XmsResult where
  | OK
  | XmsOutOfSpace
  | XmsOutOfHandles
  | XmsInvalidHandle
  | XmsBlockNotLocked
  | XmsBlockLocked
  | XmsLockCountOverflow
  deriving DecidableEq, Repr

/-- `XMS_Block`, with the defaults of the source. -/
structure XMS_Block where
  size_kb : ℕ := 0
  mem_handle : ℤ := -1
  lock_count : ℕ := 0
  is_free : Bool := true
  deriving DecidableEq, Repr

def NumXmsHandles : ℕ := 128

def get_num_pages (size_kb : ℕ) : ℕ := size_kb / 4 + (if size_kb &&& 3 ≠ 0 then 1 else 0)

/-- The number of pages is the size in KB divided by 4, rounded up. -/
theorem get_num_pages_eq (size_kb : ℕ) : get_num_pages size_kb = (size_kb + 3) / 4 := by
  have hand : size_kb &&& 3 = size_kb % 4 := Nat.and_two_pow_sub_one_eq_mod size_kb 2
  rw [get_num_pages, hand]
  split <;> omega

theorem get_num_pages_pos {size_kb : ℕ} (h : size_kb ≠ 0) : 0 < get_num_pages size_kb := by
  rw [get_num_pages_eq]
  omega

/-- The XMS driver and the page allocator below it. -/
structure Xms where
  mem : MemoryBlock
  handles : ℕ → XMS_Block

namespace Xms

/-- Replacing one entry of the handle table. -/
def setBlock (s : Xms) (i : ℕ) (b : XMS_Block) : Xms :=
  { s with handles := Function.update s.handles i b }

@[simp] theorem setBlock_mem (s : Xms) (i : ℕ) (b : XMS_Block) : (s.setBlock i b).mem = s.mem := rfl

@[simp] theorem setBlock_handles (s : Xms) (i : ℕ) (b : XMS_Block) :
    (s.setBlock i b).handles = Function.update s.handles i b := rfl

def xms_is_handle_valid (s : Xms) (handle : ℕ) : Bool :=
  handle != 0 && decide (handle < NumXmsHandles) && !(s.handles handle).is_free

/-- The search for a free handle in `xms_allocate_memory`, with `n` handles
left. -/
def findHandle (s : Xms) : ℕ → ℕ → Option ℕ
  | 0, _ => none
  | n + 1, index => if (s.handles index).is_free then some index else findHandle s n (index + 1)

/-- `xms_allocate_memory`: the result and the handle.  A block of size 0 gets a
page number from `MEM_GetNextFreePage`, but no page. -/
def xms_allocate_memory (s : Xms) (size_kb : ℕ) : Except Fault ((XmsResult × ℕ) × Xms) :=
  match findHandle s (NumXmsHandles - 1) 1 with
  | none => .ok ((.XmsOutOfHandles, 0), s)
  | some index =>
      if size_kb ≠ 0 then do
        let (mem_handle, mem) ← s.mem.MEM_AllocatePages (get_num_pages size_kb) true
        if mem_handle = 0 then .ok ((.XmsOutOfSpace, 0), { s with mem := mem })
        else
          .ok ((.OK, index), { s with mem := mem }.setBlock index
            { is_free := false, mem_handle := mem_handle, lock_count := 0, size_kb := size_kb })
      else
        .ok ((.OK, index), s.setBlock index
          { is_free := false, mem_handle := s.mem.MEM_GetNextFreePage, lock_count := 0,
            size_kb := size_kb })

def xms_free_memory (s : Xms) (handle : ℕ) : Except Fault (XmsResult × Xms) :=
  if !s.xms_is_handle_valid handle then .ok (.XmsInvalidHandle, s)
  else if (s.handles handle).lock_count ≠ 0 then .ok (.XmsBlockLocked, s)
  else do
    let mem ← s.mem.MEM_ReleasePages (s.handles handle).mem_handle
    .ok (.OK, { s with mem := mem }.setBlock handle {})

/-- `xms_resize_memory`.  The handle is passed by reference to
`MEM_ReAllocatePages`, so it is stored even when the call fails. -/
def xms_resize_memory (s : Xms) (handle new_size_kb : ℕ) : Except Fault (XmsResult × Xms) :=
  if !s.xms_is_handle_valid handle then .ok (.XmsInvalidHandle, s)
  else if 0 < (s.handles handle).lock_count then .ok (.XmsBlockLocked, s)
  else do
    let (ok, mem_handle, mem) ← s.mem.MEM_ReAllocatePages (s.handles handle).mem_handle
      (get_num_pages new_size_kb) true
    let s' := { s with mem := mem }
    if ok then
      .ok (.OK, s'.setBlock handle
        { s.handles handle with mem_handle := mem_handle, size_kb := new_size_kb })
    else
      .ok (.XmsOutOfSpace, s'.setBlock handle { s.handles handle with mem_handle := mem_handle })

def xms_lock_memory (s : Xms) (handle : ℕ) : XmsResult × Xms :=
  if !s.xms_is_handle_valid handle then (.XmsInvalidHandle, s)
  else if 255 ≤ (s.handles handle).lock_count then (.XmsLockCountOverflow, s)
  else
    (.OK, s.setBlock handle
      { s.handles handle with lock_count := (s.handles handle).lock_count + 1 })

def xms_unlock_memory (s : Xms) (handle : ℕ) : XmsResult × Xms :=
  if !s.xms_is_handle_valid handle then (.XmsInvalidHandle, s)
  else if (s.handles handle).lock_count ≠ 0 then
    (.OK, s.setBlock handle
      { s.handles handle with lock_count := (s.handles handle).lock_count - 1 })
  else (.XmsBlockNotLocked, s)

/-- The requests of the XMS interface that change a block. -/
inductive Request where
  | allocate (size_kb : ℕ)
  | free (handle : ℕ)
  | reallocate (handle new_size_kb : ℕ)
  | lock (handle : ℕ)
  | unlock (handle : ℕ)
  deriving DecidableEq, Repr

/-- The handle a request works on. -/
def Request.handle : Request → Option ℕ
  | .allocate _ => none
  | .free h => some h
  | .reallocate h _ => some h
  | .lock h => some h
  | .unlock h => some h

/-- Serving one request: the result code and the state afterwards. -/
def serve (s : Xms) : Request → Except Fault (XmsResult × Xms)
  | .allocate size_kb => do
      let ((r, _), s) ← s.xms_allocate_memory size_kb
      .ok (r, s)
  | .free h => s.xms_free_memory h
  | .reallocate h n => s.xms_resize_memory h n
  | .lock h => .ok (s.xms_lock_memory h)
  | .unlock h => .ok (s.xms_unlock_memory h)

end Xms

end AugraDosbox
