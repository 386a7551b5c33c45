import AugraDosbox.Hardware.Pages

/-!
# Expanded memory of `ints/ems.cpp`

INT 67h hands out logical pages of 16 KB, each four pages of the allocator of
`hardware/memory.cpp`, and maps them into the four slots of the page frame and
into other segments of the first megabyte.  `emm_mappings` and
`emm_segmentmappings` record what is mapped where; the mapping itself is the table
`paging.firstmb` of `cpu/paging.cpp`.

Function 50h makes several of the mapping calls in a row and stops at the first
one that is refused, so it is a run of requests.  What the functions that restore a
map read from guest memory is a parameter of the request.  The names of the
handles are left out: no function here reads them.
-/

namespace AugraDosbox

/-- `EMM_PAGEFRAME`, the segment of the page frame. -/
def EMM_PAGEFRAME : ℕ := 0xE000

/-- `EMM_PAGEFRAME4K`, the first page of the page frame. -/
def EMM_PAGEFRAME4K : ℕ := EMM_PAGEFRAME * 16 / 4096

def EMM_MAX_HANDLES : ℕ := 200

/-- `EMM_MAX_PHYS`, the slots of the page frame. -/
def EMM_MAX_PHYS : ℕ := 4

def EMM_SYSTEM_HANDLE : ℕ := 0

def NULL_HANDLE : ℕ := 0xffff

def NULL_PAGE : ℕ := 0xffff

/-- `LINK_START` of `cpu/paging.h`. -/
def LINK_START : ℕ := 0x110

/-- The status codes that the functions return. -/
inductive EmmStatus where
  | EMM_NO_ERROR
  | EMM_INVALID_HANDLE
  | EMM_OUT_OF_HANDLES
  | EMM_OUT_OF_LOG
  | EMM_ZERO_PAGES
  | EMM_LOG_OUT_RANGE
  | EMM_ILL_PHYS
  | EMM_PAGE_MAP_SAVED
  | EMM_NO_SAVED_PAGE_MAP
  deriving DecidableEq, Repr

open EmmStatus

structure EMM_Mapping where
  handle : ℕ := NULL_HANDLE
  page : ℕ := NULL_PAGE
  deriving DecidableEq, Repr

structure EMM_Handle where
  pages : ℕ := NULL_HANDLE
  mem : ℤ := 0
  saved_page_map : Bool := false
  page_map : ℕ → EMM_Mapping := fun _ => {}

/-- The expanded memory manager, with the page allocator and the paging of the
first megabyte. -/
structure Ems where
  mem : MemoryBlock
  /-- `paging.firstmb`. -/
  firstmb : ℕ → ℕ := id
  ems_type : ℕ := 1
  emm_handles : ℕ → EMM_Handle := fun _ => {}
  emm_mappings : ℕ → EMM_Mapping := fun _ => {}
  emm_segmentmappings : ℕ → EMM_Mapping := fun _ => {}

namespace Ems

def get_free_pages (s : Ems) : ℕ := min 0x7fff (s.mem.MEM_FreeTotal / EMM_MAX_PHYS)

def ValidHandle (s : Ems) (handle : ℕ) : Bool :=
  decide (handle < EMM_MAX_HANDLES) && decide ((s.emm_handles handle).pages ≠ NULL_HANDLE)

/-- Writing one entry of the handle table. -/
def setHandle (s : Ems) (handle : ℕ) (v : EMM_Handle) : Ems :=
  { s with emm_handles := Function.update s.emm_handles handle v }

/-! ## Handles -/

/-- The search for a free handle, with `n` handles left to look at. -/
def freeHandle (s : Ems) : ℕ → ℕ → Option ℕ
  | 0, _ => none
  | n + 1, handle =>
      if (s.emm_handles handle).pages = NULL_HANDLE then some handle else freeHandle s n (handle + 1)

/-- `EMM_AllocateMemory`: the status and `dhandle`, if it is set. -/
def EMM_AllocateMemory (s : Ems) (pages : ℕ) (can_allocate_zpages : Bool) :
    Except Fault ((EmmStatus × Option ℕ) × Ems) :=
  if pages = 0 ∧ can_allocate_zpages = false then .ok ((EMM_ZERO_PAGES, none), s)
  else if s.get_free_pages < pages then .ok ((EMM_OUT_OF_LOG, none), s)
  else
    match freeHandle s (EMM_MAX_HANDLES - 1) 1 with
    | none => .ok ((EMM_OUT_OF_HANDLES, none), s)
    | some handle => do
        let (mem, m) ← if pages ≠ 0 then s.mem.MEM_AllocatePages (pages * 4) false else .ok (0, s.mem)
        if pages ≠ 0 ∧ mem = 0 then .error .exit
        else
          let s := { s with mem := m }
          .ok ((EMM_NO_ERROR, some handle),
            s.setHandle handle { s.emm_handles handle with pages := pages, mem := mem })

def EMM_AllocateSystemHandle (s : Ems) (pages : ℕ) : Except Fault (EmmStatus × Ems) :=
  if s.get_free_pages < pages then .ok (EMM_OUT_OF_LOG, s)
  else do
    let handle := EMM_SYSTEM_HANDLE
    let m ←
      if (s.emm_handles handle).pages ≠ NULL_HANDLE then
        s.mem.MEM_ReleasePages (s.emm_handles handle).mem
      else .ok s.mem
    let (mem, m) ← m.MEM_AllocatePages (pages * 4) false
    if mem = 0 then .error .exit
    else
      let s := { s with mem := m }
      .ok (EMM_NO_ERROR, s.setHandle handle { s.emm_handles handle with pages := pages, mem := mem })

def EMM_ReallocatePages (s : Ems) (handle pages : ℕ) : Except Fault (EmmStatus × Ems) :=
  if s.ValidHandle handle = false then .ok (EMM_INVALID_HANDLE, s)
  else if (s.emm_handles handle).pages ≠ 0 then do
    let (ok, mem, m) ← s.mem.MEM_ReAllocatePages (s.emm_handles handle).mem (pages * 4) false
    let s := { s with mem := m }.setHandle handle { s.emm_handles handle with mem := mem }
    if ok = false then .ok (EMM_OUT_OF_LOG, s)
    else .ok (EMM_NO_ERROR, s.setHandle handle { s.emm_handles handle with pages := pages })
  else do
    let (mem, m) ← s.mem.MEM_AllocatePages (pages * 4) false
    if mem = 0 then .error .exit
    else
      let s := { s with mem := m }
      .ok (EMM_NO_ERROR, s.setHandle handle { s.emm_handles handle with mem := mem, pages := pages })

def EMM_ReleaseMemory (s : Ems) (handle : ℕ) : Except Fault (EmmStatus × Ems) :=
  if s.ValidHandle handle = false then .ok (EMM_INVALID_HANDLE, s)
  else do
    let m ←
      if (s.emm_handles handle).pages ≠ 0 then s.mem.MEM_ReleasePages (s.emm_handles handle).mem
      else .ok s.mem
    -- the handle of the system is never deallocated
    let pages := if handle = 0 then 0 else NULL_HANDLE
    .ok (EMM_NO_ERROR, { s with mem := m }.setHandle handle
      { s.emm_handles handle with mem := 0, pages := pages, saved_page_map := false })

/-! ## Mapping -/

/-- `PAGING_MapPage`.  The other pages are linked through the TLB, and no function
here asks for one. -/
def PAGING_MapPage (s : Ems) (lin_page : ℕ) (phys_page : ℤ) : Ems :=
  if lin_page < LINK_START then
    { s with firstmb := Function.update s.firstmb lin_page (phys_page % 2 ^ 32).toNat }
  else s

/-- The loop that makes pages visible at their own addresses. -/
def unmapPages (s : Ems) : ℕ → ℕ → Ems
  | 0, _ => s
  | n + 1, lin_page => unmapPages (s.PAGING_MapPage lin_page lin_page) n (lin_page + 1)

/-- The loop that makes the pages of an allocation visible. -/
def mapPages (s : Ems) : ℕ → ℕ → ℤ → Except Fault Ems
  | 0, _, _ => .ok s
  | n + 1, lin_page, memh => do
      let s := s.PAGING_MapPage lin_page memh
      let memh ← s.mem.MEM_NextHandle memh
      mapPages s n (lin_page + 1) memh

/-- Recording what is mapped into a slot of the page frame. -/
def setMapping (s : Ems) (phys_page : ℕ) (v : EMM_Mapping) : Ems :=
  { s with emm_mappings := Function.update s.emm_mappings phys_page v }

/-- Recording what is mapped into a segment outside of the page frame. -/
def setSegmentMapping (s : Ems) (i : ℕ) (v : EMM_Mapping) : Ems :=
  { s with emm_segmentmappings := Function.update s.emm_segmentmappings i v }

def EMM_MapPage (s : Ems) (phys_page handle log_page : ℕ) : Except Fault (EmmStatus × Ems) :=
  if EMM_MAX_PHYS ≤ phys_page then .ok (EMM_ILL_PHYS, s)
  else if log_page = NULL_PAGE then
    .ok (EMM_NO_ERROR,
      (s.setMapping phys_page {}).unmapPages 4 (EMM_PAGEFRAME4K + phys_page * 4))
  else if s.ValidHandle handle = false then .ok (EMM_INVALID_HANDLE, s)
  else if log_page < (s.emm_handles handle).pages then do
    let s := s.setMapping phys_page ⟨handle, log_page⟩
    let memh ← s.mem.MEM_NextHandleAt (s.emm_handles handle).mem (log_page * 4)
    let s ← s.mapPages 4 (EMM_PAGEFRAME4K + phys_page * 4) memh
    .ok (EMM_NO_ERROR, s)
  else .ok (EMM_LOG_OUT_RANGE, s)

/-- The segments that `EMM_MapSegment` accepts. -/
def ValidSegment (s : Ems) (segment : ℕ) : Bool :=
  if s.ems_type = 1 ∨ s.ems_type = 3 then decide (segment < 0xf000 + 0x1000)
  else
    decide (0xa000 ≤ segment ∧ segment < 0xb000) ||
      decide (EMM_PAGEFRAME ≤ segment ∧ segment < EMM_PAGEFRAME + 0x1000)

/-- `tphysPage`; the division of the source truncates towards zero. -/
def tphysPage (segment : ℕ) : ℤ := ((segment : ℤ) - EMM_PAGEFRAME).tdiv (0x1000 / EMM_MAX_PHYS)

/-- Recording what `EMM_MapSegment` maps. -/
def recordSegment (s : Ems) (segment : ℕ) (v : EMM_Mapping) : Ems :=
  if 0 ≤ tphysPage segment ∧ tphysPage segment < EMM_MAX_PHYS then
    s.setMapping (tphysPage segment).toNat v
  else s.setSegmentMapping (segment / 2 ^ 10) v

def EMM_MapSegment (s : Ems) (segment handle log_page : ℕ) : Except Fault (EmmStatus × Ems) :=
  if s.ValidSegment segment = false then .ok (EMM_ILL_PHYS, s)
  else if log_page = NULL_PAGE then
    .ok (EMM_NO_ERROR, (s.recordSegment segment {}).unmapPages 4 (segment * 16 / 4096))
  else if s.ValidHandle handle = false then .ok (EMM_INVALID_HANDLE, s)
  else if log_page < (s.emm_handles handle).pages then do
    let s := s.recordSegment segment ⟨handle, log_page⟩
    let memh ← s.mem.MEM_NextHandleAt (s.emm_handles handle).mem (log_page * 4)
    let s ← s.mapPages 4 (segment * 16 / 4096) memh
    .ok (EMM_NO_ERROR, s)
  else .ok (EMM_LOG_OUT_RANGE, s)

/-! ## Saving and restoring -/

/-- The first loop of `EMM_RestoreMappingTable`, which skips the page frame.  The
status of `EMM_MapSegment` is not looked at. -/
def restoreSegments (s : Ems) : List ℕ → Except Fault Ems
  | [] => .ok s
  | i :: l =>
      if EMM_PAGEFRAME / 0x400 ≤ i ∧ i < EMM_PAGEFRAME / 0x400 + EMM_MAX_PHYS then restoreSegments s l
      else do
        let (_, s) ← s.EMM_MapSegment (i * 2 ^ 10) (s.emm_segmentmappings i).handle
          (s.emm_segmentmappings i).page
        restoreSegments s l

/-- The second loop of `EMM_RestoreMappingTable`, which does not look at the status
of `EMM_MapPage`. -/
def restoreSlots (s : Ems) : List ℕ → Except Fault Ems
  | [] => .ok s
  | i :: l => do
      let (_, s) ← s.EMM_MapPage i (s.emm_mappings i).handle (s.emm_mappings i).page
      restoreSlots s l

def EMM_RestoreMappingTable (s : Ems) : Except Fault (EmmStatus × Ems) := do
  let s ← s.restoreSegments (List.range 0x40)
  let s ← s.restoreSlots (List.range EMM_MAX_PHYS)
  .ok (EMM_NO_ERROR, s)

/-- The check at the start of `EMM_SavePageMap` and `EMM_RestorePageMap`. -/
def noPageMap (s : Ems) (handle : ℕ) : Bool :=
  (decide (EMM_MAX_HANDLES ≤ handle) || decide ((s.emm_handles handle).pages = NULL_HANDLE)) &&
    decide (handle ≠ 0)

def EMM_SavePageMap (s : Ems) (handle : ℕ) : EmmStatus × Ems :=
  if s.noPageMap handle then (EMM_INVALID_HANDLE, s)
  else if (s.emm_handles handle).saved_page_map then (EMM_PAGE_MAP_SAVED, s)
  else
    (EMM_NO_ERROR, s.setHandle handle
      { s.emm_handles handle with saved_page_map := true, page_map := s.emm_mappings })

/-- Replacing the whole table of the page frame. -/
def setMappings (s : Ems) (maps : ℕ → EMM_Mapping) : Ems :=
  { s with emm_mappings := fun i => if i < EMM_MAX_PHYS then maps i else s.emm_mappings i }

def EMM_RestorePageMap (s : Ems) (handle : ℕ) : Except Fault (EmmStatus × Ems) :=
  if s.noPageMap handle then .ok (EMM_INVALID_HANDLE, s)
  else if (s.emm_handles handle).saved_page_map = false then .ok (EMM_NO_SAVED_PAGE_MAP, s)
  else
    let page_map := (s.emm_handles handle).page_map
    ((s.setHandle handle { s.emm_handles handle with saved_page_map := false }).setMappings
      page_map).EMM_RestoreMappingTable

/-- Function 4E01h, and 4E02h after it has written the map out: `maps` is what
`MEM_BlockRead` copies over the table. -/
def restoreMap (s : Ems) (maps : ℕ → EMM_Mapping) : Except Fault (EmmStatus × Ems) :=
  (s.setMappings maps).EMM_RestoreMappingTable

/-- An entry of the array of `EMM_PartialPageMapping`: two bytes and a word. -/
structure PartialEntry where
  page : ℕ
  handle : ℕ
  log_page : ℕ
  deriving DecidableEq, Repr

/-- `EMM_PartialPageMapping`, subfunction 0: the array that is written for a list of
segments. -/
def savePartial (s : Ems) : List ℕ → EmmStatus × List PartialEntry
  | [] => (EMM_NO_ERROR, [])
  | segment :: l =>
      let entry (page : ℕ) (v : EMM_Mapping) : PartialEntry := ⟨page % 256, v.handle % 256, v.page⟩
      if EMM_PAGEFRAME ≤ segment ∧ segment < EMM_PAGEFRAME + 0x1000 then
        let page := (segment - EMM_PAGEFRAME) / 2 ^ 10
        let (status, data) := savePartial s l
        (status, entry page (s.emm_mappings page) :: data)
      else if s.ems_type = 1 ∨ s.ems_type = 3 ∨
          (EMM_PAGEFRAME - 0x1000 ≤ segment ∧ segment < EMM_PAGEFRAME) ∨
          (0xa000 ≤ segment ∧ segment < 0xb000) then
        let page := segment / 2 ^ 10
        let (status, data) := savePartial s l
        (status, entry page (s.emm_segmentmappings page) :: data)
      else (EMM_ILL_PHYS, [])

/-- The loop of `EMM_PartialPageMapping`, subfunction 1: whether it comes to its
end. -/
def loadPartial (s : Ems) : List PartialEntry → Bool × Ems
  | [] => (true, s)
  | e :: l =>
      if e.page < EMM_MAX_PHYS then loadPartial (s.setMapping e.page ⟨e.handle, e.log_page⟩) l
      else if e.page < 0x40 then loadPartial (s.setSegmentMapping e.page ⟨e.handle, e.log_page⟩) l
      else (false, s)

/-- `EMM_PartialPageMapping`, subfunction 1. -/
def restorePartial (s : Ems) (data : List PartialEntry) : Except Fault (EmmStatus × Ems) :=
  match s.loadPartial data with
  | (true, s) => s.EMM_RestoreMappingTable
  | (false, s) => .ok (EMM_ILL_PHYS, s)

/-! ## The walks of the VCPI functions -/

/-- The page to which the VCPI functions walk for a slot that is mapped. -/
def slotHandle (s : Ems) (ct : ℕ) : Except Fault (Option ℤ) :=
  let handle := (s.emm_mappings ct).handle
  if handle = NULL_HANDLE then .ok none
  else if EMM_MAX_HANDLES ≤ handle then .error .outOfBounds
  else do
    let memh ← s.mem.MEM_NextHandleAt (s.emm_handles handle).mem ((s.emm_mappings ct).page * 4)
    .ok (some memh)

/-- VCPI function 1: the words written for the pages of a slot, if it is mapped. -/
def vcpiInterface (s : Ems) (ct : ℕ) : Except Fault (Option (List ℕ)) := do
  let memh ← s.slotHandle ct
  .ok (memh.map fun h => (List.range 4).map fun i => (((h % 2 ^ 16).toNat + i) * 0x10) % 2 ^ 16)

/-- VCPI function 6: `edx` for a page of the first megabyte, or none where the slot
is not mapped. -/
def vcpiPhysicalAddress (s : Ems) (cx : ℕ) : Except Fault (Option ℕ) :=
  if EMM_PAGEFRAME ≤ cx * 2 ^ 8 ∧ cx * 2 ^ 8 < EMM_PAGEFRAME + 0x1000 then do
    let mem_seg := cx * 2 ^ 8
    let phys_page :=
      if mem_seg < EMM_PAGEFRAME + 0x400 then 0
      else if mem_seg < EMM_PAGEFRAME + 0x800 then 1
      else if mem_seg < EMM_PAGEFRAME + 0xc00 then 2
      else 3
    let memh ← s.slotHandle phys_page
    .ok (memh.map fun h => (((h % 2 ^ 32).toNat + cx % 4) * 2 ^ 12) % 2 ^ 32)
  else .ok (some ((cx * 2 ^ 12) % 2 ^ 32))

end Ems

end AugraDosbox
