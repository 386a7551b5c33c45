import AugraDosbox.Ints.EmsAnswers
import AugraDosbox.Lib.Transfer

/-!
# Moving and exchanging regions of memory

`MemoryRegion` of `src/ints/ems.cpp`, functions 5700h and 5701h of INT 67h: a region of conventional
memory or of a handle is moved to another one, or exchanged with it, in chunks of one page.  Linear
addresses go through the table of the first megabyte, as `MEM_BlockRead` and `MEM_BlockWrite` do
while the processor's own paging is off.

* `MovePoint.Fits` — a region ends inside its handle; `MovePoint.Wraps` — only the 32-bit sum that
  is compared with the size of the handle does;
* `transferLoop_spec` — the loop over the chunks;
* `MoveRegion.Right` — a region that does not fit is refused and nothing changes, and one that fits
  is transferred by following the pages of the handles;
* **`memoryRegion_right_iff`** — that is so exactly when no sum that wraps around is accepted;
* `wrapped_length_accepted` — a length of almost 4 GB that is.
-/

namespace AugraDosbox

/-- `MEM_PAGE_SIZE` of `src/cpu/paging.h`. -/
def MEM_PAGE_SIZE : ℕ := 4096

/-- `EmsPageSize` of `src/ints/ems.h`. -/
def EmsPageSize : ℕ := 16 * 1024

namespace Ems

open EmmStatus MemoryBlock Fallible Threaded Transfer

variable {s s' : Ems} {live : ℕ → Option (List ℕ)}

/-! ## Reading and writing guest memory -/

/-- The byte of memory behind a linear address. -/
def PAGING_GetPhysicalAddress (s : Ems) (linePt : ℕ) : ℕ :=
  if linePt / MEM_PAGE_SIZE < LINK_START then
    s.firstmb (linePt / MEM_PAGE_SIZE) * MEM_PAGE_SIZE + linePt % MEM_PAGE_SIZE
  else linePt

/-- Replacing the contents of memory. -/
def setBytes (s : Ems) (bytes : ℕ → UInt8) : Ems := { s with mem := { s.mem with bytes := bytes } }

def MEM_BlockRead (s : Ems) (pt : ℕ) : ℕ → List UInt8
  | 0 => []
  | size + 1 =>
      s.mem.bytes (s.PAGING_GetPhysicalAddress (pt % 2 ^ 32)) :: MEM_BlockRead s (pt + 1) size

def MEM_BlockWrite (s : Ems) (pt : ℕ) : List UInt8 → Ems
  | [] => s
  | b :: data =>
      let address := s.PAGING_GetPhysicalAddress (pt % 2 ^ 32)
      MEM_BlockWrite (s.setBytes (Function.update s.mem.bytes address b)) (pt + 1) data

/-- The addresses from `pt` on. -/
def linear (s : Ems) (pt i : ℕ) : ℕ := s.PAGING_GetPhysicalAddress ((pt + i) % 2 ^ 32)

theorem MEM_BlockRead_eq {size : ℕ} : ∀ {pt : ℕ},
    s.MEM_BlockRead pt size = Transfer.load s.mem.bytes (s.linear pt) size := by
  induction size with
  | zero => exact fun {pt} => rfl
  | succ size ih =>
    intro pt
    rw [MEM_BlockRead, ih, Nat.add_comm size 1, Transfer.load_add]
    refine congrArg (s.mem.bytes (s.linear pt 0) :: ·) (Transfer.load_congr fun i _ => ?_)
    rw [linear, linear, Nat.add_assoc]

theorem MEM_BlockWrite_eq {data : List UInt8} : ∀ {s : Ems} {pt : ℕ},
    s.MEM_BlockWrite pt data = s.setBytes (Transfer.store s.mem.bytes (s.linear pt) data) := by
  induction data with
  | nil => exact fun {s pt} => rfl
  | cons b data ih =>
    intro s pt
    rw [MEM_BlockWrite, ih, Transfer.store]
    refine congrArg s.setBytes (Transfer.store_congr fun i _ => ?_)
    rw [linear, linear, Nat.add_assoc, Nat.add_comm 1 i]
    rfl

/-! ## One end of a region -/

/-- The values that the loop keeps for one end: `src_mem`, or `src_handle` and `src_off`;
`src_remain` is the rest of the page behind `src_off`. -/
inductive RegionEnd where
  | conventional (mem : ℕ)
  | expanded (handle : ℤ) (off : ℕ)

/-- `handle * MEM_PAGE_SIZE`. -/
def pagePt (handle : ℤ) : ℕ := (handle * MEM_PAGE_SIZE % 2 ^ 32).toNat

namespace RegionEnd

/-- Filling a buffer from one end. -/
def read (s : Ems) (toread : ℕ) : RegionEnd → Except Fault (List UInt8)
  | conventional mem => .ok (s.MEM_BlockRead mem toread)
  | expanded handle off =>
      let remain := MEM_PAGE_SIZE - off
      if toread ≤ remain then .ok (s.MEM_BlockRead (pagePt handle + off) toread)
      else do
        let next ← s.mem.MEM_NextHandle handle
        .ok (s.MEM_BlockRead (pagePt handle + off) remain ++
          s.MEM_BlockRead (pagePt next) (toread - remain))

/-- Writing a buffer to one end. -/
def write (s : Ems) (data : List UInt8) : RegionEnd → Except Fault Ems
  | conventional mem => .ok (s.MEM_BlockWrite mem data)
  | expanded handle off =>
      let remain := MEM_PAGE_SIZE - off
      if data.length ≤ remain then .ok (s.MEM_BlockWrite (pagePt handle + off) data)
      else
        let s := s.MEM_BlockWrite (pagePt handle + off) (data.take remain)
        do
          let next ← s.mem.MEM_NextHandle handle
          .ok (s.MEM_BlockWrite (pagePt next) (data.drop remain))

/-- Advancing the pointers of one end. -/
def advance (s : Ems) (toread : ℕ) : RegionEnd → Except Fault RegionEnd
  | conventional mem => .ok (conventional ((mem + toread) % 2 ^ 32))
  | expanded handle off => do
      let next ← s.mem.MEM_NextHandle handle
      .ok (expanded next off)

end RegionEnd

/-- What an exchange writes to the source before the destination is written. -/
def writeSource (s : Ems) (exchange : Bool) (src dest : RegionEnd) (toread : ℕ) :
    Except Fault Ems :=
  if exchange then do
    let buf_dest ← dest.read s toread
    src.write s buf_dest
  else .ok s

/-- The loop of `MemoryRegion`. -/
def transferLoop (s : Ems) (exchange : Bool) (src dest : RegionEnd) (bytes : ℕ) :
    Except Fault Ems :=
  if bytes = 0 then .ok s
  else do
    let toread := min bytes MEM_PAGE_SIZE
    let buf_src ← src.read s toread
    let s ← s.writeSource exchange src dest toread
    let s ← dest.write s buf_src
    let src ← src.advance s toread
    let dest ← dest.advance s toread
    transferLoop s exchange src dest (bytes - toread)
termination_by bytes
decreasing_by
  simp only [MEM_PAGE_SIZE]
  omega

/-- The fields of `MoveRegion` for one end of the region. -/
structure MovePoint where
  type : UInt8
  handle : UInt16
  offset : UInt16
  page_seg : UInt16

structure MoveRegion where
  bytes : UInt32
  src : MovePoint
  dest : MovePoint

/-- The checks and the first walk for one end, or the status with which it is refused. -/
def MovePoint.parse (s : Ems) (p : MovePoint) (bytes : UInt32) :
    Except Fault (Except EmmStatus RegionEnd) :=
  if p.type = 0 then .ok (.ok (.conventional (p.page_seg.toNat * 16 + p.offset.toNat)))
  else if s.ValidHandle p.handle.toNat = false then .ok (.error EMM_INVALID_HANDLE)
  -- the length makes the sum unsigned, of 32 bits
  else if (s.emm_handles p.handle.toNat).pages * EmsPageSize <
      (p.page_seg.toNat * EmsPageSize + p.offset.toNat + bytes.toNat) % 2 ^ 32 then
    .ok (.error EMM_LOG_OUT_RANGE)
  else do
    let handle ← s.mem.MEM_NextHandleAt (s.emm_handles p.handle.toNat).mem
      (p.page_seg.toNat * 4 + p.offset.toNat / MEM_PAGE_SIZE)
    .ok (.ok (.expanded handle (p.offset.toNat % MEM_PAGE_SIZE)))

/-- `MemoryRegion`, where `reg_al` is at most 1: an exchange if it is 1. -/
def MemoryRegion (s : Ems) (exchange : Bool) (region : MoveRegion) :
    Except Fault (EmmStatus × Ems) := do
  let src ← region.src.parse s region.bytes
  match src with
  | .error status => .ok (status, s)
  | .ok src =>
    let dest ← region.dest.parse s region.bytes
    match dest with
    | .error status => .ok (status, s)
    | .ok dest =>
      let s ← s.transferLoop exchange src dest region.bytes.toNat
      .ok (EMM_NO_ERROR, s)

/-! ## Ends that name a range -/

@[simp] theorem setBytes_bytes (bytes : ℕ → UInt8) : (s.setBytes bytes).mem.bytes = bytes := rfl

@[simp] theorem setBytes_self : s.setBytes s.mem.bytes = s := rfl

@[simp] theorem setBytes_setBytes (bytes bytes' : ℕ → UInt8) :
    (s.setBytes bytes).setBytes bytes' = s.setBytes bytes' := rfl

@[simp] theorem linear_setBytes (bytes : ℕ → UInt8) : (s.setBytes bytes).linear = s.linear := rfl

theorem owned_setBytes (hown : s.mem.Owned live) (bytes : ℕ → UInt8) :
    (s.setBytes bytes).mem.Owned live :=
  ⟨hown.head, hown.chain, hown.bounds, hown.disjoint, hown.free⟩

/-- A page of a handle is visible at its own address. -/
theorem linear_page {L : List ℕ} {k x : ℕ} (hown : s.mem.Owned live) (hL : live k = some L)
    (hx : x ∈ L) {off i : ℕ} (hi : off + i < MEM_PAGE_SIZE) :
    s.linear (pagePt x + off) i = x * MEM_PAGE_SIZE + off + i := by
  obtain ⟨hstart, hlt⟩ := hown.bounds hL x hx
  have hpages := s.mem.pages_le
  have hmax : MaxPages = 786432 := rfl
  have hxms : XMS_START = 0x110 := rfl
  have hlink : LINK_START = 0x110 := rfl
  have hsize : MEM_PAGE_SIZE = 4096 := rfl
  have hpage : pagePt x = x * 4096 := by
    rw [pagePt, hsize]
    omega
  rw [hsize] at hi ⊢
  rw [linear, hpage, Nat.mod_eq_of_lt (by omega), PAGING_GetPhysicalAddress, hsize,
    if_neg (by omega)]

/-- The end stands at the range `f` of `n` bytes. -/
def RegionEnd.Spans (s : Ems) (live : ℕ → Option (List ℕ)) (f : ℕ → ℕ) (n : ℕ) :
    RegionEnd → Prop
  | conventional mem => ∀ i, i < n → f i = s.linear mem i
  | expanded handle off => off < MEM_PAGE_SIZE ∧ (n ≠ 0 → ∃ (k : ℕ) (L : List ℕ) (pos x : ℕ),
      live k = some L ∧ L[pos]? = some x ∧ handle = x ∧
      pos * MEM_PAGE_SIZE + off + n ≤ L.length * MEM_PAGE_SIZE ∧
      ∀ i, i < n → ∃ y, L[pos + (off + i) / MEM_PAGE_SIZE]? = some y ∧
        f i = y * MEM_PAGE_SIZE + (off + i) % MEM_PAGE_SIZE)

variable {f S D : ℕ → ℕ} {n toread : ℕ} {e src dest : RegionEnd} {exchange : Bool}

theorem RegionEnd.Spans.setBytes (h : e.Spans s live f n) (bytes : ℕ → UInt8) :
    e.Spans (s.setBytes bytes) live f n := by
  cases e with
  | conventional mem => exact h
  | expanded handle off => exact h

/-- The two pages in which a chunk of an expanded range lies. -/
theorem expanded_chunk {handle : ℤ} {off : ℕ} (hown : s.mem.Owned live)
    (h : (RegionEnd.expanded handle off).Spans s live f n) (hpos : 0 < toread) (hn : toread ≤ n)
    (hchunk : toread ≤ MEM_PAGE_SIZE) :
    (∀ i, i < toread → i < MEM_PAGE_SIZE - off → s.linear (pagePt handle + off) i = f i) ∧
      (MEM_PAGE_SIZE - off < toread → ∃ next, s.mem.MEM_NextHandle handle = .ok next ∧
        ∀ i, i < toread - (MEM_PAGE_SIZE - off) →
          s.linear (pagePt next) i = f (MEM_PAGE_SIZE - off + i)) := by
  have hsize : MEM_PAGE_SIZE = 4096 := rfl
  obtain ⟨hoff, hspan⟩ := h
  obtain ⟨k, L, pos, x, hL, hx, rfl, hend, hf⟩ := hspan (by omega)
  have hxL := List.mem_of_getElem? hx
  refine ⟨fun i hi hrem => ?_, fun hlong => ?_⟩
  · rw [linear_page hown hL hxL (by omega)]
    obtain ⟨y, hy, hfi⟩ := hf i (by omega)
    have hquot : (off + i) / MEM_PAGE_SIZE = 0 := Nat.div_eq_of_lt (by omega)
    rw [hquot, Nat.add_zero, hx] at hy
    obtain rfl := Option.some.inj hy
    rw [hfi, Nat.mod_eq_of_lt (by omega), Nat.add_assoc]
  · obtain ⟨v, hv, hnext⟩ := hown.nextHandle hL hx
    refine ⟨v, hv, fun i hi => ?_⟩
    obtain ⟨y, hy, hfi⟩ := hf (MEM_PAGE_SIZE - off + i) (by omega)
    have hquot : (off + (MEM_PAGE_SIZE - off + i)) / MEM_PAGE_SIZE = 1 := by
      rw [hsize]
      omega
    have hrem : (off + (MEM_PAGE_SIZE - off + i)) % MEM_PAGE_SIZE = i := by
      rw [hsize]
      omega
    rw [hquot] at hy
    rw [hrem] at hfi
    obtain rfl := hnext y hy
    have hlin := @linear_page _ _ _ _ _ hown hL (List.mem_of_getElem? hy) 0 i (by omega)
    rw [Nat.add_zero, Nat.add_zero] at hlin
    rw [hlin, hfi]

theorem RegionEnd.Spans.read (hown : s.mem.Owned live) (h : e.Spans s live f n)
    (hpos : 0 < toread) (hn : toread ≤ n) (hchunk : toread ≤ MEM_PAGE_SIZE) :
    e.read s toread = .ok (Transfer.load s.mem.bytes f toread) := by
  cases e with
  | conventional mem =>
    rw [RegionEnd.read, MEM_BlockRead_eq]
    exact congrArg Except.ok (Transfer.load_congr fun i hi => (h i (by omega)).symm)
  | expanded handle off =>
    obtain ⟨hfirst, hsecond⟩ := expanded_chunk hown h hpos hn hchunk
    rw [RegionEnd.read]
    by_cases hrem : toread ≤ MEM_PAGE_SIZE - off
    · rw [if_pos hrem, MEM_BlockRead_eq]
      exact congrArg Except.ok (Transfer.load_congr fun i hi => hfirst i hi (by omega))
    · obtain ⟨next, hnext, hlin⟩ := hsecond (by omega)
      have hsum : MEM_PAGE_SIZE - off + (toread - (MEM_PAGE_SIZE - off)) = toread := by omega
      rw [if_neg hrem, hnext]
      simp only [bind, Except.bind]
      rw [MEM_BlockRead_eq, MEM_BlockRead_eq,
        Transfer.load_congr fun i hi => hfirst i (by omega) hi,
        Transfer.load_congr hlin, ← Transfer.load_add, hsum]

theorem RegionEnd.Spans.write {data : List UInt8} (hown : s.mem.Owned live)
    (h : e.Spans s live f n) (hpos : 0 < data.length) (hn : data.length ≤ n)
    (hchunk : data.length ≤ MEM_PAGE_SIZE) :
    e.write s data = .ok (s.setBytes (Transfer.store s.mem.bytes f data)) := by
  cases e with
  | conventional mem =>
    rw [RegionEnd.write, MEM_BlockWrite_eq]
    rw [Transfer.store_congr fun i hi => (h i (by omega)).symm]
  | expanded handle off =>
    obtain ⟨hfirst, hsecond⟩ := expanded_chunk hown h hpos hn hchunk
    rw [RegionEnd.write]
    by_cases hrem : data.length ≤ MEM_PAGE_SIZE - off
    · rw [if_pos hrem, MEM_BlockWrite_eq]
      rw [Transfer.store_congr fun i hi => hfirst i hi (by omega)]
    · obtain ⟨next, hnext, hlin⟩ := hsecond (by omega)
      have htake : (data.take (MEM_PAGE_SIZE - off)).length = MEM_PAGE_SIZE - off := by
        rw [List.length_take]
        omega
      have hmem : (s.setBytes (Transfer.store s.mem.bytes (s.linear (pagePt handle + off))
          (data.take (MEM_PAGE_SIZE - off)))).mem.MEM_NextHandle handle = .ok next := hnext
      rw [if_neg hrem, MEM_BlockWrite_eq]
      dsimp only
      rw [hmem]
      simp only [bind, Except.bind]
      have hpieces : Transfer.store s.mem.bytes f data =
          Transfer.store (Transfer.store s.mem.bytes f (data.take (MEM_PAGE_SIZE - off)))
            (fun i => f (MEM_PAGE_SIZE - off + i)) (data.drop (MEM_PAGE_SIZE - off)) := by
        conv_lhs => rw [← List.take_append_drop (MEM_PAGE_SIZE - off) data]
        rw [Transfer.store_append, htake]
      have hdrop : ∀ i, i < (data.drop (MEM_PAGE_SIZE - off)).length →
          s.linear (pagePt next) i = f (MEM_PAGE_SIZE - off + i) := by
        intro i hi
        rw [List.length_drop] at hi
        exact hlin i hi
      have hfirst' : ∀ i, i < (data.take (MEM_PAGE_SIZE - off)).length →
          s.linear (pagePt handle + off) i = f i := by
        intro i hi
        exact hfirst i (by omega) (by omega)
      rw [MEM_BlockWrite_eq, setBytes_bytes, setBytes_setBytes, linear_setBytes,
        Transfer.store_congr hfirst', Transfer.store_congr hdrop, hpieces]

theorem RegionEnd.Spans.advance (hown : s.mem.Owned live) (h : e.Spans s live f n) (hn : n ≠ 0) :
    ∃ e', e.advance s (min n MEM_PAGE_SIZE) = .ok e' ∧
      e'.Spans s live (fun i => f (min n MEM_PAGE_SIZE + i)) (n - min n MEM_PAGE_SIZE) := by
  have hsize : MEM_PAGE_SIZE = 4096 := rfl
  cases e with
  | conventional mem =>
    refine ⟨_, rfl, fun i hi => ?_⟩
    have hpos : min n MEM_PAGE_SIZE + i < n := by omega
    dsimp only
    rw [h _ hpos, linear, linear, Nat.mod_add_mod, Nat.add_assoc]
  | expanded handle off =>
    obtain ⟨hoff, hspan⟩ := h
    obtain ⟨k, L, pos, x, hL, hx, rfl, hend, hf⟩ := hspan hn
    obtain ⟨v, hv, hnext⟩ := hown.nextHandle hL hx
    refine ⟨.expanded v off, ?_, hoff, fun hmore => ?_⟩
    · rw [RegionEnd.advance, hv]
      rfl
    · have hmin : min n MEM_PAGE_SIZE = MEM_PAGE_SIZE := by omega
      obtain ⟨y, hy, -⟩ := hf (MEM_PAGE_SIZE - off) (by omega)
      have hquot : (off + (MEM_PAGE_SIZE - off)) / MEM_PAGE_SIZE = 1 := by
        rw [hsize]
        omega
      rw [hquot] at hy
      have hend' : (pos + 1) * MEM_PAGE_SIZE + off + (n - min n MEM_PAGE_SIZE) ≤
          L.length * MEM_PAGE_SIZE := by
        rw [Nat.add_mul, Nat.one_mul, hmin]
        omega
      refine ⟨k, L, pos + 1, y, hL, hy, hnext y hy, hend', fun i hi => ?_⟩
      obtain ⟨z, hz, hfi⟩ := hf (min n MEM_PAGE_SIZE + i) (by omega)
      have hquot' : pos + (off + (min n MEM_PAGE_SIZE + i)) / MEM_PAGE_SIZE =
          pos + 1 + (off + i) / MEM_PAGE_SIZE := by
        rw [hmin, hsize]
        omega
      have hrem : (off + (min n MEM_PAGE_SIZE + i)) % MEM_PAGE_SIZE =
          (off + i) % MEM_PAGE_SIZE := by
        rw [hmin, hsize]
        omega
      rw [hquot'] at hz
      rw [hrem] at hfi
      exact ⟨z, hz, hfi⟩

/-! ## The loop -/

/-- What an exchange writes to the source: the chunk of the destination. -/
theorem writeSource_spec (hown : s.mem.Owned live) (hsrc : src.Spans s live S n)
    (hdest : dest.Spans s live D n) (hpos : 0 < toread) (hn : toread ≤ n)
    (hchunk : toread ≤ MEM_PAGE_SIZE) :
    s.writeSource exchange src dest toread = .ok (s.setBytes
      (if exchange then Transfer.store s.mem.bytes S (Transfer.load s.mem.bytes D toread)
        else s.mem.bytes)) := by
  cases exchange with
  | false => rfl
  | true =>
    rw [writeSource, if_pos rfl, hdest.read hown hpos hn hchunk]
    simp only [bind, Except.bind]
    rw [hsrc.write hown (by rwa [length_load]) (by rwa [length_load]) (by rwa [length_load])]
    rfl

/-- **The loop** comes to its end, and transfers the ranges if they name no byte twice. -/
theorem transferLoop_spec : ∀ {s : Ems} {src dest : RegionEnd} {S D : ℕ → ℕ},
    s.mem.Owned live → src.Spans s live S n → dest.Spans s live D n →
    ∃ bytes, s.transferLoop exchange src dest n = .ok (s.setBytes bytes) ∧
      (Distinct S D n → Transferred exchange s.mem.bytes bytes S D n) := by
  induction n using Nat.strong_induction_on with
  | _ n ih =>
    intro s src dest S D hown hsrc hdest
    rw [transferLoop]
    by_cases hn : n = 0
    · rw [if_pos hn]
      refine ⟨s.mem.bytes, rfl, fun _ => ?_⟩
      rw [hn]
      exact transferred_zero
    have hsize : MEM_PAGE_SIZE = 4096 := rfl
    have hpos : 0 < min n MEM_PAGE_SIZE := by omega
    have hle : min n MEM_PAGE_SIZE ≤ n := by omega
    have hchunk : min n MEM_PAGE_SIZE ≤ MEM_PAGE_SIZE := by omega
    rw [if_neg hn]
    generalize htoread : min n MEM_PAGE_SIZE = toread at hpos hle hchunk
    generalize hb₁ : (if exchange then Transfer.store s.mem.bytes S (Transfer.load s.mem.bytes D toread)
      else s.mem.bytes) = b₁
    have hwrite : dest.write (s.setBytes b₁) (Transfer.load s.mem.bytes S toread) =
        .ok (s.setBytes (Transfer.store b₁ D (Transfer.load s.mem.bytes S toread))) := by
      have hlen : (Transfer.load s.mem.bytes S toread).length = toread := length_load
      rw [(hdest.setBytes b₁).write (owned_setBytes hown b₁) (by omega) (by omega) (by omega),
        setBytes_bytes, setBytes_setBytes]
    generalize hb₂ : Transfer.store b₁ D (Transfer.load s.mem.bytes S toread) = b₂ at hwrite
    obtain ⟨src', hsrc', hspan⟩ :=
      (hsrc.setBytes b₂).advance (owned_setBytes hown b₂) hn
    obtain ⟨dest', hdest', hspan'⟩ :=
      (hdest.setBytes b₂).advance (owned_setBytes hown b₂) hn
    rw [htoread] at hsrc' hdest' hspan hspan'
    obtain ⟨bytes, hloop, htrans⟩ := ih (n - toread) (by omega) (owned_setBytes hown b₂) hspan hspan'
    refine ⟨bytes, ?_, fun hdist => ?_⟩
    · dsimp only
      rw [hsrc.read hown hpos hle hchunk]
      simp only [bind, Except.bind]
      rw [writeSource_spec hown hsrc hdest hpos hle hchunk, hb₁]
      dsimp only
      rw [hwrite]
      dsimp only
      rw [hsrc']
      dsimp only
      rw [hdest']
      exact hloop
    · refine Transferred.append hdist hle ?_ (htrans (hdist.shift hle))
      rw [← hb₂, ← hb₁]
      exact transferred_store (hdist.mono hle)

/-! ## The checks -/

/-- The walk of `k` steps over a handle's pages. -/
theorem nextHandleAt_succ {m : MemoryBlock} {k : ℕ} : ∀ {handle : ℤ},
    m.MEM_NextHandleAt handle (k + 1) = m.MEM_NextHandleAt handle k >>= m.MEM_NextHandle := by
  induction k with
  | zero =>
    intro handle
    change (m.MEM_NextHandle handle >>= fun next => Except.ok next) = m.MEM_NextHandle handle
    cases m.MEM_NextHandle handle with
    | error e => rfl
    | ok next => rfl
  | succ k ih =>
    intro handle
    rw [MEM_NextHandleAt, MEM_NextHandleAt]
    simp only [bind, Except.bind]
    cases m.MEM_NextHandle handle with
    | error e => rfl
    | ok next => exact ih

/-- A walk ends behind the last page at the end mark, and cannot go on. -/
theorem walk_ok_iff {h k : ℕ} (hcore : s.Core live) (hvalid : s.ValidHandle h = true)
    (hpages : (s.emm_handles h).pages ≠ 0) :
    (∃ v, s.mem.MEM_NextHandleAt (s.emm_handles h).mem k = .ok v) ↔
      k ≤ (s.emm_handles h).pages * 4 := by
  obtain ⟨first, L, hk, hL, hlen⟩ := hcore.chain hvalid hpages
  rw [hk, ← hlen]
  have hinside : ∀ j, j < L.length → ∃ x, L[j]? = some x ∧
      s.mem.MEM_NextHandleAt first j = .ok (x : ℤ) := fun j hj =>
    ⟨L[j], List.getElem?_eq_getElem hj,
      hcore.owned.nextHandleAt hL (List.getElem?_eq_getElem hj)⟩
  have hlast : s.mem.MEM_NextHandleAt first L.length = .ok (-1) := by
    obtain ⟨A, x, rfl⟩ : ∃ A x, L = A ++ [x] := by
      refine (List.eq_nil_or_concat' L).resolve_left ?_
      rintro rfl
      rw [List.length_nil] at hlen
      omega
    have hx : (A ++ [x])[A.length]? = some x := by simp
    have hlt := (hcore.owned.bounds hL x (by simp)).2
    have hchain : Chained s.mem.mhandles (A ++ [x]) := hcore.owned.chain hL
    have hend : s.mem.mhandles x = -1 := hchain.last
    rw [List.length_append, List.length_singleton, nextHandleAt_succ,
      hcore.owned.nextHandleAt hL hx]
    simp only [bind, Except.bind]
    rw [MEM_NextHandle, if_neg (by omega), Int.toNat_natCast, hend]
  constructor
  · rintro ⟨v, hwalk⟩
    by_contra hover
    have herror : ∀ d, s.mem.MEM_NextHandleAt first (L.length + 1 + d) = .error .outOfBounds := by
      intro d
      induction d with
      | zero =>
        rw [Nat.add_zero, nextHandleAt_succ, hlast]
        simp only [bind, Except.bind]
        rw [MEM_NextHandle, if_pos (.inl (by decide))]
      | succ d ih =>
        rw [← Nat.add_assoc, nextHandleAt_succ, ih]
        rfl
    have hk' : L.length + 1 + (k - (L.length + 1)) = k := by omega
    rw [← hk', herror] at hwalk
    cases hwalk
  · intro hle
    rcases Nat.lt_or_eq_of_le hle with hlt | rfl
    · obtain ⟨x, -, hx⟩ := hinside k hlt
      exact ⟨_, hx⟩
    · exact ⟨_, hlast⟩

namespace MovePoint

/-- Where the region starts in its handle. -/
def start (p : MovePoint) : ℕ := p.page_seg.toNat * EmsPageSize + p.offset.toNat

/-- The size of the handle. -/
def size (s : Ems) (p : MovePoint) : ℕ := (s.emm_handles p.handle.toNat).pages * EmsPageSize

/-- The handle of an expanded region is valid. -/
def Valid (s : Ems) (p : MovePoint) : Prop :=
  p.type ≠ 0 → s.ValidHandle p.handle.toNat = true

/-- An expanded region of this length ends inside its handle. -/
def Fits (s : Ems) (p : MovePoint) (bytes : UInt32) : Prop :=
  p.type ≠ 0 → p.start + bytes.toNat ≤ p.size s

/-- The end of an expanded region is only inside its handle after it has wrapped around at
4 GB. -/
def Wraps (s : Ems) (p : MovePoint) (bytes : UInt32) : Prop :=
  p.type ≠ 0 ∧ 2 ^ 32 ≤ p.start + bytes.toNat ∧ p.start + bytes.toNat - 2 ^ 32 ≤ p.size s

/-- The walk to the first page of an expanded region stays inside the page table. -/
def Walks (s : Ems) (p : MovePoint) : Prop :=
  p.type ≠ 0 → ∃ v, s.mem.MEM_NextHandleAt (s.emm_handles p.handle.toNat).mem
    (p.start / MEM_PAGE_SIZE) = .ok v

/-- The byte of memory at a position of the region: the linear address, or the page that the walk
over the handle leads to. -/
def Locates (s : Ems) (p : MovePoint) (i x : ℕ) : Prop :=
  if p.type = 0 then
    x = s.PAGING_GetPhysicalAddress ((p.page_seg.toNat * 16 + p.offset.toNat + i) % 2 ^ 32)
  else ∃ page : ℕ,
    s.mem.MEM_NextHandleAt (s.emm_handles p.handle.toNat).mem ((p.start + i) / MEM_PAGE_SIZE) =
        .ok (page : ℤ) ∧
      x = page * MEM_PAGE_SIZE + (p.start + i) % MEM_PAGE_SIZE

variable {p : MovePoint} {bytes : UInt32}

/-- The walk and the offset of the source code are those of the start. -/
theorem start_split :
    p.page_seg.toNat * 4 + p.offset.toNat / MEM_PAGE_SIZE = p.start / MEM_PAGE_SIZE ∧
      p.offset.toNat % MEM_PAGE_SIZE = p.start % MEM_PAGE_SIZE := by
  have hsize : MEM_PAGE_SIZE = 4096 := rfl
  have hpage : EmsPageSize = 16384 := rfl
  rw [start, hsize, hpage]
  constructor
  · omega
  · omega

theorem sum_lt : p.start + bytes.toNat < 2 ^ 32 + 2 ^ 31 := by
  have hseg := p.page_seg.toNat_lt
  have hoffset := p.offset.toNat_lt
  have hbytes := bytes.toNat_lt
  have hpage : EmsPageSize = 16384 := rfl
  rw [start, hpage]
  omega

/-- A region that does not fit, even after wrapping around, is refused. -/
theorem parse_refused (hvalid : p.Valid s) (hfits : ¬ p.Fits s bytes) (hwraps : ¬ p.Wraps s bytes) :
    p.parse s bytes = .ok (.error EMM_LOG_OUT_RANGE) := by
  obtain ⟨htype, hover⟩ := Classical.not_imp.mp hfits
  have hsum := @sum_lt p bytes
  rw [parse, if_neg htype, if_neg (by rw [hvalid htype]; decide), if_pos ?_]
  have hmod : p.size s < (p.start + bytes.toNat) % 2 ^ 32 := by
    by_cases hlt : p.start + bytes.toNat < 2 ^ 32
    · rw [Nat.mod_eq_of_lt hlt]
      omega
    · have hwrapped : ¬ p.start + bytes.toNat - 2 ^ 32 ≤ p.size s := fun h =>
        hwraps ⟨htype, by omega, h⟩
      rw [Nat.mod_eq_sub_mod (by omega), Nat.mod_eq_of_lt (by omega)]
      omega
  exact hmod

/-- A region that fits, or wraps around, passes the check. -/
theorem parse_accepted (hvalid : p.Valid s) (htype : p.type ≠ 0)
    (h : p.Fits s bytes ∨ p.Wraps s bytes) :
    p.parse s bytes =
      (s.mem.MEM_NextHandleAt (s.emm_handles p.handle.toNat).mem (p.start / MEM_PAGE_SIZE) >>=
        fun handle => .ok (.ok (.expanded handle (p.start % MEM_PAGE_SIZE)))) := by
  have hmod : ¬ p.size s < (p.start + bytes.toNat) % 2 ^ 32 := by
    rcases h with hfits | ⟨-, hover, hwrapped⟩
    · have hle := hfits htype
      have hmod_le := Nat.mod_le (p.start + bytes.toNat) (2 ^ 32)
      omega
    · have hsum := @sum_lt p bytes
      rw [Nat.mod_eq_sub_mod hover, Nat.mod_eq_of_lt (by omega)]
      omega
  rw [parse, if_neg htype, if_neg (by rw [hvalid htype]; decide), start_split.1, start_split.2]
  exact if_neg hmod

/-- **A region that fits** is accepted, and the loop starts at its range. -/
theorem parse_fits (hcore : s.Core live) (hvalid : p.Valid s) (hfits : p.Fits s bytes) :
    ∃ e f, p.parse s bytes = .ok (.ok e) ∧ e.Spans s live f bytes.toNat ∧
      ∀ i, i < bytes.toNat → p.Locates s i (f i) := by
  have hsize : MEM_PAGE_SIZE = 4096 := rfl
  by_cases htype : p.type = 0
  · refine ⟨.conventional _, s.linear _, if_pos htype, fun i _ => rfl, fun i _ => ?_⟩
    rw [Locates, if_pos htype]
    rfl
  have hend := hfits htype
  have hpage : p.size s = (s.emm_handles p.handle.toNat).pages * 16384 := rfl
  rw [parse_accepted hvalid htype (.inl hfits)]
  by_cases hpages : (s.emm_handles p.handle.toNat).pages = 0
  · rw [hpages] at hpage
    have hzero : p.start / MEM_PAGE_SIZE = 0 := by
      rw [hsize]
      omega
    refine ⟨.expanded _ _, id, by rw [hzero]; rfl, ⟨Nat.mod_lt _ (by decide), fun h => ?_⟩,
      fun i hi => ?_⟩
    · omega
    · omega
  obtain ⟨first, L, hk, hL, hlen⟩ := hcore.chain (hvalid htype) hpages
  obtain ⟨v, hwalk⟩ := (walk_ok_iff hcore (hvalid htype) hpages (k := p.start / MEM_PAGE_SIZE)).mpr
    (by rw [hsize]; omega)
  have hpagesAt : ∀ i, i < bytes.toNat → (p.start + i) / MEM_PAGE_SIZE < L.length := by
    intro i hi
    rw [hsize]
    omega
  have hdiv : ∀ i, p.start / MEM_PAGE_SIZE + (p.start % MEM_PAGE_SIZE + i) / MEM_PAGE_SIZE =
      (p.start + i) / MEM_PAGE_SIZE := by
    intro i
    rw [hsize]
    omega
  have hrem : ∀ i, (p.start % MEM_PAGE_SIZE + i) % MEM_PAGE_SIZE =
      (p.start + i) % MEM_PAGE_SIZE := by
    intro i
    rw [hsize]
    omega
  refine ⟨.expanded v (p.start % MEM_PAGE_SIZE),
    fun i => L.getD ((p.start + i) / MEM_PAGE_SIZE) 0 * MEM_PAGE_SIZE +
      (p.start + i) % MEM_PAGE_SIZE, by rw [hwalk]; rfl, ⟨Nat.mod_lt _ (by decide), fun hn => ?_⟩,
    fun i hi => ?_⟩
  · have hfirst := hpagesAt 0 (by omega)
    rw [Nat.add_zero] at hfirst
    have hx := List.getElem?_eq_getElem hfirst
    have hv : v = (L[p.start / MEM_PAGE_SIZE] : ℕ) := by
      rw [hk, hcore.owned.nextHandleAt hL hx] at hwalk
      exact (Except.ok.inj hwalk).symm
    refine ⟨first, L, p.start / MEM_PAGE_SIZE, _, hL, hx, hv, ?_, fun i hi => ?_⟩
    · rw [hlen, hsize]
      omega
    · rw [hdiv, hrem]
      have hy := List.getElem?_eq_getElem (hpagesAt i hi)
      exact ⟨_, hy, by simp only [List.getD_eq_getElem?_getD, hy, Option.getD_some]⟩
  · rw [Locates, if_neg htype, hk]
    have hy := List.getElem?_eq_getElem (hpagesAt i hi)
    refine ⟨L.getD ((p.start + i) / MEM_PAGE_SIZE) 0, ?_, rfl⟩
    rw [List.getD_eq_getElem?_getD, hy]
    exact hcore.owned.nextHandleAt hL hy

end MovePoint

/-! ## The whole call -/

variable {region : MoveRegion}

/-- A region of which one end does not fit its handle is refused and nothing changes.  One that
fits is transferred, and nothing else changes, if its two ranges name no byte of memory twice;
where they do, the call comes back as well. -/
structure MoveRegion.Right (s : Ems) (exchange : Bool) (region : MoveRegion) : Prop where
  refused : ¬ (region.src.Fits s region.bytes ∧ region.dest.Fits s region.bytes) →
    s.MemoryRegion exchange region = .ok (EMM_LOG_OUT_RANGE, s)
  served : region.src.Fits s region.bytes → region.dest.Fits s region.bytes →
    ∃ S D bytes, (∀ i, i < region.bytes.toNat → region.src.Locates s i (S i)) ∧
      (∀ i, i < region.bytes.toNat → region.dest.Locates s i (D i)) ∧
      s.MemoryRegion exchange region = .ok (EMM_NO_ERROR, s.setBytes bytes) ∧
      (Distinct S D region.bytes.toNat →
        Transferred exchange s.mem.bytes bytes S D region.bytes.toNat)

/-- A sum that wraps around is accepted: the one of the source, where the walk to its first page
leaves the page table or the destination is not refused, or the one of the destination. -/
def MoveRegion.Mistaken (s : Ems) (region : MoveRegion) : Prop :=
  (region.src.Wraps s region.bytes ∧ (¬ region.src.Walks s ∨ region.dest.Fits s region.bytes ∨
    region.dest.Wraps s region.bytes)) ∨
  (region.src.Fits s region.bytes ∧ region.dest.Wraps s region.bytes)

namespace MovePoint

variable {p : MovePoint} {bytes : UInt32}

theorem Wraps.not_fits (hcore : s.Core live) (hvalid : p.Valid s) (h : p.Wraps s bytes) :
    ¬ p.Fits s bytes := by
  obtain ⟨htype, hover, -⟩ := h
  intro hfits
  have hle := hfits htype
  have hsize : p.size s = (s.emm_handles p.handle.toNat).pages * 16384 := rfl
  by_cases hpages : (s.emm_handles p.handle.toNat).pages = 0
  · rw [hpages] at hsize
    omega
  · obtain ⟨k, L, -, hL, hlen⟩ := hcore.chain (hvalid htype) hpages
    have hlength := hcore.owned.length_le hL
    have htable := s.mem.pages_le
    have hmax : MaxPages = 786432 := rfl
    omega

theorem parse_not_status (hvalid : p.Valid s) (h : p.Fits s bytes ∨ p.Wraps s bytes)
    (status : EmmStatus) : p.parse s bytes ≠ .ok (.error status) := by
  intro hparse
  by_cases htype : p.type = 0
  · rw [parse, if_pos htype] at hparse
    cases hparse
  · rw [parse_accepted hvalid htype h] at hparse
    obtain ⟨v, -, hdone⟩ := bind_ok.mp hparse
    cases hdone

end MovePoint

theorem memoryRegion_eq (hsrc : region.src.parse s region.bytes = .ok (.ok src))
    (hdest : region.dest.parse s region.bytes = .ok (.ok e)) :
    s.MemoryRegion exchange region =
      (s.transferLoop exchange src e region.bytes.toNat >>= fun s => .ok (EMM_NO_ERROR, s)) := by
  rw [MemoryRegion, hsrc]
  simp only [bind, Except.bind]
  rw [hdest]

theorem memoryRegion_dest_refused {status : EmmStatus}
    (hsrc : region.src.parse s region.bytes = .ok (.ok src))
    (hdest : region.dest.parse s region.bytes = .ok (.error status)) :
    s.MemoryRegion exchange region = .ok (status, s) := by
  rw [MemoryRegion, hsrc]
  simp only [bind, Except.bind]
  rw [hdest]

/-- An error is the status of one of the two checks. -/
theorem memoryRegion_error {status : EmmStatus} (hstatus : status ≠ EMM_NO_ERROR)
    (hrun : s.MemoryRegion exchange region = .ok (status, s')) :
    region.src.parse s region.bytes = .ok (.error status) ∨
      region.dest.parse s region.bytes = .ok (.error status) := by
  obtain ⟨src, hsrc, hrest⟩ := bind_ok.mp hrun
  cases src with
  | error status' =>
    obtain ⟨rfl, -⟩ := Prod.mk.inj (Except.ok.inj hrest)
    exact .inl hsrc
  | ok src =>
    obtain ⟨dest, hdest, hrest'⟩ := bind_ok.mp hrest
    cases dest with
    | error status' =>
      obtain ⟨rfl, -⟩ := Prod.mk.inj (Except.ok.inj hrest')
      exact .inr hdest
    | ok dest =>
      obtain ⟨s₁, -, hdone⟩ := bind_ok.mp hrest'
      exact absurd (Prod.mk.inj (Except.ok.inj hdone)).1.symm hstatus

theorem MoveRegion.Right.not_mistaken (hcore : s.Core live) (hsrc : region.src.Valid s)
    (hdest : region.dest.Valid s) (h : region.Right s exchange) : ¬ region.Mistaken s := by
  rintro (⟨hwraps, hbad⟩ | ⟨hfits, hwraps⟩)
  · have hrun := h.refused fun hfits => hwraps.not_fits hcore hsrc hfits.1
    rcases memoryRegion_error (by decide) hrun with hparse | hparse
    · exact MovePoint.parse_not_status hsrc (.inr hwraps) _ hparse
    · rcases hbad with hwalk | hbad
      · refine hwalk fun htype => ?_
        obtain ⟨src, hparse', -⟩ := bind_ok.mp hrun
        rw [MovePoint.parse_accepted hsrc htype (.inr hwraps)] at hparse'
        obtain ⟨v, hv, -⟩ := bind_ok.mp hparse'
        exact ⟨v, hv⟩
      · exact MovePoint.parse_not_status hdest hbad _ hparse
  · have hrun := h.refused fun hfits' => hwraps.not_fits hcore hdest hfits'.2
    rcases memoryRegion_error (by decide) hrun with hparse | hparse
    · exact MovePoint.parse_not_status hsrc (.inl hfits) _ hparse
    · exact MovePoint.parse_not_status hdest (.inr hwraps) _ hparse

/-- **`MemoryRegion`**: a region is refused or transferred as it should be exactly when no sum that
wraps around at 4 GB is accepted. -/
theorem memoryRegion_right_iff (hcore : s.Core live) (hsrc : region.src.Valid s)
    (hdest : region.dest.Valid s) : region.Right s exchange ↔ ¬ region.Mistaken s := by
  refine ⟨fun h => h.not_mistaken hcore hsrc hdest, fun hright => ⟨fun hnot => ?_,
    fun hfits hfits' => ?_⟩⟩
  · by_cases hfits : region.src.Fits s region.bytes
    · obtain ⟨e, f, hparse, -⟩ := MovePoint.parse_fits hcore hsrc hfits
      exact memoryRegion_dest_refused hparse (MovePoint.parse_refused hdest
        (fun h => hnot ⟨hfits, h⟩) fun h => hright (.inr ⟨hfits, h⟩))
    by_cases hwraps : region.src.Wraps s region.bytes
    · -- the destination is refused in the end
      have hwalk : region.src.Walks s := by
        by_contra h
        exact hright (.inl ⟨hwraps, .inl h⟩)
      obtain ⟨v, hv⟩ := hwalk hwraps.1
      have hparse := MovePoint.parse_accepted hsrc hwraps.1 (.inr hwraps)
      rw [hv] at hparse
      exact memoryRegion_dest_refused hparse (MovePoint.parse_refused hdest
        (fun h => hright (.inl ⟨hwraps, .inr (.inl h)⟩))
        fun h => hright (.inl ⟨hwraps, .inr (.inr h)⟩))
    · rw [MemoryRegion, MovePoint.parse_refused hsrc hfits hwraps]
      rfl
  · obtain ⟨src, S, hparse, hspan, hS⟩ := MovePoint.parse_fits hcore hsrc hfits
    obtain ⟨dest, D, hparse', hspan', hD⟩ := MovePoint.parse_fits hcore hdest hfits'
    obtain ⟨bytes, hloop, htrans⟩ := transferLoop_spec hcore.owned hspan hspan'
    refine ⟨S, D, bytes, hS, hD, ?_, htrans⟩
    rw [memoryRegion_eq hparse hparse', hloop]
    rfl

/-- The system handle moves 16 KB to the first 16 KB of conventional memory. -/
theorem memoryRegion_right_system : ∃ s : Ems, s.ValidHandle 0 = true ∧
    MoveRegion.Right s false ⟨0x4000, ⟨1, 0, 0, 0⟩, ⟨0, 0, 0, 0⟩⟩ := by
  obtain ⟨s, hinit, hvalid, hpages, -⟩ := twoMegabytes_starts
  obtain ⟨live, hinv⟩ := hinit.inv
  have hiff : MoveRegion.Right s false ⟨0x4000, ⟨1, 0, 0, 0⟩, ⟨0, 0, 0, 0⟩⟩ ↔ _ :=
    memoryRegion_right_iff hinv.core (fun _ => hvalid) fun h => absurd rfl h
  refine ⟨s, hvalid, hiff.mpr ?_⟩
  rintro (⟨hwraps, -⟩ | ⟨-, hwraps⟩)
  · exact absurd hwraps.2.1 (by decide)
  · exact absurd rfl hwraps.1

/-- **A length of almost 4 GB is accepted**: page 1 of the system handle and a length of
0xFFFFC000 bytes add up to 4 GB, which is 0. -/
theorem wrapped_length_accepted : ∃ s : Ems, s.ValidHandle 0 = true ∧
    ¬ MovePoint.Fits s ⟨1, 0, 0, 1⟩ 0xFFFFC000 ∧
    (∀ s', s.MemoryRegion false ⟨0xFFFFC000, ⟨1, 0, 0, 1⟩, ⟨0, 0, 0, 0⟩⟩ ≠
      .ok (EMM_LOG_OUT_RANGE, s')) ∧
    ¬ MoveRegion.Right s false ⟨0xFFFFC000, ⟨1, 0, 0, 1⟩, ⟨0, 0, 0, 0⟩⟩ := by
  obtain ⟨s, hinit, hvalid, hpages, -⟩ := twoMegabytes_starts
  obtain ⟨live, hinv⟩ := hinit.inv
  have hsrc : MovePoint.Valid s ⟨1, 0, 0, 1⟩ := fun _ => hvalid
  have hdest : MovePoint.Valid s ⟨0, 0, 0, 0⟩ := fun h => absurd rfl h
  have hwraps : MovePoint.Wraps s ⟨1, 0, 0, 1⟩ 0xFFFFC000 := by
    refine ⟨by decide, by decide, ?_⟩
    rw [show (⟨1, 0, 0, 1⟩ : MovePoint).start + (0xFFFFC000 : UInt32).toNat - 2 ^ 32 = 0 from rfl]
    exact Nat.zero_le _
  have hfits : MovePoint.Fits s ⟨0, 0, 0, 0⟩ 0xFFFFC000 := fun h => absurd rfl h
  refine ⟨s, hvalid, hwraps.not_fits hinv.core hsrc, fun s' hrun => ?_, fun h =>
    h.not_mistaken hinv.core hsrc hdest (.inl ⟨hwraps, .inr (.inl hfits)⟩)⟩
  rcases memoryRegion_error (by decide) hrun with hparse | hparse
  · exact MovePoint.parse_not_status hsrc (.inr hwraps) _ hparse
  · exact MovePoint.parse_not_status hdest (.inl hfits) _ hparse

end Ems

end AugraDosbox
