import Mathlib.Logic.Function.Basic
import Mathlib.Data.List.Basic

/-!
# Paging: page tables, the TLB and its page handlers

The model of `cpu/paging.cpp` with the full TLB:

* `X86PageEntry` is a page-directory or page-table entry, `set` and `get` its 32-bit form.
* `Machine` is what paging reads and changes: the privilege level, the page tables in physical
  memory, the handlers of the physical pages, the TLB and the list of its links.
* `initPage` and `userro_initPage` are `InitPage` of the two page handlers, `mem_read` and
  `mem_write` the guest's accesses, with their checked forms.
* `makeCodePage` is what the dynamic core does before it translates a page.

`PAGING_PageFault` runs the guest in the middle of a walk.  The guest's page-fault handler is a
function `Guest`: from the machine that enters the handler to the machine that is back at the
faulting instruction, if the guest ever comes back to it.
-/

namespace AugraDosbox.Paging

/-! ## Page-table entries -/

structure X86PageEntry where
  p : Bool
  wr : Bool
  us : Bool
  pwt : Bool
  pcd : Bool
  a : Bool
  d : Bool
  pat : Bool
  g : Bool
  avl : BitVec 3
  base : BitVec 20
deriving DecidableEq, Repr

namespace X86PageEntry

def set (value : BitVec 32) : X86PageEntry where
  p := value.getLsbD 0
  wr := value.getLsbD 1
  us := value.getLsbD 2
  pwt := value.getLsbD 3
  pcd := value.getLsbD 4
  a := value.getLsbD 5
  d := value.getLsbD 6
  pat := value.getLsbD 7
  g := value.getLsbD 8
  avl := value.extractLsb' 9 3
  base := value.extractLsb' 12 20

/-- The fields side by side, `base` in the upper twenty bits and `p` in bit 0. -/
def get (e : X86PageEntry) : BitVec 32 :=
  e.base ++ (e.avl ++ (BitVec.ofBool e.g ++ (BitVec.ofBool e.pat ++ (BitVec.ofBool e.d ++
    (BitVec.ofBool e.a ++ (BitVec.ofBool e.pcd ++ (BitVec.ofBool e.pwt ++
      (BitVec.ofBool e.us ++ (BitVec.ofBool e.wr ++ BitVec.ofBool e.p)))))))))

/-- What is stored as a dword is read back. -/
@[simp] theorem set_get (e : X86PageEntry) : set e.get = e := by
  obtain ⟨p, wr, us, pwt, pcd, a, d, pat, g, avl, base⟩ := e
  have havl : (get ⟨p, wr, us, pwt, pcd, a, d, pat, g, avl, base⟩).extractLsb' 9 3 = avl := by
    apply BitVec.eq_of_getLsbD_eq
    intro i hi
    have h1 : ¬ 12 ≤ 9 + i := by omega
    simp [get, hi]
    grind
  have hbase : (get ⟨p, wr, us, pwt, pcd, a, d, pat, g, avl, base⟩).extractLsb' 12 20 = base := by
    apply BitVec.eq_of_getLsbD_eq
    intro i hi
    simp [get, hi]
    grind
  simp only [set, havl, hbase, mk.injEq, and_true]
  simp only [get, BitVec.getLsbD_append, BitVec.getLsbD_ofBool]
  simp

end X86PageEntry

/-! ## Page handlers -/

/-- The `PFLAG_*` bits of a page handler. -/
structure PageFlags where
  readable : Bool
  writeable : Bool
  hasrom : Bool
  hascode16 : Bool
  hascode32 : Bool
  nocode : Bool
deriving DecidableEq, Repr

/-- The handler of a physical page: RAM, ROM, a device without host memory, or a page with
translated code, which keeps the handler it had before. -/
inductive PageHandler
  | ram
  | rom
  | device
  | code (old_pagehandler : PageHandler) (big : Bool)
deriving DecidableEq, Repr

namespace PageHandler

def flags : PageHandler → PageFlags
  | ram => ⟨true, true, false, false, false, false⟩
  | rom => ⟨true, false, true, false, false, false⟩
  | device => ⟨false, false, false, false, false, true⟩
  | code old big =>
    { old.flags with
      writeable := false
      hascode16 := old.flags.hascode16 || !big
      hascode32 := old.flags.hascode32 || big }

/-- `GetHostReadPt`: the host memory of a guest page, named by the page itself. -/
def getHostReadPt (phys_page : BitVec 20) : PageHandler → Option (BitVec 20)
  | ram | rom => some phys_page
  | device => none
  | code old _ => old.getHostReadPt phys_page

/-- `GetHostWritePt`: the same memory for every handler. -/
def getHostWritePt (phys_page : BitVec 20) (h : PageHandler) : Option (BitVec 20) :=
  h.getHostReadPt phys_page

end PageHandler

/-- The handler of a TLB entry: one of the two that paging installs, or that of the page. -/
inductive TlbHandler
  | init_page_handler
  | init_page_handler_userro
  | page (handler : PageHandler)
deriving DecidableEq, Repr

def TlbHandler.flags : TlbHandler → PageFlags
  | page handler => handler.flags
  | _ => ⟨false, false, false, false, false, true⟩

/-! ## The machine -/

/-- The TLB's data of one linear page; a host pointer is named by the guest page it reaches. -/
structure TlbEntry where
  read : Option (BitVec 20)
  write : Option (BitVec 20)
  readhandler : TlbHandler
  writehandler : TlbHandler
  phys_page : BitVec 20
deriving DecidableEq, Repr

/-- What `PAGING_InitTLB` sets in an entry. -/
def TlbEntry.reset (e : TlbEntry) : TlbEntry :=
  { e with
    read := none, write := none
    readhandler := .init_page_handler, writehandler := .init_page_handler }

def TlbEntry.Unlinked (e : TlbEntry) : Prop := e = e.reset

instance (e : TlbEntry) : Decidable e.Unlinked := inferInstanceAs (Decidable (e = e.reset))

/-- `PAGING_LINKS`. -/
def pagingLinks : Nat := 128 * 1024 / 4

/-- `LINK_START`. -/
def linkStart : Nat := (1024 + 64) / 4

/-- The privilege level, the exception, the paging block, the handlers of the physical pages
and physical memory by the addresses of its dwords.  `links` has the newest link first. -/
structure Machine where
  cpl : Nat
  mpl : Nat
  exceptionError : Nat
  cr2 : BitVec 32
  enabled : Bool
  base_page : BitVec 20
  firstmb : BitVec 20 → BitVec 20
  tlb : BitVec 20 → TlbEntry
  links : List (BitVec 20)
  phandlers : BitVec 20 → PageHandler
  memory : Nat → BitVec 32

/-- `USERWRITE_PROHIBITED`. -/
def Machine.user (m : Machine) : Bool := m.cpl &&& m.mpl == 3

def Machine.physReadd (m : Machine) (addr : Nat) : BitVec 32 := m.memory addr

def Machine.physWrited (m : Machine) (addr : Nat) (value : BitVec 32) : Machine :=
  { m with memory := Function.update m.memory addr value }

/-- The entry stored at a physical address. -/
def Machine.entryAt (m : Machine) (addr : Nat) : X86PageEntry := .set (m.physReadd addr)

/-- `lin_addr >> 12`. -/
def linPage (lin_addr : BitVec 32) : BitVec 20 := lin_addr.extractLsb' 12 20

/-- The address of the directory entry: `(paging.base.page << 12) + (lin_page >> 10) * 4`. -/
def dirAddr (base_page lin_page : BitVec 20) : Nat :=
  base_page.toNat * 4096 + lin_page.toNat / 1024 * 4

/-- The address of the table entry: `(table.base << 12) + (lin_page & 0x3ff) * 4`. -/
def tabAddr (table_base lin_page : BitVec 20) : Nat :=
  table_base.toNat * 4096 + lin_page.toNat % 1024 * 4

/-! ## The TLB -/

/-- `PAGING_ClearTLB`: the entries of the linked pages. -/
def Machine.clearTLB (m : Machine) : Machine :=
  { m with
    tlb := fun page => if page ∈ m.links then (m.tlb page).reset else m.tlb page
    links := [] }

/-- `PAGING_UnlinkPages`. -/
def Machine.unlinkPages (m : Machine) (lin_page : BitVec 20) : Nat → Machine
  | 0 => m
  | pages + 1 =>
    { m with tlb := Function.update m.tlb lin_page (m.tlb lin_page).reset }.unlinkPages
      (lin_page + 1) pages

/-- The reset that both linking functions make when the list of links is full. -/
def Machine.makeRoom (m : Machine) : Machine :=
  if m.links.length ≥ pagingLinks then m.clearTLB else m

/-- The host pointer for reading that linking stores. -/
def PageHandler.readPt (phys_page : BitVec 20) (h : PageHandler) : Option (BitVec 20) :=
  if h.flags.readable then h.getHostReadPt phys_page else none

/-- The host pointer for writing that linking stores. -/
def PageHandler.writePt (phys_page : BitVec 20) (h : PageHandler) : Option (BitVec 20) :=
  if h.flags.writeable then h.getHostWritePt phys_page else none

/-- What both linking functions do with the entry they make. -/
def Machine.setLink (m : Machine) (lin_page : BitVec 20) (e : TlbEntry) : Machine :=
  let m := m.makeRoom
  { m with tlb := Function.update m.tlb lin_page e, links := lin_page :: m.links }

/-- `PAGING_LinkPage`. -/
def Machine.linkPage (m : Machine) (lin_page phys_page : BitVec 20) : Machine :=
  let handler := m.phandlers phys_page
  m.setLink lin_page
    { phys_page
      read := handler.readPt phys_page
      write := handler.writePt phys_page
      readhandler := .page handler
      writehandler := .page handler }

/-- `PAGING_LinkPage_ReadOnly`. -/
def Machine.linkPageReadOnly (m : Machine) (lin_page phys_page : BitVec 20) : Machine :=
  let handler := m.phandlers phys_page
  m.setLink lin_page
    { phys_page
      read := handler.readPt phys_page
      write := none
      readhandler := .page handler
      writehandler := .init_page_handler_userro }

/-- `PAGING_SetDirBase`. -/
def Machine.setDirBase (m : Machine) (cr3 : BitVec 32) : Machine :=
  let m := { m with base_page := linPage cr3 }
  if m.enabled then m.clearTLB else m

/-- The page a linear page is without paging. -/
def Machine.unpaged (m : Machine) (lin_page : BitVec 20) : BitVec 20 :=
  if lin_page.toNat < linkStart then m.firstmb lin_page else lin_page

end AugraDosbox.Paging
