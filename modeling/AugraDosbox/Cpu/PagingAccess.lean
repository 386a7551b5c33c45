import AugraDosbox.Cpu.Paging

/-!
# Paging: faults, the two page handlers and the guest's accesses

The functions of `cpu/paging.cpp` that walk the page tables, and the accesses of `cpu/paging.h`.
An access covers bytes of one page: the unaligned forms are made of such accesses.

* `pageFault` runs the guest's page-fault handler.
* `InitPage.initPage` and `UserRO.initPage` are the walks of the two handlers.
* `memRead`, `memWrite` and their checked forms say what an access reached (`Touch`).
* `makeCodePage` is the page handling of the dynamic core.

An access that does not come back (the guest stays in its page-fault handler) ends in
`Stop.inHandler` with the machine on which that handler was entered.
-/

namespace AugraDosbox.Paging

/-! ## Page faults -/

/-- What `PAGING_PageFault` is given. -/
structure Fault where
  lin_addr : BitVec 32
  page_addr : Nat
  faultcode : Nat
deriving DecidableEq, Repr

/-- The guest code from the entry of the page-fault handler to the return to the faulting
instruction. -/
abbrev Guest := Fault → Machine → Option Machine

/-- Which check raised a page fault. -/
inductive Cause
  | directory
  | table
  | protection
deriving DecidableEq, Repr

/-- A page fault that the guest's handler has returned from. -/
structure Faulted where
  cause : Cause
  before : Machine
  after : Machine

/-- Why an access did not complete. -/
inductive Stop
  | inHandler (fault : Fault) (m : Machine)
  | exit

/-- `PAGING_PageFault`.  The nested machine loop is left when the guest is back at the faulting
instruction, so at its privilege level, and the entry that faulted is present. -/
def pageFault (guest : Guest) (cause : Cause) (fault : Fault) (m : Machine) :
    Except Stop Faulted :=
  let entered := { m with cr2 := fault.lin_addr, mpl := 3 }
  match guest fault entered with
  | none => .error (.inHandler fault entered)
  | some back =>
    if (back.entryAt fault.page_addr).p && back.cpl == m.cpl then
      .ok { cause, before := entered, after := { back with mpl := m.mpl } }
    else .error (.inHandler fault entered)

/-- An entry that is present, the machine after it was read and the faults on the way. -/
structure Present where
  entry : X86PageEntry
  m : Machine
  raised : List Faulted

/-- The error code of a not-present fault. -/
def notPresentCode (writing : Bool) (m : Machine) : Nat :=
  (if writing then 0x02 else 0x00) ||| (if m.cpl &&& m.mpl = 0 then 0x00 else 0x04)

/-- The part of `InitPageCheckPresence` that it goes through for the directory entry and again
for the table entry: an entry that is not present faults and is read again. -/
def readPresent (guest : Guest) (cause : Cause) (lin_addr : BitVec 32) (writing : Bool)
    (addr : Nat) (m : Machine) : Except Stop Present :=
  if (m.entryAt addr).p then .ok { entry := m.entryAt addr, m, raised := [] }
  else do
    let f ← pageFault guest cause ⟨lin_addr, addr, notPresentCode writing m⟩ m
    if (f.after.entryAt addr).p then
      .ok { entry := f.after.entryAt addr, m := f.after, raised := [f] }
    else .error .exit

/-- The copies of the two entries that a walk works with. -/
structure Walk where
  table : X86PageEntry
  entry : X86PageEntry
  m : Machine
  raised : List Faulted

def initPageCheckPresence (guest : Guest) (lin_addr : BitVec 32) (writing : Bool)
    (m : Machine) : Except Stop Walk := do
  let page := linPage lin_addr
  let table ← readPresent guest .directory lin_addr writing (dirAddr m.base_page page) m
  let entry ← readPresent guest .table lin_addr writing (tabAddr table.entry.base page) table.m
  .ok
    { table := table.entry, entry := entry.entry, m := entry.m
      raised := table.raised ++ entry.raised }

/-- The exception that a checked access leaves for the core to raise. -/
def Machine.exception (m : Machine) (lin_addr : BitVec 32) (error : Nat) : Machine :=
  { m with cr2 := lin_addr, exceptionError := error }

/-- `InitPageCheckPresence_CheckOnly`: the two entries, or the machine with the exception. -/
def initPageCheckPresenceCheckOnly (lin_addr : BitVec 32) (writing : Bool) (m : Machine) :
    Except Machine (X86PageEntry × X86PageEntry) :=
  let page := linPage lin_addr
  let table := m.entryAt (dirAddr m.base_page page)
  if !table.p then .error (m.exception lin_addr (notPresentCode writing m))
  else
    let entry := m.entryAt (tabAddr table.base page)
    if !entry.p then .error (m.exception lin_addr (notPresentCode writing m))
    else .ok (table, entry)

/-! ## Privilege checks -/

inductive ArchitectureType
  | Intel86
  | Intel186
  | Intel286
  | Intel386Slow
  | Intel386Fast
  | Intel486OldSlow
  | Intel486NewSlow
  | Pentium
  | PentiumMmx
  | Mixed
deriving DecidableEq, Repr

/-- `InitPage_CheckUseraccess`: whether a user access would fault, from the two `us` bits. -/
def initPageCheckUseraccess (arch : ArchitectureType) (u1 u2 : Bool) : Bool :=
  match arch with
  | .Intel486OldSlow | .Intel486NewSlow | .Pentium | .PentiumMmx => !u1 || !u2
  | _ => !u1 && !u2

/-- The `switch` on the architecture in `InitPage`: only some catch later accesses. -/
def latePrivilegeCheck (arch : ArchitectureType) (check : Nat) : Nat :=
  match arch with
  | .Intel386Slow | .Intel486OldSlow | .Intel486NewSlow | .Pentium | .PentiumMmx => check
  | _ => 0

/-- `priv_check` of `InitPageHandler::InitPage` before a fault is raised. -/
def privCheck (arch : ArchitectureType) (writing user : Bool) (table entry : X86PageEntry) :
    Nat :=
  let priv_check :=
    if initPageCheckUseraccess arch entry.us table.us then
      if user then 3 else latePrivilegeCheck arch 1
    else 0
  if !entry.wr || !table.wr then
    if writing && user then 3
    else if priv_check = 0 then latePrivilegeCheck arch 2
    else priv_check
  else priv_check

/-! ## Marking the entries -/

/-- `if (!table.a)`: set the accessed bit in the directory. -/
def markTable (lin_page : BitVec 20) (table : X86PageEntry) (m : Machine) : Machine :=
  if table.a then m
  else m.physWrited (dirAddr m.base_page lin_page) { table with a := true }.get

/-- `if (!entry.a || !entry.d)`: set the accessed bit, and the dirty bit if asked to. -/
def markEntry (lin_page : BitVec 20) (dirty : Bool) (table entry : X86PageEntry)
    (m : Machine) : Machine :=
  if entry.a && entry.d then m
  else m.physWrited (tabAddr table.base lin_page)
    { entry with a := true, d := entry.d || dirty }.get

/-- `if (!entry.a)` of `InitPageForced`: set the accessed bit alone. -/
def markAccessed (lin_page : BitVec 20) (table entry : X86PageEntry) (m : Machine) : Machine :=
  if entry.a then m
  else m.physWrited (tabAddr table.base lin_page) { entry with a := true }.get

/-! ## `InitPageHandler` -/

/-- The machine after a page was linked, what `InitPage` returns and the faults raised. -/
structure Linked where
  ret : Nat
  m : Machine
  raised : List Faulted

namespace InitPage

/-- The fault of `InitPage` on a failed privilege check, which leaves `priv_check` at 0. -/
def checkPrivilege (arch : ArchitectureType) (guest : Guest) (lin_addr : BitVec 32)
    (writing : Bool) (w : Walk) : Except Stop (Nat × Walk) :=
  let priv_check := privCheck arch writing w.m.user w.table w.entry
  if priv_check = 3 then do
    let f ← pageFault guest .protection
      ⟨lin_addr, tabAddr w.table.base (linPage lin_addr), 0x05 ||| if writing then 0x02 else 0x00⟩
      w.m
    .ok (0, { w with m := f.after, raised := w.raised ++ [f] })
  else .ok (priv_check, w)

/-- How `InitPage` links the page, and the value it returns. -/
def link (lin_page phys_page : BitVec 20) (writing : Bool) (priv_check : Nat) (m : Machine) :
    Nat × Machine :=
  if priv_check = 0 then (0, m.linkPage lin_page phys_page)
  else if priv_check = 1 then (1, m.linkPage lin_page phys_page)
  else if writing then
    let handler := m.phandlers phys_page
    let m := m.linkPage lin_page phys_page
    if !handler.flags.readable then (1, m)
    else if !handler.flags.writeable then (1, m)
    else if (m.tlb lin_page).read ≠ (m.tlb lin_page).write then (1, m)
    else if phys_page.toNat > 1 then (phys_page.toNat, m)
    else (1, m)
  else (0, m.linkPageReadOnly lin_page phys_page)

/-- The walk of `InitPage`: both entries present and the privilege checked. -/
def walk (arch : ArchitectureType) (guest : Guest) (lin_addr : BitVec 32) (writing : Bool)
    (m : Machine) : Except Stop (Nat × Walk) := do
  let w ← initPageCheckPresence guest lin_addr writing m
  checkPrivilege arch guest lin_addr writing w

/-- What `InitPage` does after the walk: mark the entries and link the page. -/
def finish (lin_addr : BitVec 32) (writing : Bool) (priv_check : Nat) (w : Walk) : Linked :=
  let page := linPage lin_addr
  let m := markTable page w.table w.m
  let m := markEntry page (writing || priv_check = 0) w.table w.entry m
  let (ret, m) := link page w.entry.base writing priv_check m
  { ret, m, raised := w.raised }

/-- `InitPageHandler::InitPage`. -/
def initPage (arch : ArchitectureType) (guest : Guest) (lin_addr : BitVec 32) (writing : Bool)
    (m : Machine) : Except Stop Linked :=
  if m.enabled then do
    let (priv_check, w) ← walk arch guest lin_addr writing m
    .ok (finish lin_addr writing priv_check w)
  else
    let page := linPage lin_addr
    .ok { ret := 0, m := m.linkPage page (m.unpaged page), raised := [] }

/-- `InitPageHandler::InitPageCheckOnly`. -/
def checkOnly (arch : ArchitectureType) (lin_addr : BitVec 32) (writing : Bool) (m : Machine) :
    Bool × Machine :=
  if m.enabled then
    match initPageCheckPresenceCheckOnly lin_addr writing m with
    | .error m => (false, m)
    | .ok (table, entry) =>
      if !m.user then (true, m)
      else if initPageCheckUseraccess arch entry.us table.us ||
          ((!entry.wr || !table.wr) && writing) then
        (false, m.exception lin_addr (0x05 ||| if writing then 0x02 else 0x00))
      else (true, m)
  else
    let page := linPage lin_addr
    (true, m.linkPage page (m.unpaged page))

/-- `InitPageHandler::InitPageForced`. -/
def forced (guest : Guest) (lin_addr : BitVec 32) (m : Machine) : Except Stop Linked :=
  let page := linPage lin_addr
  if m.enabled then do
    let w ← initPageCheckPresence guest lin_addr false m
    let m := markAccessed page w.table w.entry (markTable page w.table w.m)
    .ok { ret := 0, m := m.linkPage page w.entry.base, raised := w.raised }
  else .ok { ret := 0, m := m.linkPage page (m.unpaged page), raised := [] }

end InitPage

/-- The newest link is taken back, if it is that of the page. -/
def Machine.unlinkLast (m : Machine) (lin_page : BitVec 20) : Machine :=
  match m.links with
  | last :: links => if last = lin_page then { m with links }.unlinkPages lin_page 1 else m
  | [] => m

def initPageUpdateLink (relink : Nat) (lin_page : BitVec 20) (m : Machine) : Machine :=
  if relink = 0 then m
  else if relink > 1 then
    (m.unlinkLast lin_page).linkPageReadOnly lin_page (BitVec.ofNat 20 relink)
  else m.unlinkLast lin_page

/-! ## `InitPageUserROHandler` -/

namespace UserRO

/-- `InitPageUserROHandler::InitPage`. -/
def initPage (guest : Guest) (lin_addr : BitVec 32) (m : Machine) : Except Stop Linked :=
  let page := linPage lin_addr
  if m.enabled then
    if !m.user then .ok { ret := 0, m, raised := [] }
    else do
      let w ← initPageCheckPresence guest lin_addr true m
      let f ← pageFault guest .protection ⟨lin_addr, tabAddr w.table.base page, 0x07⟩ w.m
      let m := markEntry page true w.table w.entry (markTable page w.table f.after)
      .ok { ret := 0, m := m.linkPage page w.entry.base, raised := w.raised ++ [f] }
  else .ok { ret := 0, m := m.linkPage page (m.unpaged page), raised := [] }

/-- `InitPageUserROHandler::InitPageCheckOnly`: 0 for a fault, 2 for a supervisor's write. -/
def checkOnly (arch : ArchitectureType) (lin_addr : BitVec 32) (m : Machine) : Nat × Machine :=
  let page := linPage lin_addr
  if m.enabled then
    if !m.user then (2, m)
    else
      match initPageCheckPresenceCheckOnly lin_addr true m with
      | .error m => (0, m)
      | .ok (table, entry) =>
        if initPageCheckUseraccess arch entry.us table.us || (!entry.wr || !table.wr) then
          (0, m.exception lin_addr 0x07)
        else (1, m.linkPage page entry.base)
  else (1, m.linkPage page (m.unpaged page))

/-- `InitPageUserROHandler::InitPageForced`. -/
def forced (guest : Guest) (lin_addr : BitVec 32) (m : Machine) : Except Stop Linked :=
  let page := linPage lin_addr
  if m.enabled then do
    let w ← initPageCheckPresence guest lin_addr true m
    let m := markAccessed page w.table w.entry (markTable page w.table w.m)
    .ok { ret := 0, m := m.linkPage page w.entry.base, raised := w.raised }
  else .ok { ret := 0, m := m.linkPage page (m.unpaged page), raised := [] }

end UserRO

/-! ## The guest's accesses -/

/-- Where an access went: host memory of a page, the handler of a page, or a null pointer. -/
inductive Touch
  | host (page : BitVec 20)
  | handler (handler : PageHandler) (page : BitVec 20)
  | null
deriving DecidableEq, Repr

/-- An access: what it touched (nothing when a checked form reports a fault), the machine before
its bytes are stored and the faults raised. -/
structure Access where
  touched : Option Touch
  m : Machine
  raised : List Faulted

/-- A host pointer that the code uses without looking at it. -/
def Touch.ofPt : Option (BitVec 20) → Touch
  | some page => .host page
  | none => .null

/-- An access through a handler of the TLB that is not one of paging's own. -/
def linkedTouch (pt : Option (BitVec 20)) (handler : TlbHandler) (phys_page : BitVec 20) :
    Except Stop Touch :=
  match pt, handler with
  | some page, _ => .ok (.host page)
  | none, .page handler => .ok (.handler handler phys_page)
  | none, _ => .error .exit

/-- `mem_readX` of a page that is linked. -/
def Machine.readLinked (m : Machine) (lin_page : BitVec 20) : Except Stop Touch :=
  let e := m.tlb lin_page
  linkedTouch e.read e.readhandler e.phys_page

/-- `mem_writeX` of a page that is linked. -/
def Machine.writeLinked (m : Machine) (lin_page : BitVec 20) : Except Stop Touch :=
  let e := m.tlb lin_page
  linkedTouch e.write e.writehandler e.phys_page

/-- `InitPageHandler::readX` and `writeX`: the access inside finds the page linked.  The bytes
of a write are stored at the end: unlinking and relinking do not look at memory. -/
def InitPage.access (arch : ArchitectureType) (guest : Guest) (lin_addr : BitVec 32)
    (writing : Bool) (m : Machine) : Except Stop Access := do
  let page := linPage lin_addr
  let l ← initPage arch guest lin_addr writing m
  let touched ← (if writing then l.m.writeLinked page else l.m.readLinked page)
  .ok
    { touched := some touched, m := initPageUpdateLink l.ret page l.m
      raised := l.raised }

/-- `InitPageUserROHandler::writeX`: through the pointer for reading. -/
def UserRO.write (guest : Guest) (lin_addr : BitVec 32) (m : Machine) : Except Stop Access := do
  let l ← initPage guest lin_addr m
  .ok
    { touched := some (.ofPt (l.m.tlb (linPage lin_addr)).read), m := l.m
      raised := l.raised }

/-- `InitPageUserROHandler::writeX_checked`. -/
def UserRO.writeChecked (arch : ArchitectureType) (lin_addr : BitVec 32) (m : Machine) :
    Access :=
  let (writecode, m) := checkOnly arch lin_addr m
  if writecode = 0 then { touched := none, m, raised := [] }
  else
    let e := m.tlb (linPage lin_addr)
    { touched := some (.ofPt (if writecode > 1 then e.read else e.write)), m, raised := [] }

/-- `mem_readX`. -/
def memRead (arch : ArchitectureType) (guest : Guest) (lin_addr : BitVec 32) (m : Machine) :
    Except Stop Access :=
  let e := m.tlb (linPage lin_addr)
  if e.read = none ∧ e.readhandler = .init_page_handler then
    InitPage.access arch guest lin_addr false m
  else do
    let touched ← m.readLinked (linPage lin_addr)
    .ok { touched := some touched, m, raised := [] }

/-- `mem_writeX`. -/
def memWrite (arch : ArchitectureType) (guest : Guest) (lin_addr : BitVec 32) (m : Machine) :
    Except Stop Access :=
  let e := m.tlb (linPage lin_addr)
  if e.write = none ∧ e.writehandler = .init_page_handler then
    InitPage.access arch guest lin_addr true m
  else if e.write = none ∧ e.writehandler = .init_page_handler_userro then
    UserRO.write guest lin_addr m
  else do
    let touched ← m.writeLinked (linPage lin_addr)
    .ok { touched := some touched, m, raised := [] }

/-- `mem_readX_checked`. -/
def memReadChecked (arch : ArchitectureType) (guest : Guest) (lin_addr : BitVec 32)
    (m : Machine) : Except Stop Access :=
  let e := m.tlb (linPage lin_addr)
  if e.read = none ∧ e.readhandler = .init_page_handler then
    let (accessible, m) := InitPage.checkOnly arch lin_addr false m
    if accessible then memRead arch guest lin_addr m
    else .ok { touched := none, m, raised := [] }
  else memRead arch guest lin_addr m

/-- `mem_writeX_checked`. -/
def memWriteChecked (arch : ArchitectureType) (guest : Guest) (lin_addr : BitVec 32)
    (m : Machine) : Except Stop Access :=
  let e := m.tlb (linPage lin_addr)
  if e.write = none ∧ e.writehandler = .init_page_handler then
    let (accessible, m) := InitPage.checkOnly arch lin_addr true m
    if accessible then memWrite arch guest lin_addr m
    else .ok { touched := none, m, raised := [] }
  else if e.write = none ∧ e.writehandler = .init_page_handler_userro then
    .ok (UserRO.writeChecked arch lin_addr m)
  else memWrite arch guest lin_addr m

/-! ## Storing the bytes of a write -/

/-- `host_writeb`: the byte at a physical address. -/
def Machine.hostWriteb (m : Machine) (addr : Nat) (value : BitVec 8) : Machine :=
  let dword := addr / 4 * 4
  let shift := addr % 4 * 8
  m.physWrited dword
    ((m.physReadd dword &&& ~~~(0xff#32 <<< shift)) ||| (value.setWidth 32 <<< shift))

/-- The bytes of a write, from the lowest address on. -/
def Machine.hostWrite (m : Machine) (addr : Nat) : List (BitVec 8) → Machine
  | [] => m
  | value :: values => (m.hostWriteb addr value).hostWrite (addr + 1) values

/-- What a write to a handler does to guest memory: a page with code stores the bytes unless it
is ROM, ROM and devices take them without storing. -/
def PageHandler.stores : PageHandler → Bool
  | code old _ => !old.flags.hasrom
  | _ => false

/-- The machine after the bytes went where the write did. -/
def Machine.deliver (m : Machine) (touched : Option Touch) (offset : Nat)
    (values : List (BitVec 8)) : Machine :=
  match touched with
  | some (.host page) => m.hostWrite (page.toNat * 4096 + offset) values
  | some (.handler handler page) =>
    if handler.stores then m.hostWrite (page.toNat * 4096 + offset) values else m
  | _ => m

/-! ## Pages with translated code -/

/-- `PFLAG_HASCODE`, and the one of the two flags for the current code size. -/
def PageFlags.hascode (flags : PageFlags) : Bool := flags.hascode16 || flags.hascode32

def PageFlags.hascodeOf (big : Bool) (flags : PageFlags) : Bool :=
  if big then flags.hascode32 else flags.hascode16

/-- `CodePageHandler::Release` of a physical page. -/
def Machine.release (m : Machine) (phys_page : BitVec 20) : Machine :=
  match m.phandlers phys_page with
  | .code old _ => { m with phandlers := Function.update m.phandlers phys_page old }.clearTLB
  | _ => m

/-- `CodePageHandler::SetupAt` with `MEM_SetPageHandler`. -/
def Machine.setupAt (m : Machine) (phys_page : BitVec 20) (handler : PageHandler)
    (big : Bool) : Machine :=
  { m with phandlers := Function.update m.phandlers phys_page (.code handler big) }

/-- `PAGING_MakePhysPage`. -/
def Machine.makePhysPage (m : Machine) (page : BitVec 20) : Option (BitVec 20) :=
  if m.enabled then
    let table := m.entryAt (dirAddr m.base_page page)
    if !table.p then none
    else
      let entry := m.entryAt (tabAddr table.base page)
      if !entry.p then none else some entry.base
  else some (m.unpaged page)

/-- `PAGING_ForcePageInit`. -/
def forcePageInit (guest : Guest) (lin_addr : BitVec 32) (m : Machine) :
    Except Stop (Bool × Linked) :=
  match (m.tlb (linPage lin_addr)).readhandler with
  | .init_page_handler => do
    let l ← InitPage.forced guest lin_addr m
    .ok (true, l)
  | .init_page_handler_userro => do
    let l ← UserRO.forced guest lin_addr (m.unlinkPages (linPage lin_addr) 1)
    .ok (true, l)
  | .page _ => .ok (false, { ret := 0, m, raised := [] })

/-- The end of `MakeCodePage`: a code page handler for the physical page, made free by the
release of another one (`victim`) when there is none. -/
def installCodePage (big : Bool) (victim : Option (BitVec 20)) (lin_page : BitVec 20)
    (handler : TlbHandler) (m : Machine) : Machine :=
  match handler, m.makePhysPage lin_page with
  | .page handler, some phys_page =>
    let m := victim.elim m m.release
    (m.setupAt phys_page handler big).unlinkPages lin_page 1
  | _, _ => m

/-- Translated code that cannot be used is dropped with its page handler. -/
def Machine.dropCode (m : Machine) (lin_page : BitVec 20) : Machine :=
  let e := m.tlb lin_page
  if e.readhandler.flags.hascode then m.release e.phys_page else m

/-- `MakeCodePage` after `PAGING_ForcePageInit`, which may have linked a page that has code. -/
def codePageForced (big : Bool) (victim : Option (BitVec 20)) (lin_page : BitVec 20)
    (forced : Bool) (m : Machine) : Machine :=
  let flags := (m.tlb lin_page).readhandler.flags
  if forced && flags.hascode && flags.hascodeOf big then m
  else
    let m := if forced then m.dropCode lin_page else m
    let handler := (m.tlb lin_page).readhandler
    if handler.flags.nocode then m else installCodePage big victim lin_page handler m

/-- `MakeCodePage` on a page without code of its own: a page whose handler allows no code is
initialised first. -/
def newCodePage (guest : Guest) (big : Bool) (victim : Option (BitVec 20)) (lin_addr : BitVec 32)
    (m : Machine) : Except Stop (Machine × List Faulted) :=
  let page := linPage lin_addr
  let handler := (m.tlb page).readhandler
  if handler.flags.nocode then do
    let (forced, l) ← forcePageInit guest lin_addr m
    .ok (codePageForced big victim page forced l.m, l.raised)
  else .ok (installCodePage big victim page handler m, [])

/-- `MakeCodePage` after its first read has succeeded.  `reuse` is `CPU_ReuseCodepages`. -/
def makeCodePage (guest : Guest) (big reuse : Bool) (victim : Option (BitVec 20))
    (lin_addr : BitVec 32) (m : Machine) : Except Stop (Machine × List Faulted) :=
  let page := linPage lin_addr
  let flags := (m.tlb page).readhandler.flags
  if flags.hascode && (reuse || flags.hascodeOf big) then .ok (m, [])
  else newCodePage guest big victim lin_addr (m.dropCode page)

end AugraDosbox.Paging
