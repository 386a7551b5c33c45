import AugraDosbox.Lib.Fallible
import AugraDosbox.Cpu.PagingRuns

/-!
# Paging: which entry a page fault is resolved with

`InitPage` works with copies of the directory entry and the table entry.  A page fault in the
middle runs the guest, which may change both, and only a not-present fault makes the code read
an entry again.

* `Marks` is what the emulator may do to an entry: set its accessed and dirty bits.
* `walk_copies` and `userro_walk_copies` say when the copies in use were read.
* `fault_resolved_iff` says exactly when the page linked and the entries written back are those
  that the guest's handler left.  They are not after a copy on write (`copy_on_write_lost`).
-/

namespace AugraDosbox.Paging

open Fallible

/-! ## Marking an entry -/

/-- The entry without its accessed and dirty bits. -/
def X86PageEntry.unmarked (e : X86PageEntry) : X86PageEntry := { e with a := false, d := false }

/-- `new` is `old` with accessed and dirty bits set. -/
structure Marks (old new : X86PageEntry) : Prop where
  unmarked : new.unmarked = old.unmarked
  a : old.a = true → new.a = true
  d : old.d = true → new.d = true

instance (old new : X86PageEntry) : Decidable (Marks old new) :=
  decidable_of_iff (new.unmarked = old.unmarked ∧ (old.a = true → new.a = true) ∧
    (old.d = true → new.d = true)) ⟨fun h => ⟨h.1, h.2.1, h.2.2⟩, fun h => ⟨h.1, h.2, h.3⟩⟩

@[simp] theorem Marks.refl (e : X86PageEntry) : Marks e e := ⟨rfl, id, id⟩

theorem Marks.base {old new : X86PageEntry} (h : Marks old new) : new.base = old.base := by
  change new.unmarked.base = old.unmarked.base
  rw [h.unmarked]

/-- Memory differs in the marks of its dwords alone. -/
def MemMarks (m m' : Machine) : Prop := ∀ addr, Marks (m.entryAt addr) (m'.entryAt addr)

theorem MemMarks.refl (m : Machine) : MemMarks m m := fun _ => Marks.refl _

variable {m : Machine} {guest : Guest} {f : Faulted} {lin_addr : BitVec 32} {writing : Bool}
  {w : Walk}

theorem memMarks_congr {m₁ m₂ : Machine} (h : m₁.memory = m₂.memory) :
    MemMarks m m₁ ↔ MemMarks m m₂ := by
  simp only [MemMarks, Machine.entryAt, Machine.physReadd, h]

theorem entryAt_physWrited (m : Machine) (addr addr' : Nat) (e : X86PageEntry) :
    (m.physWrited addr e.get).entryAt addr' = if addr' = addr then e else m.entryAt addr' := by
  by_cases h : addr' = addr
  · subst h
    simp [Machine.physWrited, Machine.entryAt, Machine.physReadd]
  · simp [Machine.physWrited, Machine.entryAt, Machine.physReadd, h]

/-- Writing one entry marks memory exactly when it marks that entry. -/
theorem memMarks_physWrited_iff (m : Machine) (addr : Nat) (e : X86PageEntry) :
    MemMarks m (m.physWrited addr e.get) ↔ Marks (m.entryAt addr) e := by
  constructor
  · intro h
    simpa [entryAt_physWrited] using h addr
  · intro h addr'
    rw [entryAt_physWrited]
    split
    · next heq => exact heq ▸ h
    · exact Marks.refl _

/-- Writing two entries: the first one counts unless the second is the same dword. -/
theorem memMarks_physWrited₂_iff (m : Machine) (addr₁ addr₂ : Nat) (e₁ e₂ : X86PageEntry) :
    MemMarks m ((m.physWrited addr₁ e₁.get).physWrited addr₂ e₂.get) ↔
      (addr₂ = addr₁ ∨ Marks (m.entryAt addr₁) e₁) ∧ Marks (m.entryAt addr₂) e₂ := by
  constructor
  · intro h
    refine ⟨?_, by simpa [entryAt_physWrited] using h addr₂⟩
    by_cases heq : addr₂ = addr₁
    · exact .inl heq
    · right
      simpa [entryAt_physWrited, Ne.symm heq] using h addr₁
  · rintro ⟨h₁, h₂⟩ addr
    rw [entryAt_physWrited, entryAt_physWrited]
    split
    · next heq => exact heq ▸ h₂
    · next hne =>
      split
      · next heq =>
        subst heq
        rcases h₁ with h₁ | h₁
        · exact absurd h₁.symm hne
        · exact h₁
      · exact Marks.refl _

/-! ## The walk of the current tables -/

namespace Machine

/-- The directory entry of a linear page. -/
def dirEntry (m : Machine) (page : BitVec 20) : X86PageEntry :=
  m.entryAt (dirAddr m.base_page page)

/-- Its table entry: the second level of the walk. -/
def tabEntry (m : Machine) (page : BitVec 20) : X86PageEntry :=
  m.entryAt (tabAddr (m.dirEntry page).base page)

/-- The physical page of a linear page. -/
def frame (m : Machine) (page : BitVec 20) : BitVec 20 := (m.tabEntry page).base

end Machine

/-- Marking entries leaves the walk of every page where it was. -/
theorem MemMarks.dirEntry {m' : Machine} (h : MemMarks m m') (hbase : m'.base_page = m.base_page)
    (page : BitVec 20) :
    Marks (m.dirEntry page) (m'.dirEntry page) := by
  rw [Machine.dirEntry, Machine.dirEntry, hbase]
  exact h _

theorem MemMarks.tabEntry {m' : Machine} (h : MemMarks m m') (hbase : m'.base_page = m.base_page)
    (page : BitVec 20) :
    Marks (m.tabEntry page) (m'.tabEntry page) := by
  rw [Machine.tabEntry, Machine.tabEntry, (h.dirEntry hbase page).base]
  exact h _

/-! ## When the copies were read -/

/-- A page fault that was raised on `m` and came back. -/
structure Returns (guest : Guest) (fault : Fault) (m : Machine) (f : Faulted) : Prop where
  before : f.before = { m with cr2 := fault.lin_addr, mpl := 3 }
  after : ∃ back, guest fault f.before = some back ∧ back.cpl = m.cpl ∧
    f.after = { back with mpl := m.mpl }

theorem pageFault_ok {cause : Cause} {fault : Fault} (h : pageFault guest cause fault m = .ok f) :
    f.cause = cause ∧ Returns guest fault m f := by
  simp only [pageFault] at h
  split at h
  · cases h
  · next back hback =>
    split at h
    · next hp =>
      simp only [Bool.and_eq_true, beq_iff_eq] at hp
      cases h
      exact ⟨rfl, rfl, back, hback, hp.2, rfl⟩
    · cases h

/-- What one level of the presence check comes to: no fault, or one fault and a second look. -/
theorem readPresent_ok {cause : Cause} {addr : Nat} {r : Present}
    (h : readPresent guest cause lin_addr writing addr m = .ok r) :
    r.entry = r.m.entryAt addr ∧ r.entry.p = true ∧
      (((m.entryAt addr).p = true ∧ r.raised = [] ∧ r.m = m) ∨
        ((m.entryAt addr).p = false ∧ ∃ f, r.raised = [f] ∧ r.m = f.after ∧ f.cause = cause ∧
          Returns guest ⟨lin_addr, addr, notPresentCode writing m⟩ m f)) := by
  unfold readPresent at h
  split at h
  · next hp =>
    cases h
    exact ⟨rfl, hp, .inl ⟨hp, rfl, rfl⟩⟩
  · next hp =>
    obtain ⟨f, hf, h⟩ := bind_ok.1 h
    obtain ⟨hcause, hret⟩ := pageFault_ok hf
    split at h
    · next hp' =>
      cases h
      exact ⟨rfl, hp', .inr ⟨by simpa using hp, f, rfl, rfl, hcause, hret⟩⟩
    · cases h

/-- The machine after the fault of one cause, or `m` when there was none. -/
def afterOf (cause : Cause) (raised : List Faulted) (m : Machine) : Machine :=
  (raised.find? fun f => f.cause = cause).elim m (·.after)

/-- The machine that the last handler left. -/
def leftBy (raised : List Faulted) (m : Machine) : Machine := raised.getLast?.elim m (·.after)

/-- The directory entry that a walk works with: as it was after a fault on that entry, and not
looked at again. -/
def tableCopy (m : Machine) (raised : List Faulted) (page : BitVec 20) : X86PageEntry :=
  (afterOf .directory raised m).entryAt (dirAddr m.base_page page)

/-- The table entry that a walk works with: as it was after a not-present fault on it. -/
def entryCopy (m : Machine) (raised : List Faulted) (page : BitVec 20) : X86PageEntry :=
  (afterOf .table raised (afterOf .directory raised m)).entryAt
    (tabAddr (tableCopy m raised page).base page)

/-- The copies of a walk that began on `m`. -/
structure Walk.Copies (m : Machine) (page : BitVec 20) (w : Walk) : Prop where
  table : w.table = tableCopy m w.raised page
  entry : w.entry = entryCopy m w.raised page
  left : w.m = leftBy w.raised m

theorem checkPresence_copies (h : initPageCheckPresence guest lin_addr writing m = .ok w) :
    w.Copies m (linPage lin_addr) := by
  obtain ⟨t, ht, h⟩ := bind_ok.1 h
  obtain ⟨e, he, h⟩ := bind_ok.1 h
  cases h
  obtain ⟨htEntry, -, ht⟩ := readPresent_ok ht
  obtain ⟨heEntry, -, he⟩ := readPresent_ok he
  -- the four cases of a fault on the directory entry and a fault on the table entry
  rcases ht with ⟨-, htr, htm⟩ | ⟨-, f, htr, htm, hf, -⟩ <;>
    rcases he with ⟨-, her, hem⟩ | ⟨-, g, her, hem, hg, -⟩ <;>
    constructor <;>
    simp [tableCopy, entryCopy, afterOf, leftBy, *]

/-- A fault comes back at the privilege of the access. -/
theorem Returns.user {fault : Fault} (h : Returns guest fault m f) : f.after.user = m.user := by
  obtain ⟨back, -, hcpl, hafter⟩ := h.after
  simp [hafter, Machine.user, hcpl]

/-- What holds after the presence check: the table entry is the current one, both entries are
present, and no protection fault was raised yet. -/
structure Walk.Checked (m : Machine) (page : BitVec 20) (w : Walk) : Prop where
  entry : w.entry = w.m.entryAt (tabAddr w.table.base page)
  entryPresent : w.entry.p = true
  tablePresent : w.table.p = true
  user : w.m.user = m.user
  quiet : w.raised = [] → w.m = m ∧ w.table = m.dirEntry page
  unprotected : (w.raised.any fun f => f.cause = .protection) = false

theorem checkPresence_checked (h : initPageCheckPresence guest lin_addr writing m = .ok w) :
    w.Checked m (linPage lin_addr) := by
  obtain ⟨t, ht, h⟩ := bind_ok.1 h
  obtain ⟨e, he, h⟩ := bind_ok.1 h
  cases h
  obtain ⟨htEntry, htp, ht⟩ := readPresent_ok ht
  obtain ⟨heEntry, hep, he⟩ := readPresent_ok he
  rcases ht with ⟨-, htr, htm⟩ | ⟨-, f, htr, htm, hf, hfret⟩ <;>
    rcases he with ⟨-, her, hem⟩ | ⟨-, g, her, hem, hg, hgret⟩
  · have hdir : t.entry = m.dirEntry (linPage lin_addr) := by rw [htEntry, htm, Machine.dirEntry]
    exact ⟨heEntry, hep, htp, by rw [hem, htm], fun _ => ⟨hem.trans htm, hdir⟩,
      by simp [htr, her]⟩
  · exact ⟨heEntry, hep, htp, by rw [hem, hgret.user, htm], by simp [her],
      by simp [htr, her, hg]⟩
  · exact ⟨heEntry, hep, htp, by rw [hem, htm, hfret.user], by simp [htr],
      by simp [htr, her, hf]⟩
  · exact ⟨heEntry, hep, htp, by rw [hem, hgret.user, htm, hfret.user], by simp [htr],
      by simp [htr, her, hf, hg]⟩

/-- A later protection fault leaves the copies as they are. -/
theorem Walk.Copies.protection {page : BitVec 20} (h : w.Copies m page) (hf : f.cause = .protection)
    :
    Walk.Copies m page { w with m := f.after, raised := w.raised ++ [f] } := by
  have hafter (cause : Cause) (hc : cause ≠ .protection) (m : Machine) :
      afterOf cause (w.raised ++ [f]) m = afterOf cause w.raised m := by
    have hne : ¬ (Cause.protection = cause) := fun h => hc h.symm
    simp [afterOf, List.find?_append, hf, hne]
  constructor
  · simpa [tableCopy, hafter] using h.table
  · simpa [entryCopy, tableCopy, hafter] using h.entry
  · simp [leftBy]

/-! ## The entry that is linked -/

/-- **What a resolved fault should come to**: on the machine that the handler left, the page
linked is the one that its tables map, and only marks are set in its memory. -/
structure Resolved (page : BitVec 20) (after : Machine) (l : Linked) : Prop where
  linked : (l.m.tlb page).phys_page = after.frame page
  marked : MemMarks after l.m

/-- The copies are good enough for the machine that the last handler left: they have the frame
of the current entry, and an entry that is written back is the current one up to its marks.
The directory entry does not count where the table entry is the same dword. -/
structure Fresh (page : BitVec 20) (dirty : Bool) (table entry : X86PageEntry)
    (after : Machine) : Prop where
  frame : entry.base = after.frame page
  tableMarks : table.a = false →
    ((entry.a && entry.d) = false ∧ tabAddr table.base page = dirAddr after.base_page page) ∨
      Marks (after.dirEntry page) { table with a := true }
  entryMarks : (entry.a && entry.d) = false →
    Marks (after.entryAt (tabAddr table.base page)) { entry with a := true, d := entry.d || dirty }

@[simp] theorem makeRoom_memory (m : Machine) : m.makeRoom.memory = m.memory := by
  unfold Machine.makeRoom
  split <;> rfl

@[simp] theorem setLink_memory (m : Machine) (page : BitVec 20) (e : TlbEntry) :
    (m.setLink page e).memory = m.memory := makeRoom_memory m

@[simp] theorem linkPage_memory (m : Machine) (page phys_page : BitVec 20) :
    (m.linkPage page phys_page).memory = m.memory := setLink_memory ..

@[simp] theorem linkPageReadOnly_memory (m : Machine) (page phys_page : BitVec 20) :
    (m.linkPageReadOnly page phys_page).memory = m.memory := setLink_memory ..

@[simp] theorem setLink_tlb_self (m : Machine) (page : BitVec 20) (e : TlbEntry) :
    (m.setLink page e).tlb page = e := by
  simp [Machine.setLink]

@[simp] theorem linkPage_phys_page (m : Machine) (page phys_page : BitVec 20) :
    ((m.linkPage page phys_page).tlb page).phys_page = phys_page := by
  simp [Machine.linkPage]

@[simp] theorem linkPageReadOnly_phys_page (m : Machine) (page phys_page : BitVec 20) :
    ((m.linkPageReadOnly page phys_page).tlb page).phys_page = phys_page := by
  simp [Machine.linkPageReadOnly]

/-- However a page is linked, it is linked to the page given, and memory stays. -/
theorem link_spec (page phys_page : BitVec 20) (writing : Bool) (priv : Nat) (m : Machine) :
    ((InitPage.link page phys_page writing priv m).2.tlb page).phys_page = phys_page ∧
      (InitPage.link page phys_page writing priv m).2.memory = m.memory := by
  unfold InitPage.link
  dsimp only
  split_ifs <;> simp

/-- The marks that a walk sets are marks of the current entries exactly when its copies are good
enough in that respect. -/
theorem memMarks_mark_iff (page : BitVec 20) (dirty : Bool) (table entry : X86PageEntry)
    (m : Machine) :
    MemMarks m (markEntry page dirty table entry (markTable page table m)) ↔
      (table.a = false →
        ((entry.a && entry.d) = false ∧ tabAddr table.base page = dirAddr m.base_page page) ∨
          Marks (m.dirEntry page) { table with a := true }) ∧
      ((entry.a && entry.d) = false → Marks (m.entryAt (tabAddr table.base page))
        { entry with a := true, d := entry.d || dirty }) := by
  cases ht : table.a <;> cases he : (entry.a && entry.d)
  · simp only [markEntry, markTable, ht, he, Bool.false_eq_true, if_false,
      memMarks_physWrited₂_iff, true_and, forall_const, Machine.dirEntry]
  · simp only [markEntry, markTable, ht, he, Bool.false_eq_true, if_false, if_true,
      memMarks_physWrited_iff, false_and, false_or, forall_const, Bool.true_eq_false,
      IsEmpty.forall_iff, and_true, Machine.dirEntry]
  · simp only [markEntry, markTable, ht, he, Bool.false_eq_true, if_false, if_true,
      memMarks_physWrited_iff, forall_const, Bool.true_eq_false, IsEmpty.forall_iff, true_and]
  · simp only [markEntry, markTable, ht, he, if_true, Bool.true_eq_false, IsEmpty.forall_iff,
      and_self, iff_true]
    exact MemMarks.refl m

theorem resolved_iff (page : BitVec 20) (dirty : Bool) (table entry : X86PageEntry)
    (after : Machine) {l : Linked} (hphys : (l.m.tlb page).phys_page = entry.base)
    (hmem : l.m.memory =
      (markEntry page dirty table entry (markTable page table after)).memory) :
    Resolved page after l ↔ Fresh page dirty table entry after := by
  have hmarks := (memMarks_congr hmem).trans (memMarks_mark_iff page dirty table entry after)
  constructor
  · intro h
    obtain ⟨hTable, hEntry⟩ := hmarks.1 h.marked
    exact ⟨hphys ▸ h.linked, hTable, hEntry⟩
  · intro h
    exact ⟨hphys.trans h.frame, hmarks.2 ⟨h.tableMarks, h.entryMarks⟩⟩

/-- Whether `InitPage` was asked to set the dirty bit, from the faults it raised. -/
def InitPage.setsDirty (arch : ArchitectureType) (writing : Bool) (raised : List Faulted)
    (user : Bool) (table entry : X86PageEntry) : Bool :=
  writing || (raised.any fun f => f.cause = .protection) ||
    privCheck arch writing user table entry = 0

/-- The walk of `InitPage`: its copies, and the value that decides how the page is linked. -/
theorem walk_copies {arch : ArchitectureType} {priv : Nat}
    (h : InitPage.walk arch guest lin_addr writing m = .ok (priv, w)) :
    w.Copies m (linPage lin_addr) ∧
      (writing || priv = 0) =
        InitPage.setsDirty arch writing w.raised w.m.user w.table w.entry := by
  obtain ⟨w₀, hw₀, h⟩ := bind_ok.1 h
  have hcopies := checkPresence_copies hw₀
  have hnone := (checkPresence_checked hw₀).unprotected
  simp only [InitPage.checkPrivilege] at h
  split at h
  · -- the check fails: one more fault, and then `priv_check` is 0
    obtain ⟨f, hf, h⟩ := bind_ok.1 h
    cases h
    obtain ⟨hcause, -⟩ := pageFault_ok hf
    exact ⟨hcopies.protection hcause, by simp [InitPage.setsDirty, hcause]⟩
  · cases h
    exact ⟨hcopies, by simp [InitPage.setsDirty, hnone]⟩

/-- What the guest's handlers have to leave for `InitPageHandler::InitPage`. -/
def InitPage.HandlersLeave (arch : ArchitectureType) (writing : Bool) (m : Machine)
    (raised : List Faulted) (page : BitVec 20) : Prop :=
  let table := tableCopy m raised page
  let entry := entryCopy m raised page
  let after := leftBy raised m
  Fresh page (setsDirty arch writing raised after.user table entry) table entry after

/-- What they have to leave for `InitPageUserROHandler::InitPage`. -/
def UserRO.HandlersLeave (m : Machine) (raised : List Faulted) (page : BitVec 20) : Prop :=
  Fresh page true (tableCopy m raised page) (entryCopy m raised page) (leftBy raised m)

theorem initPage_resolved_iff {arch : ArchitectureType} {l : Linked}
    (h : InitPage.initPage arch guest lin_addr writing m = .ok l) (hraised : l.raised ≠ []) :
    Resolved (linPage lin_addr) (leftBy l.raised m) l ↔
      InitPage.HandlersLeave arch writing m l.raised (linPage lin_addr) := by
  simp only [InitPage.initPage] at h
  split at h
  · obtain ⟨⟨priv, w⟩, hw, h⟩ := bind_ok.1 h
    cases h
    obtain ⟨hcopies, hdirty⟩ := walk_copies hw
    have hlink := link_spec (linPage lin_addr) w.entry.base writing priv
      (markEntry (linPage lin_addr) (writing || priv = 0) w.table w.entry
        (markTable (linPage lin_addr) w.table w.m))
    have hres := resolved_iff (linPage lin_addr) (writing || priv = 0) w.table w.entry w.m
      (l := InitPage.finish lin_addr writing priv w) hlink.1 hlink.2
    rw [hdirty, hcopies.table, hcopies.entry, hcopies.left] at hres
    exact hres
  · cases h
    exact absurd rfl hraised

theorem userro_initPage_resolved_iff {l : Linked} (h : UserRO.initPage guest lin_addr m = .ok l)
    (hraised : l.raised ≠ []) :
    Resolved (linPage lin_addr) (leftBy l.raised m) l ↔
      UserRO.HandlersLeave m l.raised (linPage lin_addr) := by
  simp only [UserRO.initPage] at h
  split at h
  · split at h
    · cases h
      exact absurd rfl hraised
    · obtain ⟨w, hw, h⟩ := bind_ok.1 h
      obtain ⟨f, hf, h⟩ := bind_ok.1 h
      cases h
      obtain ⟨hcause, -⟩ := pageFault_ok hf
      have hcopies := (checkPresence_copies hw).protection hcause
      have hres := resolved_iff (linPage lin_addr) true w.table w.entry f.after
        (l := ⟨0, _, w.raised ++ [f]⟩) (linkPage_phys_page _ _ _) (linkPage_memory _ _ _)
      rw [UserRO.HandlersLeave, ← hcopies.table, ← hcopies.entry, ← hcopies.left]
      exact hres
  · cases h
    exact absurd rfl hraised

/-- **Exactly when a page fault is resolved with the guest's new entry**, for both handlers: the
last handler leaves the frame of the emulator's copies, and what is written back from them is
what the tables hold, up to marks. -/
theorem fault_resolved_iff (arch : ArchitectureType) (guest : Guest) (lin_addr : BitVec 32)
    (m : Machine) :
    (∀ writing l, InitPage.initPage arch guest lin_addr writing m = .ok l → l.raised ≠ [] →
      (Resolved (linPage lin_addr) (leftBy l.raised m) l ↔
        InitPage.HandlersLeave arch writing m l.raised (linPage lin_addr))) ∧
    ∀ l, UserRO.initPage guest lin_addr m = .ok l → l.raised ≠ [] →
      (Resolved (linPage lin_addr) (leftBy l.raised m) l ↔
        UserRO.HandlersLeave m l.raised (linPage lin_addr)) :=
  ⟨fun _ _ h hraised => initPage_resolved_iff h hraised,
    fun _ h hraised => userro_initPage_resolved_iff h hraised⟩

/-- A user program with paging on: one directory entry, and one table entry for page 0. -/
def userMachine (tab : X86PageEntry) : Machine where
  cpl := 3
  mpl := 3
  exceptionError := 0
  cr2 := 0
  enabled := true
  base_page := 1
  firstmb := id
  tlb := fun _ => ⟨none, none, .init_page_handler, .init_page_handler, 0⟩
  links := []
  phandlers := fun _ => .ram
  memory := fun addr =>
    if addr = 4096 then
      X86PageEntry.get ⟨true, true, true, false, false, true, false, false, false, 0, 2⟩
    else if addr = 8192 then tab.get else 0

/-- A user page that may be read but not written, with its frame and its dirty bit. -/
def readOnlyEntry (base : BitVec 20) (d : Bool) : X86PageEntry :=
  ⟨true, false, true, false, false, true, d, false, false, 0, base⟩

/-- A page-fault handler that puts a new entry for page 0 in the table. -/
def remap (tab : X86PageEntry) : Guest := fun _ m => some (m.physWrited 8192 tab.get)

/-- A handler that only grants the write is served when nothing has to be written back. -/
theorem fault_resolved_granted :
    ∃ l, InitPage.initPage .Pentium (remap { readOnlyEntry 5 true with wr := true }) 0 true
        (userMachine (readOnlyEntry 5 true)) = .ok l ∧
      Resolved (linPage 0) (leftBy l.raised (userMachine (readOnlyEntry 5 true))) l := by
  refine ⟨_, rfl, ?_⟩
  have hiff := (fault_resolved_iff .Pentium (remap { readOnlyEntry 5 true with wr := true }) 0
    (userMachine (readOnlyEntry 5 true))).1 true _ rfl (List.cons_ne_nil _ _)
  refine hiff.2 ?_
  exact ⟨by decide, by decide, by decide⟩

/-- **A copy on write is lost**: the handler maps the page to a new writable frame 6, but the
page is linked to the old frame 5 and the new entry is overwritten by the old one. -/
theorem copy_on_write_lost :
    ∃ l, InitPage.initPage .Pentium (remap { readOnlyEntry 6 false with wr := true }) 0 true
        (userMachine (readOnlyEntry 5 false)) = .ok l ∧ l.raised ≠ [] ∧
      (leftBy l.raised (userMachine (readOnlyEntry 5 false))).frame 0 = 6 ∧
      (l.m.tlb 0).phys_page = 5 ∧ l.m.frame 0 = 5 ∧
      ¬ Resolved 0 (leftBy l.raised (userMachine (readOnlyEntry 5 false))) l := by
  refine ⟨_, rfl, List.cons_ne_nil _ _, by decide, by decide, by decide +kernel,
    fun h => ?_⟩
  exact absurd h.linked (by decide)

end AugraDosbox.Paging
