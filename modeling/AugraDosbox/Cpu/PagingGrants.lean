import AugraDosbox.Cpu.PagingReadOnly

/-!
# Paging: the TLB and the permissions of the page tables

Permissions are not stored in the TLB: a page that only the supervisor may use is unlinked again
after each access, and a write-protected one is linked with another handler for writing.

* `GrantOk` is what an entry of the TLB may grant: the frame of the page, to the user only what
  the tables grant.
* `flushing` is a guest that follows every change of a page-table entry by a flush; `healing`
  has in addition page-fault handlers that the emulator can return from.
* `tlb_grants_no_more`: in every run of a `healing` guest each access touches the frame that the
  tables give, a forbidden one faults, and `PAGING_ClearTLB` leaves initial entries only.
* `stale_frame_touched` is a run of a `flushing` guest that is not served so.
-/

namespace AugraDosbox.Paging

open Fallible

/-! ## What the tables grant -/

/-- The architectures that catch every privilege violation. -/
def strictArchitectures : List ArchitectureType :=
  [.Intel386Slow, .Intel486OldSlow, .Intel486NewSlow, .Pentium, .PentiumMmx]

/-- The user may read the page, by the rule of the architecture. -/
structure Machine.UserMay (arch : ArchitectureType) (m : Machine) (page : BitVec 20) :
    Prop where
  directory : (m.dirEntry page).p = true
  table : (m.tabEntry page).p = true
  access : initPageCheckUseraccess arch (m.tabEntry page).us (m.dirEntry page).us = false

/-- Neither entry write-protects the page. -/
def Machine.Writable (m : Machine) (page : BitVec 20) : Prop :=
  (m.tabEntry page).wr = true ∧ (m.dirEntry page).wr = true

/-- The tables are the same up to marks. -/
structure SameTables (m m' : Machine) : Prop where
  directory : ∀ page, (m'.dirEntry page).unmarked = (m.dirEntry page).unmarked
  table : ∀ page, (m'.tabEntry page).unmarked = (m.tabEntry page).unmarked

theorem MemMarks.sameTables {m m' : Machine} (h : MemMarks m m')
    (hbase : m'.base_page = m.base_page) : SameTables m m' :=
  ⟨fun page => (h.dirEntry hbase page).unmarked, fun page => (h.tabEntry hbase page).unmarked⟩

/-- Equal entries up to marks have the same permissions and the same frame. -/
theorem unmarked_fields {e e' : X86PageEntry} (h : e'.unmarked = e.unmarked) :
    e'.p = e.p ∧ e'.wr = e.wr ∧ e'.us = e.us ∧ e'.base = e.base := by
  simp only [X86PageEntry.unmarked, X86PageEntry.mk.injEq] at h
  exact ⟨h.1, h.2.1, h.2.2.1, h.2.2.2.2.2.2.2.2.2.2⟩

variable {arch : ArchitectureType} {H : BitVec 20 → PageHandler} {m m' : Machine}
  {page : BitVec 20}

theorem SameTables.userMay (h : SameTables m m') (hm : m.UserMay arch page) :
    m'.UserMay arch page := by
  obtain ⟨hdp, -, hdus, -⟩ := unmarked_fields (h.directory page)
  obtain ⟨htp, -, htus, -⟩ := unmarked_fields (h.table page)
  exact ⟨hdp ▸ hm.directory, htp ▸ hm.table, by rw [hdus, htus]; exact hm.access⟩

theorem SameTables.writable_iff (h : SameTables m m') : m'.Writable page ↔ m.Writable page := by
  obtain ⟨-, hdwr, -, -⟩ := unmarked_fields (h.directory page)
  obtain ⟨-, htwr, -, -⟩ := unmarked_fields (h.table page)
  rw [Machine.Writable, Machine.Writable, hdwr, htwr]

theorem SameTables.frame (h : SameTables m m') : m'.frame page = m.frame page :=
  (unmarked_fields (h.table page)).2.2.2

theorem SameTables.of_memory (hmem : m'.memory = m.memory) (hbase : m'.base_page = m.base_page) :
    SameTables m m' := by
  have hentry (addr : Nat) : m'.entryAt addr = m.entryAt addr := by
    rw [Machine.entryAt, Machine.entryAt, Machine.physReadd, Machine.physReadd, hmem]
  have hdir (page : BitVec 20) : m'.dirEntry page = m.dirEntry page := by
    rw [Machine.dirEntry, Machine.dirEntry, hbase, hentry]
  refine ⟨fun page => by rw [hdir], fun page => ?_⟩
  rw [Machine.tabEntry, Machine.tabEntry, hdir, hentry]

theorem SameTables.trans {m₁ m₂ m₃ : Machine} (h₁ : SameTables m₁ m₂) (h₂ : SameTables m₂ m₃) :
    SameTables m₁ m₃ :=
  ⟨fun page => (h₂.directory page).trans (h₁.directory page),
    fun page => (h₂.table page).trans (h₁.table page)⟩

/-! ## What an entry of the TLB may grant -/

/-- A linked entry: a page that the user may read, on its frame and with the handler of that
frame; it may be written through the handler exactly when the tables let the user write. -/
structure GrantOk (arch : ArchitectureType) (m : Machine) (page : BitVec 20) (e : TlbEntry) :
    Prop where
  user : m.UserMay arch page
  phys_page : e.phys_page = m.frame page
  readhandler : e.readhandler = .page (m.phandlers e.phys_page)
  read : e.read = (m.phandlers e.phys_page).readPt e.phys_page
  write : (m.Writable page ∧ e.writehandler = .page (m.phandlers e.phys_page) ∧
      e.write = (m.phandlers e.phys_page).writePt e.phys_page) ∨
    (¬ m.Writable page ∧ e.writehandler = .init_page_handler_userro ∧ e.write = none)

theorem GrantOk.of_same {e : TlbEntry} (h : GrantOk arch m page e) (ht : SameTables m m')
    (hphandlers : m'.phandlers = m.phandlers) : GrantOk arch m' page e := by
  refine ⟨ht.userMay h.user, h.phys_page.trans ht.frame.symm, ?_, ?_, ?_⟩
  · rw [hphandlers]
    exact h.readhandler
  · rw [hphandlers]
    exact h.read
  · rw [hphandlers, ht.writable_iff]
    exact h.write

/-- The invariant: paging is on, the handlers of the physical pages are those of the start, and
unless a flush is pending the TLB grants what it may. -/
structure Grants (arch : ArchitectureType) (H : BitVec 20 → PageHandler) (m : Machine)
    (pending : Bool) : Prop where
  enabled : m.enabled = true
  phandlers : m.phandlers = H
  tlb : TlbHolds (fun page e => pending = false → GrantOk arch m page e) m

variable {pending writing : Bool}

theorem Grants.of_same (h : Grants arch H m pending) (ht : pending = false → SameTables m m')
    (hcpu : m'.enabled = m.enabled) (hphandlers : m'.phandlers = m.phandlers)
    (htlb : m'.tlb = m.tlb) (hlinks : m'.links = m.links) : Grants arch H m' pending :=
  ⟨hcpu.trans h.enabled, hphandlers.trans h.phandlers,
    h.tlb.mono htlb hlinks fun _ _ he hp => (he hp).of_same (ht hp) hphandlers⟩

theorem Grants.of_unlinked (hen : m.enabled = true) (hH : m.phandlers = H)
    (h : ∀ page, (m.tlb page).Unlinked) (pending : Bool) : Grants arch H m pending :=
  ⟨hen, hH, .of_unlinked h⟩

theorem Grants.clearTLB {pending' : Bool} (h : Grants arch H m pending) :
    Grants arch H m.clearTLB pending' :=
  .of_unlinked (m := m.clearTLB) h.enabled h.phandlers h.tlb.clearTLB_unlinked pending'

theorem Grants.unlinkPages (h : Grants arch H m pending) (page : BitVec 20) (pages : Nat) :
    Grants arch H (m.unlinkPages page pages) pending := by
  obtain ⟨hcpu, hmem⟩ := sameCpu_unlinkPages m page pages
  refine ⟨hcpu.enabled.trans h.enabled, hcpu.phandlers.trans h.phandlers, ?_⟩
  refine (h.tlb.unlinkPages page pages).mono rfl rfl fun _ _ he hp => ?_
  exact (he hp).of_same (.of_memory hmem hcpu.base_page) hcpu.phandlers

theorem framed_grants (arch : ArchitectureType) (H : BitVec 20 → PageHandler) :
    Framed fun m => Grants arch H m false where
  cpu _ _ _ _ h := h.of_same (fun _ => .of_memory rfl rfl) rfl rfl rfl rfl
  unlinkPages _ page pages h := h.unlinkPages page pages
  unpaged m page hen h := absurd h.enabled (by simp [hen])

/-! ## What the guest keeps to -/

/-- The handlers of an access have made the page usable: the copies of the walk are good for
what the last one left, after a protection fault the user may write the page, and after another
fault the permissions in the copy of the directory entry are the current ones. -/
structure Healed (arch : ArchitectureType) (m : Machine) (raised : List Faulted)
    (page : BitVec 20) (leaves : Prop) : Prop where
  leaves : leaves
  granted : (raised.any fun f => f.cause = .protection) = true →
    (leftBy raised m).UserMay arch page ∧ (leftBy raised m).Writable page
  directory : (raised.any fun f => f.cause = .protection) = false →
    ((leftBy raised m).dirEntry page).unmarked = (tableCopy m raised page).unmarked

/-- Every walk of the access that faults is healed by the guest's handlers. -/
def Heals (arch : ArchitectureType) (guest : Guest) (lin_addr : BitVec 32) (writing : Bool)
    (m : Machine) : Prop :=
  (∀ l, InitPage.initPage arch guest lin_addr writing m = .ok l → l.raised ≠ [] →
    Healed arch m l.raised (linPage lin_addr)
      (InitPage.HandlersLeave arch writing m l.raised (linPage lin_addr))) ∧
  ∀ l, UserRO.initPage guest lin_addr m = .ok l → l.raised ≠ [] →
    Healed arch m l.raised (linPage lin_addr)
      (UserRO.HandlersLeave m l.raised (linPage lin_addr))

/-- A guest that follows every change of a page-table entry by a flush. -/
def flushing : Discipline where
  meets ev _ :=
    match ev with
    | .codePage .. | .forcePageInit .. | .release .. => False
    | _ => True
  stale before after := ¬ SameTables before after

/-- The guest that the emulator serves: its page-fault handlers heal the access, it does not
write to device memory that is linked for reading only, and a page is linked from outside only
to its frame and when the user may write it. -/
def healing (arch : ArchitectureType) : Discipline where
  meets ev m :=
    flushing.meets ev m ∧
      match ev with
      | .read lin_addr _ guest => Heals arch guest lin_addr false m
      | .write lin_addr _ _ guest =>
        Heals arch guest lin_addr true m ∧
          (LinkedReadOnly m (linPage lin_addr) →
            (m.phandlers (m.frame (linPage lin_addr))).flags.readable = true)
      | .linkPage page phys_page =>
        m.UserMay arch page ∧ m.Writable page ∧ phys_page = m.frame page
      | _ => True
  stale := flushing.stale

/-! ## The walk of an access -/

/-- What `priv_check` says when no check failed. -/
theorem privCheck_passes (hstrict : arch ∈ strictArchitectures) {user : Bool}
    {table entry : X86PageEntry} (h : privCheck arch writing user table entry ≠ 3) :
    (user = true → initPageCheckUseraccess arch entry.us table.us = false) ∧
    (user = true → writing = true → entry.wr = true ∧ table.wr = true) ∧
    (privCheck arch writing user table entry = 0 →
      initPageCheckUseraccess arch entry.us table.us = false ∧ entry.wr = true ∧
        table.wr = true) ∧
    (privCheck arch writing user table entry ≠ 0 →
      privCheck arch writing user table entry ≠ 1 →
      initPageCheckUseraccess arch entry.us table.us = false ∧
        ¬ (entry.wr = true ∧ table.wr = true)) := by
  have hlate (n : Nat) : latePrivilegeCheck arch n = n := by
    simp only [strictArchitectures, List.mem_cons, List.not_mem_nil, or_false] at hstrict
    rcases hstrict with rfl | rfl | rfl | rfl | rfl <;> rfl
  revert h
  simp only [privCheck, hlate]
  cases initPageCheckUseraccess arch entry.us table.us <;> cases writing <;> cases user <;>
    cases entry.wr <;> cases table.wr <;> simp

/-- What the walk of an access leaves: a machine in which the copies can be used, and a value of
`priv_check` that fits its tables. -/
structure WalkOk (arch : ArchitectureType) (H : BitVec 20 → PageHandler) (m : Machine)
    (page : BitVec 20) (writing : Bool) (priv : Nat) (w : Walk) : Prop where
  grants : Grants arch H w.m false
  fresh : Fresh page (writing || priv = 0) w.table w.entry w.m
  unprotected : priv = 0 → w.m.UserMay arch page ∧ w.m.Writable page
  writeProtected : priv ≠ 0 → priv ≠ 1 → w.m.UserMay arch page ∧ ¬ w.m.Writable page
  user : m.user = true → w.m.UserMay arch page ∧ (writing = true → w.m.Writable page)
  quiet : w.raised = [] → w.m = m

/-- Copies that are the current entries are good enough. -/
theorem Fresh.of_current {dirty : Bool} {table entry : X86PageEntry}
    (htable : table = m.dirEntry page) (hentry : entry = m.tabEntry page) :
    Fresh page dirty table entry m := by
  refine ⟨congrArg X86PageEntry.base hentry, fun _ => .inr ?_, fun _ => ?_⟩
  · exact htable ▸ ⟨rfl, fun _ => rfl, id⟩
  · have hcurrent : m.entryAt (tabAddr table.base page) = entry := by rw [hentry, htable]; rfl
    rw [hcurrent]
    exact ⟨rfl, fun _ => rfl, fun h => by simp [h]⟩

theorem walk_ok (hstrict : arch ∈ strictArchitectures) {guest : Guest} {lin_addr : BitVec 32}
    {priv : Nat} {w : Walk} (h : Grants arch H m false)
    (hguest : GuestKeeps (fun m => Grants arch H m false) guest)
    (hheals : Heals arch guest lin_addr writing m)
    (hw : InitPage.walk arch guest lin_addr writing m = .ok (priv, w)) :
    WalkOk arch H m (linPage lin_addr) writing priv w := by
  have hgrants : Grants arch H w.m false := (keeps_walk (framed_grants arch H) hguest h ..).1 _ hw
  have hlinked : InitPage.initPage arch guest lin_addr writing m =
      .ok (InitPage.finish lin_addr writing priv w) := by
    simp only [InitPage.initPage, h.enabled, if_true]
    exact bind_ok.2 ⟨_, hw, rfl⟩
  obtain ⟨hcopies, hdirty⟩ := walk_copies hw
  have hhealed (hraised : w.raised ≠ []) : Healed arch m w.raised (linPage lin_addr)
      (Fresh (linPage lin_addr) (writing || priv = 0) w.table w.entry w.m) := by
    have := hheals.1 _ hlinked hraised
    rw [hdirty, hcopies.table, hcopies.entry, hcopies.left]
    exact this
  obtain ⟨w₀, hw₀, hpriv⟩ := bind_ok.1 hw
  have hchecked := checkPresence_checked hw₀
  simp only [InitPage.checkPrivilege] at hpriv
  split at hpriv
  · -- a protection fault, which the handler has answered by granting the page
    obtain ⟨f, hf, hpriv⟩ := bind_ok.1 hpriv
    cases hpriv
    obtain ⟨hcause, -⟩ := pageFault_ok hf
    have hraised : w₀.raised ++ [f] ≠ [] := by simp
    have hgranted := (hhealed hraised).granted (by simp [hcause])
    rw [← hcopies.left] at hgranted
    exact ⟨hgrants, (hhealed hraised).leaves, fun _ => hgranted, fun h0 => absurd rfl h0,
      fun _ => ⟨hgranted.1, fun _ => hgranted.2⟩, fun hnil => absurd hnil hraised⟩
  · next hpass =>
    cases hpriv
    -- no protection fault: the permissions of the copies are the current ones
    have hdirectory : (w.m.dirEntry (linPage lin_addr)).unmarked = w.table.unmarked := by
      by_cases hnil : w.raised = []
      · rw [(hchecked.quiet hnil).1, (hchecked.quiet hnil).2]
      · have := (hhealed hnil).directory hchecked.unprotected
        rwa [← hcopies.left, ← hcopies.table] at this
    obtain ⟨hdp, hdwr, hdus, hdbase⟩ := unmarked_fields hdirectory
    have hentry : w.entry = w.m.tabEntry (linPage lin_addr) := by
      rw [hchecked.entry, Machine.tabEntry, hdbase]
    have hmay (hacc : initPageCheckUseraccess arch w.entry.us w.table.us = false) :
        w.m.UserMay arch (linPage lin_addr) :=
      ⟨hdp.trans hchecked.tablePresent, hentry ▸ hchecked.entryPresent, by rwa [← hentry, hdus]⟩
    have hwritable : w.m.Writable (linPage lin_addr) ↔ w.entry.wr = true ∧ w.table.wr = true := by
      rw [Machine.Writable, ← hentry, hdwr]
    obtain ⟨hua, huw, h0, h2⟩ := privCheck_passes hstrict hpass
    refine ⟨hgrants, ?_, fun hp => ?_, fun hp hp' => ?_, fun hu => ?_, fun hnil => ?_⟩
    · by_cases hnil : w.raised = []
      · obtain ⟨hwm, hwt⟩ := hchecked.quiet hnil
        exact .of_current (hwm ▸ hwt) hentry
      · exact (hhealed hnil).leaves
    · exact ⟨hmay (h0 hp).1, hwritable.2 (h0 hp).2⟩
    · exact ⟨hmay (h2 hp hp').1, fun hw => (h2 hp hp').2 (hwritable.1 hw)⟩
    · rw [← hchecked.user] at hu
      exact ⟨hmay (hua hu), fun hwr => hwritable.2 (huw hu hwr)⟩
    · exact (hchecked.quiet hnil).1

/-! ## Links that the tables grant -/

theorem sameTables_link (m : Machine) (page : BitVec 20) (e : TlbEntry) :
    SameTables m (m.setLink page e) :=
  .of_memory (by simp) (sameCpu_setLink m page e).base_page

theorem Grants.setLink (h : Grants arch H m pending) {e : TlbEntry} (he : GrantOk arch m page e) :
    Grants arch H (m.setLink page e) pending := by
  have hcpu := sameCpu_setLink m page e
  refine ⟨hcpu.enabled.trans h.enabled, hcpu.phandlers.trans h.phandlers,
    (h.tlb.setLink fun _ => he).mono rfl rfl ?_⟩
  exact fun _ _ he hp => (he hp).of_same (sameTables_link ..) hcpu.phandlers

theorem grantOk_full (huser : m.UserMay arch page) (hwritable : m.Writable page) :
    GrantOk arch m page
      { phys_page := m.frame page
        read := (m.phandlers (m.frame page)).readPt (m.frame page)
        write := (m.phandlers (m.frame page)).writePt (m.frame page)
        readhandler := .page (m.phandlers (m.frame page))
        writehandler := .page (m.phandlers (m.frame page)) } :=
  ⟨huser, rfl, rfl, rfl, .inl ⟨hwritable, rfl, rfl⟩⟩

theorem grantOk_readOnly (huser : m.UserMay arch page) (hprotected : ¬ m.Writable page) :
    GrantOk arch m page
      { phys_page := m.frame page
        read := (m.phandlers (m.frame page)).readPt (m.frame page)
        write := none
        readhandler := .page (m.phandlers (m.frame page))
        writehandler := .init_page_handler_userro } :=
  ⟨huser, rfl, rfl, rfl, .inr ⟨hprotected, rfl, rfl⟩⟩

theorem Grants.linkPage (h : Grants arch H m pending) (huser : m.UserMay arch page)
    (hwritable : m.Writable page) :
    Grants arch H (m.linkPage page (m.frame page)) pending :=
  h.setLink (grantOk_full huser hwritable)

theorem Grants.linkPageReadOnly (h : Grants arch H m false) (huser : m.UserMay arch page)
    (hprotected : ¬ m.Writable page) :
    Grants arch H (m.linkPageReadOnly page (m.frame page)) false :=
  h.setLink (grantOk_readOnly huser hprotected)

/-- A page linked for one supervisor access is unlinked after it, and linked again for reading
only when the user may read it. -/
theorem Grants.updateLink (h : Grants arch H m false) {relink : Nat} (hrelink : relink ≠ 0)
    (hro : 1 < relink → m.UserMay arch page ∧ ¬ m.Writable page ∧
      BitVec.ofNat 20 relink = m.frame page) (phys_page : BitVec 20) :
    Grants arch H (initPageUpdateLink relink page (m.linkPage page phys_page)) false := by
  obtain ⟨hcpu, hmem⟩ := sameCpu_updateLink relink page (m.linkPage page phys_page)
  have hall : SameCpu m (initPageUpdateLink relink page (m.linkPage page phys_page)) :=
    (sameCpu_setLink ..).trans hcpu
  have hsame : SameTables m (initPageUpdateLink relink page (m.linkPage page phys_page)) :=
    .of_memory (hmem.trans (linkPage_memory ..)) hall.base_page
  refine ⟨hall.enabled.trans h.enabled, hall.phandlers.trans h.phandlers, TlbHolds.mono
    (h.tlb.relink hrelink fun hgt m' hphandlers hm' => hm'.setLink fun _ => ?_) rfl rfl
    fun _ _ he hp => (he hp).of_same hsame hall.phandlers⟩
  obtain ⟨huser, hprotected, hframe⟩ := hro hgt
  rw [hphandlers, hframe]
  exact grantOk_readOnly huser hprotected

theorem Grants.leftAs {phys_page : BitVec 20} {priv : Nat} (h : Grants arch H m false)
    (hphys : phys_page = m.frame page) (hfull : priv = 0 → m.UserMay arch page ∧ m.Writable page)
    (hprotected : priv ≠ 0 → priv ≠ 1 → m.UserMay arch page ∧ ¬ m.Writable page)
    (hleft : LeftAs page phys_page priv writing m m') : Grants arch H m' false := by
  subst hphys
  cases hleft with
  | linked hpriv => exact h.linkPage (hfull hpriv).1 (hfull hpriv).2
  | unlinked relink hpriv hrelink hro =>
    refine h.updateLink hrelink (fun hgt => ?_) _
    obtain ⟨hpriv', -, hframe⟩ := hro hgt
    exact ⟨(hprotected hpriv hpriv').1, (hprotected hpriv hpriv').2, hframe⟩
  | readOnly hpriv hpriv' _ =>
    exact h.linkPageReadOnly (hprotected hpriv hpriv').1 (hprotected hpriv hpriv').2

theorem sameTables_leftAs {phys_page : BitVec 20} {priv : Nat}
    (hleft : LeftAs page phys_page priv writing m m') : SameTables m m' :=
  .of_memory hleft.same.2 hleft.same.1.base_page

/-! ## One access -/

/-- The physical page that an access reached. -/
def Touch.reached : Touch → Option (BitVec 20)
  | .host page | .handler _ page => some page
  | .null => none

@[simp] theorem reach_reached (handler : PageHandler) (phys_page : BitVec 20) (writing : Bool) :
    (handler.reach phys_page writing).reached = some phys_page := by
  unfold PageHandler.reach
  cases writing
  · simp only [Bool.false_eq_true, if_false]
    split
    · next h => exact congrArg some (readPt_eq h)
    · rfl
  · simp only [if_true]
    split
    · next h => exact congrArg some (writePt_eq h)
    · rfl

/-- **What an access should be**: it touches the frame that the tables give the page, it serves
the user only as the tables let it, and what they forbid the user faults. -/
structure AccessRight (arch : ArchitectureType) (m : Machine) (page : BitVec 20)
    (writing : Bool) (a : Access) : Prop where
  place : ∀ t, a.touched = some t → t.reached = some (a.m.frame page)
  granted : m.user = true → ∀ t, a.touched = some t →
    a.m.UserMay arch page ∧ (writing = true → a.m.Writable page)
  fault : m.user = true → ¬ m.UserMay arch page ∨ (writing = true ∧ ¬ m.Writable page) →
    a.raised ≠ [] ∨ a.touched = none

/-- An access that raised no fault serves the user only as the tables let it. -/
theorem AccessRight.of_granted {a : Access}
    (hplace : ∀ t, a.touched = some t → t.reached = some (a.m.frame page))
    (hgranted : m.user = true → a.m.UserMay arch page ∧ (writing = true → a.m.Writable page))
    (hquiet : a.raised = [] → SameTables a.m m) : AccessRight arch m page writing a := by
  refine ⟨hplace, fun hu _ _ => hgranted hu, fun hu hforbidden => ?_⟩
  by_cases hraised : a.raised = []
  · have hsame := hquiet hraised
    obtain ⟨hmay, hwritable⟩ := hgranted hu
    rcases hforbidden with hno | ⟨hwr, hno⟩
    · exact absurd (hsame.userMay hmay) hno
    · exact absurd (hsame.writable_iff.2 (hwritable hwr)) hno
  · exact .inl hraised

theorem SameTables.symm (h : SameTables m m') : SameTables m' m :=
  ⟨fun page => (h.directory page).symm, fun page => (h.table page).symm⟩

theorem Walk.sameTables_marked {w : Walk} {dirty : Bool}
    (h : Fresh page dirty w.table w.entry w.m) : SameTables w.m (w.marked page dirty) :=
  ((memMarks_mark_iff ..).2 ⟨h.tableMarks, h.entryMarks⟩).sameTables
    (marked_same w page dirty).1.base_page

section Access

variable {guest : Guest} {lin_addr : BitVec 32} {a : Access}

theorem access_grants (hstrict : arch ∈ strictArchitectures) {writing : Bool}
    (h : Grants arch H m false) (hguest : GuestKeeps (fun m => Grants arch H m false) guest)
    (hheals : Heals arch guest lin_addr writing m)
    (hok : InitPage.access arch guest lin_addr writing m = .ok a) :
    Grants arch H a.m false ∧ AccessRight arch m (linPage lin_addr) writing a := by
  obtain ⟨priv, w, hw, hraised, htouched, hleft⟩ := access_paged h.enabled hok
  have hwalk := walk_ok hstrict h hguest hheals hw
  have hmarked := Walk.sameTables_marked hwalk.fresh
  obtain ⟨hcpu, htlb, hlinks⟩ := marked_same w (linPage lin_addr) (writing || priv = 0)
  have hgrants : Grants arch H (w.marked (linPage lin_addr) (writing || priv = 0)) false :=
    hwalk.grants.of_same (fun _ => hmarked) hcpu.enabled hcpu.phandlers htlb hlinks
  have hframe : w.entry.base = (w.marked (linPage lin_addr) (writing || priv = 0)).frame
      (linPage lin_addr) := hwalk.fresh.frame.trans hmarked.frame.symm
  have hleftSame := hmarked.trans (sameTables_leftAs hleft)
  refine ⟨hgrants.leftAs hframe (fun hp => ?_) (fun hp hp' => ?_) hleft, .of_granted ?_ ?_ ?_⟩
  · exact ⟨hmarked.userMay (hwalk.unprotected hp).1,
      hmarked.writable_iff.2 (hwalk.unprotected hp).2⟩
  · exact ⟨hmarked.userMay (hwalk.writeProtected hp hp').1,
      fun hwr => (hwalk.writeProtected hp hp').2 (hmarked.writable_iff.1 hwr)⟩
  · intro t ht
    rw [htouched] at ht
    cases ht
    rw [reach_reached, hwalk.fresh.frame, hleftSame.frame]
  · intro hu
    obtain ⟨hmay, hwritable⟩ := hwalk.user hu
    exact ⟨hleftSame.userMay hmay, fun hwr => hleftSame.writable_iff.2 (hwritable hwr)⟩
  · intro hnil
    have := hwalk.quiet (hraised ▸ hnil)
    exact this ▸ hleftSame.symm

/-- The entry of a linked page is one that the tables grant. -/
theorem Grants.linked (h : Grants arch H m false) (hlinked : ¬ (m.tlb page).Unlinked) :
    GrantOk arch m page (m.tlb page) := h.tlb.holds page hlinked rfl

theorem ne_unlinked_of_read
    (h : ¬ ((m.tlb page).read = none ∧ (m.tlb page).readhandler = .init_page_handler)) :
    ¬ (m.tlb page).Unlinked :=
  fun hunlinked => h ⟨congrArg TlbEntry.read hunlinked, congrArg TlbEntry.readhandler hunlinked⟩

theorem ne_unlinked_of_write
    (h : ¬ ((m.tlb page).write = none ∧ (m.tlb page).writehandler = .init_page_handler)) :
    ¬ (m.tlb page).Unlinked :=
  fun hunlinked => h ⟨congrArg TlbEntry.write hunlinked, congrArg TlbEntry.writehandler hunlinked⟩

/-- A touch through the pointer or the handler of a linked entry. -/
theorem linkedTouch_reached {pt : Option (BitVec 20)} {handler : PageHandler}
    {phys_page : BitVec 20} {t : Touch} (hpt : ∀ q, pt = some q → q = phys_page)
    (h : linkedTouch pt (.page handler) phys_page = .ok t) : t.reached = some phys_page := by
  cases pt with
  | some q =>
    cases h
    exact congrArg some (hpt q rfl)
  | none =>
    cases h
    rfl

theorem memRead_grants (hstrict : arch ∈ strictArchitectures) (h : Grants arch H m false)
    (hguest : GuestKeeps (fun m => Grants arch H m false) guest)
    (hheals : Heals arch guest lin_addr false m) (hok : memRead arch guest lin_addr m = .ok a) :
    Grants arch H a.m false ∧ AccessRight arch m (linPage lin_addr) false a := by
  simp only [memRead] at hok
  split at hok
  · exact access_grants hstrict h hguest hheals hok
  · next hlinked =>
    obtain ⟨t, ht, hok⟩ := bind_ok.1 hok
    cases hok
    have hgrant := h.linked (ne_unlinked_of_read hlinked)
    refine ⟨h, .of_granted ?_ (fun _ => ⟨hgrant.user, fun h => absurd h Bool.false_ne_true⟩) fun _ => .of_memory rfl rfl⟩
    intro t' ht'
    cases ht'
    rw [Machine.readLinked, hgrant.readhandler] at ht
    rw [linkedTouch_reached (fun q hq => readPt_eq (hgrant.read ▸ hq)) ht, hgrant.phys_page]

theorem readPt_of_readable {handler : PageHandler} {phys_page : BitVec 20}
    (h : handler.flags.readable = true) : handler.readPt phys_page = some phys_page := by
  have hpt : handler.getHostReadPt phys_page = some phys_page := by
    induction handler with
    | ram | rom => rfl
    | device => cases h
    | code old big ih => exact ih h
  rw [PageHandler.readPt, if_pos h, hpt]

/-- A page that is linked has both entries present, so that its walk raises no fault. -/
theorem checkPresence_present {writing : Bool} (h : m.UserMay arch (linPage lin_addr)) :
    initPageCheckPresence guest lin_addr writing m =
      .ok
        { table := m.dirEntry (linPage lin_addr), entry := m.tabEntry (linPage lin_addr), m
          raised := [] } := by
  have hd := h.directory
  have ht := h.table
  simp only [Machine.dirEntry, Machine.tabEntry] at hd ht
  simp only [initPageCheckPresence, readPresent, hd, if_true, Bind.bind, Except.bind, ht,
    List.append_nil]
  rfl

/-- A write through the read-only handler: the supervisor's goes to the frame, the user's
faults first. -/
theorem userro_write_grants (h : Grants arch H m false)
    (hguest : GuestKeeps (fun m => Grants arch H m false) guest)
    (hheals : Heals arch guest lin_addr true m) (hro : LinkedReadOnly m (linPage lin_addr))
    (hreadable : (m.phandlers (m.frame (linPage lin_addr))).flags.readable = true)
    (hok : UserRO.write guest lin_addr m = .ok a) :
    Grants arch H a.m false ∧ AccessRight arch m (linPage lin_addr) true a := by
  have hlinked : ¬ (m.tlb (linPage lin_addr)).Unlinked := by
    refine ne_unlinked_of_write fun hinit => ?_
    rw [hro.2] at hinit
    cases hinit.2
  have hgrant := h.linked hlinked
  obtain ⟨l, hl, hok⟩ := bind_ok.1 hok
  cases hok
  have hl₀ := hl
  simp only [UserRO.initPage, h.enabled, if_true] at hl
  split at hl
  · -- the supervisor: nothing is marked, and the pointer for reading is that of the frame
    next huser =>
    cases hl
    refine ⟨h, ?_, fun hu => by simp [hu] at huser, fun hu => by simp [hu] at huser⟩
    intro t ht
    cases ht
    rw [hgrant.read, hgrant.phys_page, readPt_of_readable hreadable]
    rfl
  · obtain ⟨w, hw, hl⟩ := bind_ok.1 hl
    rw [checkPresence_present hgrant.user] at hw
    cases hw
    obtain ⟨f, hf, hl⟩ := bind_ok.1 hl
    cases hl
    obtain ⟨hcause, hret⟩ := pageFault_ok hf
    have hafter : Grants arch H f.after false :=
      (keeps_pageFault (framed_grants arch H) hguest h _ _).1 f hf
    have hhealed := hheals.2 _ hl₀ (List.cons_ne_nil _ _)
    have hgranted := hhealed.granted (by simp [hcause])
    have hfresh : Fresh (linPage lin_addr) true (m.dirEntry (linPage lin_addr))
        (m.tabEntry (linPage lin_addr)) f.after := by
      have hleaves := hhealed.leaves
      simp only [UserRO.HandlersLeave, tableCopy, entryCopy, afterOf, leftBy, hcause,
        List.nil_append, List.find?_cons, reduceCtorEq, decide_false, List.find?_nil,
        Option.elim_none, List.getLast?_singleton, Option.elim_some] at hleaves
      exact hleaves
    have hmay : f.after.UserMay arch (linPage lin_addr) ∧ f.after.Writable (linPage lin_addr) := by
      simpa [leftBy] using hgranted
    let w : Walk := ⟨m.dirEntry (linPage lin_addr), m.tabEntry (linPage lin_addr), f.after, [f]⟩
    have hmarked := Walk.sameTables_marked (w := w) hfresh
    obtain ⟨hcpu, htlb, hlinks⟩ := marked_same w (linPage lin_addr) true
    have hgrants : Grants arch H (w.marked (linPage lin_addr) true) false :=
      hafter.of_same (fun _ => hmarked) hcpu.enabled hcpu.phandlers htlb hlinks
    have hframe : (m.tabEntry (linPage lin_addr)).base =
        (w.marked (linPage lin_addr) true).frame (linPage lin_addr) :=
      hfresh.frame.trans hmarked.frame.symm
    have hmay' := And.intro (hmarked.userMay hmay.1) (hmarked.writable_iff.2 hmay.2)
    have hfinal := hgrants.linkPage hmay'.1 hmay'.2
    have hsame := sameTables_link (w.marked (linPage lin_addr) true) (linPage lin_addr)
    rw [← hframe] at hfinal
    refine ⟨hfinal, ?_, fun _ _ _ => ?_, fun _ _ => .inl (by simp)⟩
    · intro t ht
      cases ht
      have hread : ((w.marked (linPage lin_addr) true).phandlers
          (m.tabEntry (linPage lin_addr)).base).flags.readable = true := by
        rw [hgrants.phandlers, ← h.phandlers]
        exact hreadable
      have hpt : (((w.marked (linPage lin_addr) true).linkPage (linPage lin_addr)
          (m.tabEntry (linPage lin_addr)).base).tlb (linPage lin_addr)).read =
            some (m.tabEntry (linPage lin_addr)).base := by
        simp only [Machine.linkPage, setLink_tlb_self]
        exact readPt_of_readable hread
      exact (congrArg (fun pt => (Touch.ofPt pt).reached) hpt).trans
        (congrArg some (hframe.trans (hsame _).frame.symm))
    · exact ⟨(hsame _).userMay hmay'.1, fun _ => (hsame _).writable_iff.2 hmay'.2⟩

theorem memWrite_grants (hstrict : arch ∈ strictArchitectures) (h : Grants arch H m false)
    (hguest : GuestKeeps (fun m => Grants arch H m false) guest)
    (hheals : Heals arch guest lin_addr true m)
    (hreadable : LinkedReadOnly m (linPage lin_addr) →
      (m.phandlers (m.frame (linPage lin_addr))).flags.readable = true)
    (hok : memWrite arch guest lin_addr m = .ok a) :
    Grants arch H a.m false ∧ AccessRight arch m (linPage lin_addr) true a := by
  simp only [memWrite] at hok
  split at hok
  · exact access_grants hstrict h hguest hheals hok
  · next hlinked =>
    split at hok
    · next hro => exact userro_write_grants h hguest hheals hro (hreadable hro) hok
    · next hnro =>
      obtain ⟨t, ht, hok⟩ := bind_ok.1 hok
      cases hok
      have hgrant := h.linked (ne_unlinked_of_write hlinked)
      rcases hgrant.write with ⟨hwritable, hhandler, hpt⟩ | ⟨-, hhandler, hpt⟩
      · refine ⟨h, .of_granted ?_ (fun _ => ⟨hgrant.user, fun _ => hwritable⟩)
          fun _ => .of_memory rfl rfl⟩
        intro t' ht'
        cases ht'
        rw [Machine.writeLinked, hhandler] at ht
        rw [linkedTouch_reached (fun q hq => writePt_eq (hpt ▸ hq)) ht, hgrant.phys_page]
      · exact absurd ⟨hpt, hhandler⟩ hnro

/-- An access that reports a fault to the core touches nothing. -/
theorem AccessRight.of_none {writing : Bool} (h : a.touched = none) :
    AccessRight arch m page writing a := by
  refine ⟨fun t ht => ?_, fun _ t ht => ?_, fun _ _ => .inr h⟩
  · cases h.symm.trans ht
  · cases h.symm.trans ht

theorem memReadChecked_grants (hstrict : arch ∈ strictArchitectures) (h : Grants arch H m false)
    (hguest : GuestKeeps (fun m => Grants arch H m false) guest)
    (hheals : Heals arch guest lin_addr false m)
    (hok : memReadChecked arch guest lin_addr m = .ok a) :
    Grants arch H a.m false ∧ AccessRight arch m (linPage lin_addr) false a := by
  simp only [memReadChecked] at hok
  split at hok
  · split at hok
    · next hpass =>
      rw [checkOnly_true h.enabled hpass] at hok
      exact memRead_grants hstrict h hguest hheals hok
    · cases hok
      exact ⟨checkOnly_keeps (framed_grants arch H) h false, .of_none rfl⟩
  · exact memRead_grants hstrict h hguest hheals hok

/-- A checked write through the read-only handler passes for the supervisor alone: the tables
that made the link do not let the user write. -/
theorem userro_writeChecked_grants (h : Grants arch H m false)
    (hro : LinkedReadOnly m (linPage lin_addr))
    (hreadable : (m.phandlers (m.frame (linPage lin_addr))).flags.readable = true) :
    Grants arch H (UserRO.writeChecked arch lin_addr m).m false ∧
      AccessRight arch m (linPage lin_addr) true (UserRO.writeChecked arch lin_addr m) := by
  have hlinked : ¬ (m.tlb (linPage lin_addr)).Unlinked := by
    refine ne_unlinked_of_write fun hinit => ?_
    rw [hro.2] at hinit
    cases hinit.2
  have hgrant := h.linked hlinked
  cases huser : m.user with
  | false =>
    have hcheck : UserRO.checkOnly arch lin_addr m = (2, m) := by
      simp [UserRO.checkOnly, h.enabled, huser]
    simp only [UserRO.writeChecked, hcheck]
    refine ⟨h, ?_, fun hu => by simp [hu] at huser, fun hu => by simp [hu] at huser⟩
    intro t ht
    cases ht
    rw [if_pos (by decide), hgrant.read, hgrant.phys_page, readPt_of_readable hreadable]
    rfl
  | true =>
    have hnotWritable : ¬ m.Writable (linPage lin_addr) := by
      rcases hgrant.write with ⟨-, hhandler, -⟩ | ⟨hno, -, -⟩
      · rw [hro.2] at hhandler
        cases hhandler
      · exact hno
    have hd := hgrant.user.directory
    have ht := hgrant.user.table
    have hpresence : initPageCheckPresenceCheckOnly lin_addr true m =
        .ok (m.dirEntry (linPage lin_addr), m.tabEntry (linPage lin_addr)) := by
      simp only [Machine.dirEntry, Machine.tabEntry] at hd ht
      simp only [initPageCheckPresenceCheckOnly, hd, ht, Bool.not_true, Bool.false_eq_true,
        if_false, Machine.dirEntry, Machine.tabEntry]
    have hdenied : (initPageCheckUseraccess arch (m.tabEntry (linPage lin_addr)).us
          (m.dirEntry (linPage lin_addr)).us ||
        (!(m.tabEntry (linPage lin_addr)).wr || !(m.dirEntry (linPage lin_addr)).wr)) = true := by
      rw [Machine.Writable] at hnotWritable
      cases hw : (m.tabEntry (linPage lin_addr)).wr <;>
        cases hw' : (m.dirEntry (linPage lin_addr)).wr <;> simp_all
    have hcheck : UserRO.checkOnly arch lin_addr m = (0, m.exception lin_addr 0x07) := by
      simp only [UserRO.checkOnly, h.enabled, huser, hpresence, hdenied, if_true, Bool.not_true,
        Bool.false_eq_true, if_false]
    simp only [UserRO.writeChecked, hcheck]
    exact ⟨(framed_grants arch H).cpu m m.mpl lin_addr 0x07 h, .of_none rfl⟩

theorem memWriteChecked_grants (hstrict : arch ∈ strictArchitectures) (h : Grants arch H m false)
    (hguest : GuestKeeps (fun m => Grants arch H m false) guest)
    (hheals : Heals arch guest lin_addr true m)
    (hreadable : LinkedReadOnly m (linPage lin_addr) →
      (m.phandlers (m.frame (linPage lin_addr))).flags.readable = true)
    (hok : memWriteChecked arch guest lin_addr m = .ok a) :
    Grants arch H a.m false ∧ AccessRight arch m (linPage lin_addr) true a := by
  simp only [memWriteChecked] at hok
  split at hok
  · split at hok
    · next hpass =>
      rw [checkOnly_true h.enabled hpass] at hok
      exact memWrite_grants hstrict h hguest hheals hreadable hok
    · cases hok
      exact ⟨checkOnly_keeps (framed_grants arch H) h true, .of_none rfl⟩
  · split at hok
    · next hro =>
      cases hok
      exact userro_writeChecked_grants h hro (hreadable hro)
    · exact memWrite_grants hstrict h hguest hheals hreadable hok

end Access

/-! ## Runs -/

/-- An access of an event: its address and whether it writes. -/
inductive Event.AccessesAt : Event → BitVec 32 → Bool → Prop
  | read (lin_addr : BitVec 32) (checked : Bool) (guest : Guest) :
    Event.AccessesAt (.read lin_addr checked guest) lin_addr false
  | write (lin_addr : BitVec 32) (values : List (BitVec 8)) (checked : Bool) (guest : Guest) :
    Event.AccessesAt (.write lin_addr values checked guest) lin_addr true

/-- **Every access of a healing guest is right**, and leaves the TLB so. -/
theorem exec_grants (hstrict : arch ∈ strictArchitectures) (h : Grants arch H m false) {ev : Event}
    {lin_addr : BitVec 32} (hat : ev.AccessesAt lin_addr writing)
    (hmeets : (healing arch).meets ev m)
    (hguest : GuestKeeps (fun m => Grants arch H m false) ev.guest) {a : Access}
    (hok : ev.exec arch m = .ok a) :
    Grants arch H a.m false ∧ AccessRight arch m (linPage lin_addr) writing a := by
  cases hat with
  | read lin_addr checked guest =>
    cases checked
    · exact memRead_grants hstrict h hguest hmeets.2 hok
    · exact memReadChecked_grants hstrict h hguest hmeets.2 hok
  | write lin_addr values checked guest =>
    cases checked
    · exact memWrite_grants hstrict h hguest hmeets.2.1 hmeets.2.2 hok
    · exact memWriteChecked_grants hstrict h hguest hmeets.2.1 hmeets.2.2 hok

/-- Storing the bytes of an event keeps the invariant, with a flush pending if need be. -/
theorem Grants.settle {ev : Event} {a : Access} {pending' : Bool} (h : Grants arch H a.m pending)
    (hpending : pending = true → pending' = true)
    (hstale : ¬ SameTables a.m (ev.settle a) → pending' = true) :
    Grants arch H (ev.settle a) pending' := by
  obtain ⟨hcpu, htlb, hlinks⟩ := settle_same ev a
  refine ⟨hcpu.enabled.trans h.enabled, hcpu.phandlers.trans h.phandlers,
    h.tlb.mono htlb hlinks fun page e he hclean => ?_⟩
  have hbefore : pending = false := by
    by_contra hne
    rw [hpending (by simpa using hne)] at hclean
    cases hclean
  have hsame : SameTables a.m (ev.settle a) := by
    by_contra hne
    rw [hstale hne] at hclean
    cases hclean
  exact (he hbefore).of_same hsame hcpu.phandlers

theorem grants_kept (hstrict : arch ∈ strictArchitectures) (H : BitVec 20 → PageHandler) :
    KeptByEvents arch (healing arch) (Grants arch H) := by
  intro m b ev a b' h hclean hmeets hguest hok hpending
  have haccess {lin_addr : BitVec 32} {writing : Bool} (hat : ev.AccessesAt lin_addr writing)
      (hb : b = false) : Grants arch H (ev.settle a) b' := by
    subst hb
    exact (exec_grants hstrict h hat hmeets hguest hok).1.settle nofun hpending.1
  -- an event that is not a flush keeps what is pending
  have hquiet (hflush : ev.flushes = false) (ha : Grants arch H a.m b) :
      Grants arch H (ev.settle a) b' :=
    ha.settle (fun hb => hpending.2 hb hflush) hpending.1
  cases ev with
  | read lin_addr checked guest => exact haccess (.read ..) (hclean rfl)
  | write lin_addr values checked guest => exact haccess (.write ..) (hclean rfl)
  | codePage | forcePageInit | release => exact hmeets.1.elim
  | privilege | poke =>
    cases hok
    exact hquiet rfl (h.of_same (fun _ => .of_memory rfl rfl) rfl rfl rfl rfl)
  | clearTLB =>
    cases hok
    have hcleared : Grants arch H m.clearTLB false := h.clearTLB
    exact hcleared.settle nofun hpending.1
  | setDirBase cr3 =>
    cases hok
    have hmoved : Grants arch H { m with base_page := linPage cr3 } true :=
      ⟨h.enabled, h.phandlers, h.tlb.mono rfl rfl fun _ _ _ hp => absurd hp (by decide)⟩
    have hcleared : Grants arch H (m.setDirBase cr3) false := by
      have hset : m.setDirBase cr3 = { m with base_page := linPage cr3 }.clearTLB :=
        if_pos h.enabled
      rw [hset]
      exact hmoved.clearTLB
    exact hcleared.settle nofun hpending.1
  | linkPage page phys_page =>
    cases hok
    obtain ⟨hmay, hwritable, rfl⟩ := hmeets.2
    exact hquiet rfl (h.linkPage hmay hwritable)
  | unlinkPages page pages =>
    cases hok
    exact hquiet rfl (h.unlinkPages page pages)

/-- A machine that starts with paging on, an initialised TLB and given page handlers. -/
def StartsPaged (H : BitVec 20 → PageHandler) (m : Machine) : Prop :=
  m.Booted ∧ m.enabled = true ∧ m.phandlers = H

theorem grants_reachable (hstrict : arch ∈ strictArchitectures) {b : Bool}
    (h : Reachable arch (healing arch) (StartsPaged H) m b) : Grants arch H m b := by
  refine Reachable.invariant (fun m hm => .of_unlinked hm.2.1 hm.2.2 hm.1.unlinked false)
    (grants_kept hstrict H) ?_ h
  intro m ev fault before h hmeets hguest herr
  refine exec_entered (J := fun m => Grants arch H m false) (framed_grants arch H) h ?_ hguest herr
  intro hcode
  cases ev with
  | codePage | release => exact hmeets.1.elim
  | _ => cases hcode

/-- **The TLB grants no more than the page tables to a healing guest**: in every state of every
run, inside its page-fault handlers too, each access is right, and a flush leaves nothing but
initial entries. -/
theorem tlb_grants_no_more (hstrict : arch ∈ strictArchitectures) {b : Bool}
    (h : Reachable arch (healing arch) (StartsPaged H) m b) :
    (∀ page, (m.clearTLB.tlb page).Unlinked) ∧
    ∀ ev lin_addr writing a, Event.AccessesAt ev lin_addr writing → b = false →
      (healing arch).meets ev m →
      (∀ fault before after, ev.guest fault before = some after →
        Run arch (healing arch) before false after false) →
      ev.exec arch m = .ok a → AccessRight arch m (linPage lin_addr) writing a := by
  have hgrants := grants_reachable hstrict h
  refine ⟨hgrants.tlb.clearTLB_unlinked, fun ev lin_addr writing a hat hb hmeets hruns hok => ?_⟩
  subst hb
  exact (exec_grants hstrict hgrants hat hmeets
    (fun fault before after hafter =>
      (hruns fault before after hafter).preserves (grants_kept hstrict H)) hok).2

/-! ## A read by the user, and a copy on write -/

theorem userMachine_starts (tab : X86PageEntry) :
    StartsPaged (fun _ => .ram) (userMachine tab) := ⟨⟨fun _ => rfl, rfl⟩, rfl, rfl⟩

/-- The user reads a page that the tables let it read. -/
theorem tlb_grants_read :
    ∃ a, (Event.read 0 false neverReturns).exec .Pentium (userMachine (readOnlyEntry 5 true)) =
        .ok a ∧
      AccessRight .Pentium (userMachine (readOnlyEntry 5 true)) (linPage 0) false a := by
  have hheals : Heals .Pentium neverReturns 0 false (userMachine (readOnlyEntry 5 true)) := by
    constructor
    · intro l hl hraised
      cases hl
      exact absurd rfl hraised
    · intro l hl
      cases hl
  refine ⟨_, rfl, ?_⟩
  exact (tlb_grants_no_more (by decide) (.boot (userMachine_starts (readOnlyEntry 5 true)))).2 _
    _ _ _ (.read 0 false neverReturns) rfl ⟨trivial, hheals⟩ nofun rfl

/-- A page-fault handler that puts a new entry for page 0 in the table and flushes the TLB. -/
def remapAndFlush (tab : X86PageEntry) : Guest := fun _ m =>
  some (m.physWrited 8192 tab.get).clearTLB

/-- What it does is a run of a guest that flushes. -/
theorem remapAndFlush_runs (tab : X86PageEntry) (fault : Fault) (before after : Machine)
    (h : remapAndFlush tab fault before = some after) :
    Run .Pentium flushing before false after false := by
  cases h
  have hpoke : Run .Pentium flushing before false
      ((Event.poke 8192 tab.get).settle ⟨none, before, []⟩) true :=
    .step (.refl before false) nofun trivial nofun rfl ⟨fun _ => rfl, fun _ _ => rfl⟩
  have hclear : flushing.Pending .clearTLB true
      ⟨none, (before.physWrited 8192 tab.get).clearTLB, []⟩ false :=
    ⟨fun hstale => absurd (.of_memory rfl rfl) hstale, nofun⟩
  have hrun : Run .Pentium flushing before false
      (Event.clearTLB.settle ⟨none, (before.physWrited 8192 tab.get).clearTLB, []⟩) false :=
    .step hpoke nofun trivial nofun rfl hclear
  exact hrun

/-- **A stale frame is touched**: the user writes a write-protected page, the guest answers with
a copy on write to frame 6 and flushes the TLB, and the write goes to frame 5. -/
theorem stale_frame_touched :
    ∃ a, Reachable .Pentium flushing (StartsPaged fun _ => .ram)
        (userMachine (readOnlyEntry 5 true)) false ∧
      (∀ fault before after, remapAndFlush { readOnlyEntry 6 true with wr := true } fault before =
        some after → Run .Pentium flushing before false after false) ∧
      (Event.write 0 [1] false (remapAndFlush { readOnlyEntry 6 true with wr := true })).exec
        .Pentium (userMachine (readOnlyEntry 5 true)) = .ok a ∧
      a.touched = some (.host 5) ∧ a.m.frame (linPage 0) = 6 ∧
      ¬ AccessRight .Pentium (userMachine (readOnlyEntry 5 true)) (linPage 0) true a := by
  refine ⟨_, .boot (userMachine_starts _), remapAndFlush_runs _, rfl, rfl, by decide,
    fun h => ?_⟩
  have hplace := h.place _ rfl
  exact absurd hplace (by decide)

end AugraDosbox.Paging
