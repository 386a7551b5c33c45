import AugraDosbox.Cpu.PagingGrants

/-!
# Paging: the dirty bits

The emulator sets accessed and dirty bits when it links a page; later writes through the link
are not seen.  So a page that is linked for writing has to be dirty already.

* `DirtyOk` says so of an entry of the TLB.
* `marking` is a guest that flushes the TLB after it clears a dirty bit; `tidy` has the
  conditions under which no write is missed.
* `writes_are_marked`: in every run of a `tidy` guest a write that has completed has left the
  accessed and the dirty bit of its page set.
* `write_not_marked` is a run of a `marking` guest in which a supervisor's write is missed.
-/

namespace AugraDosbox.Paging

open Fallible

/-! ## What a link needs -/

/-- No page has lost its accessed or its dirty bit. -/
def KeepsMarks (m m' : Machine) : Prop := ∀ page,
  ((m.tabEntry page).a = true → (m'.tabEntry page).a = true) ∧
    ((m.tabEntry page).d = true → (m'.tabEntry page).d = true)

variable {m m' : Machine} {page : BitVec 20}

theorem MemMarks.keepsMarks (h : MemMarks m m') (hbase : m'.base_page = m.base_page) :
    KeepsMarks m m' := fun page => ⟨(h.tabEntry hbase page).a, (h.tabEntry hbase page).d⟩

theorem tabEntry_of_memory (hmem : m'.memory = m.memory) (hbase : m'.base_page = m.base_page)
    (page : BitVec 20) : m'.tabEntry page = m.tabEntry page := by
  simp only [Machine.tabEntry, Machine.dirEntry, Machine.entryAt, Machine.physReadd, hmem, hbase]

@[simp] theorem linkPage_tabEntry (m : Machine) (page phys_page q : BitVec 20) :
    (m.linkPage page phys_page).tabEntry q = m.tabEntry q :=
  tabEntry_of_memory (linkPage_memory ..) (sameCpu_setLink ..).base_page q

theorem KeepsMarks.of_memory (hmem : m'.memory = m.memory) (hbase : m'.base_page = m.base_page) :
    KeepsMarks m m' := fun page => by rw [tabEntry_of_memory hmem hbase]; exact ⟨id, id⟩

/-- A linked page is accessed, and dirty unless writes to it go to the read-only handler. -/
structure DirtyOk (m : Machine) (page : BitVec 20) (e : TlbEntry) : Prop where
  readhandler : e.readhandler ≠ .init_page_handler_userro
  accessed : (m.tabEntry page).a = true
  dirty : (m.tabEntry page).d = true ∨
    (e.write = none ∧ e.writehandler = .init_page_handler_userro)

theorem DirtyOk.of_keeps {e : TlbEntry} (h : DirtyOk m page e) (hkeeps : KeepsMarks m m') :
    DirtyOk m' page e :=
  ⟨h.readhandler, (hkeeps page).1 h.accessed, h.dirty.imp_left (hkeeps page).2⟩

/-- The invariant: paging is on and, unless a flush is pending, links are marked. -/
structure Marked (m : Machine) (pending : Bool) : Prop where
  enabled : m.enabled = true
  tlb : TlbHolds (fun page e => pending = false → DirtyOk m page e) m

variable {pending : Bool}

theorem Marked.of_keeps (h : Marked m pending) (hkeeps : pending = false → KeepsMarks m m')
    (henabled : m'.enabled = m.enabled) (htlb : m'.tlb = m.tlb) (hlinks : m'.links = m.links) :
    Marked m' pending :=
  ⟨henabled.trans h.enabled,
    h.tlb.mono htlb hlinks fun _ _ he hp => (he hp).of_keeps (hkeeps hp)⟩

theorem Marked.clearTLB {pending' : Bool} (h : Marked m pending) :
    Marked m.clearTLB pending' :=
  ⟨h.enabled, .of_unlinked h.tlb.clearTLB_unlinked⟩

theorem Marked.unlinkPages (h : Marked m pending) (page : BitVec 20) (pages : Nat) :
    Marked (m.unlinkPages page pages) pending := by
  obtain ⟨hcpu, hmem⟩ := sameCpu_unlinkPages m page pages
  refine ⟨hcpu.enabled.trans h.enabled, ?_⟩
  exact (h.tlb.unlinkPages page pages).mono rfl rfl fun _ _ he hp =>
    (he hp).of_keeps (.of_memory hmem hcpu.base_page)

theorem Marked.release (h : Marked m pending) (phys_page : BitVec 20) :
    Marked (m.release phys_page) pending := by
  unfold Machine.release
  split
  · exact Marked.clearTLB (h.of_keeps (fun _ => .of_memory rfl rfl) rfl rfl rfl)
  · exact h

theorem releaseKeeps_marked : ReleaseKeeps fun m => Marked m false := fun _ phys_page h =>
  h.release phys_page

theorem framed_marked : Framed fun m => Marked m false where
  cpu _ _ _ _ h := h.of_keeps (fun _ => .of_memory rfl rfl) rfl rfl rfl
  unlinkPages _ page pages h := h.unlinkPages page pages
  unpaged m page hen h := absurd h.enabled (by simp [hen])

theorem Marked.setLink (h : Marked m false) {e : TlbEntry} (he : DirtyOk m page e) :
    Marked (m.setLink page e) false := by
  have hcpu := sameCpu_setLink m page e
  refine ⟨hcpu.enabled.trans h.enabled, (h.tlb.setLink fun _ => he).mono rfl rfl ?_⟩
  exact fun _ _ he hp => (he hp).of_keeps (.of_memory (by simp) hcpu.base_page)

theorem Marked.linkPage (h : Marked m false) (ha : (m.tabEntry page).a = true)
    (hd : (m.tabEntry page).d = true) (phys_page : BitVec 20) :
    Marked (m.linkPage page phys_page) false := h.setLink ⟨nofun, ha, .inl hd⟩

theorem Marked.linkPageReadOnly (h : Marked m false) (ha : (m.tabEntry page).a = true)
    (phys_page : BitVec 20) : Marked (m.linkPageReadOnly page phys_page) false :=
  h.setLink ⟨nofun, ha, .inr ⟨rfl, rfl⟩⟩

/-- However an access leaves its page, the links are marked if the page is. -/
theorem Marked.leftAs {phys_page : BitVec 20} {priv : Nat} {writing : Bool}
    (h : Marked m false) (ha : (m.tabEntry page).a = true)
    (hd : priv = 0 → (m.tabEntry page).d = true)
    (hleft : LeftAs page phys_page priv writing m m') : Marked m' false := by
  cases hleft with
  | linked hpriv => exact h.linkPage ha (hd hpriv) _
  | unlinked relink hpriv hrelink _ =>
    obtain ⟨hcpu, hmem⟩ := sameCpu_updateLink relink page (m.linkPage page phys_page)
    have hall := (sameCpu_setLink m page _).trans hcpu
    refine ⟨hall.enabled.trans h.enabled, TlbHolds.mono
      (h.tlb.relink hrelink fun _ m' _ hm' => hm'.setLink fun _ => ⟨nofun, ha, .inr ⟨rfl, rfl⟩⟩)
      rfl rfl fun _ _ he hp => (he hp).of_keeps ?_⟩
    exact .of_memory (hmem.trans (linkPage_memory ..)) hall.base_page
  | readOnly => exact h.linkPageReadOnly ha _

/-! ## What the guest keeps to -/

/-- The handlers of an access have left tables in which the page gets marked: the copies of the
walk are good, the table of the page is still the one in the copy, and an entry that the copy
has marked is marked. -/
structure Settled (m : Machine) (raised : List Faulted) (page : BitVec 20) (leaves : Prop) :
    Prop where
  leaves : leaves
  base : (tableCopy m raised page).base = ((leftBy raised m).dirEntry page).base
  marks : ((entryCopy m raised page).a && (entryCopy m raised page).d) = true →
    ((leftBy raised m).tabEntry page).a = true ∧ ((leftBy raised m).tabEntry page).d = true

/-- Every walk of the access that faults is settled by the guest's handlers. -/
def Settles (arch : ArchitectureType) (guest : Guest) (lin_addr : BitVec 32) (writing : Bool)
    (m : Machine) : Prop :=
  (∀ l, InitPage.initPage arch guest lin_addr writing m = .ok l → l.raised ≠ [] →
    Settled m l.raised (linPage lin_addr)
      (InitPage.HandlersLeave arch writing m l.raised (linPage lin_addr))) ∧
  ∀ l, UserRO.initPage guest lin_addr m = .ok l → l.raised ≠ [] →
    Settled m l.raised (linPage lin_addr)
      (UserRO.HandlersLeave m l.raised (linPage lin_addr))

/-- The same for `InitPageForced`, which raises no protection fault. -/
def Walk.ForcedSettled (w : Walk) (page : BitVec 20) : Prop :=
  w.raised ≠ [] → (w.m.dirEntry page).unmarked = w.table.unmarked ∧
    (w.table.a = false → Marks (w.m.dirEntry page) { w.table with a := true })

/-- The read-only handler lets a write pass without a fault. -/
def PassesReadOnly (arch : ArchitectureType) (m : Machine) (lin_addr : BitVec 32)
    (checked : Bool) : Prop :=
  m.user = false ∨ (checked = true ∧ (UserRO.checkOnly arch lin_addr m).1 ≠ 0)

/-- A page that `MakeCodePage` forces stays linked: it already has code of this size, or cannot
have any. -/
def PageHandler.StaysForced (handler : PageHandler) (big : Bool) : Prop :=
  (handler.flags.hascode = true ∧ handler.flags.hascodeOf big = true) ∨
    handler.flags.nocode = true

/-- A guest that flushes the TLB after it clears a dirty bit. -/
def marking : Discipline where
  meets ev _ :=
    match ev with
    | .linkPage .. => False
    | _ => True
  stale before after :=
    ∃ page, (before.tabEntry page).d = true ∧ (after.tabEntry page).d = false

/-- The guest whose writes are all marked: its page-fault handlers settle the access, what the
read-only handler lets pass goes to a dirty page, a code fetch that leaves a page linked is from
a dirty page, and the TLB is flushed after an accessed bit was cleared as well. -/
def tidy (arch : ArchitectureType) : Discipline where
  meets ev m :=
    marking.meets ev m ∧
      match ev with
      | .read lin_addr _ guest => Settles arch guest lin_addr false m
      | .write lin_addr _ checked guest =>
        Settles arch guest lin_addr true m ∧
          (LinkedReadOnly m (linPage lin_addr) → PassesReadOnly arch m lin_addr checked →
            (m.tabEntry (linPage lin_addr)).d = true)
      | .codePage lin_addr big _ _ guest =>
        let m := m.dropCode (linPage lin_addr)
        (m.tlb (linPage lin_addr)).readhandler = .init_page_handler →
          ∀ w, initPageCheckPresence guest lin_addr false m = .ok w →
            w.ForcedSettled (linPage lin_addr) ∧
              ((w.m.phandlers w.entry.base).StaysForced big →
                (w.m.tabEntry (linPage lin_addr)).d = true)
      | .forcePageInit lin_addr guest =>
        (m.tlb (linPage lin_addr)).readhandler = .init_page_handler →
          ∀ w, initPageCheckPresence guest lin_addr false m = .ok w →
            w.ForcedSettled (linPage lin_addr) ∧ (w.m.tabEntry (linPage lin_addr)).d = true
      | _ => True
  stale before after := ¬ KeepsMarks before after

/-! ## The walk marks the page -/

/-- After a walk whose copies are good the page is accessed, and dirty if it was asked for. -/
theorem marked_tabEntry {w : Walk} {dirty : Bool} (hfresh : Fresh page dirty w.table w.entry w.m)
    (hbase : w.table.base = (w.m.dirEntry page).base)
    (hmarks : (w.entry.a && w.entry.d) = true →
      (w.m.tabEntry page).a = true ∧ (w.m.tabEntry page).d = true) :
    ((w.marked page dirty).tabEntry page).a = true ∧
      (dirty = true → ((w.marked page dirty).tabEntry page).d = true) := by
  have hmem : MemMarks w.m (w.marked page dirty) :=
    (memMarks_mark_iff ..).2 ⟨hfresh.tableMarks, hfresh.entryMarks⟩
  have hcpu := (marked_same w page dirty).1
  cases hcopy : (w.entry.a && w.entry.d) with
  | true =>
    have htab := hmem.tabEntry hcpu.base_page page
    exact ⟨htab.a (hmarks hcopy).1, fun _ => htab.d (hmarks hcopy).2⟩
  | false =>
    have haddr : ((w.marked page dirty).dirEntry page).base = w.table.base :=
      (hmem.dirEntry hcpu.base_page page).base.trans hbase.symm
    have hentry : (w.marked page dirty).tabEntry page =
        { w.entry with a := true, d := w.entry.d || dirty } := by
      rw [Machine.tabEntry, haddr]
      simp only [Walk.marked, markEntry, hcopy, Bool.false_eq_true, if_false,
        entryAt_physWrited, if_true]
    rw [hentry]
    exact ⟨rfl, fun hd => by simp [hd]⟩

section Walks

variable {arch : ArchitectureType} {guest : Guest} {lin_addr : BitVec 32} {writing : Bool}

/-- What the walk of an access leaves for marking. -/
structure WalkMarks (page : BitVec 20) (dirty : Bool) (w : Walk) : Prop where
  marked : Marked w.m false
  fresh : Fresh page dirty w.table w.entry w.m
  base : w.table.base = (w.m.dirEntry page).base
  marks : (w.entry.a && w.entry.d) = true →
    (w.m.tabEntry page).a = true ∧ (w.m.tabEntry page).d = true

theorem walk_marks (h : Marked m false) (hguest : GuestKeeps (fun m => Marked m false) guest)
    (hsettles : Settles arch guest lin_addr writing m) {priv : Nat} {w : Walk}
    (hw : InitPage.walk arch guest lin_addr writing m = .ok (priv, w)) :
    WalkMarks (linPage lin_addr) (writing || priv = 0) w := by
  have hmarked : Marked w.m false := (keeps_walk framed_marked hguest h ..).1 _ hw
  obtain ⟨hcopies, hdirty⟩ := walk_copies hw
  by_cases hnil : w.raised = []
  · -- no fault: the copies are the current entries
    have hm : w.m = m := by rw [hcopies.left, hnil]; rfl
    have htable : w.table = w.m.dirEntry (linPage lin_addr) := by
      rw [hcopies.table, hnil, hm]
      rfl
    have hentry : w.entry = w.m.tabEntry (linPage lin_addr) := by
      rw [hcopies.entry, hnil, hm]
      rfl
    refine ⟨hmarked, .of_current htable hentry, congrArg X86PageEntry.base htable, fun hc => ?_⟩
    rwa [hentry, Bool.and_eq_true] at hc
  · have hlinked : InitPage.initPage arch guest lin_addr writing m =
        .ok (InitPage.finish lin_addr writing priv w) := by
      simp only [InitPage.initPage, h.enabled, if_true]
      exact bind_ok.2 ⟨_, hw, rfl⟩
    have hsettled : Settled m w.raised (linPage lin_addr)
        (InitPage.HandlersLeave arch writing m w.raised (linPage lin_addr)) :=
      hsettles.1 _ hlinked hnil
    refine ⟨hmarked, ?_, ?_, ?_⟩
    · rw [hdirty, hcopies.table, hcopies.entry, hcopies.left]
      exact hsettled.leaves
    · rw [hcopies.table, hcopies.left]
      exact hsettled.base
    · rw [hcopies.entry, hcopies.left]
      exact hsettled.marks

theorem WalkMarks.after {dirty : Bool} {w : Walk} (h : WalkMarks page dirty w) :
    Marked (w.marked page dirty) false ∧ ((w.marked page dirty).tabEntry page).a = true ∧
      (dirty = true → ((w.marked page dirty).tabEntry page).d = true) := by
  obtain ⟨hcpu, htlb, hlinks⟩ := marked_same w page dirty
  have hmem : MemMarks w.m (w.marked page dirty) :=
    (memMarks_mark_iff ..).2 ⟨h.fresh.tableMarks, h.fresh.entryMarks⟩
  exact ⟨h.marked.of_keeps (fun _ => hmem.keepsMarks hcpu.base_page) hcpu.enabled htlb hlinks,
    marked_tabEntry h.fresh h.base h.marks⟩

end Walks

/-! ## One access -/

/-- A write that went through has its page accessed and dirty. -/
def WriteMarked (page : BitVec 20) (a : Access) : Prop :=
  ∀ t, a.touched = some t → (a.m.tabEntry page).a = true ∧ (a.m.tabEntry page).d = true

section Access

variable {arch : ArchitectureType} {guest : Guest} {lin_addr : BitVec 32} {a : Access}

theorem access_marked {writing : Bool} (h : Marked m false)
    (hguest : GuestKeeps (fun m => Marked m false) guest)
    (hsettles : Settles arch guest lin_addr writing m)
    (hok : InitPage.access arch guest lin_addr writing m = .ok a) :
    Marked a.m false ∧ (writing = true → WriteMarked (linPage lin_addr) a) := by
  obtain ⟨priv, w, hw, -, -, hleft⟩ := access_paged h.enabled hok
  obtain ⟨hmarked, ha, hd⟩ := (walk_marks h hguest hsettles hw).after
  have hsame := tabEntry_of_memory hleft.same.2 hleft.same.1.base_page (linPage lin_addr)
  refine ⟨hmarked.leftAs ha (fun hp => hd (by simp [hp])) hleft, fun hwr t _ => ?_⟩
  rw [hsame]
  exact ⟨ha, hd (by simp [hwr])⟩

theorem memRead_marked (h : Marked m false)
    (hguest : GuestKeeps (fun m => Marked m false) guest)
    (hsettles : Settles arch guest lin_addr false m)
    (hok : memRead arch guest lin_addr m = .ok a) : Marked a.m false := by
  simp only [memRead] at hok
  split at hok
  · exact (access_marked h hguest hsettles hok).1
  · obtain ⟨t, -, hok⟩ := bind_ok.1 hok
    cases hok
    exact h

theorem memReadChecked_marked (h : Marked m false)
    (hguest : GuestKeeps (fun m => Marked m false) guest)
    (hsettles : Settles arch guest lin_addr false m)
    (hok : memReadChecked arch guest lin_addr m = .ok a) : Marked a.m false := by
  simp only [memReadChecked] at hok
  split at hok
  · split at hok
    · next hpass =>
      rw [checkOnly_true h.enabled hpass] at hok
      exact memRead_marked h hguest hsettles hok
    · cases hok
      exact checkOnly_keeps framed_marked h false
  · exact memRead_marked h hguest hsettles hok

theorem Marked.linked (h : Marked m false) (hlinked : ¬ (m.tlb page).Unlinked) :
    DirtyOk m page (m.tlb page) := h.tlb.holds page hlinked rfl

theorem Marked.readOnly_accessed (h : Marked m false) (hro : LinkedReadOnly m page) :
    (m.tabEntry page).a = true := by
  refine (h.linked (ne_unlinked_of_write fun hinit => ?_)).accessed
  rw [hro.2] at hinit
  cases hinit.2

/-- A user's write through the read-only handler marks the page after its fault; a supervisor's
goes to a page that is marked. -/
theorem userro_write_marked (h : Marked m false)
    (hguest : GuestKeeps (fun m => Marked m false) guest)
    (hsettles : Settles arch guest lin_addr true m) (hro : LinkedReadOnly m (linPage lin_addr))
    (hdirty : m.user = false → (m.tabEntry (linPage lin_addr)).d = true)
    (hok : UserRO.write guest lin_addr m = .ok a) :
    Marked a.m false ∧ WriteMarked (linPage lin_addr) a := by
  obtain ⟨l, hl, hok⟩ := bind_ok.1 hok
  cases hok
  have hl₀ := hl
  simp only [UserRO.initPage, h.enabled, if_true] at hl
  split at hl
  · next huser =>
    cases hl
    exact ⟨h, fun _ _ => ⟨h.readOnly_accessed hro, hdirty (by simpa using huser)⟩⟩
  · obtain ⟨w, hw, hl⟩ := bind_ok.1 hl
    obtain ⟨f, hf, hl⟩ := bind_ok.1 hl
    cases hl
    obtain ⟨hcause, -⟩ := pageFault_ok hf
    have hwalk : Marked w.m false := (keeps_checkPresence framed_marked hguest h ..).1 w hw
    have hafter : Marked f.after false := (keeps_pageFault framed_marked hguest hwalk ..).1 f hf
    have hcopies := (checkPresence_copies hw).protection hcause
    have hsettled := hsettles.2 _ hl₀ (by simp)
    have hmarks : WalkMarks (linPage lin_addr) true
        { w with m := f.after, raised := w.raised ++ [f] } := by
      refine ⟨hafter, ?_, ?_, ?_⟩
      · rw [hcopies.table, hcopies.entry, hcopies.left]
        exact hsettled.leaves
      · rw [hcopies.table, hcopies.left]
        exact hsettled.base
      · rw [hcopies.entry, hcopies.left]
        exact hsettled.marks
    obtain ⟨hmarked, ha, hd⟩ := hmarks.after
    refine ⟨hmarked.linkPage ha (hd rfl) w.entry.base, fun t _ => ?_⟩
    rw [linkPage_tabEntry]
    exact ⟨ha, hd rfl⟩

theorem memWrite_marked (h : Marked m false)
    (hguest : GuestKeeps (fun m => Marked m false) guest)
    (hsettles : Settles arch guest lin_addr true m)
    (hdirty : LinkedReadOnly m (linPage lin_addr) → m.user = false →
      (m.tabEntry (linPage lin_addr)).d = true)
    (hok : memWrite arch guest lin_addr m = .ok a) :
    Marked a.m false ∧ WriteMarked (linPage lin_addr) a := by
  simp only [memWrite] at hok
  split at hok
  · obtain ⟨hm, hw⟩ := access_marked h hguest hsettles hok
    exact ⟨hm, hw rfl⟩
  · next hlinked =>
    split at hok
    · next hro => exact userro_write_marked h hguest hsettles hro (hdirty hro) hok
    · next hnro =>
      obtain ⟨t, -, hok⟩ := bind_ok.1 hok
      cases hok
      have hlink := h.linked (ne_unlinked_of_write hlinked)
      exact ⟨h, fun _ _ => ⟨hlink.accessed, hlink.dirty.resolve_right hnro⟩⟩

/-- A checked write through the read-only handler keeps the links marked. -/
theorem userro_writeChecked_marked (h : Marked m false) (hro : LinkedReadOnly m (linPage lin_addr))
    (hdirty : PassesReadOnly arch m lin_addr true → (m.tabEntry (linPage lin_addr)).d = true) :
    Marked (UserRO.writeChecked arch lin_addr m).m false ∧
      WriteMarked (linPage lin_addr) (UserRO.writeChecked arch lin_addr m) := by
  have ha := h.readOnly_accessed hro
  simp only [UserRO.writeChecked]
  rcases userro_checkOnly_cases arch lin_addr m with ⟨error, hc⟩ | hc | ⟨phys_page, hc⟩
  · rw [hc]
    exact ⟨framed_marked.cpu m m.mpl lin_addr error h, fun _ ht => by cases ht⟩
  · have hd := hdirty (.inr ⟨rfl, by simp [hc]⟩)
    rw [hc]
    exact ⟨h, fun _ _ => ⟨ha, hd⟩⟩
  · have hd := hdirty (.inr ⟨rfl, by simp [hc]⟩)
    rw [hc]
    refine ⟨h.linkPage ha hd phys_page, fun _ _ => ?_⟩
    simp only [Nat.one_ne_zero, if_false, linkPage_tabEntry]
    exact ⟨ha, hd⟩

theorem memWriteChecked_marked (h : Marked m false)
    (hguest : GuestKeeps (fun m => Marked m false) guest)
    (hsettles : Settles arch guest lin_addr true m)
    (hdirty : LinkedReadOnly m (linPage lin_addr) → PassesReadOnly arch m lin_addr true →
      (m.tabEntry (linPage lin_addr)).d = true)
    (hok : memWriteChecked arch guest lin_addr m = .ok a) :
    Marked a.m false ∧ WriteMarked (linPage lin_addr) a := by
  have hplain (hok : memWrite arch guest lin_addr m = .ok a) :=
    memWrite_marked h hguest hsettles (fun hro hu => hdirty hro (.inl hu)) hok
  simp only [memWriteChecked] at hok
  split at hok
  · split at hok
    · next hpass =>
      rw [checkOnly_true h.enabled hpass] at hok
      exact hplain hok
    · cases hok
      exact ⟨checkOnly_keeps framed_marked h true, fun _ ht => by cases ht⟩
  · split at hok
    · next hro =>
      cases hok
      exact userro_writeChecked_marked h hro (hdirty hro)
    · exact hplain hok

/-! ## Code fetches -/

/-- What `InitPageForced` makes of the entries. -/
def Walk.forcedMarked (w : Walk) (page : BitVec 20) : Machine :=
  markAccessed page w.table w.entry (markTable page w.table w.m)

theorem forcedMarked_same (w : Walk) (page : BitVec 20) :
    SameCpu w.m (w.forcedMarked page) ∧ (w.forcedMarked page).tlb = w.m.tlb ∧
      (w.forcedMarked page).links = w.m.links := by
  unfold Walk.forcedMarked markAccessed markTable
  split <;> split <;> exact ⟨⟨rfl, rfl, rfl, rfl, rfl⟩, rfl, rfl⟩

/-- It sets marks only, and the accessed bit of the page. -/
theorem forcedMarked_marks {w : Walk} (hentry : w.entry = w.m.entryAt (tabAddr w.table.base page))
    (hdir : (w.m.dirEntry page).unmarked = w.table.unmarked)
    (htable : w.table.a = false → Marks (w.m.dirEntry page) { w.table with a := true }) :
    MemMarks w.m (w.forcedMarked page) ∧ ((w.forcedMarked page).tabEntry page).a = true := by
  have hself : Marks (w.m.entryAt (tabAddr w.table.base page)) { w.entry with a := true } :=
    hentry ▸ ⟨rfl, fun _ => rfl, id⟩
  have hmem : MemMarks w.m (w.forcedMarked page) := by
    unfold Walk.forcedMarked markAccessed markTable
    cases ht : w.table.a <;> cases he : w.entry.a
    · simpa [memMarks_physWrited₂_iff] using ⟨Or.inr (htable ht), hself⟩
    · simpa [memMarks_physWrited_iff, Machine.dirEntry] using htable ht
    · simpa [memMarks_physWrited_iff] using hself
    · simpa using MemMarks.refl w.m
  refine ⟨hmem, ?_⟩
  have hbase := (hmem.dirEntry (forcedMarked_same w page).1.base_page page).base
  have haddr : (w.forcedMarked page).tabEntry page =
      (w.forcedMarked page).entryAt (tabAddr w.table.base page) := by
    rw [Machine.tabEntry, hbase, (unmarked_fields hdir).2.2.2]
  rw [haddr]
  cases he : w.entry.a with
  | true => exact (hmem _).a (hentry ▸ he)
  | false =>
    simp [Walk.forcedMarked, markAccessed, he, entryAt_physWrited]

/-- A forced walk leaves its machine marked, and the page accessed. -/
theorem forced_marked (h : Marked m false) (hguest : GuestKeeps (fun m => Marked m false) guest)
    {w : Walk} (hw : initPageCheckPresence guest lin_addr false m = .ok w)
    (hsettled : w.ForcedSettled (linPage lin_addr)) :
    Marked (w.forcedMarked (linPage lin_addr)) false ∧
      KeepsMarks w.m (w.forcedMarked (linPage lin_addr)) ∧
      ((w.forcedMarked (linPage lin_addr)).tabEntry (linPage lin_addr)).a = true ∧
      ((w.forcedMarked (linPage lin_addr)).makePhysPage (linPage lin_addr)).isSome := by
  have hwalk : Marked w.m false := (keeps_checkPresence framed_marked hguest h ..).1 w hw
  have hchecked := checkPresence_checked hw
  have hdir : (w.m.dirEntry (linPage lin_addr)).unmarked = w.table.unmarked ∧
      (w.table.a = false → Marks (w.m.dirEntry (linPage lin_addr)) { w.table with a := true }) := by
    by_cases hnil : w.raised = []
    · obtain ⟨hm, htable⟩ := hchecked.quiet hnil
      rw [hm, htable]
      exact ⟨rfl, fun _ => ⟨rfl, fun _ => rfl, id⟩⟩
    · exact hsettled hnil
  obtain ⟨hcpu, htlb, hlinks⟩ := forcedMarked_same w (linPage lin_addr)
  obtain ⟨hmem, ha⟩ := forcedMarked_marks hchecked.entry hdir.1 hdir.2
  have hkeeps := hmem.keepsMarks hcpu.base_page
  refine ⟨hwalk.of_keeps (fun _ => hkeeps) hcpu.enabled htlb hlinks, hkeeps, ha, ?_⟩
  -- the page is present, so that its physical page can be found
  have hd := hmem.dirEntry hcpu.base_page (linPage lin_addr)
  have ht := hmem.tabEntry hcpu.base_page (linPage lin_addr)
  obtain ⟨hwp, -, -, hwbase⟩ := unmarked_fields hdir.1
  have htab : w.m.tabEntry (linPage lin_addr) = w.entry := by
    rw [hchecked.entry, Machine.tabEntry, hwbase]
  have hdp : ((w.forcedMarked (linPage lin_addr)).dirEntry (linPage lin_addr)).p = true :=
    (unmarked_fields hd.unmarked).1.trans (hwp.trans hchecked.tablePresent)
  have htp : ((w.forcedMarked (linPage lin_addr)).tabEntry (linPage lin_addr)).p = true :=
    (unmarked_fields ht.unmarked).1.trans (htab ▸ hchecked.entryPresent)
  simp only [Machine.dirEntry, Machine.tabEntry] at hdp htp
  simp only [Machine.makePhysPage, hcpu.enabled, hwalk.enabled, hdp, htp, if_true, Bool.not_true,
    Bool.false_eq_true, if_false, Option.isSome_some]

/-- All links but that of one page are marked. -/
structure MarkedBut (page : BitVec 20) (m : Machine) : Prop where
  enabled : m.enabled = true
  tlb : TlbHolds (fun q e => q = page ∨ DirtyOk m q e) m

theorem MarkedBut.clearTLB (h : MarkedBut page m) : Marked m.clearTLB false :=
  ⟨h.enabled, .of_unlinked h.tlb.clearTLB_unlinked⟩

theorem Marked.but (h : Marked m false) (page : BitVec 20) : MarkedBut page m :=
  ⟨h.enabled, h.tlb.mono rfl rfl fun _ _ he => .inr (he rfl)⟩

theorem MarkedBut.linkPage (h : Marked m false) (page phys_page : BitVec 20) :
    MarkedBut page (m.linkPage page phys_page) := by
  have hcpu := sameCpu_setLink m page
  refine ⟨(hcpu _).enabled.trans h.enabled, ((h.but page).tlb.setLink (.inl rfl)).mono rfl rfl ?_⟩
  exact fun q e he => he.imp_right fun he => he.of_keeps fun p => by
    rw [linkPage_tabEntry]
    exact ⟨id, id⟩

theorem MarkedBut.release (h : MarkedBut page m) (phys_page : BitVec 20) :
    MarkedBut page (m.release phys_page) := by
  unfold Machine.release
  split
  · next old _ _ =>
    have hother : MarkedBut page
        { m with phandlers := Function.update m.phandlers phys_page old } :=
      ⟨h.enabled, h.tlb.mono rfl rfl fun _ _ he =>
        he.imp_right fun he => he.of_keeps (.of_memory rfl rfl)⟩
    exact hother.clearTLB.but page
  · exact h

variable {handler : PageHandler}

theorem MarkedBut.installCodePage (h : MarkedBut page m) (hpresent : (m.makePhysPage page).isSome)
    (big : Bool) (victim : Option (BitVec 20)) :
    Marked (installCodePage big victim page (.page handler) m) false := by
  obtain ⟨phys_page, hphys⟩ := Option.isSome_iff_exists.1 hpresent
  simp only [Paging.installCodePage, hphys]
  have hvictim : MarkedBut page (victim.elim m m.release) := by
    cases victim with
    | none => exact h
    | some q => exact h.release q
  generalize victim.elim m m.release = m₁ at hvictim
  refine ⟨hvictim.enabled, .reset_page (m := m₁) page (by simp [Machine.unlinkPages,
    Machine.setupAt]) fun q hq hlinked => ?_⟩
  simp only [Machine.unlinkPages, Machine.setupAt, Function.update_of_ne hq] at hlinked ⊢
  refine ⟨hvictim.tlb.listed q hlinked, fun _ => ?_⟩
  exact ((hvictim.tlb.holds q hlinked).resolve_left hq).of_keeps (.of_memory rfl rfl)

theorem Marked.installCodePage (h : Marked m false) (handler : TlbHandler) (page : BitVec 20)
    (big : Bool) (victim : Option (BitVec 20)) :
    Marked (installCodePage big victim page handler m) false := by
  cases handler with
  | init_page_handler | init_page_handler_userro => exact h
  | page handler =>
    cases hphys : m.makePhysPage page with
    | none =>
      simp only [Paging.installCodePage, hphys]
      exact h
    | some phys_page => exact (h.but page).installCodePage (by simp [hphys]) big victim

/-- A handler with translated code is that of a code page. -/
theorem code_of_hascode (h : handler.flags.hascode = true) :
    ∃ old big, handler = .code old big := by
  cases handler with
  | ram | rom | device => cases h
  | code old big => exact ⟨old, big, rfl⟩

/-- `MakeCodePage` on a page that it has just forced: the link is taken back, unless the page
stays forced. -/
theorem flags_page (handler : PageHandler) : (TlbHandler.page handler).flags = handler.flags := rfl

theorem codePageForced_marked {big : Bool} (h : MarkedBut page m)
    (hhandler : (m.tlb page).readhandler = .page handler)
    (hphys : m.phandlers (m.tlb page).phys_page = handler) (hpresent : (m.makePhysPage page).isSome)
    (hstay : handler.StaysForced big → Marked m false) (victim : Option (BitVec 20)) :
    Marked (codePageForced big victim page true m) false := by
  simp only [codePageForced, hhandler, flags_page, Bool.true_and, if_true]
  split
  · next hcode => exact hstay (.inl (by simpa using hcode))
  · cases hcode : handler.flags.hascode with
    | true =>
      -- code of the other size is dropped, with a flush of the TLB
      obtain ⟨old, b, hold⟩ := code_of_hascode hcode
      have hcleared : Marked (m.dropCode page) false := by
        simp only [Machine.dropCode, hhandler, flags_page, hcode, if_true]
        unfold Machine.release
        split
        · next old _ _ =>
          have hother : MarkedBut page
              { m with phandlers := Function.update m.phandlers (m.tlb page).phys_page old } :=
            ⟨h.enabled, h.tlb.mono rfl rfl fun _ _ he =>
              he.imp_right fun he => he.of_keeps (.of_memory rfl rfl)⟩
          exact hother.clearTLB
        · next hno => exact absurd (hphys.trans hold) (hno old b)
      generalize m.dropCode page = m₁ at hcleared
      split
      · exact hcleared
      · exact hcleared.installCodePage ..
    | false =>
      have hdrop : m.dropCode page = m := by
        simp [Machine.dropCode, hhandler, flags_page, hcode]
      simp only [hdrop, hhandler, flags_page]
      split
      · next hnocode => exact hstay (.inr hnocode)
      · exact h.installCodePage hpresent big victim

/-- Linking a page changes nothing that the lookup of its frame reads. -/
theorem linkPage_makePhysPage (m : Machine) (page phys_page q : BitVec 20) :
    (m.linkPage page phys_page).makePhysPage q = m.makePhysPage q := by
  have hcpu : SameCpu m (m.linkPage page phys_page) := sameCpu_setLink ..
  have hfirst : (m.linkPage page phys_page).firstmb = m.firstmb := by
    simp only [Machine.linkPage, Machine.setLink, Machine.makeRoom]
    split <;> rfl
  simp only [Machine.makePhysPage, Machine.entryAt, Machine.physReadd, Machine.unpaged,
    linkPage_memory, hcpu.enabled, hcpu.base_page, hfirst]
  rfl

theorem Marked.readhandler_ne (h : Marked m false) (page : BitVec 20) :
    (m.tlb page).readhandler ≠ .init_page_handler_userro := by
  by_cases hun : (m.tlb page).Unlinked
  · rw [hun]
    nofun
  · exact (h.linked hun).readhandler

/-- What `PAGING_ForcePageInit` does to a page that is not linked. -/
theorem forcePageInit_ok (h : Marked m false) {r : Bool × Linked}
    (hok : forcePageInit guest lin_addr m = .ok r) :
    ((m.tlb (linPage lin_addr)).readhandler ≠ .init_page_handler ∧ r.1 = false ∧ r.2.m = m) ∨
      ((m.tlb (linPage lin_addr)).readhandler = .init_page_handler ∧ r.1 = true ∧
        ∃ w, initPageCheckPresence guest lin_addr false m = .ok w ∧
          r.2.m = (w.forcedMarked (linPage lin_addr)).linkPage (linPage lin_addr)
            w.entry.base) := by
  unfold forcePageInit at hok
  split at hok
  · next hinit =>
    obtain ⟨l, hl, hok⟩ := bind_ok.1 hok
    cases hok
    simp only [InitPage.forced, h.enabled, if_true] at hl
    obtain ⟨w, hw, hl⟩ := bind_ok.1 hl
    cases hl
    exact .inr ⟨hinit, rfl, w, hw, rfl⟩
  · next hro => exact absurd hro (h.readhandler_ne _)
  · next handler hpage =>
    cases hok
    exact .inl ⟨by simp [hpage], rfl, rfl⟩

theorem forcePageInit_marked (h : Marked m false)
    (hguest : GuestKeeps (fun m => Marked m false) guest)
    (hforced : (m.tlb (linPage lin_addr)).readhandler = .init_page_handler →
      ∀ w, initPageCheckPresence guest lin_addr false m = .ok w →
        w.ForcedSettled (linPage lin_addr) ∧ (w.m.tabEntry (linPage lin_addr)).d = true)
    {r : Bool × Linked} (hok : forcePageInit guest lin_addr m = .ok r) : Marked r.2.m false := by
  rcases forcePageInit_ok h hok with ⟨-, -, hm⟩ | ⟨hinit, -, w, hw, hm⟩
  · rw [hm]
    exact h
  · obtain ⟨hsettled, hd⟩ := hforced hinit w hw
    obtain ⟨hmarked, hkeeps, ha, -⟩ := forced_marked h hguest hw hsettled
    rw [hm]
    exact hmarked.linkPage ha ((hkeeps _).2 hd) _

theorem makeCodePage_marked (h : Marked m false)
    (hguest : GuestKeeps (fun m => Marked m false) guest) {big reuse : Bool}
    {victim : Option (BitVec 20)}
    (hforced : ((m.dropCode (linPage lin_addr)).tlb (linPage lin_addr)).readhandler =
        .init_page_handler →
      ∀ w, initPageCheckPresence guest lin_addr false (m.dropCode (linPage lin_addr)) = .ok w →
        w.ForcedSettled (linPage lin_addr) ∧
          ((w.m.phandlers w.entry.base).StaysForced big →
            (w.m.tabEntry (linPage lin_addr)).d = true))
    {r : Machine × List Faulted}
    (hok : makeCodePage guest big reuse victim lin_addr m = .ok r) : Marked r.1 false := by
  have hdrop : Marked (m.dropCode (linPage lin_addr)) false := releaseKeeps_marked.dropCode h _
  simp only [makeCodePage] at hok
  split at hok
  · cases hok
    exact h
  · generalize m.dropCode (linPage lin_addr) = m₀ at hok hdrop hforced
    simp only [newCodePage] at hok
    split at hok
    · next hnocode =>
      obtain ⟨⟨forced, l⟩, hl, hok⟩ := bind_ok.1 hok
      cases hok
      rcases forcePageInit_ok hdrop hl with ⟨-, hf, hm⟩ | ⟨hinit, hf, w, hw, hm⟩
      · dsimp only at hf hm
        rw [hf, hm]
        simp only [codePageForced, Bool.false_and, Bool.false_eq_true, if_false, hnocode, if_true]
        exact hdrop
      · dsimp only at hf hm
        rw [hf, hm]
        obtain ⟨hsettled, hd⟩ := hforced hinit w hw
        obtain ⟨hmarked, hkeeps, ha, hpresent⟩ := forced_marked hdrop hguest hw hsettled
        have hcpu := (forcedMarked_same w (linPage lin_addr)).1
        have hbut : MarkedBut (linPage lin_addr)
            ((w.forcedMarked (linPage lin_addr)).linkPage (linPage lin_addr) w.entry.base) :=
          MarkedBut.linkPage hmarked _ _
        have hlinked : (((w.forcedMarked (linPage lin_addr)).linkPage (linPage lin_addr)
            w.entry.base).tlb (linPage lin_addr)).readhandler =
              .page (w.m.phandlers w.entry.base) := by
          simp [Machine.linkPage, hcpu.phandlers]
        refine codePageForced_marked hbut hlinked ?_ ?_ (fun hstay => ?_) victim
        · simp [Machine.linkPage, hcpu.phandlers]
        · rw [linkPage_makePhysPage]
          exact hpresent
        · exact hmarked.linkPage ha ((hkeeps _).2 (hd hstay)) _
    · cases hok
      exact hdrop.installCodePage ..

/-! ## Runs -/

theorem Marked.settle {ev : Event} {pending pending' : Bool} (h : Marked a.m pending)
    (hpending : pending = true → pending' = true)
    (hstale : ¬ KeepsMarks a.m (ev.settle a) → pending' = true) :
    Marked (ev.settle a) pending' := by
  obtain ⟨hcpu, htlb, hlinks⟩ := settle_same ev a
  refine ⟨hcpu.enabled.trans h.enabled, h.tlb.mono htlb hlinks fun page e he hclean => ?_⟩
  have hbefore : pending = false := by
    by_contra hne
    rw [hpending (by simpa using hne)] at hclean
    cases hclean
  have hkeeps : KeepsMarks a.m (ev.settle a) := by
    by_contra hne
    rw [hstale hne] at hclean
    cases hclean
  exact (he hbefore).of_keeps hkeeps

theorem marked_kept (arch : ArchitectureType) : KeptByEvents arch (tidy arch) Marked := by
  intro m b ev a b' h hclean hmeets hguest hok hpending
  -- an access comes with no flush pending
  have haccess (hb : b = false) (ha : Marked a.m false) : Marked (ev.settle a) b' :=
    ha.settle nofun hpending.1
  have hquiet (hflush : ev.flushes = false) (ha : Marked a.m b) : Marked (ev.settle a) b' :=
    ha.settle (fun hb => hpending.2 hb hflush) hpending.1
  cases ev with
  | read lin_addr checked guest =>
    obtain rfl := hclean rfl
    cases checked
    · exact haccess rfl (memRead_marked h hguest hmeets.2 hok)
    · exact haccess rfl (memReadChecked_marked h hguest hmeets.2 hok)
  | write lin_addr values checked guest =>
    obtain rfl := hclean rfl
    obtain ⟨-, hsettles, hdirty⟩ := hmeets
    cases checked
    · exact haccess rfl
        (memWrite_marked h hguest hsettles (fun hro hu => hdirty hro (.inl hu)) hok).1
    · exact haccess rfl (memWriteChecked_marked h hguest hsettles hdirty hok).1
  | codePage lin_addr big reuse victim guest =>
    obtain rfl := hclean rfl
    obtain ⟨r, hr, hok⟩ := bind_ok.1 hok
    cases hok
    exact haccess rfl (makeCodePage_marked h hguest hmeets.2 hr)
  | forcePageInit lin_addr guest =>
    obtain rfl := hclean rfl
    obtain ⟨r, hr, hok⟩ := bind_ok.1 hok
    cases hok
    exact haccess rfl (forcePageInit_marked h hguest hmeets.2 hr)
  | privilege | poke =>
    cases hok
    exact hquiet rfl (h.of_keeps (fun _ => .of_memory rfl rfl) rfl rfl rfl)
  | clearTLB =>
    cases hok
    have hcleared : Marked m.clearTLB false := h.clearTLB
    exact hcleared.settle nofun hpending.1
  | setDirBase cr3 =>
    cases hok
    have hset : m.setDirBase cr3 = { m with base_page := linPage cr3 }.clearTLB :=
      if_pos h.enabled
    have hcleared : Marked (m.setDirBase cr3) false := by
      rw [hset]
      exact ⟨h.enabled, .of_unlinked h.tlb.clearTLB_unlinked⟩
    exact hcleared.settle nofun hpending.1
  | linkPage => exact hmeets.1.elim
  | unlinkPages page pages =>
    cases hok
    exact hquiet rfl (h.unlinkPages page pages)
  | release phys_page =>
    cases hok
    exact hquiet rfl (h.release phys_page)

/-- A machine that starts with paging on and an initialised TLB. -/
def StartsEnabled (m : Machine) : Prop := m.Booted ∧ m.enabled = true

theorem marked_reachable {b : Bool} (h : Reachable arch (tidy arch) StartsEnabled m b) :
    Marked m b := by
  refine Reachable.invariant (fun m hm => ⟨hm.2, .of_unlinked hm.1.unlinked⟩)
    (marked_kept arch) ?_ h
  intro m ev fault before h hmeets hguest herr
  exact exec_entered (J := fun m => Marked m false) framed_marked h
    (fun _ => releaseKeeps_marked) hguest herr

/-- **No write of a tidy guest is missed**: in every state of every run, inside its page-fault
handlers too, a write that completes finds its page accessed and dirty, and so does what comes
after it unless the stored bytes themselves clear the bits. -/
theorem writes_are_marked {values : List (BitVec 8)} {checked : Bool}
    (h : Reachable arch (tidy arch) StartsEnabled m false)
    (hmeets : (tidy arch).meets (.write lin_addr values checked guest) m)
    (hruns : ∀ fault before after, guest fault before = some after →
      Run arch (tidy arch) before false after false)
    (hok : (Event.write lin_addr values checked guest).exec arch m = .ok a) :
    WriteMarked (linPage lin_addr) a ∧
      (KeepsMarks a.m ((Event.write lin_addr values checked guest).settle a) →
        WriteMarked (linPage lin_addr)
          { a with m := (Event.write lin_addr values checked guest).settle a }) := by
  have hmarked := marked_reachable h
  have hguest : GuestKeeps (fun m => Marked m false) guest := fun fault before after hafter =>
    (hruns fault before after hafter).preserves (marked_kept arch)
  obtain ⟨-, hsettles, hdirty⟩ := hmeets
  have hw : WriteMarked (linPage lin_addr) a := by
    cases checked
    · exact (memWrite_marked hmarked hguest hsettles (fun hro hu => hdirty hro (.inl hu)) hok).2
    · exact (memWriteChecked_marked hmarked hguest hsettles hdirty hok).2
  refine ⟨hw, fun hkeeps t ht => ?_⟩
  obtain ⟨ha, hd⟩ := hw t ht
  exact ⟨(hkeeps _).1 ha, (hkeeps _).2 hd⟩

end Access

/-! ## A write that is marked, and one that is missed -/

/-- The first write to a page marks it. -/
theorem first_write_marked :
    ∃ a, (Event.write 0 [1] false neverReturns).exec .Pentium
        (userMachine { readOnlyEntry 5 false with wr := true }) = .ok a ∧
      a.touched = some (.host 5) ∧ WriteMarked (linPage 0) a := by
  have hsettles : Settles .Pentium neverReturns 0 true
      (userMachine { readOnlyEntry 5 false with wr := true }) := by
    constructor
    · intro l hl hraised
      cases hl
      exact absurd rfl hraised
    · intro l hl
      cases hl
  have hstarts : StartsEnabled (userMachine { readOnlyEntry 5 false with wr := true }) :=
    ⟨⟨fun _ => rfl, rfl⟩, rfl⟩
  have hmarked {a : Access} (hok : (Event.write 0 [1] false neverReturns).exec .Pentium
      (userMachine { readOnlyEntry 5 false with wr := true }) = .ok a) :
      WriteMarked (linPage 0) a :=
    (writes_are_marked (.boot hstarts) ⟨trivial, hsettles, fun hro => absurd hro.2 nofun⟩
      nofun hok).1
  exact ⟨_, rfl, rfl, hmarked rfl⟩

/-- **A write is missed**: the supervisor reads a write-protected page and then writes it. -/
theorem write_not_marked :
    ∃ m a, Reachable .Pentium marking StartsEnabled m false ∧
      (Event.write 0 [1] false neverReturns).exec .Pentium m = .ok a ∧
      a.touched = some (.host 5) ∧
      ((((Event.write 0 [1] false neverReturns)).settle a).tabEntry (linPage 0)).d = false := by
  have handlers : ∀ fault before after,
      (Event.read 0 false neverReturns).guest fault before = some after →
        Run .Pentium marking before false after false := nofun
  have hstale (m : Machine) : ¬ marking.stale m m := fun ⟨_, hd, hnd⟩ => by
    rw [hd] at hnd
    cases hnd
  have hread {a : Access}
      (hok : (Event.read 0 false neverReturns).exec .Pentium (supervisorMachine .ram) = .ok a) :
      Reachable .Pentium marking StartsEnabled a.m false :=
    .run (.boot ⟨supervisorMachine_booted .ram, rfl⟩)
      (.step (.refl _ _) (fun _ => rfl) trivial handlers hok
        ⟨fun hs => absurd hs (hstale _), nofun⟩)
  exact ⟨_, _, hread rfl, rfl, rfl, by decide +kernel⟩

end AugraDosbox.Paging
