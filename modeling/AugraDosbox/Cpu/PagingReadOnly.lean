import AugraDosbox.Cpu.PagingLinks

/-!
# Paging: writes through the read-only handler

A page that the supervisor may write although it is write-protected is linked with
`InitPageUserROHandler` for writing.  Such a write does not go through the handler of the
physical page: it uses the host pointer for reading.

* `PointersHold` is the invariant of all runs, whatever the guest does: where the physical page
  is RAM, that pointer is the page's own.
* `read_only_write_iff` says that exactly the writes to plain RAM go the right way.
* `read_only_writes_wrong` has writes that do not: a null pointer on a device, a store into ROM,
  and a store into translated code that its handler does not see.
-/

namespace AugraDosbox.Paging

open Fallible

/-! ## The invariant -/

/-- A guest that keeps to nothing. -/
def anything : Discipline := ⟨fun _ _ => True, fun _ _ => False⟩

/-- A page linked for reading only, whose physical page is RAM, has that page's pointer. -/
def ReadOnlyOk (phandlers : BitVec 20 → PageHandler) (_ : BitVec 20) (e : TlbEntry) : Prop :=
  e.writehandler = .init_page_handler_userro → phandlers e.phys_page = .ram →
    e.read = some e.phys_page

def PointersHold (m : Machine) : Prop := TlbHolds (ReadOnlyOk m.phandlers) m

variable {m m' : Machine}

theorem PointersHold.mono (h : PointersHold m) (htlb : m'.tlb = m.tlb)
    (hlinks : m'.links = m.links) (hphandlers : m'.phandlers = m.phandlers) : PointersHold m' :=
  TlbHolds.mono h htlb hlinks fun _ _ he => hphandlers ▸ he

theorem PointersHold.clearTLB (h : PointersHold m) : PointersHold m.clearTLB :=
  TlbHolds.clearTLB h

theorem PointersHold.unlinkPages (h : PointersHold m) (page : BitVec 20) (pages : Nat) :
    PointersHold (m.unlinkPages page pages) := by
  unfold PointersHold
  rw [(sameCpu_unlinkPages m page pages).1.phandlers]
  exact TlbHolds.unlinkPages h page pages

theorem PointersHold.linkPage (h : PointersHold m) (page phys_page : BitVec 20) :
    PointersHold (m.linkPage page phys_page) := by
  unfold PointersHold
  rw [linkPage_phandlers]
  exact TlbHolds.setLink h nofun

theorem PointersHold.linkPageReadOnly (h : PointersHold m) (page phys_page : BitVec 20) :
    PointersHold (m.linkPageReadOnly page phys_page) := by
  unfold PointersHold
  rw [linkPageReadOnly_phandlers]
  refine TlbHolds.setLink h fun _ hram => ?_
  change (m.phandlers phys_page).readPt phys_page = some phys_page
  rw [hram]
  rfl

theorem PointersHold.updateLink (h : PointersHold m) (page phys_page : BitVec 20) {relink : Nat}
    (hrelink : relink ≠ 0) :
    PointersHold (initPageUpdateLink relink page (m.linkPage page phys_page)) := by
  unfold PointersHold
  rw [(sameCpu_updateLink ..).1.phandlers, linkPage_phandlers]
  refine TlbHolds.relink h hrelink fun _ m' hphandlers hm' => ?_
  have := PointersHold.linkPageReadOnly (m := m') (by rwa [PointersHold, hphandlers]) page
    (BitVec.ofNat 20 relink)
  rwa [PointersHold, linkPageReadOnly_phandlers, hphandlers] at this

/-- A page that gets translated code is no longer plain RAM. -/
theorem PointersHold.setupAt (h : PointersHold m) (phys_page : BitVec 20) (handler : PageHandler)
    (big : Bool) : PointersHold (m.setupAt phys_page handler big) := by
  refine TlbHolds.mono h rfl rfl fun page e he hro hram => he hro ?_
  by_cases hphys : e.phys_page = phys_page
  · simp [Machine.setupAt, hphys] at hram
  · simpa [Machine.setupAt, hphys] using hram

theorem PointersHold.release (h : PointersHold m) (phys_page : BitVec 20) :
    PointersHold (m.release phys_page) := by
  unfold Machine.release
  split
  · exact .of_unlinked (TlbHolds.clearTLB_unlinked (P := ReadOnlyOk m.phandlers)
      ⟨h.listed, h.holds⟩)
  · exact h

theorem releaseKeeps_pointersHold : ReleaseKeeps PointersHold := fun _ phys_page h =>
  h.release phys_page

theorem framed_pointersHold : Framed PointersHold where
  cpu _ _ _ _ h := h.mono rfl rfl rfl
  unlinkPages _ page pages h := h.unlinkPages page pages
  unpaged _ page _ h := h.linkPage page _

/-! ## It holds in every run -/

section Kept

variable {arch : ArchitectureType} {guest : Guest} {lin_addr : BitVec 32} {a : Access}

theorem PointersHold.marked {w : Walk} (h : PointersHold w.m) (page : BitVec 20) (dirty : Bool) :
    PointersHold (w.marked page dirty) := by
  obtain ⟨hcpu, htlb, hlinks⟩ := marked_same w page dirty
  exact h.mono htlb hlinks hcpu.phandlers

theorem PointersHold.leftAs {page phys_page : BitVec 20} {priv : Nat} {writing : Bool}
    (h : PointersHold m) (hleft : LeftAs page phys_page priv writing m m') : PointersHold m' := by
  cases hleft with
  | linked => exact h.linkPage page phys_page
  | unlinked relink _ hrelink => exact h.updateLink page phys_page hrelink
  | readOnly => exact h.linkPageReadOnly page phys_page

theorem PointersHold.access (h : PointersHold m) (hguest : GuestKeeps PointersHold guest)
    {writing : Bool} (hok : InitPage.access arch guest lin_addr writing m = .ok a) :
    PointersHold a.m := by
  cases hen : m.enabled with
  | true =>
    obtain ⟨priv, w, hw, -, -, hleft⟩ := access_paged hen hok
    have hwalk : PointersHold w.m := (keeps_walk framed_pointersHold hguest h ..).1 _ hw
    exact (hwalk.marked _ _).leftAs hleft
  | false =>
    rw [(access_unpaged hen hok).1]
    exact h.linkPage _ _

theorem PointersHold.userro_initPage (h : PointersHold m)
    (hguest : GuestKeeps PointersHold guest) {l : Linked}
    (hok : UserRO.initPage guest lin_addr m = .ok l) : PointersHold l.m := by
  simp only [UserRO.initPage] at hok
  split at hok
  · split at hok
    · cases hok
      exact h
    · obtain ⟨w, hw, hok⟩ := bind_ok.1 hok
      obtain ⟨f, hf, hok⟩ := bind_ok.1 hok
      cases hok
      have hwalk := (keeps_checkPresence framed_pointersHold hguest h ..).1 _ hw
      have hafter : PointersHold f.after :=
        (keeps_pageFault framed_pointersHold hguest hwalk ..).1 _ hf
      exact (PointersHold.marked (w := { w with m := f.after }) hafter _ _).linkPage _ _
  · cases hok
    exact h.linkPage _ _

theorem PointersHold.userro_checkOnly (h : PointersHold m) :
    PointersHold (UserRO.checkOnly arch lin_addr m).2 := by
  rcases userro_checkOnly_cases arch lin_addr m with ⟨error, hc⟩ | hc | ⟨phys_page, hc⟩
  · rw [hc]
    exact h.mono rfl rfl rfl
  · rw [hc]
    exact h
  · rw [hc]
    exact h.linkPage _ _

theorem PointersHold.memRead (h : PointersHold m) (hguest : GuestKeeps PointersHold guest)
    (hok : memRead arch guest lin_addr m = .ok a) : PointersHold a.m := by
  simp only [Paging.memRead] at hok
  split at hok
  · exact h.access hguest hok
  · obtain ⟨t, -, hok⟩ := bind_ok.1 hok
    cases hok
    exact h

theorem PointersHold.memWrite (h : PointersHold m) (hguest : GuestKeeps PointersHold guest)
    (hok : memWrite arch guest lin_addr m = .ok a) : PointersHold a.m := by
  simp only [Paging.memWrite] at hok
  split at hok
  · exact h.access hguest hok
  · split at hok
    · obtain ⟨l, hl, hok⟩ := bind_ok.1 hok
      cases hok
      exact h.userro_initPage hguest hl
    · obtain ⟨t, -, hok⟩ := bind_ok.1 hok
      cases hok
      exact h

theorem PointersHold.memReadChecked (h : PointersHold m)
    (hguest : GuestKeeps PointersHold guest)
    (hok : memReadChecked arch guest lin_addr m = .ok a) : PointersHold a.m := by
  simp only [Paging.memReadChecked] at hok
  split at hok
  · have hcheck : PointersHold (InitPage.checkOnly arch lin_addr false m).2 :=
      checkOnly_keeps framed_pointersHold h false
    split at hok
    · exact PointersHold.memRead hcheck hguest hok
    · cases hok
      exact hcheck
  · exact h.memRead hguest hok

theorem PointersHold.memWriteChecked (h : PointersHold m)
    (hguest : GuestKeeps PointersHold guest)
    (hok : memWriteChecked arch guest lin_addr m = .ok a) : PointersHold a.m := by
  simp only [Paging.memWriteChecked] at hok
  split at hok
  · have hcheck : PointersHold (InitPage.checkOnly arch lin_addr true m).2 :=
      checkOnly_keeps framed_pointersHold h true
    split at hok
    · exact PointersHold.memWrite hcheck hguest hok
    · cases hok
      exact hcheck
  · split at hok
    · cases hok
      simp only [UserRO.writeChecked]
      split <;> exact h.userro_checkOnly
    · exact h.memWrite hguest hok

theorem PointersHold.forced (h : PointersHold m) (hguest : GuestKeeps PointersHold guest)
    {r : Bool × Linked} (hok : forcePageInit guest lin_addr m = .ok r) :
    PointersHold r.2.m := by
  have hmarked (w : Walk) (hw : PointersHold w.m) (page : BitVec 20) :
      PointersHold (markAccessed page w.table w.entry (markTable page w.table w.m)) := by
    unfold markAccessed markTable
    split <;> split <;> exact hw.mono rfl rfl rfl
  unfold forcePageInit at hok
  split at hok
  · obtain ⟨l, hl, hok⟩ := bind_ok.1 hok
    cases hok
    simp only [InitPage.forced] at hl
    split at hl
    · obtain ⟨w, hw, hl⟩ := bind_ok.1 hl
      cases hl
      have hwalk := (keeps_checkPresence framed_pointersHold hguest h ..).1 _ hw
      exact (hmarked w hwalk _).linkPage _ _
    · cases hl
      exact h.linkPage _ _
  · obtain ⟨l, hl, hok⟩ := bind_ok.1 hok
    cases hok
    have h' := h.unlinkPages (linPage lin_addr) 1
    simp only [UserRO.forced] at hl
    split at hl
    · obtain ⟨w, hw, hl⟩ := bind_ok.1 hl
      cases hl
      have hwalk := (keeps_checkPresence framed_pointersHold hguest h' ..).1 _ hw
      exact (hmarked w hwalk _).linkPage _ _
    · cases hl
      exact h'.linkPage _ _
  · cases hok
    exact h

theorem PointersHold.installCodePage (h : PointersHold m) (big : Bool)
    (victim : Option (BitVec 20)) (page : BitVec 20) (handler : TlbHandler) :
    PointersHold (installCodePage big victim page handler m) := by
  unfold Paging.installCodePage
  split
  · have hvictim : PointersHold (victim.elim m m.release) := by
      cases victim with
      | none => exact h
      | some q => exact h.release q
    exact (hvictim.setupAt _ _ _).unlinkPages _ _
  · exact h

theorem PointersHold.makeCodePage (h : PointersHold m) (hguest : GuestKeeps PointersHold guest)
    {big reuse : Bool} {victim : Option (BitVec 20)} {r : Machine × List Faulted}
    (hok : makeCodePage guest big reuse victim lin_addr m = .ok r) : PointersHold r.1 := by
  have hdrop := releaseKeeps_pointersHold.dropCode h (linPage lin_addr)
  simp only [Paging.makeCodePage] at hok
  split at hok
  · cases hok
    exact h
  · simp only [newCodePage] at hok
    split at hok
    · obtain ⟨⟨forced, l⟩, hl, hok⟩ := bind_ok.1 hok
      cases hok
      have hl : PointersHold l.m := hdrop.forced hguest hl
      simp only [codePageForced]
      have hdrop' : PointersHold (if forced then l.m.dropCode (linPage lin_addr) else l.m) := by
        split
        · exact releaseKeeps_pointersHold.dropCode hl _
        · exact hl
      split
      · exact hl
      · generalize (if forced then l.m.dropCode (linPage lin_addr) else l.m) = m₁ at hdrop' ⊢
        split
        · exact hdrop'
        · exact hdrop'.installCodePage ..
    · cases hok
      exact hdrop.installCodePage ..

end Kept

theorem PointersHold.settle {ev : Event} {a : Access} (h : PointersHold a.m) :
    PointersHold (ev.settle a) := by
  obtain ⟨hcpu, htlb, hlinks⟩ := settle_same ev a
  exact h.mono htlb hlinks hcpu.phandlers

/-- **Every event keeps it, whatever the guest does.** -/
theorem pointersHold_kept (arch : ArchitectureType) :
    KeptByEvents arch anything fun m _ => PointersHold m := by
  intro m b ev a b' h _ _ hguest hok _
  refine PointersHold.settle ?_
  cases ev with
  | read lin_addr checked guest =>
    cases checked
    · exact h.memRead hguest hok
    · exact h.memReadChecked hguest hok
  | write lin_addr values checked guest =>
    cases checked
    · exact h.memWrite hguest hok
    · exact h.memWriteChecked hguest hok
  | codePage lin_addr big reuse victim guest =>
    obtain ⟨r, hr, hok⟩ := bind_ok.1 hok
    cases hok
    exact h.makeCodePage hguest hr
  | forcePageInit lin_addr guest =>
    obtain ⟨r, hr, hok⟩ := bind_ok.1 hok
    cases hok
    exact h.forced hguest hr
  | privilege | poke =>
    cases hok
    exact h.mono rfl rfl rfl
  | clearTLB =>
    cases hok
    exact h.clearTLB
  | setDirBase cr3 =>
    cases hok
    simp only [Machine.setDirBase]
    split
    · exact (h.mono rfl rfl rfl : PointersHold { m with base_page := linPage cr3 }).clearTLB
    · exact h.mono rfl rfl rfl
  | linkPage page phys_page =>
    cases hok
    exact h.linkPage page phys_page
  | unlinkPages page pages =>
    cases hok
    exact h.unlinkPages page pages
  | release phys_page =>
    cases hok
    exact h.release phys_page

theorem pointersHold_reachable {arch : ArchitectureType} {b : Bool}
    (h : Reachable arch anything Machine.Booted m b) : PointersHold m := by
  refine Reachable.invariant (I := fun m _ => PointersHold m)
    (fun _ booted => .of_unlinked booted.unlinked) (pointersHold_kept arch) ?_ h
  intro m ev fault before h _ hguest herr
  exact exec_entered framed_pointersHold h (fun _ => releaseKeeps_pointersHold) hguest herr

/-! ## Which writes go the right way -/

/-- Where a write to a physical page belongs: RAM takes it directly, and every other page by its
handler, which drops it (ROM), passes it to the device or looks for translated code. -/
def RightWay (handler : PageHandler) (phys_page : BitVec 20) (t : Touch) : Prop :=
  match handler with
  | .ram => t = .host phys_page
  | handler => t = .handler handler phys_page

/-- A write through a pointer that nobody looked at is right on RAM alone. -/
theorem rightWay_ofPt_iff {handler : PageHandler} {phys_page : BitVec 20}
    {pt : Option (BitVec 20)} (hpt : handler = .ram → pt = some phys_page) :
    RightWay handler phys_page (.ofPt pt) ↔ handler = .ram := by
  constructor
  · intro h
    cases handler with
    | ram => rfl
    | rom | device | code =>
      cases pt <;> cases h
  · rintro rfl
    rw [hpt rfl]
    rfl

section Write

variable {arch : ArchitectureType} {lin_addr : BitVec 32}

/-- The entry of a page that is linked for reading only. -/
def LinkedReadOnly (m : Machine) (page : BitVec 20) : Prop :=
  (m.tlb page).write = none ∧ (m.tlb page).writehandler = .init_page_handler_userro

theorem PointersHold.read_pointer (h : PointersHold m) {page : BitVec 20}
    (hro : LinkedReadOnly m page) (hram : m.phandlers (m.tlb page).phys_page = .ram) :
    (m.tlb page).read = some (m.tlb page).phys_page := by
  refine h.holds page ?_ hro.2 hram
  intro hunlinked
  have := congrArg TlbEntry.writehandler hunlinked
  rw [hro.2] at this
  cases this

/-- Freshly linked RAM has its own pointers. -/
theorem linkPage_pointers (m : Machine) (page phys_page : BitVec 20)
    (hram : (m.linkPage page phys_page).phandlers
      ((m.linkPage page phys_page).tlb page).phys_page = .ram) :
    ((m.linkPage page phys_page).tlb page).read =
        some ((m.linkPage page phys_page).tlb page).phys_page ∧
      ((m.linkPage page phys_page).tlb page).write =
        some ((m.linkPage page phys_page).tlb page).phys_page := by
  simp only [linkPage_phys_page, linkPage_phandlers] at hram ⊢
  simp only [Machine.linkPage, setLink_tlb_self, hram]
  exact ⟨rfl, rfl⟩

theorem userro_initPage_pointer {guest : Guest} (h : PointersHold m)
    (hro : LinkedReadOnly m (linPage lin_addr))
    {l : Linked} (hok : UserRO.initPage guest lin_addr m = .ok l)
    (hram : l.m.phandlers (l.m.tlb (linPage lin_addr)).phys_page = .ram) :
    (l.m.tlb (linPage lin_addr)).read = some (l.m.tlb (linPage lin_addr)).phys_page := by
  simp only [UserRO.initPage] at hok
  split at hok
  · split at hok
    · cases hok
      exact h.read_pointer hro hram
    · obtain ⟨w, -, hok⟩ := bind_ok.1 hok
      obtain ⟨f, -, hok⟩ := bind_ok.1 hok
      cases hok
      exact (linkPage_pointers _ _ _ hram).1
  · cases hok
    exact (linkPage_pointers _ _ _ hram).1

/-- **Exactly the writes to plain RAM go the right way**, of all writes through the read-only
handler in every state that any guest can reach. -/
theorem read_only_write_iff {b : Bool} (h : Reachable arch anything Machine.Booted m b)
    (guest : Guest) (values : List (BitVec 8)) (checked : Bool) (hro : LinkedReadOnly m (linPage lin_addr))
    {a : Access} (hok : (Event.write lin_addr values checked guest).exec arch m = .ok a)
    {t : Touch} (ht : a.touched = some t) :
    RightWay (a.m.phandlers (a.m.tlb (linPage lin_addr)).phys_page)
        (a.m.tlb (linPage lin_addr)).phys_page t ↔
      a.m.phandlers (a.m.tlb (linPage lin_addr)).phys_page = .ram := by
  have hm := pointersHold_reachable h
  cases checked with
  | false =>
    simp only [Event.exec, Bool.false_eq_true, if_false, memWrite, hro.1, hro.2, reduceCtorEq,
      and_false, and_self, if_true] at hok
    obtain ⟨l, hl, hok⟩ := bind_ok.1 hok
    cases hok
    cases ht
    exact rightWay_ofPt_iff (userro_initPage_pointer hm hro hl)
  | true =>
    simp only [Event.exec, if_true, memWriteChecked, hro.1, hro.2, reduceCtorEq, and_false,
      and_self, if_false] at hok
    cases hok
    simp only [UserRO.writeChecked] at ht ⊢
    rcases userro_checkOnly_cases arch lin_addr m with ⟨error, h0⟩ | h2 | ⟨phys_page, h1⟩
    · rw [h0] at ht
      cases ht
    · rw [h2] at ht ⊢
      cases ht
      exact rightWay_ofPt_iff (hm.read_pointer hro)
    · rw [h1] at ht ⊢
      cases ht
      exact rightWay_ofPt_iff fun hram => (linkPage_pointers _ _ _ hram).2

end Write

/-! ## A supervisor reads a write-protected page and writes it -/

/-- A supervisor with paging on, and a write-protected page 0 whose frame has a handler. -/
def supervisorMachine (handler : PageHandler) : Machine :=
  { userMachine (readOnlyEntry 5 false) with cpl := 0, phandlers := fun _ => handler }

theorem supervisorMachine_booted (handler : PageHandler) : (supervisorMachine handler).Booted :=
  ⟨fun _ => rfl, rfl⟩

/-- No fault is ever returned from. -/
def neverReturns : Guest := fun _ _ => none

/-- The machine after the supervisor has read the page is reachable. -/
theorem supervisor_read (handler : PageHandler) {a : Access}
    (hok : (Event.read 0 false neverReturns).exec .Pentium (supervisorMachine handler) = .ok a) :
    Reachable .Pentium anything Machine.Booted a.m false := by
  have handlers : ∀ fault before after,
      (Event.read 0 false neverReturns).guest fault before = some after →
        Run .Pentium anything before false after false := nofun
  exact .run (.boot (supervisorMachine_booted handler))
    (.step (.refl _ _) (fun _ => rfl) trivial handlers hok ⟨False.elim, nofun⟩)

/-- A byte written to RAM this way is written to the page. -/
theorem read_only_ram_write :
    ∃ r a, (Event.read 0 false neverReturns).exec .Pentium (supervisorMachine .ram) = .ok r ∧
      (Event.write 0 [1] false neverReturns).exec .Pentium r.m = .ok a ∧
      RightWay (a.m.phandlers (a.m.tlb (linPage 0)).phys_page)
        (a.m.tlb (linPage 0)).phys_page (.host 5) := by
  refine ⟨_, _, rfl, rfl, ?_⟩
  exact (read_only_write_iff (supervisor_read .ram rfl) neverReturns [1] false ⟨rfl, rfl⟩ rfl
    rfl).2 rfl

/-- A reachable machine on which the supervisor's write goes to `t` although the page's handler
is `handler`. -/
def WritesTo (handler : PageHandler) (t : Touch) : Prop :=
  ∃ m a, Reachable .Pentium anything Machine.Booted m false ∧
    LinkedReadOnly m (linPage 0) ∧
    (Event.write 0 [1] false neverReturns).exec .Pentium m = .ok a ∧
    a.touched = some t ∧ a.m.phandlers (a.m.tlb (linPage 0)).phys_page = handler ∧
    ¬ RightWay handler (a.m.tlb (linPage 0)).phys_page t

/-- **Three writes that go the wrong way**: through a null pointer on a device, into ROM, and
into a page with translated code behind the back of its handler. -/
theorem read_only_writes_wrong :
    WritesTo .device .null ∧ WritesTo .rom (.host 5) ∧
      WritesTo (.code .ram false) (.host 5) := by
  refine ⟨⟨_, _, supervisor_read .device rfl, ⟨rfl, rfl⟩, rfl, rfl, rfl, nofun⟩,
    ⟨_, _, supervisor_read .rom rfl, ⟨rfl, rfl⟩, rfl, rfl, rfl, nofun⟩,
    ⟨_, _, supervisor_read (.code .ram false) rfl, ⟨rfl, rfl⟩, rfl, rfl, rfl, nofun⟩⟩

end AugraDosbox.Paging
