import AugraDosbox.Cpu.PagingFaults

/-!
# Paging: what the TLB holds

Lemmas about the links of the TLB that its invariants share.

* `TlbHolds P` says that every linked page is in the list of links and that its entry is one
  that `P` allows.  Linking, unlinking, clearing and relinking keep it.
* `exec_entered` says that what holds before an access holds where a page-fault handler is
  entered.
* `access_paged` says what an access through `InitPageHandler` touches and how it leaves the
  page: linked, unlinked again or linked for reading only.
-/

namespace AugraDosbox.Paging

open Fallible

/-! ## Linked entries -/

@[simp] theorem reset_unlinked (e : TlbEntry) : e.reset.Unlinked := rfl

/-- Every linked page is listed, and its entry is one that `P` allows. -/
structure TlbHolds (P : BitVec 20 → TlbEntry → Prop) (m : Machine) : Prop where
  listed : ∀ page, ¬ (m.tlb page).Unlinked → page ∈ m.links
  holds : ∀ page, ¬ (m.tlb page).Unlinked → P page (m.tlb page)

variable {P P' : BitVec 20 → TlbEntry → Prop} {m m' : Machine}

theorem TlbHolds.mono (h : TlbHolds P m) (htlb : m'.tlb = m.tlb) (hlinks : m'.links = m.links)
    (hP : ∀ page e, P page e → P' page e) : TlbHolds P' m' := by
  constructor
  · simpa only [htlb, hlinks] using h.listed
  · intro page hpage
    rw [htlb] at hpage ⊢
    exact hP page _ (h.holds page hpage)

/-- **After `PAGING_ClearTLB` every entry is an initial one.** -/
theorem TlbHolds.clearTLB_unlinked (h : TlbHolds P m) (page : BitVec 20) :
    (m.clearTLB.tlb page).Unlinked := by
  simp only [Machine.clearTLB]
  split
  · exact reset_unlinked _
  · next hpage => exact not_not.1 fun hlinked => hpage (h.listed page hlinked)

theorem TlbHolds.of_unlinked (h : ∀ page, (m.tlb page).Unlinked) : TlbHolds P m :=
  ⟨fun page hpage => absurd (h page) hpage, fun page hpage => absurd (h page) hpage⟩

theorem TlbHolds.clearTLB (h : TlbHolds P m) : TlbHolds P' m.clearTLB :=
  .of_unlinked h.clearTLB_unlinked

theorem TlbHolds.makeRoom (h : TlbHolds P m) : TlbHolds P m.makeRoom := by
  unfold Machine.makeRoom
  split
  · exact h.clearTLB
  · exact h

/-- All pages but one as `P` allows, and that one not linked. -/
theorem TlbHolds.reset_page (page : BitVec 20) (htlb : m'.tlb page = (m.tlb page).reset)
    (hother : ∀ q, q ≠ page → ¬ (m'.tlb q).Unlinked → q ∈ m'.links ∧ P q (m'.tlb q)) :
    TlbHolds P m' := by
  have hq (q : BitVec 20) (hlinked : ¬ (m'.tlb q).Unlinked) : q ≠ page := by
    rintro rfl
    exact hlinked (htlb ▸ reset_unlinked _)
  exact ⟨fun q hl => (hother q (hq q hl) hl).1, fun q hl => (hother q (hq q hl) hl).2⟩

theorem TlbHolds.unlinkPages (h : TlbHolds P m) (page : BitVec 20) (pages : Nat) :
    TlbHolds P (m.unlinkPages page pages) := by
  induction pages generalizing m page with
  | zero => exact h
  | succ pages ih =>
    refine ih (.reset_page (m := m) page (by simp) fun q hq hlinked => ?_) (page + 1)
    simp only [Function.update_of_ne hq] at hlinked ⊢
    exact ⟨h.listed q hlinked, h.holds q hlinked⟩

theorem TlbHolds.setLink (h : TlbHolds P m) {page : BitVec 20} {e : TlbEntry} (he : P page e) :
    TlbHolds P (m.setLink page e) := by
  constructor
  · intro q hlinked
    by_cases hq : q = page
    · exact hq ▸ List.mem_cons_self
    · simp only [Machine.setLink, Function.update_of_ne hq] at hlinked ⊢
      exact List.mem_cons_of_mem _ (h.makeRoom.listed q hlinked)
  · intro q hlinked
    by_cases hq : q = page
    · subst hq
      simpa using he
    · simp only [Machine.setLink, Function.update_of_ne hq] at hlinked ⊢
      exact h.makeRoom.holds q hlinked

/-- A page that was linked for one access is not linked after it, or for reading only. -/
theorem TlbHolds.relink (h : TlbHolds P m) {page : BitVec 20} {e : TlbEntry} {relink : Nat}
    (hrelink : relink ≠ 0)
    (hro : 1 < relink → ∀ m', m'.phandlers = m.phandlers → TlbHolds P m' →
      TlbHolds P (m'.linkPageReadOnly page (BitVec.ofNat 20 relink))) :
    TlbHolds P (initPageUpdateLink relink page (m.setLink page e)) := by
  have hmid : TlbHolds P ((m.setLink page e).unlinkLast page) := by
    simp only [Machine.unlinkLast, Machine.setLink, if_true]
    refine .reset_page (m := m.setLink page e) page ?_ fun q hq hlinked => ?_
    · simp [Machine.unlinkPages, Machine.setLink]
    · simp only [Machine.unlinkPages, Function.update_of_ne hq] at hlinked ⊢
      exact ⟨h.makeRoom.listed q hlinked, h.makeRoom.holds q hlinked⟩
  unfold initPageUpdateLink
  rw [if_neg hrelink]
  split
  · next hgt =>
    refine hro hgt _ ?_ hmid
    simp only [Machine.unlinkLast, Machine.setLink, if_true, Machine.unlinkPages]
    simp only [Machine.makeRoom]
    split <;> rfl
  · exact hmid

/-! ## What linking leaves alone -/

@[simp] theorem clearTLB_phandlers (m : Machine) : m.clearTLB.phandlers = m.phandlers := rfl

@[simp] theorem setLink_phandlers (m : Machine) (page : BitVec 20) (e : TlbEntry) :
    (m.setLink page e).phandlers = m.phandlers := by
  simp only [Machine.setLink, Machine.makeRoom]
  split <;> rfl

@[simp] theorem linkPage_phandlers (m : Machine) (page phys_page : BitVec 20) :
    (m.linkPage page phys_page).phandlers = m.phandlers := setLink_phandlers ..

@[simp] theorem linkPageReadOnly_phandlers (m : Machine) (page phys_page : BitVec 20) :
    (m.linkPageReadOnly page phys_page).phandlers = m.phandlers := setLink_phandlers ..

/-- The machine apart from the TLB, its links and memory. -/
structure SameCpu (m m' : Machine) : Prop where
  cpl : m'.cpl = m.cpl
  mpl : m'.mpl = m.mpl
  enabled : m'.enabled = m.enabled
  base_page : m'.base_page = m.base_page
  phandlers : m'.phandlers = m.phandlers

theorem SameCpu.refl (m : Machine) : SameCpu m m := ⟨rfl, rfl, rfl, rfl, rfl⟩

theorem SameCpu.trans {m₁ m₂ m₃ : Machine} (h₁ : SameCpu m₁ m₂) (h₂ : SameCpu m₂ m₃) :
    SameCpu m₁ m₃ :=
  ⟨h₂.cpl.trans h₁.cpl, h₂.mpl.trans h₁.mpl, h₂.enabled.trans h₁.enabled,
    h₂.base_page.trans h₁.base_page, h₂.phandlers.trans h₁.phandlers⟩

theorem sameCpu_setLink (m : Machine) (page : BitVec 20) (e : TlbEntry) :
    SameCpu m (m.setLink page e) := by
  simp only [Machine.setLink, Machine.makeRoom]
  split <;> exact ⟨rfl, rfl, rfl, rfl, rfl⟩

theorem sameCpu_unlinkPages (m : Machine) (page : BitVec 20) (pages : Nat) :
    SameCpu m (m.unlinkPages page pages) ∧ (m.unlinkPages page pages).memory = m.memory := by
  induction pages generalizing m page with
  | zero => exact ⟨.refl m, rfl⟩
  | succ pages ih =>
    obtain ⟨hcpu, hmem⟩ := ih { m with tlb := Function.update m.tlb page (m.tlb page).reset }
      (page + 1)
    exact ⟨⟨hcpu.cpl, hcpu.mpl, hcpu.enabled, hcpu.base_page, hcpu.phandlers⟩, hmem⟩

theorem sameCpu_unlinkLast (m : Machine) (page : BitVec 20) :
    SameCpu m (m.unlinkLast page) ∧ (m.unlinkLast page).memory = m.memory := by
  unfold Machine.unlinkLast
  split
  · split
    · exact ⟨⟨rfl, rfl, rfl, rfl, rfl⟩, rfl⟩
    · exact ⟨.refl m, rfl⟩
  · exact ⟨.refl m, rfl⟩

theorem sameCpu_updateLink (relink : Nat) (page : BitVec 20) (m : Machine) :
    SameCpu m (initPageUpdateLink relink page m) ∧
      (initPageUpdateLink relink page m).memory = m.memory := by
  obtain ⟨hcpu, hmem⟩ := sameCpu_unlinkLast m page
  unfold initPageUpdateLink
  split
  · exact ⟨.refl m, rfl⟩
  · split
    · exact ⟨hcpu.trans (sameCpu_setLink ..), by simpa using hmem⟩
    · exact ⟨hcpu, hmem⟩

/-! ## The bytes of a write -/

theorem hostWrite_same (m : Machine) (addr : Nat) (values : List (BitVec 8)) :
    SameCpu m (m.hostWrite addr values) ∧ (m.hostWrite addr values).tlb = m.tlb ∧
      (m.hostWrite addr values).links = m.links := by
  induction values generalizing m addr with
  | nil => exact ⟨.refl m, rfl, rfl⟩
  | cons value values ih =>
    obtain ⟨hcpu, htlb, hlinks⟩ := ih (m.hostWriteb addr value) (addr + 1)
    have hbyte : SameCpu m (m.hostWriteb addr value) := ⟨rfl, rfl, rfl, rfl, rfl⟩
    exact ⟨hbyte.trans hcpu, htlb, hlinks⟩

theorem settle_same (ev : Event) (a : Access) :
    SameCpu a.m (ev.settle a) ∧ (ev.settle a).tlb = a.m.tlb ∧
      (ev.settle a).links = a.m.links := by
  cases ev with
  | write lin_addr values checked guest =>
    simp only [Event.settle, Machine.deliver]
    split
    · exact hostWrite_same ..
    · split
      · exact hostWrite_same ..
      · exact ⟨.refl _, rfl, rfl⟩
    · exact ⟨.refl _, rfl, rfl⟩
  | poke addr value => exact ⟨⟨rfl, rfl, rfl, rfl, rfl⟩, rfl, rfl⟩
  | read | codePage | forcePageInit | privilege | clearTLB | setDirBase | linkPage | unlinkPages
    | release => exact ⟨.refl _, rfl, rfl⟩

/-! ## Host pointers and touches -/

variable {handler : PageHandler} {phys_page q : BitVec 20}

/-- A handler's host pointer is that of the page asked for. -/
theorem getHostReadPt_eq (h : handler.getHostReadPt phys_page = some q) : q = phys_page := by
  induction handler with
  | ram | rom => simpa [PageHandler.getHostReadPt, eq_comm] using h
  | device => simp [PageHandler.getHostReadPt] at h
  | code old big ih => exact ih h

theorem readPt_eq (h : handler.readPt phys_page = some q) : q = phys_page := by
  unfold PageHandler.readPt at h
  split at h
  · exact getHostReadPt_eq h
  · cases h

theorem writePt_eq (h : handler.writePt phys_page = some q) : q = phys_page := by
  unfold PageHandler.writePt at h
  split at h
  · exact getHostReadPt_eq h
  · cases h

/-- Where an access to a physical page goes. -/
def PageHandler.reach (handler : PageHandler) (phys_page : BitVec 20) (writing : Bool) : Touch :=
  match if writing then handler.writePt phys_page else handler.readPt phys_page with
  | some page => .host page
  | none => .handler handler phys_page

theorem linkPage_readLinked (m : Machine) (page phys_page : BitVec 20) :
    (m.linkPage page phys_page).readLinked page =
      .ok ((m.phandlers phys_page).reach phys_page false) := by
  simp only [Machine.readLinked, Machine.linkPage, setLink_tlb_self, linkedTouch,
    PageHandler.reach]
  cases (m.phandlers phys_page).readPt phys_page <;> rfl

theorem linkPage_writeLinked (m : Machine) (page phys_page : BitVec 20) :
    (m.linkPage page phys_page).writeLinked page =
      .ok ((m.phandlers phys_page).reach phys_page true) := by
  simp only [Machine.writeLinked, Machine.linkPage, setLink_tlb_self, linkedTouch,
    PageHandler.reach]
  cases (m.phandlers phys_page).writePt phys_page <;> rfl

theorem linkPageReadOnly_readLinked (m : Machine) (page phys_page : BitVec 20) :
    (m.linkPageReadOnly page phys_page).readLinked page =
      .ok ((m.phandlers phys_page).reach phys_page false) := by
  simp only [Machine.readLinked, Machine.linkPageReadOnly, setLink_tlb_self, linkedTouch,
    PageHandler.reach]
  cases (m.phandlers phys_page).readPt phys_page <;> rfl

/-! ## An access through `InitPageHandler` -/

/-- The machine of a walk after its entries were marked. -/
def Walk.marked (w : Walk) (page : BitVec 20) (dirty : Bool) : Machine :=
  markEntry page dirty w.table w.entry (markTable page w.table w.m)

theorem marked_same (w : Walk) (page : BitVec 20) (dirty : Bool) :
    SameCpu w.m (w.marked page dirty) ∧ (w.marked page dirty).tlb = w.m.tlb ∧
      (w.marked page dirty).links = w.m.links := by
  unfold Walk.marked markEntry markTable
  split <;> split <;> exact ⟨⟨rfl, rfl, rfl, rfl, rfl⟩, rfl, rfl⟩

/-- How an access leaves its page: linked, unlinked again (and perhaps linked once more for
reading only), or linked for reading only. -/
inductive LeftAs (page phys_page : BitVec 20) (priv : Nat) (writing : Bool) (marked : Machine) :
    Machine → Prop
  | linked (hpriv : priv = 0) :
    LeftAs page phys_page priv writing marked (marked.linkPage page phys_page)
  | unlinked (relink : Nat) (hpriv : priv ≠ 0) (hrelink : relink ≠ 0)
      (hro : 1 < relink → priv ≠ 1 ∧ writing = true ∧ BitVec.ofNat 20 relink = phys_page) :
    LeftAs page phys_page priv writing marked
      (initPageUpdateLink relink page (marked.linkPage page phys_page))
  | readOnly (hpriv : priv ≠ 0) (hpriv' : priv ≠ 1) (hread : writing = false) :
    LeftAs page phys_page priv writing marked (marked.linkPageReadOnly page phys_page)

/-- Memory and everything but the TLB are left alone. -/
theorem LeftAs.same {page phys_page : BitVec 20} {priv : Nat} {writing : Bool}
    {marked after : Machine} (h : LeftAs page phys_page priv writing marked after) :
    SameCpu marked after ∧ after.memory = marked.memory := by
  cases h with
  | linked => exact ⟨sameCpu_setLink .., linkPage_memory ..⟩
  | unlinked relink =>
    obtain ⟨hcpu, hmem⟩ := sameCpu_updateLink relink page (marked.linkPage page phys_page)
    exact ⟨(sameCpu_setLink ..).trans hcpu, hmem.trans (linkPage_memory ..)⟩
  | readOnly => exact ⟨sameCpu_setLink .., linkPageReadOnly_memory ..⟩

/-- What `link` returns leads to one of the three. -/
theorem leftAs_link (page phys_page : BitVec 20) (writing : Bool) (priv : Nat) (m : Machine) :
    LeftAs page phys_page priv writing m
      (initPageUpdateLink (InitPage.link page phys_page writing priv m).1 page
        (InitPage.link page phys_page writing priv m).2) := by
  have hone : 1 < 1 → priv ≠ 1 ∧ writing = true ∧ BitVec.ofNat 20 1 = phys_page :=
    fun h => absurd h (Nat.lt_irrefl 1)
  unfold InitPage.link
  by_cases h0 : priv = 0
  · simp only [h0, if_true, initPageUpdateLink]
    exact .linked rfl
  · by_cases h1 : priv = 1
    · simp only [h1, if_true, if_neg Nat.one_ne_zero]
      exact .unlinked 1 Nat.one_ne_zero Nat.one_ne_zero fun h => absurd h (Nat.lt_irrefl 1)
    · cases writing with
      | false =>
        simp only [h0, h1, if_false, Bool.false_eq_true, initPageUpdateLink, if_true]
        exact .readOnly h0 h1 rfl
      | true =>
        simp only [h0, h1, if_false, if_true]
        split_ifs
        · exact .unlinked 1 h0 Nat.one_ne_zero hone
        · exact .unlinked 1 h0 Nat.one_ne_zero hone
        · exact .unlinked 1 h0 Nat.one_ne_zero hone
        · next hphys =>
          exact .unlinked _ h0 (by omega) fun _ => ⟨h1, rfl, by simp⟩
        · exact .unlinked 1 h0 Nat.one_ne_zero hone

/-- The access inside `InitPageHandler` finds the page linked. -/
theorem link_access (page phys_page : BitVec 20) (writing : Bool) (priv : Nat) (m : Machine) :
    (if writing then (InitPage.link page phys_page writing priv m).2.writeLinked page
      else (InitPage.link page phys_page writing priv m).2.readLinked page) =
        .ok ((m.phandlers phys_page).reach phys_page writing) := by
  unfold InitPage.link
  cases writing
  · simp only [Bool.false_eq_true, if_false]
    split_ifs
    · exact linkPage_readLinked ..
    · exact linkPage_readLinked ..
    · exact linkPageReadOnly_readLinked ..
  · simp only [if_true]
    split_ifs <;> exact linkPage_writeLinked ..

/-- **What an access through `InitPageHandler` does with paging on**: after the walk it touches
the page of the table entry, and it leaves the linear page in one of three ways. -/
theorem access_paged {arch : ArchitectureType} {guest : Guest} {lin_addr : BitVec 32}
    {writing : Bool} {a : Access} (hen : m.enabled = true)
    (h : InitPage.access arch guest lin_addr writing m = .ok a) :
    ∃ priv w, InitPage.walk arch guest lin_addr writing m = .ok (priv, w) ∧
      a.raised = w.raised ∧
      a.touched = some ((w.m.phandlers w.entry.base).reach w.entry.base writing) ∧
      LeftAs (linPage lin_addr) w.entry.base priv writing
        (w.marked (linPage lin_addr) (writing || priv = 0)) a.m := by
  obtain ⟨l, hl, h⟩ := bind_ok.1 h
  obtain ⟨t, ht, h⟩ := bind_ok.1 h
  cases h
  simp only [InitPage.initPage, hen, if_true] at hl
  obtain ⟨⟨priv, w⟩, hw, hl⟩ := bind_ok.1 hl
  cases hl
  refine ⟨priv, w, hw, rfl, ?_, leftAs_link ..⟩
  have hlink := link_access (linPage lin_addr) w.entry.base writing priv
    (w.marked (linPage lin_addr) (writing || priv = 0))
  rw [(marked_same w (linPage lin_addr) (writing || priv = 0)).1.phandlers] at hlink
  have := ht.symm.trans hlink
  simpa using this

/-- Without paging the page is linked and nothing is marked. -/
theorem access_unpaged {arch : ArchitectureType} {guest : Guest} {lin_addr : BitVec 32}
    {writing : Bool} {a : Access} (hen : m.enabled = false)
    (h : InitPage.access arch guest lin_addr writing m = .ok a) :
    a.m = m.linkPage (linPage lin_addr) (m.unpaged (linPage lin_addr)) ∧ a.raised = [] := by
  obtain ⟨l, hl, h⟩ := bind_ok.1 h
  obtain ⟨t, ht, h⟩ := bind_ok.1 h
  cases h
  simp only [InitPage.initPage, hen, Bool.false_eq_true, if_false] at hl
  cases hl
  exact ⟨rfl, rfl⟩

/-! ## Inside the guest's handlers -/

/-- What a property of machines has to be to hold inside the handlers: it does not look at the
fields that a fault changes, and unlinking keeps it. -/
structure Framed (J : Machine → Prop) : Prop where
  cpu : ∀ m mpl cr2 exceptionError, J m → J { m with mpl, cr2, exceptionError }
  unlinkPages : ∀ m page pages, J m → J (m.unlinkPages page pages)
  unpaged : ∀ m page, m.enabled = false → J m → J (m.linkPage page (m.unpaged page))

/-- The property is kept by the guest's handlers. -/
def GuestKeeps (J : Machine → Prop) (guest : Guest) : Prop :=
  ∀ fault before after, guest fault before = some after → J before → J after

/-- The property holds of the result, or of the machine on which a handler is entered. -/
def Keeps {α : Type} (J : Machine → Prop) (x : Except Stop α) (result : α → Machine) : Prop :=
  (∀ r, x = .ok r → J (result r)) ∧ ∀ fault before, x = .error (.inHandler fault before) → J before

variable {J : Machine → Prop} {guest : Guest} {arch : ArchitectureType}

theorem Keeps.ok {α : Type} {result : α → Machine} {r : α} (h : J (result r)) :
    Keeps J (.ok r) result := by
  refine ⟨fun r' hr => ?_, fun _ _ h => by cases h⟩
  cases hr
  exact h

theorem Keeps.bind {α β : Type} {x : Except Stop α} {f : α → Except Stop β}
    {result : α → Machine} {result' : β → Machine} (hx : Keeps J x result)
    (hf : ∀ r, x = .ok r → J (result r) → Keeps J (f r) result') :
    Keeps J (x >>= f) result' := by
  constructor
  · intro r h
    obtain ⟨r', hr', h⟩ := bind_ok.1 h
    exact (hf r' hr' (hx.1 r' hr')).1 r h
  · intro fault before h
    rcases bind_error.1 h with h | ⟨r', hr', h⟩
    · exact hx.2 fault before h
    · exact (hf r' hr' (hx.1 r' hr')).2 fault before h

theorem keeps_pageFault (hJ : Framed J) (hguest : GuestKeeps J guest) (h : J m) (cause : Cause)
    (fault : Fault) :
    Keeps J (pageFault guest cause fault m) (·.after) := by
  have hentered : J { m with cr2 := fault.lin_addr, mpl := 3 } := hJ.cpu m 3 fault.lin_addr _ h
  constructor
  · intro f hf
    obtain ⟨-, hret⟩ := pageFault_ok hf
    obtain ⟨back, hback, -, hafter⟩ := hret.after
    change J f.after
    rw [hafter]
    exact hJ.cpu back m.mpl _ _ (hguest _ _ _ hback (hret.before ▸ hentered))
  · intro fault' before hf
    simp only [pageFault] at hf
    split at hf
    · cases hf
      exact hentered
    · split at hf
      · cases hf
      · cases hf
        exact hentered

theorem keeps_readPresent (hJ : Framed J) (hguest : GuestKeeps J guest) (h : J m) (cause : Cause)
    (lin_addr : BitVec 32) (writing : Bool) (addr : Nat) :
    Keeps J (readPresent guest cause lin_addr writing addr m) (·.m) := by
  unfold readPresent
  split
  · exact .ok h
  · refine (keeps_pageFault hJ hguest h _ _).bind fun f _ hf => ?_
    split
    · exact .ok hf
    · constructor
      · intro r hr
        cases hr
      · intro fault before hbefore
        cases hbefore

theorem keeps_checkPresence (hJ : Framed J) (hguest : GuestKeeps J guest) (h : J m)
    (lin_addr : BitVec 32) (writing : Bool) :
    Keeps J (initPageCheckPresence guest lin_addr writing m) (·.m) := by
  refine (keeps_readPresent hJ hguest h ..).bind fun t _ ht => ?_
  exact (keeps_readPresent hJ hguest ht ..).bind fun e _ he => .ok he

theorem keeps_walk (hJ : Framed J) (hguest : GuestKeeps J guest) (h : J m) (lin_addr : BitVec 32)
    (writing : Bool) :
    Keeps J (InitPage.walk arch guest lin_addr writing m) (·.2.m) := by
  refine (keeps_checkPresence hJ hguest h lin_addr writing).bind fun w _ hw => ?_
  simp only [InitPage.checkPrivilege]
  split
  · exact (keeps_pageFault hJ hguest hw _ _).bind fun f _ hf => .ok hf
  · exact .ok hw

/-- An error of an access is one of its walk. -/
theorem access_entered (hJ : Framed J) (hguest : GuestKeeps J guest) (h : J m)
    {lin_addr : BitVec 32} {writing : Bool} {fault : Fault} {before : Machine}
    (herr : InitPage.access arch guest lin_addr writing m = .error (.inHandler fault before)) :
    J before := by
  rcases bind_error.1 herr with herr | ⟨l, -, herr⟩
  · simp only [InitPage.initPage] at herr
    split at herr
    · rcases bind_error.1 herr with herr | ⟨_, -, herr⟩
      · exact (keeps_walk hJ hguest h ..).2 _ _ herr
      · cases herr
    · cases herr
  · rcases bind_error.1 herr with herr | ⟨_, -, herr⟩
    · revert herr
      simp only [Machine.writeLinked, Machine.readLinked, linkedTouch]
      split <;> split <;> intro herr <;> cases herr
    · cases herr

section Entered

variable {fault : Fault} {before : Machine} {lin_addr : BitVec 32} {m : Machine}

/-- Errors of linked accesses are not those of a handler. -/
theorem linkedTouch_ne_inHandler {pt : Option (BitVec 20)} {handler : TlbHandler}
    {phys_page : BitVec 20} : linkedTouch pt handler phys_page ≠ .error (.inHandler fault before) := by
  unfold linkedTouch
  split <;> simp

theorem userro_write_entered (hJ : Framed J) (hguest : GuestKeeps J guest) (h : J m)
    (herr : UserRO.write guest lin_addr m = .error (.inHandler fault before)) : J before := by
  rcases bind_error.1 herr with herr | ⟨l, -, herr⟩
  · simp only [UserRO.initPage] at herr
    split at herr
    · split at herr
      · cases herr
      · rcases bind_error.1 herr with herr | ⟨w, hw, herr⟩
        · exact (keeps_checkPresence hJ hguest h ..).2 _ _ herr
        · have hm := (keeps_checkPresence hJ hguest h ..).1 w hw
          rcases bind_error.1 herr with herr | ⟨f, -, herr⟩
          · exact (keeps_pageFault hJ hguest hm ..).2 _ _ herr
          · cases herr
    · cases herr
  · cases herr

theorem memRead_entered (hJ : Framed J) (hguest : GuestKeeps J guest) (h : J m)
    (herr : memRead arch guest lin_addr m = .error (.inHandler fault before)) : J before := by
  simp only [memRead] at herr
  split at herr
  · exact access_entered hJ hguest h herr
  · rcases bind_error.1 herr with herr | ⟨_, -, herr⟩
    · exact absurd herr linkedTouch_ne_inHandler
    · cases herr

theorem memWrite_entered (hJ : Framed J) (hguest : GuestKeeps J guest) (h : J m)
    (herr : memWrite arch guest lin_addr m = .error (.inHandler fault before)) : J before := by
  simp only [memWrite] at herr
  split at herr
  · exact access_entered hJ hguest h herr
  · split at herr
    · exact userro_write_entered hJ hguest h herr
    · rcases bind_error.1 herr with herr | ⟨_, -, herr⟩
      · exact absurd herr linkedTouch_ne_inHandler
      · cases herr

/-- What the check of a checked access comes to. -/
theorem checkOnly_cases (arch : ArchitectureType) (lin_addr : BitVec 32) (writing : Bool)
    (m : Machine) :
    (∃ error, InitPage.checkOnly arch lin_addr writing m = (false, m.exception lin_addr error)) ∨
      (m.enabled = true ∧ InitPage.checkOnly arch lin_addr writing m = (true, m)) ∨
      (m.enabled = false ∧ InitPage.checkOnly arch lin_addr writing m =
        (true, m.linkPage (linPage lin_addr) (m.unpaged (linPage lin_addr)))) := by
  simp only [InitPage.checkOnly, initPageCheckPresenceCheckOnly]
  cases hen : m.enabled with
  | false => exact .inr (.inr ⟨rfl, rfl⟩)
  | true =>
    simp only [if_true]
    cases !(m.entryAt (dirAddr m.base_page (linPage lin_addr))).p with
    | true => exact .inl ⟨_, rfl⟩
    | false =>
      simp only [Bool.false_eq_true, if_false]
      split
      · next herr =>
        split at herr
        · cases herr
          exact .inl ⟨_, rfl⟩
        · cases herr
      · split
        · exact .inr (.inl ⟨trivial, rfl⟩)
        · split
          · exact .inl ⟨_, rfl⟩
          · exact .inr (.inl ⟨trivial, rfl⟩)

theorem checkOnly_keeps (hJ : Framed J) (h : J m) (writing : Bool) :
    J (InitPage.checkOnly arch lin_addr writing m).2 := by
  rcases checkOnly_cases arch lin_addr writing m with ⟨error, hc⟩ | ⟨-, hc⟩ | ⟨hen, hc⟩
  · rw [hc]
    exact hJ.cpu m m.mpl lin_addr error h
  · rw [hc]
    exact h
  · rw [hc]
    exact hJ.unpaged m _ hen h

/-- A check that passes with paging on leaves the machine alone. -/
theorem checkOnly_true (hen : m.enabled = true) {writing : Bool}
    (h : (InitPage.checkOnly arch lin_addr writing m).1 = true) :
    (InitPage.checkOnly arch lin_addr writing m).2 = m := by
  rcases checkOnly_cases arch lin_addr writing m with ⟨error, hc⟩ | ⟨-, hc⟩ | ⟨hen', -⟩
  · rw [hc] at h
    cases h
  · rw [hc]
  · rw [hen] at hen'
    cases hen'

/-- What the check of a checked write through the read-only handler comes to. -/
theorem userro_checkOnly_cases (arch : ArchitectureType) (lin_addr : BitVec 32) (m : Machine) :
    (∃ error, UserRO.checkOnly arch lin_addr m = (0, m.exception lin_addr error)) ∨
      UserRO.checkOnly arch lin_addr m = (2, m) ∨
      ∃ phys_page, UserRO.checkOnly arch lin_addr m =
        (1, m.linkPage (linPage lin_addr) phys_page) := by
  simp only [UserRO.checkOnly, initPageCheckPresenceCheckOnly]
  cases m.enabled with
  | false => exact .inr (.inr ⟨_, rfl⟩)
  | true =>
    simp only [if_true]
    split
    · exact .inr (.inl rfl)
    · split
      · next herr =>
        split at herr
        · cases herr
          exact .inl ⟨_, rfl⟩
        · split at herr
          · cases herr
            exact .inl ⟨_, rfl⟩
          · cases herr
      · split
        · exact .inl ⟨_, rfl⟩
        · exact .inr (.inr ⟨_, rfl⟩)

theorem memReadChecked_entered (hJ : Framed J) (hguest : GuestKeeps J guest) (h : J m)
    (herr : memReadChecked arch guest lin_addr m = .error (.inHandler fault before)) :
    J before := by
  simp only [memReadChecked] at herr
  split at herr
  · split at herr
    · exact memRead_entered hJ hguest (checkOnly_keeps hJ h false) herr
    · cases herr
  · exact memRead_entered hJ hguest h herr

theorem memWriteChecked_entered (hJ : Framed J) (hguest : GuestKeeps J guest) (h : J m)
    (herr : memWriteChecked arch guest lin_addr m = .error (.inHandler fault before)) :
    J before := by
  simp only [memWriteChecked] at herr
  split at herr
  · split at herr
    · exact memWrite_entered hJ hguest (checkOnly_keeps hJ h true) herr
    · cases herr
  · split at herr
    · cases herr
    · exact memWrite_entered hJ hguest h herr

theorem forcePageInit_entered (hJ : Framed J) (hguest : GuestKeeps J guest) (h : J m)
    (herr : forcePageInit guest lin_addr m = .error (.inHandler fault before)) : J before := by
  unfold forcePageInit at herr
  split at herr
  · rcases bind_error.1 herr with herr | ⟨_, -, herr⟩
    · simp only [InitPage.forced] at herr
      split at herr
      · rcases bind_error.1 herr with herr | ⟨_, -, herr⟩
        · exact (keeps_checkPresence hJ hguest h ..).2 _ _ herr
        · cases herr
      · cases herr
    · cases herr
  · rcases bind_error.1 herr with herr | ⟨_, -, herr⟩
    · simp only [UserRO.forced] at herr
      split at herr
      · rcases bind_error.1 herr with herr | ⟨_, -, herr⟩
        · exact (keeps_checkPresence hJ hguest (hJ.unlinkPages _ _ _ h) ..).2 _ _ herr
        · cases herr
      · cases herr
    · cases herr
  · cases herr

/-- The property is kept by the release of a page with translated code. -/
def ReleaseKeeps (J : Machine → Prop) : Prop := ∀ m phys_page, J m → J (m.release phys_page)

theorem ReleaseKeeps.dropCode (hrelease : ReleaseKeeps J) (h : J m) (page : BitVec 20) :
    J (m.dropCode page) := by
  simp only [Machine.dropCode]
  split
  · exact hrelease _ _ h
  · exact h

theorem makeCodePage_entered (hJ : Framed J) (hrelease : ReleaseKeeps J)
    (hguest : GuestKeeps J guest) (h : J m) {big reuse : Bool} {victim : Option (BitVec 20)}
    (herr : makeCodePage guest big reuse victim lin_addr m = .error (.inHandler fault before)) :
    J before := by
  simp only [makeCodePage] at herr
  split at herr
  · cases herr
  · simp only [newCodePage] at herr
    split at herr
    · rcases bind_error.1 herr with herr | ⟨_, -, herr⟩
      · exact forcePageInit_entered hJ hguest (hrelease.dropCode h _) herr
      · cases herr
    · cases herr

/-- **What holds before an event holds where a page-fault handler is entered in it.** -/
theorem exec_entered (hJ : Framed J) (h : J m) {ev : Event}
    (hrelease : ev.setsCode = true → ReleaseKeeps J) (hguest : GuestKeeps J ev.guest)
    (herr : ev.exec arch m = .error (.inHandler fault before)) : J before := by
  cases ev with
  | read lin_addr checked guest =>
    cases checked
    · exact memRead_entered hJ hguest h herr
    · exact memReadChecked_entered hJ hguest h herr
  | write lin_addr values checked guest =>
    cases checked
    · exact memWrite_entered hJ hguest h herr
    · exact memWriteChecked_entered hJ hguest h herr
  | codePage lin_addr big reuse victim guest =>
    rcases bind_error.1 herr with herr | ⟨_, -, herr⟩
    · exact makeCodePage_entered hJ (hrelease rfl) hguest h herr
    · cases herr
  | forcePageInit lin_addr guest =>
    rcases bind_error.1 herr with herr | ⟨_, -, herr⟩
    · exact forcePageInit_entered hJ hguest h herr
    · cases herr
  | privilege | poke | clearTLB | setDirBase | linkPage | unlinkPages | release => cases herr

end Entered

end AugraDosbox.Paging
