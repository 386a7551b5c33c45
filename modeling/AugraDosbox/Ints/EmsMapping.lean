import AugraDosbox.Hardware.PageScatter
import AugraDosbox.Ints.Ems

/-!
# What is mapped into the page frame

* `Core` — every handle owns the pages that its entry counts.
* `Slot` — a slot of the page frame shows what is recorded for it.
* `EMM_MapPage_spec`, `EMM_MapSegment_outside`, `EMM_MapSegment_aligned` — the
  mapping calls.
* `EMM_RestoreMappingTable_spec` — restoring a table of mappings that are accepted.
-/

namespace AugraDosbox

namespace Ems

open EmmStatus MemoryBlock

/-! ## What the tables say -/

/-- A mapping that `EMM_MapPage` accepts: it unmaps, or names a page of a handle. -/
def Restorable (s : Ems) (v : EMM_Mapping) : Prop :=
  v.page = NULL_PAGE ∨ (s.ValidHandle v.handle = true ∧ v.page < (s.emm_handles v.handle).pages)

/-- The page of the first megabyte at which quarter `j` of a slot starts. -/
def slotPage (i j : ℕ) : ℕ := EMM_PAGEFRAME4K + i * 4 + j

/-- The slot is unmapped and shows the memory at its own address. -/
def Unmapped (s : Ems) (i : ℕ) : Prop :=
  s.emm_mappings i = {} ∧ ∀ j, j < 4 → s.firstmb (slotPage i j) = slotPage i j

/-- The slot names a page of a valid handle, and shows the four pages to which the
walk over the allocation leads. -/
def Shows (s : Ems) (i : ℕ) : Prop :=
  let v := s.emm_mappings i
  s.ValidHandle v.handle = true ∧ v.page < (s.emm_handles v.handle).pages ∧
    ∀ j, j < 4 → s.mem.MEM_NextHandleAt (s.emm_handles v.handle).mem (v.page * 4 + j) =
      .ok (s.firstmb (slotPage i j))

/-- Every handle owns as many pages as its entry counts. -/
structure Core (s : Ems) (live : ℕ → Option (List ℕ)) : Prop where
  owned : s.mem.Owned live
  chain : ∀ {h}, s.ValidHandle h = true → (s.emm_handles h).pages ≠ 0 →
    ∃ (k : ℕ) (L : List ℕ), (s.emm_handles h).mem = k ∧ live k = some L ∧
      L.length = (s.emm_handles h).pages * 4
  injective : ∀ {h h'}, s.ValidHandle h = true → s.ValidHandle h' = true →
    (s.emm_handles h).pages ≠ 0 → (s.emm_handles h').pages ≠ 0 →
    (s.emm_handles h).mem = (s.emm_handles h').mem → h = h'

/-- A slot shows what is recorded for it. -/
def Slot (s : Ems) (live : ℕ → Option (List ℕ)) (i : ℕ) : Prop :=
  s.Unmapped i ∨
    (s.ValidHandle (s.emm_mappings i).handle = true ∧
      (s.emm_mappings i).page < (s.emm_handles (s.emm_mappings i).handle).pages ∧
      ∃ (k : ℕ) (L : List ℕ), (s.emm_handles (s.emm_mappings i).handle).mem = k ∧ live k = some L ∧
        ∀ j, j < 4 → L[(s.emm_mappings i).page * 4 + j]? = some (s.firstmb (slotPage i j)))

variable {s s' : Ems} {live : ℕ → Option (List ℕ)} {i : ℕ}

theorem Slot.shows (h : s.Slot live i) (hcore : s.Core live) : s.Unmapped i ∨ s.Shows i := by
  rcases h with h | ⟨hvalid, hpage, k, L, hk, hL, hshow⟩
  · exact Or.inl h
  · refine Or.inr ⟨hvalid, hpage, fun j hj => ?_⟩
    rw [hk]
    exact hcore.owned.nextHandleAt hL (hshow j hj)

/-! ## Making pages visible -/

theorem PAGING_MapPage_eq {lin_page : ℕ} {phys_page : ℤ} (h : lin_page < LINK_START) :
    s.PAGING_MapPage lin_page phys_page =
      { s with firstmb := Function.update s.firstmb lin_page (phys_page % 2 ^ 32).toNat } :=
  if_pos h

/-- Unmapping writes the table of the first megabyte only. -/
theorem unmapPages_eq {n : ℕ} : ∀ {s : Ems} {lin_page : ℕ}, lin_page + n ≤ LINK_START →
    ∃ f, s.unmapPages n lin_page = { s with firstmb := f } ∧
      ∀ x, f x = if lin_page ≤ x ∧ x < lin_page + n then x else s.firstmb x := by
  induction n with
  | zero => exact fun {s lin_page} _ => ⟨s.firstmb, rfl, fun x => (if_neg (by omega)).symm⟩
  | succ n ih =>
    intro s lin_page hlin
    obtain ⟨f, hf, hx⟩ := @ih (s.PAGING_MapPage lin_page lin_page) (lin_page + 1) (by omega)
    rw [unmapPages, hf, PAGING_MapPage_eq (by omega)]
    refine ⟨f, rfl, fun x => ?_⟩
    rw [hx x, PAGING_MapPage_eq (by omega)]
    have hself : ((lin_page : ℤ) % 2 ^ 32).toNat = lin_page := by
      have : LINK_START = 0x110 := rfl
      omega
    by_cases hx : x = lin_page
    · subst hx
      rw [if_neg (by omega), if_pos (by omega)]
      simp only [Function.update_self, hself]
    · simp only [Function.update_of_ne hx]
      refine if_congr ?_ rfl rfl
      omega

/-- Mapping writes the table of the first megabyte only, and follows the pages of the
allocation. -/
theorem mapPages_eq {n : ℕ} : ∀ {s : Ems} {lin_page i k x : ℕ} {L : List ℕ}, s.mem.Owned live →
    live k = some L → lin_page + n ≤ LINK_START → L[i]? = some x → i + n ≤ L.length →
    ∃ f, s.mapPages n lin_page x = .ok { s with firstmb := f } ∧
      (∀ j, j < n → L[i + j]? = some (f (lin_page + j))) ∧
      ∀ y, y < lin_page ∨ lin_page + n ≤ y → f y = s.firstmb y := by
  induction n with
  | zero => exact fun {s} _ _ _ _ _ _ _ _ _ _ => ⟨s.firstmb, rfl, by omega, fun _ _ => rfl⟩
  | succ n ih =>
    intro s lin_page i k x L ho hL hlin hx hlen
    obtain ⟨v, hv, hnext⟩ := ho.nextHandle hL hx
    have hfit : ((x : ℤ) % 2 ^ 32).toNat = x := by
      have := (ho.bounds hL x (List.mem_of_getElem? hx)).2
      have := s.mem.pages_le
      have : MaxPages = 786432 := rfl
      omega
    rw [mapPages, PAGING_MapPage_eq (by omega), hfit]
    simp only [bind, Except.bind]
    rw [hv]
    cases n with
    | zero =>
      refine ⟨_, rfl, fun j hj => ?_, fun y hy => Function.update_of_ne (by omega) _ _⟩
      obtain rfl : j = 0 := by omega
      simpa using hx
    | succ n =>
      obtain ⟨y, hy⟩ : ∃ y, L[i + 1]? = some y := ⟨_, List.getElem?_eq_getElem (by omega)⟩
      rw [hnext y hy]
      obtain ⟨f, hf, hshow, hframe⟩ :=
        @ih { s with firstmb := Function.update s.firstmb lin_page x } (lin_page + 1) _ _ _ _ ho hL
          (by omega) hy (by omega)
      refine ⟨f, hf, fun j hj => ?_, fun z hz => ?_⟩
      · cases j with
        | zero =>
          rw [Nat.add_zero, Nat.add_zero, hframe lin_page (by omega)]
          simpa using hx
        | succ j =>
          have := hshow j (by omega)
          rwa [Nat.add_assoc, Nat.add_comm 1 j, Nat.add_assoc, Nat.add_comm 1 j] at this
      · rw [hframe z (by omega)]
        exact Function.update_of_ne (by omega) _ _

/-! ## The mapping calls -/

/-- The handles own the same pages. -/
structure SameHandles (s s' : Ems) : Prop where
  mem : s'.mem = s.mem
  pages : ∀ h, (s'.emm_handles h).pages = (s.emm_handles h).pages
  first : ∀ h, (s'.emm_handles h).mem = (s.emm_handles h).mem

theorem SameHandles.of_eq (hmem : s'.mem = s.mem) (hhandles : s'.emm_handles = s.emm_handles) :
    SameHandles s s' :=
  ⟨hmem, fun _ => by rw [hhandles], fun _ => by rw [hhandles]⟩

/-- A slot is recorded and visible as before. -/
structure SameSlot (s s' : Ems) (i : ℕ) : Prop where
  mapping : s'.emm_mappings i = s.emm_mappings i
  paging : ∀ j, j < 4 → s'.firstmb (slotPage i j) = s.firstmb (slotPage i j)

theorem SameHandles.validHandle (h : SameHandles s s') (k : ℕ) :
    s'.ValidHandle k = s.ValidHandle k := by
  rw [ValidHandle, ValidHandle, h.pages]

theorem SameHandles.core (h : SameHandles s s') (hcore : s.Core live) : s'.Core live := by
  refine ⟨?_, ?_, ?_⟩
  · rw [h.mem]
    exact hcore.owned
  · intro k hk hpages
    rw [h.validHandle] at hk
    rw [h.pages] at hpages ⊢
    rw [h.first]
    exact hcore.chain hk hpages
  · intro k k' hk hk' hp hp' heq
    rw [h.validHandle] at hk hk'
    rw [h.pages] at hp hp'
    rw [h.first, h.first] at heq
    exact hcore.injective hk hk' hp hp' heq

theorem SameSlot.slot (h : SameHandles s s') (hi : SameSlot s s' i) (hslot : s.Slot live i) :
    s'.Slot live i := by
  rcases hslot with ⟨hnull, hpaging⟩ | ⟨hvalid, hpage, k, L, hk, hL, hshow⟩
  · refine Or.inl ⟨by rw [hi.mapping, hnull], fun j hj => ?_⟩
    rw [hi.paging j hj, hpaging j hj]
  · refine Or.inr ?_
    rw [hi.mapping, h.validHandle, h.pages, h.first]
    refine ⟨hvalid, hpage, k, L, hk, hL, fun j hj => ?_⟩
    rw [hi.paging j hj, hshow j hj]

theorem restorable_congr (h : SameHandles s s') (v : EMM_Mapping) :
    s'.Restorable v ↔ s.Restorable v := by
  rw [Restorable, Restorable, h.validHandle, h.pages]

/-- Walking to a page of a handle and making its four quarters visible. -/
theorem Core.mapPages {lin_page handle log_page : ℕ} (hcore : s.Core live)
    (hvalid : s.ValidHandle handle = true) (hpage : log_page < (s.emm_handles handle).pages)
    (hlin : lin_page + 4 ≤ LINK_START) :
    ∃ (k : ℕ) (L : List ℕ) (f : ℕ → ℕ) (memh : ℤ), (s.emm_handles handle).mem = k ∧
      live k = some L ∧
      s.mem.MEM_NextHandleAt (s.emm_handles handle).mem (log_page * 4) = .ok memh ∧
      s.mapPages 4 lin_page memh = .ok { s with firstmb := f } ∧
      (∀ j, j < 4 → L[log_page * 4 + j]? = some (f (lin_page + j))) ∧
      ∀ y, y < lin_page ∨ lin_page + 4 ≤ y → f y = s.firstmb y := by
  obtain ⟨k, L, hk, hL, hlen⟩ := hcore.chain hvalid (by omega)
  obtain ⟨x, hx⟩ : ∃ x, L[log_page * 4]? = some x := ⟨_, List.getElem?_eq_getElem (by omega)⟩
  obtain ⟨f, hf, hshow, hframe⟩ := mapPages_eq hcore.owned hL hlin hx (by omega)
  refine ⟨k, L, f, x, hk, hL, ?_, hf, hshow, hframe⟩
  rw [hk]
  exact hcore.owned.nextHandleAt hL hx

theorem sameHandles_setMapping (v : EMM_Mapping) : SameHandles s (s.setMapping i v) :=
  SameHandles.of_eq rfl rfl

theorem sameHandles_setSegmentMapping (v : EMM_Mapping) : SameHandles s (s.setSegmentMapping i v) :=
  SameHandles.of_eq rfl rfl

theorem slotPage_lt (hi : i < EMM_MAX_PHYS) : EMM_PAGEFRAME4K + i * 4 + 4 ≤ LINK_START := by
  simp only [EMM_MAX_PHYS, EMM_PAGEFRAME4K, EMM_PAGEFRAME, LINK_START] at *
  omega

/-- **`EMM_MapPage`** of a slot, for a mapping that it accepts: the slot shows what is
recorded for it, and the others stay. -/
theorem EMM_MapPage_spec {handle log_page : ℕ} (hcore : s.Core live) (hi : i < EMM_MAX_PHYS)
    (hv : s.Restorable ⟨handle, log_page⟩) :
    ∃ s', s.EMM_MapPage i handle log_page = .ok (EMM_NO_ERROR, s') ∧ SameHandles s s' ∧
      s'.Slot live i ∧ (∀ j, j ≠ i → SameSlot s s' j) ∧
      s'.emm_mappings i = if log_page = NULL_PAGE then {} else ⟨handle, log_page⟩ := by
  have hpages : ∀ {j k}, j ≠ i → k < 4 → slotPage j k < EMM_PAGEFRAME4K + i * 4 ∨
      EMM_PAGEFRAME4K + i * 4 + 4 ≤ slotPage j k := by
    intro j k hj hk
    rw [slotPage]
    omega
  rw [EMM_MapPage, if_neg (by omega)]
  by_cases hnull : log_page = NULL_PAGE
  · rw [if_pos hnull]
    obtain ⟨f, hf, hx⟩ := unmapPages_eq (s := s.setMapping i {}) (slotPage_lt hi)
    rw [hf, if_pos hnull]
    refine ⟨_, rfl, SameHandles.of_eq rfl rfl, Or.inl ⟨Function.update_self .., fun j hj => ?_⟩, ?_,
      Function.update_self ..⟩
    · refine (hx _).trans (if_pos ?_)
      rw [slotPage]
      omega
    · refine fun j hj => ⟨Function.update_of_ne hj _ _, fun k hk => (hx _).trans (if_neg ?_)⟩
      have := hpages hj hk
      omega
  · obtain ⟨hvalid, hpage⟩ := hv.resolve_left hnull
    have hcore' := (sameHandles_setMapping (i := i) ⟨handle, log_page⟩).core hcore
    obtain ⟨k, L, f, memh, hk, hL, hwalk, hmap, hshow, hframe⟩ :=
      hcore'.mapPages hvalid hpage (slotPage_lt hi)
    rw [if_neg hnull, if_neg (by rw [hvalid]; decide), if_pos hpage]
    simp only [bind, Except.bind]
    rw [hwalk]
    simp only
    rw [hmap]
    have hself : Function.update s.emm_mappings i ⟨handle, log_page⟩ i = ⟨handle, log_page⟩ :=
      Function.update_self ..
    refine ⟨_, rfl, SameHandles.of_eq rfl rfl, Or.inr ?_, ?_, ?_⟩
    · simp only [setMapping, hself]
      exact ⟨hvalid, hpage, k, L, hk, hL, hshow⟩
    · exact fun j hj => ⟨Function.update_of_ne hj _ _, fun k hk => hframe _ (hpages hj hk)⟩
    · rw [if_neg hnull]
      exact hself

/-- **`EMM_MapPage`** for a mapping or a slot that it refuses. -/
theorem EMM_MapPage_refused {handle log_page : ℕ}
    (hv : ¬ (i < EMM_MAX_PHYS ∧ s.Restorable ⟨handle, log_page⟩)) :
    ∃ status, s.EMM_MapPage i handle log_page = .ok (status, s) := by
  rw [EMM_MapPage]
  by_cases hi : EMM_MAX_PHYS ≤ i
  · exact ⟨_, if_pos hi⟩
  rw [if_neg hi]
  have hv' : ¬ s.Restorable ⟨handle, log_page⟩ := fun h => hv ⟨by omega, h⟩
  rw [Restorable, not_or, not_and] at hv'
  rw [if_neg hv'.1]
  by_cases hvalid : s.ValidHandle handle = true
  · rw [if_neg (by rw [hvalid]; decide), if_neg (hv'.2 hvalid)]
    exact ⟨_, rfl⟩
  · rw [if_pos (by simpa using hvalid)]
    exact ⟨_, rfl⟩

/-- The pages of a segment are outside of the page frame. -/
def Outside (segment : ℕ) : Prop := segment ≤ 0xDC00 ∨ 0xF000 ≤ segment

variable {segment : ℕ}

theorem tphysPage_outside (h : Outside segment) :
    ¬ (0 ≤ tphysPage segment ∧ tphysPage segment < EMM_MAX_PHYS) := by
  simp only [tphysPage, EMM_PAGEFRAME, EMM_MAX_PHYS]
  rcases h with h | h
  · intro hcon
    have hneg : (segment : ℤ) - (0xE000 : ℕ) = -((0xE000 - segment : ℕ) : ℤ) := by omega
    rw [hneg, Int.neg_tdiv] at hcon
    have : ((0xE000 - segment : ℕ) : ℤ).tdiv (0x1000 / (4 : ℕ)) =
        ((0xE000 - segment) / 0x400 : ℕ) := by
      rw [Int.natCast_div]
      exact Int.tdiv_eq_ediv_of_nonneg (by omega)
    omega
  · intro hcon
    have : ((segment : ℤ) - (0xE000 : ℕ)).tdiv (0x1000 / (4 : ℕ)) =
        ((segment : ℤ) - (0xE000 : ℕ)) / (0x1000 / (4 : ℕ)) :=
      Int.tdiv_eq_ediv_of_nonneg (by omega)
    omega

theorem validSegment_lt (h : s.ValidSegment segment = true) : segment < 0x10000 := by
  rw [ValidSegment] at h
  split at h
  · simpa using h
  · have : EMM_PAGEFRAME = 0xE000 := rfl
    rw [Bool.or_eq_true, decide_eq_true_eq, decide_eq_true_eq] at h
    omega

/-- **`EMM_MapSegment`** outside of the page frame leaves all slots alone. -/
theorem EMM_MapSegment_outside {segment handle log_page : ℕ} (hcore : s.Core live)
    (hout : Outside segment) :
    ∃ status s', s.EMM_MapSegment segment handle log_page = .ok (status, s') ∧ SameHandles s s' ∧
      ∀ j, j < EMM_MAX_PHYS → SameSlot s s' j := by
  have hsame : ∀ {s : Ems}, SameHandles s s ∧ ∀ j, j < EMM_MAX_PHYS → SameSlot s s j :=
    fun {s} => ⟨SameHandles.of_eq rfl rfl, fun j _ => ⟨rfl, fun _ _ => rfl⟩⟩
  rw [EMM_MapSegment]
  by_cases hseg : s.ValidSegment segment = true
  · rw [if_neg (by rw [hseg]; decide)]
    have hlt := validSegment_lt hseg
    have hlin : segment * 16 / 4096 + 4 ≤ LINK_START := by
      have : LINK_START = 0x110 := rfl
      omega
    have hpages : ∀ {j k}, j < EMM_MAX_PHYS → k < 4 → slotPage j k < segment * 16 / 4096 ∨
        segment * 16 / 4096 + 4 ≤ slotPage j k := by
      intro j k hj hk
      simp only [slotPage, EMM_MAX_PHYS, EMM_PAGEFRAME4K, EMM_PAGEFRAME, Outside] at *
      omega
    simp only [recordSegment, if_neg (tphysPage_outside hout)]
    by_cases hnull : log_page = NULL_PAGE
    · rw [if_pos hnull]
      obtain ⟨f, hf, hx⟩ := unmapPages_eq (s := s.setSegmentMapping (segment / 2 ^ 10) {}) hlin
      rw [hf]
      refine ⟨_, _, rfl, SameHandles.of_eq rfl rfl,
        fun j hj => ⟨rfl, fun k hk => (hx _).trans (if_neg ?_)⟩⟩
      have := hpages hj hk
      omega
    rw [if_neg hnull]
    by_cases hvalid : s.ValidHandle handle = true
    · rw [if_neg (by rw [hvalid]; decide)]
      by_cases hpage : log_page < (s.emm_handles handle).pages
      · rw [if_pos hpage]
        have hcore' := (sameHandles_setSegmentMapping (s := s) (i := segment / 2 ^ 10)
          ⟨handle, log_page⟩).core hcore
        obtain ⟨k, L, f, memh, -, -, hwalk, hmap, -, hframe⟩ := hcore'.mapPages hvalid hpage hlin
        simp only [bind, Except.bind]
        rw [hwalk]
        simp only
        rw [hmap]
        exact ⟨_, _, rfl, SameHandles.of_eq rfl rfl,
          fun j hj => ⟨rfl, fun k hk => hframe _ (hpages hj hk)⟩⟩
      · rw [if_neg hpage]
        exact ⟨_, _, rfl, hsame⟩
    · rw [if_pos (by simpa using hvalid)]
      exact ⟨_, _, rfl, hsame⟩
  · rw [if_pos (by simpa using hseg)]
    exact ⟨_, _, rfl, hsame⟩

/-- **`EMM_MapSegment`** for a mapping or a segment that it refuses. -/
theorem EMM_MapSegment_refused {handle log_page : ℕ}
    (hv : ¬ (s.ValidSegment segment = true ∧ s.Restorable ⟨handle, log_page⟩)) :
    ∃ status, s.EMM_MapSegment segment handle log_page = .ok (status, s) := by
  rw [EMM_MapSegment]
  by_cases hseg : s.ValidSegment segment = true
  · rw [if_neg (by rw [hseg]; decide)]
    have hv' : ¬ s.Restorable ⟨handle, log_page⟩ := fun h => hv ⟨hseg, h⟩
    rw [Restorable, not_or, not_and] at hv'
    rw [if_neg hv'.1]
    by_cases hvalid : s.ValidHandle handle = true
    · rw [if_neg (by rw [hvalid]; decide), if_neg (hv'.2 hvalid)]
      exact ⟨_, rfl⟩
    · rw [if_pos (by simpa using hvalid)]
      exact ⟨_, rfl⟩
  · exact ⟨_, if_pos (by simpa using hseg)⟩

/-- The pages of a segment are those of one slot. -/
def Aligned (segment : ℕ) : Prop :=
  EMM_PAGEFRAME ≤ segment ∧ segment < EMM_PAGEFRAME + 0x1000 ∧ segment / 0x100 % 4 = 0

/-- **`EMM_MapSegment`** inside of the page frame is `EMM_MapPage`. -/
theorem EMM_MapSegment_aligned {handle log_page : ℕ} (h : Aligned segment) :
    (segment - EMM_PAGEFRAME) / 0x400 < EMM_MAX_PHYS ∧
      s.EMM_MapSegment segment handle log_page =
        s.EMM_MapPage ((segment - EMM_PAGEFRAME) / 0x400) handle log_page := by
  obtain ⟨h1, h2, h3⟩ := h
  have hlt : (segment - EMM_PAGEFRAME) / 0x400 < EMM_MAX_PHYS := by
    simp only [EMM_PAGEFRAME, EMM_MAX_PHYS] at *
    omega
  have hseg : s.ValidSegment segment = true := by
    rw [ValidSegment]
    split
    · simp only [EMM_PAGEFRAME] at h2
      simpa using by omega
    · simp [h1, h2]
  have hphys : tphysPage segment = ((segment - EMM_PAGEFRAME) / 0x400 : ℕ) := by
    rw [tphysPage, Int.tdiv_eq_ediv_of_nonneg (by omega)]
    simp only [EMM_PAGEFRAME, EMM_MAX_PHYS] at *
    omega
  have hlin : segment * 16 / 4096 = EMM_PAGEFRAME4K + (segment - EMM_PAGEFRAME) / 0x400 * 4 := by
    simp only [EMM_PAGEFRAME4K, EMM_PAGEFRAME] at *
    omega
  have hrec : ∀ v,
      s.recordSegment segment v = s.setMapping ((segment - EMM_PAGEFRAME) / 0x400) v := by
    intro v
    rw [recordSegment, hphys, if_pos (by omega), Int.toNat_natCast]
  refine ⟨hlt, ?_⟩
  simp only [EMM_MapSegment, EMM_MapPage, hseg, hrec, hlin, if_neg (Nat.not_le.2 hlt)]
  rfl

/-! ## Restoring the mapping table -/

theorem SameHandles.trans {s₁ : Ems} (h : SameHandles s s₁) (h' : SameHandles s₁ s') :
    SameHandles s s' :=
  ⟨h'.mem.trans h.mem, fun k => (h'.pages k).trans (h.pages k),
    fun k => (h'.first k).trans (h.first k)⟩

theorem SameSlot.trans {s₁ : Ems} (h : SameSlot s s₁ i) (h' : SameSlot s₁ s' i) : SameSlot s s' i :=
  ⟨h'.mapping.trans h.mapping, fun j hj => (h'.paging j hj).trans (h.paging j hj)⟩

theorem Slot.restorable (h : s.Slot live i) : s.Restorable (s.emm_mappings i) := by
  rcases h with ⟨hnull, -⟩ | ⟨hvalid, hpage, -⟩
  · exact Or.inl (by rw [hnull])
  · exact Or.inr ⟨hvalid, hpage⟩

theorem restoreSegments_spec {l : List ℕ} : ∀ {s : Ems}, s.Core live → (∀ i ∈ l, i < 0x40) →
    ∃ s', s.restoreSegments l = .ok s' ∧ SameHandles s s' ∧
      ∀ j, j < EMM_MAX_PHYS → SameSlot s s' j := by
  induction l with
  | nil =>
    exact fun {s} _ _ => ⟨s, rfl, SameHandles.of_eq rfl rfl, fun _ _ => ⟨rfl, fun _ _ => rfl⟩⟩
  | cons i l ih =>
    intro s hcore hl
    have hl' : ∀ k ∈ l, k < 0x40 := fun k hk => hl k (List.mem_cons_of_mem _ hk)
    rw [restoreSegments]
    by_cases hframe : EMM_PAGEFRAME / 0x400 ≤ i ∧ i < EMM_PAGEFRAME / 0x400 + EMM_MAX_PHYS
    · rw [if_pos hframe]
      exact ih hcore hl'
    · rw [if_neg hframe]
      have hout : Outside (i * 2 ^ 10) := by
        have hlt := hl i List.mem_cons_self
        simp only [EMM_PAGEFRAME, EMM_MAX_PHYS, Outside] at *
        omega
      obtain ⟨status, s₁, hmap, hsame, hslots⟩ := @EMM_MapSegment_outside s live _
        (s.emm_segmentmappings i).handle (s.emm_segmentmappings i).page hcore hout
      obtain ⟨s', hrest, hsame', hslots'⟩ := ih (hsame.core hcore) hl'
      refine ⟨s', ?_, hsame.trans hsame', fun j hj => (hslots j hj).trans (hslots' j hj)⟩
      rw [hmap]
      exact hrest

theorem restoreSlots_spec {l : List ℕ} : ∀ {s : Ems}, s.Core live → l.Nodup →
    (∀ i ∈ l, i < EMM_MAX_PHYS ∧ s.Restorable (s.emm_mappings i)) →
    ∃ s', s.restoreSlots l = .ok s' ∧ SameHandles s s' ∧ (∀ i ∈ l, s'.Slot live i) ∧
      ∀ j, j ∉ l → SameSlot s s' j := by
  induction l with
  | nil =>
    exact fun {s} _ _ _ =>
      ⟨s, rfl, SameHandles.of_eq rfl rfl, by simp, fun _ _ => ⟨rfl, fun _ _ => rfl⟩⟩
  | cons i l ih =>
    intro s hcore hnd hl
    obtain ⟨hil, hnd'⟩ := List.nodup_cons.1 hnd
    obtain ⟨hi, hres⟩ := hl i List.mem_cons_self
    obtain ⟨s₁, hmap, hsame, hslot, hothers, -⟩ := EMM_MapPage_spec hcore hi hres
    have hl' : ∀ j ∈ l, j < EMM_MAX_PHYS ∧ s₁.Restorable (s₁.emm_mappings j) := by
      intro j hj
      obtain ⟨hj', hres'⟩ := hl j (List.mem_cons_of_mem _ hj)
      refine ⟨hj', ?_⟩
      rw [restorable_congr hsame, (hothers j fun hji => hil (hji ▸ hj)).mapping]
      exact hres'
    obtain ⟨s', hrest, hsame', hslots, hothers'⟩ := ih (hsame.core hcore) hnd' hl'
    refine ⟨s', ?_, hsame.trans hsame', ?_, fun j hj => ?_⟩
    · rw [restoreSlots, hmap]
      exact hrest
    · intro j hj
      rcases List.mem_cons.1 hj with rfl | hj
      · exact (hothers' j hil).slot hsame' hslot
      · exact hslots j hj
    · rw [List.mem_cons, not_or] at hj
      exact (hothers j hj.1).trans (hothers' j hj.2)

/-- **`EMM_RestoreMappingTable`** of a table of mappings that are accepted. -/
theorem EMM_RestoreMappingTable_spec (hcore : s.Core live)
    (hres : ∀ i, i < EMM_MAX_PHYS → s.Restorable (s.emm_mappings i)) :
    ∃ s', s.EMM_RestoreMappingTable = .ok (EMM_NO_ERROR, s') ∧ SameHandles s s' ∧
      ∀ i, i < EMM_MAX_PHYS → s'.Slot live i := by
  obtain ⟨s₁, hsegs, hsame, hslots⟩ :=
    restoreSegments_spec hcore (l := List.range 0x40) fun i hi => List.mem_range.1 hi
  obtain ⟨s', hrest, hsame', hslots', -⟩ := restoreSlots_spec (hsame.core hcore)
    (List.nodup_range (n := EMM_MAX_PHYS)) fun i hi => by
      have hi' := List.mem_range.1 hi
      refine ⟨hi', ?_⟩
      rw [restorable_congr hsame, (hslots i hi').mapping]
      exact hres i hi'
  refine ⟨s', ?_, hsame.trans hsame', fun i hi => hslots' i (List.mem_range.2 hi)⟩
  rw [EMM_RestoreMappingTable, hsegs]
  simp only [bind, Except.bind]
  rw [hrest]

end Ems

end AugraDosbox
