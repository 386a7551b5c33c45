import AugraDosbox.Ints.EmsAnswers

/-!
# Saving and restoring part of a page map

`EMM_PartialPageMapping` of `src/ints/ems.cpp` writes the mappings of a list of segments to an
array and reads them back.  The array names a slot of the page frame by its index and every other
segment by its number in units of 16 KB, and the reader takes every number below
`EMM_MAX_PHYS` for a slot.

* `record` — what is recorded for a segment of 16 KB, by its number;
* `EMM_RestoreMappingTable_eq` — the table is restored by one pass over the 64 numbers;
* `remap_spec` — after the pass every segment shows what is recorded for it;
* `restorePartial_spec` — what a restored array leaves recorded, whatever was mapped in between;
* **`partial_round_trip_iff`** — it is what was saved exactly when no segment below 0x1000 is
  mistaken for a slot, and the segments were shown as recorded when they were saved;
* `low_segment_overwrites_slot` — a list of which the first segment of memory is taken for a slot.
-/

namespace AugraDosbox

namespace Ems

open EmmStatus MemoryBlock Fallible

variable {s s' : Ems} {live : ℕ → Option (List ℕ)} {n m : ℕ} {v w : EMM_Mapping}

/-! ## Segments by their number -/

/-- The number of a segment in the page frame; the test is the one of the loop in
`EMM_RestoreMappingTable`. -/
def InFrame (n : ℕ) : Prop :=
  EMM_PAGEFRAME / 0x400 ≤ n ∧ n < EMM_PAGEFRAME / 0x400 + EMM_MAX_PHYS

instance : DecidablePred InFrame := fun _ => inferInstanceAs (Decidable (_ ∧ _))

theorem inFrame_iff : InFrame n ↔ 0x38 ≤ n ∧ n < 0x3c := Iff.rfl

/-- What is recorded for a segment of 16 KB. -/
def record (s : Ems) (n : ℕ) : EMM_Mapping :=
  if InFrame n then s.emm_mappings (n - 0x38) else s.emm_segmentmappings n

/-- Recording a mapping for a segment of 16 KB. -/
def setRecord (s : Ems) (n : ℕ) (v : EMM_Mapping) : Ems :=
  if InFrame n then s.setMapping (n - 0x38) v else s.setSegmentMapping n v

@[simp] theorem record_setRecord_self : (s.setRecord n v).record n = v := by
  rw [record, setRecord]
  by_cases hn : InFrame n
  · rw [if_pos hn, if_pos hn]
    exact Function.update_self ..
  · rw [if_neg hn, if_neg hn]
    exact Function.update_self ..

theorem record_setRecord_of_ne (hne : m ≠ n) : (s.setRecord n v).record m = s.record m := by
  rw [record, setRecord, record]
  by_cases hn : InFrame n
  · rw [if_pos hn]
    by_cases hm : InFrame m
    · rw [if_pos hm, if_pos hm]
      have hnum := inFrame_iff.mp hn
      have hnum' := inFrame_iff.mp hm
      exact Function.update_of_ne (by omega) ..
    · rw [if_neg hm, if_neg hm]
      rfl
  · rw [if_neg hn]
    by_cases hm : InFrame m
    · rw [if_pos hm, if_pos hm]
      rfl
    · rw [if_neg hm, if_neg hm]
      exact Function.update_of_ne hne ..

@[simp] theorem record_firstmb {f : ℕ → ℕ} : { s with firstmb := f }.record n = s.record n := rfl

@[simp] theorem firstmb_setRecord : (s.setRecord n v).firstmb = s.firstmb := by
  rw [setRecord]
  split
  · rfl
  · rfl

/-- The handles, their pages and the kind of expanded memory stay. -/
structure Keeps (s s' : Ems) : Prop where
  handles : SameHandles s s'
  type : s'.ems_type = s.ems_type

theorem Keeps.refl (s : Ems) : Keeps s s := ⟨sameHandles_refl s, rfl⟩

variable {s₁ : Ems} {segment : ℕ} {l ns : List ℕ}

theorem Keeps.trans (h : Keeps s s₁) (h' : Keeps s₁ s') : Keeps s s' :=
  ⟨h.handles.trans h'.handles, h'.type.trans h.type⟩

theorem keeps_setRecord : Keeps s (s.setRecord n v) := by
  rw [setRecord]
  split
  · exact ⟨sameHandles_setMapping v, rfl⟩
  · exact ⟨sameHandles_setSegmentMapping v, rfl⟩

theorem keeps_firstmb (f : ℕ → ℕ) : Keeps s { s with firstmb := f } :=
  ⟨SameHandles.of_eq rfl rfl, rfl⟩

theorem Keeps.validSegment (h : Keeps s s') (segment : ℕ) :
    s'.ValidSegment segment = s.ValidSegment segment := by
  rw [ValidSegment, ValidSegment, h.type]

/-- `EMM_MapSegment` accepts the segment of this number. -/
def Mappable (s : Ems) (n : ℕ) : Prop := n < 0x40 ∧ s.ValidSegment (n * 2 ^ 10) = true

theorem Keeps.mappable (h : Keeps s s') : s'.Mappable n ↔ s.Mappable n := by
  rw [Mappable, Mappable, h.validSegment]

theorem mappable_of_inFrame (hn : InFrame n) : s.Mappable n := by
  have hnum := inFrame_iff.mp hn
  refine ⟨by omega, ?_⟩
  rw [ValidSegment]
  split
  · simpa using by omega
  · have hstart : EMM_PAGEFRAME = 0xE000 := rfl
    rw [Bool.or_eq_true, decide_eq_true_eq, decide_eq_true_eq]
    exact .inr ⟨by omega, by omega⟩

theorem mappable_of_type (htype : s.ems_type = 1 ∨ s.ems_type = 3) (hn : n < 0x40) :
    s.Mappable n := by
  refine ⟨hn, ?_⟩
  rw [ValidSegment, if_pos htype]
  simpa using by omega

/-! ## One mapping call -/

/-- What is left of a mapping once it is mapped: unmapping forgets the handle. -/
def kept (v : EMM_Mapping) : EMM_Mapping := if v.page = NULL_PAGE then {} else v

/-- The page that a mapping makes visible behind the page `lin_page`. -/
def pageOf (s : Ems) (v : EMM_Mapping) (lin_page j : ℕ) : Except Fault ℤ :=
  if v.page = NULL_PAGE then .ok ((lin_page + j : ℕ) : ℤ)
  else s.mem.MEM_NextHandleAt (s.emm_handles v.handle).mem (v.page * 4 + j)

theorem SameHandles.pageOf (h : SameHandles s s') (lin_page j : ℕ) :
    s'.pageOf v lin_page j = s.pageOf v lin_page j := by
  rw [Ems.pageOf, Ems.pageOf, h.mem, h.first]

/-- **`EMM_MapSegment`** of a mapping that it accepts, at any segment. -/
theorem EMM_MapSegment_eq (hcore : s.Core live) (hseg : s.ValidSegment segment = true)
    (hv : s.Restorable v) :
    ∃ f, s.EMM_MapSegment segment v.handle v.page =
        .ok (EMM_NO_ERROR, { s.recordSegment segment (kept v) with firstmb := f }) ∧
      (∀ j, j < 4 → s.pageOf v (segment * 16 / 4096) j = .ok (f (segment * 16 / 4096 + j))) ∧
      ∀ y, y < segment * 16 / 4096 ∨ segment * 16 / 4096 + 4 ≤ y → f y = s.firstmb y := by
  have hlin : segment * 16 / 4096 + 4 ≤ LINK_START := by
    have hlt := validSegment_lt hseg
    have : LINK_START = 0x110 := rfl
    omega
  have hfirst : ∀ w, (s.recordSegment segment w).firstmb = s.firstmb := by
    intro w
    rw [recordSegment]
    split
    · rfl
    · rfl
  rw [EMM_MapSegment, if_neg (by rw [hseg]; decide)]
  by_cases hnull : v.page = NULL_PAGE
  · obtain ⟨f, hf, hx⟩ := unmapPages_eq (s := s.recordSegment segment {}) hlin
    rw [if_pos hnull, hf, kept, if_pos hnull]
    refine ⟨f, rfl, fun j hj => ?_, fun y hy => ?_⟩
    · rw [pageOf, if_pos hnull, hx, if_pos (by omega)]
    · rw [hx, if_neg (by omega), hfirst]
  · obtain ⟨hvalid, hpage⟩ := hv.resolve_left hnull
    have hcore' : (s.recordSegment segment v).Core live :=
      (sameHandles_recordSegment segment v).core hcore
    have hvalid' : (s.recordSegment segment v).ValidHandle v.handle = true := by
      rw [(sameHandles_recordSegment segment v).validHandle, hvalid]
    have hpage' : v.page < ((s.recordSegment segment v).emm_handles v.handle).pages := by
      rw [(sameHandles_recordSegment segment v).pages]
      exact hpage
    obtain ⟨k, L, f, memh, hk, hL, hwalk, hmap, hshow, hframe⟩ :=
      hcore'.mapPages hvalid' hpage' hlin
    rw [if_neg hnull, if_neg (by rw [hvalid]; decide), if_pos hpage, kept,
      if_neg hnull]
    have hstate : (⟨v.handle, v.page⟩ : EMM_Mapping) = v := rfl
    have hmem : (s.recordSegment segment v).mem = s.mem :=
      (sameHandles_recordSegment segment v).mem
    rw [(sameHandles_recordSegment segment v).first] at hk hwalk
    refine ⟨f, ?_, fun j hj => ?_, fun y hy => ?_⟩
    · rw [hstate]
      dsimp only
      simp only [bind, Except.bind]
      rw [(sameHandles_recordSegment segment v).first, hwalk]
      dsimp only
      rw [hmap]
    · rw [pageOf, if_neg hnull, hk]
      exact hcore.owned.nextHandleAt hL (hshow j hj)
    · rw [hframe y hy, hfirst]

/-- `EMM_MapPage` is `EMM_MapSegment` of the slot's segment. -/
theorem EMM_MapPage_eq_segment {i handle log_page : ℕ} (hi : i < EMM_MAX_PHYS) :
    s.EMM_MapPage i handle log_page =
      s.EMM_MapSegment ((i + 0x38) * 2 ^ 10) handle log_page := by
  have hmax : EMM_MAX_PHYS = 4 := rfl
  have hstart : EMM_PAGEFRAME = 0xE000 := rfl
  have haligned : Aligned ((i + 0x38) * 2 ^ 10) := ⟨by omega, by omega, by omega⟩
  rw [(EMM_MapSegment_aligned haligned).2]
  congr 1
  omega

/-- The number under which `EMM_MapSegment` records a segment. -/
theorem recordSegment_eq {segment : ℕ} (hlt : segment < 0x10000) :
    ∃ n, n < 0x40 ∧ ∀ v, s.recordSegment segment v = s.setRecord n v := by
  by_cases hphys : 0 ≤ tphysPage segment ∧ tphysPage segment < EMM_MAX_PHYS
  · have hmax : EMM_MAX_PHYS = 4 := rfl
    have hin : InFrame ((tphysPage segment).toNat + 0x38) := inFrame_iff.mpr (by omega)
    refine ⟨(tphysPage segment).toNat + 0x38, (by omega), fun v => ?_⟩
    rw [recordSegment, if_pos hphys, setRecord, if_pos hin, Nat.add_sub_cancel]
  · have hout : ¬ InFrame (segment / 2 ^ 10) := by
      intro hin
      have hnum := inFrame_iff.mp hin
      refine hphys ?_
      rw [tphysPage, Int.tdiv_eq_ediv_of_nonneg (by simp only [EMM_PAGEFRAME]; omega)]
      simp only [EMM_PAGEFRAME, EMM_MAX_PHYS]
      omega
    refine ⟨segment / 2 ^ 10, by omega, fun v => ?_⟩
    rw [recordSegment, if_neg hphys, setRecord, if_neg hout]

/-- A segment at a boundary of 16 KB is recorded under its own number. -/
theorem recordSegment_number (hn : n < 0x40) (v : EMM_Mapping) :
    s.recordSegment (n * 2 ^ 10) v = s.setRecord n v := by
  have hself : tphysPage (n * 2 ^ 10) = (n : ℤ) - 0x38 := by
    have hmul : ((n * 2 ^ 10 : ℕ) : ℤ) - (EMM_PAGEFRAME : ℕ) = ((n : ℤ) - 0x38) * 0x400 := by
      simp only [EMM_PAGEFRAME]
      omega
    have hdiv : (0x1000 / (EMM_MAX_PHYS : ℕ) : ℤ) = 0x400 := rfl
    rw [tphysPage, hmul, hdiv, Int.mul_tdiv_cancel _ (by decide)]
  have hphys : (0 ≤ tphysPage (n * 2 ^ 10) ∧ tphysPage (n * 2 ^ 10) < EMM_MAX_PHYS) ↔
      InFrame n := by
    rw [inFrame_iff, hself]
    simp only [EMM_MAX_PHYS]
    omega
  rw [recordSegment, setRecord]
  by_cases hin : InFrame n
  · rw [if_pos (hphys.mpr hin), if_pos hin, hself]
    congr 1
    omega
  · rw [if_neg fun h => hin (hphys.mp h), if_neg hin, Nat.mul_div_cancel _ (by decide)]

/-! ## Restoring the table -/

/-- The pass over the numbers that `EMM_RestoreMappingTable` makes. -/
def remap (s : Ems) : List ℕ → Except Fault Ems
  | [] => .ok s
  | n :: l => do
      let (_, s) ← s.EMM_MapSegment (n * 2 ^ 10) (s.record n).handle (s.record n).page
      remap s l

theorem remap_append {l' : List ℕ} : ∀ {s : Ems},
    s.remap (l ++ l') = s.remap l >>= fun s => s.remap l' := by
  induction l with
  | nil => exact fun {s} => rfl
  | cons n l ih =>
    intro s
    rw [List.cons_append, remap, remap]
    cases s.EMM_MapSegment (n * 2 ^ 10) (s.record n).handle (s.record n).page with
    | error e => rfl
    | ok res => exact ih

theorem restoreSegments_eq : ∀ {s : Ems},
    s.restoreSegments l = s.remap (l.filter fun n => ¬ InFrame n) := by
  induction l with
  | nil => exact fun {s} => rfl
  | cons n l ih =>
    intro s
    rw [restoreSegments]
    by_cases hn : InFrame n
    · rw [List.filter_cons_of_neg (by simpa using hn)]
      exact (if_pos hn).trans ih
    · have hrec : s.record n = s.emm_segmentmappings n := if_neg hn
      refine (if_neg hn).trans ?_
      rw [List.filter_cons_of_pos (by simpa using hn), remap, hrec]
      cases s.EMM_MapSegment (n * 2 ^ 10) (s.emm_segmentmappings n).handle
          (s.emm_segmentmappings n).page with
      | error e => rfl
      | ok res => exact ih

theorem restoreSlots_eq : ∀ {s : Ems}, (∀ i ∈ l, i < EMM_MAX_PHYS) →
    s.restoreSlots l = s.remap (l.map (· + 0x38)) := by
  induction l with
  | nil => exact fun {s} _ => rfl
  | cons i l ih =>
    intro s hl
    have hi := hl i List.mem_cons_self
    have hmax : EMM_MAX_PHYS = 4 := rfl
    have hrec : s.record (i + 0x38) = s.emm_mappings i := by
      rw [record, if_pos (inFrame_iff.mpr (by omega)), Nat.add_sub_cancel]
    rw [restoreSlots, List.map_cons, remap, hrec, EMM_MapPage_eq_segment hi]
    cases s.EMM_MapSegment ((i + 0x38) * 2 ^ 10) (s.emm_mappings i).handle
        (s.emm_mappings i).page with
    | error e => rfl
    | ok res => exact ih fun j hj => hl j (List.mem_cons_of_mem _ hj)

/-- The order in which the numbers are passed. -/
def remapOrder : List ℕ :=
  ((List.range 0x40).filter fun n => ¬ InFrame n) ++ (List.range EMM_MAX_PHYS).map (· + 0x38)

theorem remapOrder_nodup : remapOrder.Nodup := by
  refine List.Nodup.append (List.nodup_range.filter _)
    (List.nodup_range.map (add_left_injective 0x38)) fun n hn hn' => ?_
  obtain ⟨i, hi, rfl⟩ := List.mem_map.1 hn'
  have hi' : i < EMM_MAX_PHYS := List.mem_range.1 hi
  have hmax : EMM_MAX_PHYS = 4 := rfl
  have hout := of_decide_eq_true (List.mem_filter.1 hn).2
  rw [inFrame_iff] at hout
  omega

theorem mem_remapOrder : n ∈ remapOrder ↔ n < 0x40 := by
  have hmax : EMM_MAX_PHYS = 4 := rfl
  rw [remapOrder, List.mem_append, List.mem_filter, List.mem_range, decide_eq_true_iff, inFrame_iff,
    List.mem_map]
  constructor
  · rintro (⟨hn, -⟩ | ⟨i, hi, rfl⟩)
    · exact hn
    · have hi' := List.mem_range.1 hi
      omega
  · intro hn
    by_cases hframe : 0x38 ≤ n ∧ n < 0x3c
    · exact .inr ⟨n - 0x38, List.mem_range.2 (by omega), by omega⟩
    · exact .inl ⟨hn, hframe⟩

/-- **`EMM_RestoreMappingTable`** passes over the numbers once. -/
theorem EMM_RestoreMappingTable_eq :
    s.EMM_RestoreMappingTable = s.remap remapOrder >>= fun s => .ok (EMM_NO_ERROR, s) := by
  rw [EMM_RestoreMappingTable, restoreSegments_eq, remapOrder, remap_append]
  cases s.remap ((List.range 0x40).filter fun n => ¬ InFrame n) with
  | error e => rfl
  | ok s₁ =>
    simp only [bind, Except.bind]
    rw [restoreSlots_eq fun i hi => List.mem_range.mp hi]

/-- A segment of 16 KB is recorded and visible as before. -/
structure SameAt (s s' : Ems) (n : ℕ) : Prop where
  record : s'.record n = s.record n
  paging : ∀ j, j < 4 → s'.firstmb (n * 4 + j) = s.firstmb (n * 4 + j)

theorem SameAt.trans (h : SameAt s s₁ n) (h' : SameAt s₁ s' n) : SameAt s s' n :=
  ⟨h'.record.trans h.record, fun j hj => (h'.paging j hj).trans (h.paging j hj)⟩

/-- A segment of 16 KB shows what was recorded for it. -/
structure Remapped (s s' : Ems) (n : ℕ) : Prop where
  record : s'.record n = kept (s.record n)
  paging : ∀ j, j < 4 → s.pageOf (s.record n) (n * 4) j = .ok (s'.firstmb (n * 4 + j))

theorem Remapped.after (h : Remapped s s₁ n) (h' : SameAt s₁ s' n) :
    Remapped s s' n :=
  ⟨h'.record.trans h.record, fun j hj => by rw [h.paging j hj, h'.paging j hj]⟩

theorem SameAt.remapped (h : SameAt s s₁ n) (hkeeps : Keeps s s₁) (h' : Remapped s₁ s' n) :
    Remapped s s' n := by
  refine ⟨by rw [h'.record, h.record], fun j hj => ?_⟩
  rw [← h'.paging j hj, hkeeps.handles.pageOf, h.record]

theorem remap_one (hcore : s.Core live) (hn : n < 0x40)
    (hv : s.Mappable n → s.Restorable (s.record n)) :
    ∃ status s₁,
      s.EMM_MapSegment (n * 2 ^ 10) (s.record n).handle (s.record n).page = .ok (status, s₁) ∧
        Keeps s s₁ ∧ (s.Mappable n → Remapped s s₁ n) ∧ (¬ s.Mappable n → SameAt s s₁ n) ∧
        ∀ m, m ≠ n → SameAt s s₁ m := by
  by_cases hmap : s.Mappable n
  · obtain ⟨f, hrun, hshow, hframe⟩ := EMM_MapSegment_eq hcore hmap.2 (hv hmap)
    have hlin : n * 2 ^ 10 * 16 / 4096 = n * 4 := by omega
    rw [hlin] at hshow hframe
    rw [recordSegment_number hn] at hrun
    refine ⟨_, _, hrun, keeps_setRecord.trans (keeps_firstmb f), fun _ => ?_,
      fun h => absurd hmap h, fun m hm => ?_⟩
    · exact ⟨record_setRecord_self, hshow⟩
    · refine ⟨record_setRecord_of_ne hm, fun j hj => hframe _ ?_⟩
      omega
  · have hrefused : ¬ (s.ValidSegment (n * 2 ^ 10) = true ∧
        s.Restorable ⟨(s.record n).handle, (s.record n).page⟩) := fun h => hmap ⟨hn, h.1⟩
    obtain ⟨status, hrun⟩ := EMM_MapSegment_refused hrefused
    have hself : ∀ m, SameAt s s m := fun m => ⟨rfl, fun _ _ => rfl⟩
    exact ⟨status, s, hrun, Keeps.refl s, fun h => absurd h hmap, fun _ => hself n,
      fun m _ => hself m⟩

/-- **The pass** over numbers whose mappings are accepted. -/
theorem remap_spec : ∀ {s : Ems}, s.Core live → l.Nodup → (∀ n ∈ l, n < 0x40) →
    (∀ n ∈ l, s.Mappable n → s.Restorable (s.record n)) →
    ∃ s', s.remap l = .ok s' ∧ Keeps s s' ∧ (∀ n ∈ l, s.Mappable n → Remapped s s' n) ∧
      ∀ n, (n ∈ l → ¬ s.Mappable n) → SameAt s s' n := by
  induction l with
  | nil =>
    exact fun {s} _ _ _ _ => ⟨s, rfl, Keeps.refl s, by simp, fun _ _ => ⟨rfl, fun _ _ => rfl⟩⟩
  | cons n l ih =>
    intro s hcore hnd hl hv
    obtain ⟨hnl, hnd'⟩ := List.nodup_cons.mp hnd
    have htail : ∀ {k}, k ∈ l → k ≠ n := fun hk hkn => hnl (hkn ▸ hk)
    obtain ⟨status, s₁, hrun, hkeeps, hmapped, hsame, hothers⟩ :=
      remap_one hcore (hl n List.mem_cons_self) (hv n List.mem_cons_self)
    have hv' : ∀ k ∈ l, s₁.Mappable k → s₁.Restorable (s₁.record k) := by
      intro k hk hmap
      rw [restorable_congr hkeeps.handles, (hothers k (htail hk)).record]
      exact hv k (List.mem_cons_of_mem _ hk) (hkeeps.mappable.mp hmap)
    obtain ⟨s', hrest, hkeeps', hmapped', hsame'⟩ := ih (hkeeps.handles.core hcore) hnd'
      (fun k hk => hl k (List.mem_cons_of_mem _ hk)) hv'
    refine ⟨s', ?_, hkeeps.trans hkeeps', fun k hk hmap => ?_, fun k hk => ?_⟩
    · rw [remap, hrun]
      exact hrest
    · rcases List.mem_cons.mp hk with rfl | hk
      · exact (hmapped hmap).after (hsame' k fun h => absurd h hnl)
      · exact (hothers k (htail hk)).remapped hkeeps (hmapped' k hk (hkeeps.mappable.mpr hmap))
    · have hrest' : SameAt s₁ s' k := hsame' k fun h hmap =>
        hk (List.mem_cons_of_mem _ h) (hkeeps.mappable.mp hmap)
      by_cases hkn : k = n
      · subst hkn
        exact (hsame (hk List.mem_cons_self)).trans hrest'
      · exact (hothers k hkn).trans hrest'

/-! ## The saved array -/

/-- The numbers of a list of segments. -/
def numbers (segments : List ℕ) : List ℕ := segments.map (· / 2 ^ 10)

/-- The entry that is written for the segment of a number. -/
def entry (s : Ems) (n : ℕ) : PartialEntry :=
  ⟨if InFrame n then n - 0x38 else n, (s.record n).handle % 256, (s.record n).page⟩

/-- **Saving** writes the entries of the listed segments; the first 64 KB can only be saved where
they can be mapped. -/
theorem savePartial_ok {segments : List ℕ} : ∀ {data : List PartialEntry},
    (∀ segment ∈ segments, segment < 0x10000) →
    s.savePartial segments = (EMM_NO_ERROR, data) →
    data = (numbers segments).map s.entry ∧
      ∀ n ∈ numbers segments, n < 0x40 ∧ (n < 4 → s.Mappable n) := by
  induction segments with
  | nil =>
    intro data _ hsave
    obtain ⟨-, rfl⟩ := Prod.mk.inj hsave
    exact ⟨rfl, by simp [numbers]⟩
  | cons segment l ih =>
    intro data hlt hsave
    have hseg := hlt segment List.mem_cons_self
    have hl : ∀ k ∈ l, k < 0x10000 := fun k hk => hlt k (List.mem_cons_of_mem _ hk)
    have hstart : EMM_PAGEFRAME = 0xE000 := rfl
    rw [savePartial] at hsave
    split at hsave
    · rename_i hframe
      have hin : InFrame (segment / 2 ^ 10) := inFrame_iff.mpr (by omega)
      obtain ⟨hstatus, rfl⟩ := Prod.mk.inj hsave
      obtain ⟨hrest, hnums⟩ := ih hl (Prod.ext hstatus rfl)
      refine ⟨?_, ?_⟩
      · have hnum : (segment - EMM_PAGEFRAME) / 2 ^ 10 = segment / 2 ^ 10 - 0x38 := by omega
        rw [numbers, List.map_cons, List.map_cons, entry, if_pos hin, record, if_pos hin, hnum]
        dsimp only
        rw [Nat.mod_eq_of_lt (by omega : segment / 2 ^ 10 - 0x38 < 256)]
        exact congrArg _ hrest
      · intro n hn
        rcases List.mem_cons.mp hn with hn | hn
        · obtain rfl : n = segment / 2 ^ 10 := hn
          exact ⟨by omega, fun h => by omega⟩
        · exact hnums n hn
    split at hsave
    · rename_i hframe hsaved
      have hout : ¬ InFrame (segment / 2 ^ 10) := by
        rw [inFrame_iff]
        omega
      obtain ⟨hstatus, rfl⟩ := Prod.mk.inj hsave
      obtain ⟨hrest, hnums⟩ := ih hl (Prod.ext hstatus rfl)
      refine ⟨?_, ?_⟩
      · rw [numbers, List.map_cons, List.map_cons, entry, if_neg hout, record, if_neg hout]
        dsimp only
        rw [Nat.mod_eq_of_lt (by omega : segment / 2 ^ 10 < 256)]
        exact congrArg _ hrest
      · intro n hn
        rcases List.mem_cons.mp hn with hn | hn
        · obtain rfl : n = segment / 2 ^ 10 := hn
          refine ⟨by omega, fun h => mappable_of_type ?_ (by omega)⟩
          omega
        · exact hnums n hn
    · cases hsave

/-- The number for which the entry of a segment is read: the first numbers are taken for slots. -/
def readAs (n : ℕ) : ℕ := if n < EMM_MAX_PHYS then n + 0x38 else n

/-- What is read back of a mapping. -/
def squeeze (v : EMM_Mapping) : EMM_Mapping := ⟨v.handle % 256, v.page⟩

/-- The last of some numbers that is read for a given one. -/
def lastRead (ns : List ℕ) (m : ℕ) : Option ℕ := (ns.filter fun n => readAs n = m).getLast?

/-- **Loading** a saved array: every segment gets the mapping of the last entry that is read for
it. -/
theorem loadPartial_entries {ns : List ℕ} : ∀ {s' : Ems}, (∀ n ∈ ns, n < 0x40) →
    ∃ s₁, s'.loadPartial (ns.map s.entry) = (true, s₁) ∧ Keeps s' s₁ ∧ s₁.firstmb = s'.firstmb ∧
      ∀ m, s₁.record m =
        ((lastRead ns m).map fun n => squeeze (s.record n)).getD (s'.record m) := by
  induction ns with
  | nil => exact fun {s'} _ => ⟨s', rfl, Keeps.refl s', rfl, fun m => rfl⟩
  | cons n ns ih =>
    intro s' hns
    have hlt := hns n List.mem_cons_self
    have hstep : s'.loadPartial ((n :: ns).map s.entry) =
        (s'.setRecord (readAs n) (squeeze (s.record n))).loadPartial (ns.map s.entry) := by
      have hmax : EMM_MAX_PHYS = 4 := rfl
      rw [List.map_cons, loadPartial, entry]
      dsimp only
      by_cases hin : InFrame n
      · have hnum := inFrame_iff.mp hin
        have hread : readAs n = n := if_neg (by omega)
        rw [if_pos hin, if_pos (by omega), hread, setRecord, if_pos hin]
        rfl
      · rw [if_neg hin]
        by_cases hlow : n < EMM_MAX_PHYS
        · have hread : readAs n = n + 0x38 := if_pos hlow
          rw [if_pos hlow, hread, setRecord, if_pos (inFrame_iff.mpr (by omega)),
            Nat.add_sub_cancel]
          rfl
        · have hread : readAs n = n := if_neg hlow
          rw [if_neg hlow, if_pos hlt, hread, setRecord, if_neg hin]
          rfl
    obtain ⟨s₁, hload, hkeeps, hfirst, hrec⟩ := @ih (s'.setRecord (readAs n) (squeeze (s.record n)))
      fun k hk => hns k (List.mem_cons_of_mem _ hk)
    refine ⟨s₁, by rw [hstep, hload], keeps_setRecord.trans hkeeps, by rw [hfirst, firstmb_setRecord],
      fun m => ?_⟩
    rw [hrec m]
    by_cases hm : readAs n = m
    · rw [lastRead, lastRead, List.filter_cons_of_pos (by simpa using hm), List.getLast?_cons, hm,
        record_setRecord_self]
      cases (ns.filter fun n => readAs n = m).getLast? with
      | none => rfl
      | some k => rfl
    · rw [lastRead, lastRead, List.filter_cons_of_neg (by simpa using hm),
        record_setRecord_of_ne (Ne.symm hm)]

theorem lastRead_mem (h : lastRead ns m = some n) : n ∈ ns ∧ readAs n = m := by
  have hmem := List.mem_filter.mp (List.mem_of_getLast? h)
  exact ⟨hmem.1, by simpa using hmem.2⟩

theorem lastRead_eq_none : lastRead ns m = none ↔ ∀ n ∈ ns, readAs n ≠ m := by
  rw [lastRead, List.getLast?_eq_none_iff, List.filter_eq_nil_iff]
  simp

/-! ## Mappings of valid handles -/

/-- Nothing is mapped, or a page of a valid handle. -/
def ValidMapping (s : Ems) (v : EMM_Mapping) : Prop :=
  v = {} ∨ (v.page ≠ NULL_PAGE ∧ s.ValidHandle v.handle = true ∧
    v.page < (s.emm_handles v.handle).pages)

/-- Every mappable segment is unmapped, or shows a page of a valid handle. -/
def MappingsValid (s : Ems) : Prop := ∀ n, s.Mappable n → s.ValidMapping (s.record n)

theorem SameHandles.validMapping (h : SameHandles s s') :
    s'.ValidMapping v ↔ s.ValidMapping v := by
  rw [ValidMapping, ValidMapping, h.validHandle, h.pages]

theorem ValidMapping.restorable (h : s.ValidMapping v) : s.Restorable v := by
  rcases h with rfl | ⟨-, hvalid, hpage⟩
  · exact .inl rfl
  · exact .inr ⟨hvalid, hpage⟩

theorem ValidMapping.kept_eq (h : s.ValidMapping v) : kept v = v := by
  rcases h with rfl | ⟨hpage, -⟩
  · rfl
  · exact if_neg hpage

theorem ValidMapping.squeeze_eq (h : s.ValidMapping v) (hpage : v.page ≠ NULL_PAGE) :
    squeeze v = v := by
  rcases h with rfl | ⟨-, hvalid, -⟩
  · exact absurd rfl hpage
  · have hmax : EMM_MAX_HANDLES = 200 := rfl
    rw [ValidHandle, Bool.and_eq_true, decide_eq_true_eq] at hvalid
    rw [squeeze, Nat.mod_eq_of_lt (by omega)]

theorem ValidMapping.kept_squeeze (h : s.ValidMapping v) : kept (squeeze v) = v := by
  by_cases hpage : v.page = NULL_PAGE
  · have hpage' : (squeeze v).page = NULL_PAGE := hpage
    rw [kept, if_pos hpage']
    rcases h with rfl | ⟨hpage', -⟩
    · rfl
    · exact absurd hpage hpage'
  · rw [h.squeeze_eq hpage, h.kept_eq]

theorem ValidMapping.restorable_squeeze (h : s.ValidMapping v) : s.Restorable (squeeze v) := by
  by_cases hpage : v.page = NULL_PAGE
  · exact .inl hpage
  · rw [h.squeeze_eq hpage]
    exact h.restorable

theorem ValidMapping.pageOf_squeeze (h : s.ValidMapping v) (lin_page j : ℕ) :
    s.pageOf (squeeze v) lin_page j = s.pageOf v lin_page j := by
  by_cases hpage : v.page = NULL_PAGE
  · rw [pageOf, pageOf, if_pos hpage]
    exact if_pos hpage
  · rw [h.squeeze_eq hpage]

theorem Restorable.valid_kept (h : s.Restorable v) : s.ValidMapping (kept v) := by
  rw [kept]
  split
  · exact .inl rfl
  · rename_i hpage
    exact .inr ⟨hpage, h.resolve_left hpage⟩

/-- The requests that map and unmap. -/
def Request.Maps : Request → Prop
  | .mapPage _ _ _ | .mapSegment _ _ _ => True
  | _ => False

/-- A call that maps or unmaps. -/
def MapStep (s s' : Ems) : Prop :=
  ∃ req status, Request.Maps req ∧ req.serve s = .ok (status, s')

theorem EMM_MapSegment_step {handle log_page : ℕ} {status : EmmStatus} (hcore : s.Core live)
    (hvalid : s.MappingsValid) (hrun : s.EMM_MapSegment segment handle log_page = .ok (status, s'))
    :
    Keeps s s' ∧ s'.MappingsValid := by
  by_cases hok : s.ValidSegment segment = true ∧ s.Restorable ⟨handle, log_page⟩
  · obtain ⟨f, hmap, -⟩ := EMM_MapSegment_eq hcore hok.1 hok.2
    obtain ⟨n, hn, hrec⟩ := @recordSegment_eq s segment (validSegment_lt hok.1)
    rw [hrec] at hmap
    obtain ⟨-, rfl⟩ := Prod.mk.inj (Except.ok.inj (hmap.symm.trans hrun))
    have hkeeps : Keeps s { s.setRecord n (kept ⟨handle, log_page⟩) with firstmb := f } :=
      keeps_setRecord.trans (keeps_firstmb f)
    refine ⟨hkeeps, fun k hk => ?_⟩
    rw [hkeeps.handles.validMapping, record_firstmb]
    by_cases hkn : k = n
    · rw [hkn, record_setRecord_self]
      exact hok.2.valid_kept
    · rw [record_setRecord_of_ne hkn]
      exact hvalid k (hkeeps.mappable.mp hk)
  · obtain ⟨status', hrefused⟩ := EMM_MapSegment_refused hok
    obtain ⟨-, rfl⟩ := Prod.mk.inj (Except.ok.inj (hrefused.symm.trans hrun))
    exact ⟨Keeps.refl s, hvalid⟩

/-- A mapping call keeps the handles and leaves mappings of valid handles only. -/
theorem mapStep_valid (hcore : s.Core live) (hvalid : s.MappingsValid) (hstep : MapStep s s') :
    Keeps s s' ∧ s'.MappingsValid := by
  obtain ⟨req, status, hmaps, hrun⟩ := hstep
  cases req with
  | mapPage phys_page handle log_page =>
    by_cases hphys : phys_page.toNat < EMM_MAX_PHYS
    · rw [Request.serve, EMM_MapPage_eq_segment hphys] at hrun
      exact EMM_MapSegment_step hcore hvalid hrun
    · obtain ⟨status', hrefused⟩ := @EMM_MapPage_refused s phys_page.toNat handle.toNat
        log_page.toNat fun h => hphys h.1
      obtain ⟨-, rfl⟩ := Prod.mk.inj (Except.ok.inj (hrefused.symm.trans hrun))
      exact ⟨Keeps.refl s, hvalid⟩
  | mapSegment segment handle log_page => exact EMM_MapSegment_step hcore hvalid hrun
  | _ => exact absurd hmaps id

theorem mapSteps_valid (hcore : s.Core live) (hvalid : s.MappingsValid)
    (hcalls : Relation.ReflTransGen MapStep s s') : Keeps s s' ∧ s'.MappingsValid := by
  induction hcalls with
  | refl => exact ⟨Keeps.refl s, hvalid⟩
  | tail _ hstep ih =>
    obtain ⟨hkeeps, hvalid'⟩ := ih
    obtain ⟨hkeeps', hvalid''⟩ := mapStep_valid (hkeeps.handles.core hcore) hvalid' hstep
    exact ⟨hkeeps.trans hkeeps', hvalid''⟩

/-! ## The round trip -/

/-- **Restoring** a saved array after some mapping calls: every mappable segment has the mapping of
the last entry that is read for it, and shows it. -/
theorem restorePartial_spec (hcore : s.Core live) (hkeeps : Keeps s s') (hvalid : s.MappingsValid)
    (hvalid' : s'.MappingsValid) (hns : ∀ n ∈ ns, n < 0x40 ∧ (n < 4 → s.Mappable n)) :
    ∃ s'', s'.restorePartial (ns.map s.entry) = .ok (EMM_NO_ERROR, s'') ∧
      (∀ m, s.Mappable m →
        s''.record m = ((lastRead ns m).map s.record).getD (s'.record m) ∧
        ∀ j, j < 4 → s.pageOf (s''.record m) (m * 4) j = .ok (s''.firstmb (m * 4 + j))) ∧
      ∀ m, m < 0x40 → ¬ s.Mappable m → m ∉ ns → s''.record m = s'.record m := by
  have hmax : EMM_MAX_PHYS = 4 := rfl
  obtain ⟨s₁, hload, hkeeps₁, -, hrec⟩ :=
    @loadPartial_entries s ns s' fun n hn => (hns n hn).1
  have hall := hkeeps.trans hkeeps₁
  -- an entry that is read for a mappable segment was saved for one
  have hlisted : ∀ {m n}, s.Mappable m → lastRead ns m = some n → s.ValidMapping (s.record n) := by
    intro m n hm hlast
    obtain ⟨hn, hread⟩ := lastRead_mem hlast
    refine hvalid n ?_
    by_cases hlow : n < 4
    · exact (hns n hn).2 hlow
    · rw [readAs, if_neg (by omega)] at hread
      exact hread ▸ hm
  have hres : ∀ m, s.Mappable m → s.Restorable (s₁.record m) ∧
      kept (s₁.record m) = ((lastRead ns m).map s.record).getD (s'.record m) ∧
      ∀ j, s.pageOf (s₁.record m) (m * 4) j =
        s.pageOf (((lastRead ns m).map s.record).getD (s'.record m)) (m * 4) j := by
    intro m hm
    rw [hrec m]
    cases hlast : lastRead ns m with
    | none =>
      have hv := hkeeps.handles.validMapping.mp (hvalid' m (hkeeps.mappable.mpr hm))
      exact ⟨hv.restorable, hv.kept_eq, fun _ => rfl⟩
    | some n =>
      have hv := hlisted hm hlast
      exact ⟨hv.restorable_squeeze, hv.kept_squeeze, hv.pageOf_squeeze _⟩
  obtain ⟨s'', hremap, hkeeps₂, hmapped, hsame⟩ := remap_spec (hall.handles.core hcore)
    remapOrder_nodup (fun n hn => mem_remapOrder.mp hn) fun n _ hn =>
      (restorable_congr hall.handles _).mpr (hres n (hall.mappable.mp hn)).1
  refine ⟨s'', ?_, fun m hm => ?_, fun m hlt hm hnot => ?_⟩
  · rw [restorePartial, hload]
    dsimp only
    rw [EMM_RestoreMappingTable_eq, hremap]
    rfl
  · have hmap := hmapped m (mem_remapOrder.mpr hm.1) (hall.mappable.mpr hm)
    obtain ⟨-, hkept, hpage⟩ := hres m hm
    have hrecord := hmap.record.trans hkept
    refine ⟨hrecord, fun j hj => ?_⟩
    rw [hrecord, ← hpage j, ← hall.handles.pageOf]
    exact hmap.paging j hj
  · rw [(hsame m fun _ h => hm (hall.mappable.mp h)).record, hrec m]
    have hnone : lastRead ns m = none := by
      refine lastRead_eq_none.mpr fun n hn hread => ?_
      by_cases hlow : n < EMM_MAX_PHYS
      · rw [readAs, if_pos hlow] at hread
        exact hm (mappable_of_inFrame (inFrame_iff.mpr (by omega)))
      · rw [readAs, if_neg hlow] at hread
        exact hnot (hread ▸ hn)
    rw [hnone]
    rfl

/-- The segment of a number shows what is recorded for it. -/
def ShowsRecord (s : Ems) (n : ℕ) : Prop :=
  ∀ j, j < 4 → s.pageOf (s.record n) (n * 4) j = .ok (s.firstmb (n * 4 + j))

/-- The array saved in `s` and restored in `s'` leads to `s''`: the listed segments that can be
mapped are as they were when they were saved, and no other mapping has changed. -/
structure RoundTrip (s s' s'' : Ems) (segments : List ℕ) : Prop where
  listed : ∀ segment ∈ segments, s.ValidSegment segment = true → SameAt s s'' (segment / 2 ^ 10)
  others : ∀ n, n < 0x40 → n ∉ numbers segments → s''.record n = s'.record n

/-- The listed segments were shown as recorded when they were saved.  A listed segment among the
first, which is read as a slot, has kept its mapping, and the entry that is read last for the slot
is what the slot should get. -/
structure Unmistaken (s s' : Ems) (segments : List ℕ) : Prop where
  shown : ∀ segment ∈ segments, s.ValidSegment segment = true → s.ShowsRecord (segment / 2 ^ 10)
  low : ∀ p, p < EMM_MAX_PHYS → p ∈ numbers segments → s'.record p = s.record p ∧
    ∀ n, lastRead (numbers segments) (p + 0x38) = some n →
      s.record n =
        if p + 0x38 ∈ numbers segments then s.record (p + 0x38) else s'.record (p + 0x38)

theorem validSegment_iff (hlt : segment < 0x10000) :
    s.ValidSegment segment = true ↔ s.Mappable (segment / 2 ^ 10) := by
  rw [Mappable, ValidSegment, ValidSegment]
  split
  · rw [decide_eq_true_eq, decide_eq_true_eq]
    omega
  · have hstart : EMM_PAGEFRAME = 0xE000 := rfl
    rw [Bool.or_eq_true, Bool.or_eq_true, decide_eq_true_eq, decide_eq_true_eq, decide_eq_true_eq,
      decide_eq_true_eq]
    omega

theorem mem_numbers {segments : List ℕ} (h : segment ∈ segments) :
    segment / 2 ^ 10 ∈ numbers segments := List.mem_map.mpr ⟨segment, h, rfl⟩

/-- Nothing is read for the first segments. -/
theorem lastRead_low (hm : m < EMM_MAX_PHYS) : lastRead ns m = none := by
  have hmax : EMM_MAX_PHYS = 4 := rfl
  refine lastRead_eq_none.mpr fun n _ hread => ?_
  rw [readAs] at hread
  split at hread
  · omega
  · omega

/-- A segment that is listed, or taken for a listed one, has an entry. -/
theorem lastRead_listed (hn : n ∈ ns) : ∃ k, lastRead ns (readAs n) = some k := by
  cases hlast : lastRead ns (readAs n) with
  | some k => exact ⟨k, rfl⟩
  | none => exact absurd rfl (lastRead_eq_none.mp hlast n hn)

/-- Outside of the page frame and the first segments an entry is read for its own segment. -/
theorem readAs_eq {k : ℕ} (hread : readAs k = m) :
    k = m ∨ k < EMM_MAX_PHYS ∧ m = k + 0x38 := by
  rw [readAs] at hread
  split at hread
  · rename_i hk
    exact .inr ⟨hk, hread.symm⟩
  · exact .inl hread

/-- **The round trip of a partial page map**, after any mapping calls in any state that requests
lead to: it succeeds exactly when no listed segment is mistaken for a slot of the page frame, and
the listed segments showed what was recorded for them. -/
theorem partial_round_trip_iff {s₀ : Ems} {segments : List ℕ} {data : List PartialEntry}
    (h₀ : s₀.Initial) (hrun : Relation.ReflTransGen AnyStep s₀ s) (hvalid : s.MappingsValid)
    (hlt : ∀ segment ∈ segments, segment < 0x10000)
    (hsave : s.savePartial segments = (EMM_NO_ERROR, data))
    (hcalls : Relation.ReflTransGen MapStep s s') :
    ∃ s'', s'.restorePartial data = .ok (EMM_NO_ERROR, s'') ∧
      (RoundTrip s s' s'' segments ↔ Unmistaken s s' segments) := by
  have hmax : EMM_MAX_PHYS = 4 := rfl
  obtain ⟨live, hcore⟩ := reachable_core h₀ hrun
  obtain ⟨hkeeps, hvalid'⟩ := mapSteps_valid hcore hvalid hcalls
  obtain ⟨rfl, hns⟩ := savePartial_ok hlt hsave
  obtain ⟨s'', hrestore, hmapped, hunmapped⟩ :=
    restorePartial_spec hcore hkeeps hvalid hvalid' hns
  refine ⟨s'', hrestore, ?_⟩
  have hlow : ∀ {p}, p < EMM_MAX_PHYS → p ∈ numbers segments → s.Mappable p :=
    fun hp hmem => (hns _ hmem).2 (by omega)
  have hslot : ∀ {p}, p < EMM_MAX_PHYS → s.Mappable (p + 0x38) :=
    fun hp => mappable_of_inFrame (inFrame_iff.mpr (by omega))
  constructor
  · intro htrip
    have hback : ∀ {n}, n ∈ numbers segments → s.Mappable n → SameAt s s'' n := by
      intro n hn hmap
      obtain ⟨segment, hseg, rfl⟩ := List.mem_map.mp hn
      exact htrip.listed segment hseg ((validSegment_iff (hlt segment hseg)).mpr hmap)
    refine ⟨fun segment hseg hok j hj => ?_, fun p hp hmem => ⟨?_, fun n hlast => ?_⟩⟩
    · have hsame := htrip.listed segment hseg hok
      have hpage := (hmapped _ ((validSegment_iff (hlt segment hseg)).mp hok)).2 j hj
      rwa [hsame.record, hsame.paging j hj] at hpage
    · have hrec := (hmapped p (hlow hp hmem)).1
      rw [lastRead_low hp] at hrec
      exact hrec.symm.trans (hback hmem (hlow hp hmem)).record
    · have hrec := (hmapped (p + 0x38) (hslot hp)).1
      rw [hlast] at hrec
      split
      · rename_i hlisted
        exact hrec.symm.trans (hback hlisted (hslot hp)).record
      · rename_i hlisted
        exact hrec.symm.trans (htrip.others _ (hslot hp).1 hlisted)
  · intro hcond
    have hrecord : ∀ {n}, n ∈ numbers segments → s.Mappable n → s''.record n = s.record n := by
      intro n hn hmap
      rw [(hmapped n hmap).1]
      by_cases hfirst : n < EMM_MAX_PHYS
      · rw [lastRead_low hfirst]
        exact (hcond.low n hfirst hn).1
      · have hself : readAs n = n := if_neg hfirst
        obtain ⟨k, hlast⟩ := lastRead_listed hn
        rw [hself] at hlast
        rw [hlast]
        obtain ⟨hk, hread⟩ := lastRead_mem hlast
        rcases readAs_eq hread with rfl | ⟨hk', rfl⟩
        · rfl
        · have hgets := (hcond.low k hk' hk).2 k hlast
          rwa [if_pos hn] at hgets
    refine ⟨fun segment hseg hok => ?_, fun n hn hnot => ?_⟩
    · have hmap := (validSegment_iff (hlt segment hseg)).mp hok
      have hrec := hrecord (mem_numbers hseg) hmap
      refine ⟨hrec, fun j hj => ?_⟩
      have hpage := (hmapped _ hmap).2 j hj
      rw [hrec, hcond.shown segment hseg hok j hj] at hpage
      exact_mod_cast (Except.ok.inj hpage).symm
    · by_cases hmap : s.Mappable n
      · rw [(hmapped n hmap).1]
        cases hlast : lastRead (numbers segments) n with
        | none => rfl
        | some k =>
          obtain ⟨hk, hread⟩ := lastRead_mem hlast
          have hfirst : EMM_MAX_PHYS ≤ n := by
            by_contra hcon
            rw [lastRead_low (by omega)] at hlast
            cases hlast
          rcases readAs_eq hread with rfl | ⟨hk', rfl⟩
          · exact absurd hk hnot
          · have hgets := (hcond.low k hk' hk).2 k hlast
            rwa [if_neg hnot] at hgets
      · exact hunmapped n hn hmap hnot

theorem Initial.unmapped (h : s.Initial) :
    (∀ n, s.record n = {}) ∧ ∀ x, x < LINK_START → s.firstmb x = x := by
  obtain ⟨s₀, status, hclear, hrun⟩ := h
  have hnull : (s₀.emm_handles EMM_SYSTEM_HANDLE).pages = NULL_HANDLE := by rw [hclear.handles]
  have hrecord : ∀ n, s₀.record n = {} := by
    intro n
    rw [record]
    split
    · exact hclear.mappings _
    · exact hclear.segmentmappings _
  rw [EMM_AllocateSystemHandle] at hrun
  split at hrun
  · obtain ⟨-, rfl⟩ := Prod.mk.inj (Except.ok.inj hrun)
    exact ⟨hrecord, hclear.paging⟩
  rw [if_neg (not_not_intro hnull)] at hrun
  obtain ⟨m, -, hrest⟩ := bind_ok.mp hrun
  obtain ⟨⟨mem, m'⟩, -, hdone⟩ := bind_ok.mp hrest
  dsimp only at hdone
  split at hdone
  · cases hdone
  · obtain ⟨-, rfl⟩ := Prod.mk.inj (Except.ok.inj hdone)
    exact ⟨hrecord, hclear.paging⟩

theorem Initial.mappingsValid (h : s.Initial) : s.MappingsValid :=
  fun n _ => .inl (h.unmapped.1 n)

theorem Initial.showsRecord (h : s.Initial) (hn : n < 0x40) : s.ShowsRecord n := by
  intro j hj
  have hstart : LINK_START = 0x110 := rfl
  rw [pageOf, h.unmapped.1 n, if_pos rfl, h.unmapped.2 _ (by omega)]

/-- The first slot is mapped and its segment restored to what it was before. -/
theorem partial_round_trip_slot : ∃ s s' s'' : Ems, s.record 0x38 = {} ∧ s'.record 0x38 = ⟨0, 0⟩ ∧
    s'.restorePartial [⟨0, 0xff, 0xffff⟩] = .ok (EMM_NO_ERROR, s'') ∧
    RoundTrip s s' s'' [0xE000] := by
  obtain ⟨s, hinit, hvalid, hpages, -⟩ := twoMegabytes_starts
  obtain ⟨live, hinv⟩ := hinit.inv
  obtain ⟨s', hmap, -, -, -, hrec⟩ := @EMM_MapPage_spec s live 0 0 0 hinv.core
    (by decide) (Or.inr ⟨hvalid, by rw [hpages]; decide⟩)
  have hfresh := hinit.unmapped.1
  have hsave : s.savePartial [0xE000] = (EMM_NO_ERROR, [⟨0, 0xff, 0xffff⟩]) := by
    have hslot : s.emm_mappings 0 = {} := hfresh 0x38
    rw [savePartial, if_pos (by decide)]
    dsimp only
    rw [show (0xE000 - EMM_PAGEFRAME) / 2 ^ 10 = 0 from rfl, hslot]
    rfl
  have hcalls : Relation.ReflTransGen MapStep s s' :=
    .single ⟨.mapPage 0 0 0, EMM_NO_ERROR, trivial, hmap⟩
  obtain ⟨s'', hrestore, hiff⟩ := partial_round_trip_iff hinit .refl hinit.mappingsValid
    (by simp) hsave hcalls
  refine ⟨s, s', s'', hfresh _, hrec, hrestore, hiff.mpr ⟨fun segment hseg _ => ?_,
    fun p hp hmem => ?_⟩⟩
  · obtain rfl := List.mem_singleton.mp hseg
    exact hinit.showsRecord (by decide)
  · obtain rfl : p = 0x38 := List.mem_singleton.mp hmem
    exact absurd hp (by decide)

/-- **A listed segment is taken for a slot**: the first segment of memory is saved while nothing is
mapped, and restoring it unmaps the first slot of the page frame, which is not listed. -/
theorem low_segment_overwrites_slot : ∃ s s' s'' : Ems, Initial s ∧ s.MappingsValid ∧
    s.savePartial [0] = (EMM_NO_ERROR, [⟨0, 0xff, 0xffff⟩]) ∧
    Relation.ReflTransGen MapStep s s' ∧
    s'.restorePartial [⟨0, 0xff, 0xffff⟩] = .ok (EMM_NO_ERROR, s'') ∧
    s'.emm_mappings 0 = ⟨0, 0⟩ ∧ s''.emm_mappings 0 = {} ∧ ¬ RoundTrip s s' s'' [0] := by
  obtain ⟨s, hinit, hvalid, hpages, htype⟩ := twoMegabytes_starts
  obtain ⟨live, hinv⟩ := hinit.inv
  obtain ⟨s', hmap, -, -, -, hrec⟩ := @EMM_MapPage_spec s live 0 0 0 hinv.core
    (by decide) (Or.inr ⟨hvalid, by rw [hpages]; decide⟩)
  have hfresh := hinit.unmapped.1
  have hsave : s.savePartial [0] = (EMM_NO_ERROR, [⟨0, 0xff, 0xffff⟩]) := by
    have hlow : s.emm_segmentmappings 0 = {} := hfresh 0
    rw [savePartial, if_neg (by decide), if_pos (.inl htype)]
    dsimp only
    rw [show 0 / 2 ^ 10 = 0 from rfl, hlow]
    rfl
  have hcalls : Relation.ReflTransGen MapStep s s' :=
    .single ⟨.mapPage 0 0 0, EMM_NO_ERROR, trivial, hmap⟩
  obtain ⟨hkeeps, hvalid'⟩ := mapSteps_valid hinv.core hinit.mappingsValid hcalls
  obtain ⟨hdata, hns⟩ := savePartial_ok (by simp) hsave
  obtain ⟨s'', hrestore, hmapped, -⟩ :=
    restorePartial_spec hinv.core hkeeps hinit.mappingsValid hvalid' hns
  rw [← hdata] at hrestore
  have hlost : s''.record 0x38 = {} := by
    rw [(hmapped 0x38 (mappable_of_inFrame (by decide))).1]
    exact hfresh 0
  refine ⟨s, s', s'', hinit, hinit.mappingsValid, hsave, hcalls, hrestore, hrec, hlost, fun h => ?_⟩
  have hkept := h.others 0x38 (by decide) (by decide)
  rw [hlost] at hkept
  exact absurd (hkept.trans hrec) (by decide)

end Ems

end AugraDosbox
