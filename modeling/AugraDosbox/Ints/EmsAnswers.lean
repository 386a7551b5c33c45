import AugraDosbox.Hardware.PageOverrun
import AugraDosbox.Ints.EmsRuns

/-!
# Requests for pages that do not come back

Whether the functions of `src/ints/ems.cpp` that allocate, resize and release pages answer with a
status, in every state that requests lead to.

* `reachable_core` — every handle owns its pages after any requests, also after those that leave
  mappings behind;
* `Request.Answers` — the request comes back, and changes nothing where its status is an error;
* **`answers_iff`** — it does exactly when it fits: `EMM_ReallocatePages` of a handle without pages
  ends the emulator where nothing is asked for and where there is too little memory, and an
  allocation must not reach the end of the page table;
* `reallocate_zero_exits` — such a request.
-/

namespace AugraDosbox

namespace Ems

open EmmStatus MemoryBlock Fallible

variable {s s' : Ems} {live : ℕ → Option (List ℕ)} {h : ℕ} {v : EMM_Handle} {m : MemoryBlock}

/-! ## Mapping calls keep the handles -/

theorem sameHandles_refl (s : Ems) : SameHandles s s := SameHandles.of_eq rfl rfl

theorem sameHandles_PAGING_MapPage (lin_page : ℕ) (phys_page : ℤ) :
    SameHandles s (s.PAGING_MapPage lin_page phys_page) := by
  rw [PAGING_MapPage]
  split
  · exact SameHandles.of_eq rfl rfl
  · exact sameHandles_refl s

variable {n : ℕ} {res : EmmStatus × Ems}

theorem sameHandles_unmapPages : ∀ {s : Ems} {lin_page : ℕ},
    SameHandles s (s.unmapPages n lin_page) := by
  induction n with
  | zero => exact fun {s _} => sameHandles_refl s
  | succ n ih => exact (sameHandles_PAGING_MapPage _ _).trans ih

theorem sameHandles_mapPages : ∀ {s s' : Ems} {lin_page : ℕ} {memh : ℤ},
    s.mapPages n lin_page memh = .ok s' → SameHandles s s' := by
  induction n with
  | zero =>
    intro s s' lin_page memh hrun
    obtain rfl := Except.ok.inj hrun
    exact sameHandles_refl s
  | succ n ih =>
    intro s s' lin_page memh hrun
    rw [mapPages] at hrun
    obtain ⟨memh', -, hrest⟩ := bind_ok.mp hrun
    exact (sameHandles_PAGING_MapPage _ _).trans (ih hrest)

theorem sameHandles_recordSegment (segment : ℕ) (w : EMM_Mapping) :
    SameHandles s (s.recordSegment segment w) := by
  rw [recordSegment]
  split
  · exact sameHandles_setMapping w
  · exact sameHandles_setSegmentMapping w

/-- The end of the mapping calls: the walk to the page, and the loop that makes it visible. -/
theorem sameHandles_walk {s₁ : Ems} {memh : Except Fault ℤ} {lin_page : ℕ}
    (hsame : SameHandles s s₁)
    (hrun : (do let memh ← memh; let s ← s₁.mapPages 4 lin_page memh; .ok (EMM_NO_ERROR, s)) =
      Except.ok res) : SameHandles s res.2 := by
  obtain ⟨memh, -, hrest⟩ := bind_ok.mp hrun
  obtain ⟨s₂, hmap, hdone⟩ := bind_ok.mp hrest
  obtain rfl := Except.ok.inj hdone
  exact hsame.trans (sameHandles_mapPages hmap)

theorem sameHandles_EMM_MapPage {phys_page handle log_page : ℕ}
    (hrun : s.EMM_MapPage phys_page handle log_page = .ok res) : SameHandles s res.2 := by
  rw [EMM_MapPage] at hrun
  split at hrun
  · obtain rfl := Except.ok.inj hrun
    exact sameHandles_refl s
  split at hrun
  · obtain rfl := Except.ok.inj hrun
    exact (sameHandles_setMapping _).trans sameHandles_unmapPages
  split at hrun
  · obtain rfl := Except.ok.inj hrun
    exact sameHandles_refl s
  split at hrun
  · exact sameHandles_walk (sameHandles_setMapping _) hrun
  · obtain rfl := Except.ok.inj hrun
    exact sameHandles_refl s

theorem sameHandles_EMM_MapSegment {segment handle log_page : ℕ}
    (hrun : s.EMM_MapSegment segment handle log_page = .ok res) : SameHandles s res.2 := by
  rw [EMM_MapSegment] at hrun
  split at hrun
  · obtain rfl := Except.ok.inj hrun
    exact sameHandles_refl s
  split at hrun
  · obtain rfl := Except.ok.inj hrun
    exact (sameHandles_recordSegment _ _).trans sameHandles_unmapPages
  split at hrun
  · obtain rfl := Except.ok.inj hrun
    exact sameHandles_refl s
  split at hrun
  · exact sameHandles_walk (sameHandles_recordSegment _ _) hrun
  · obtain rfl := Except.ok.inj hrun
    exact sameHandles_refl s

theorem sameHandles_restoreSegments {l : List ℕ} : ∀ {s s' : Ems},
    s.restoreSegments l = .ok s' → SameHandles s s' := by
  induction l with
  | nil =>
    intro s s' hrun
    obtain rfl := Except.ok.inj hrun
    exact sameHandles_refl s
  | cons i l ih =>
    intro s s' hrun
    rw [restoreSegments] at hrun
    split at hrun
    · exact ih hrun
    · obtain ⟨res, hmap, hrest⟩ := bind_ok.mp hrun
      exact (sameHandles_EMM_MapSegment hmap).trans (ih hrest)

theorem sameHandles_restoreSlots {l : List ℕ} : ∀ {s s' : Ems},
    s.restoreSlots l = .ok s' → SameHandles s s' := by
  induction l with
  | nil =>
    intro s s' hrun
    obtain rfl := Except.ok.inj hrun
    exact sameHandles_refl s
  | cons i l ih =>
    intro s s' hrun
    rw [restoreSlots] at hrun
    obtain ⟨res, hmap, hrest⟩ := bind_ok.mp hrun
    exact (sameHandles_EMM_MapPage hmap).trans (ih hrest)

theorem sameHandles_EMM_RestoreMappingTable (hrun : s.EMM_RestoreMappingTable = .ok res) :
    SameHandles s res.2 := by
  obtain ⟨s₁, hsegs, hrest⟩ := bind_ok.mp hrun
  obtain ⟨s₂, hslots, hdone⟩ := bind_ok.mp hrest
  obtain rfl := Except.ok.inj hdone
  exact (sameHandles_restoreSegments hsegs).trans (sameHandles_restoreSlots hslots)

/-! ## Any requests -/

theorem restorePartial_same {data : List PartialEntry} (hrun : s.restorePartial data = .ok res) :
    SameHandles s res.2 := by
  have hload : SameHandles s (s.loadPartial data).2 := loadPartial_same.1
  rw [restorePartial] at hrun
  cases hdata : s.loadPartial data with
  | mk complete s₁ =>
    rw [hdata] at hrun hload
    cases complete with
    | true => exact hload.trans (sameHandles_EMM_RestoreMappingTable hrun)
    | false =>
      obtain rfl := Except.ok.inj hrun
      exact hload

theorem sameHandles_setMappings (s : Ems) (maps : ℕ → EMM_Mapping) :
    SameHandles s (s.setMappings maps) := SameHandles.of_eq rfl rfl

/-- **One request**, whatever mappings it leaves behind. -/
theorem serve_core {req : Request} (hcore : s.Core live) (hrun : req.serve s = .ok res) :
    ∃ live', res.2.Core live' := by
  cases req with
  | allocate pages zero =>
    obtain ⟨⟨⟨status, dhandle⟩, s₁⟩, hal, hdone⟩ := bind_ok.mp hrun
    obtain rfl := Except.ok.inj hdone
    obtain ⟨h, -, hcall⟩ := EMM_AllocateMemory_call hcore hal
    exact hcall.core hcore
  | reallocate handle pages => exact (EMM_ReallocatePages_call hcore hrun).core hcore
  | release handle => exact (EMM_ReleaseMemory_call hcore hrun).core hcore
  | mapPage phys_page handle log_page =>
    exact ⟨live, (sameHandles_EMM_MapPage hrun).core hcore⟩
  | mapSegment segment handle log_page =>
    exact ⟨live, (sameHandles_EMM_MapSegment hrun).core hcore⟩
  | savePageMap handle =>
    refine ⟨live, ?_⟩
    obtain rfl := Except.ok.inj hrun
    rw [EMM_SavePageMap]
    split
    · exact hcore
    split
    · exact hcore
    · exact sameHandles_setSaved.core hcore
  | restorePageMap handle =>
    refine ⟨live, ?_⟩
    rw [Request.serve, EMM_RestorePageMap] at hrun
    split at hrun
    · obtain rfl := Except.ok.inj hrun
      exact hcore
    split at hrun
    · obtain rfl := Except.ok.inj hrun
      exact hcore
    · have hsame := @sameHandles_setSaved s handle.toNat false
        (s.emm_handles handle.toNat).page_map
      exact ((hsame.trans (sameHandles_setMappings _ _)).trans
        (sameHandles_EMM_RestoreMappingTable hrun)).core hcore
  | saveMap =>
    obtain rfl := Except.ok.inj hrun
    exact ⟨live, hcore⟩
  | restoreMap maps =>
    exact ⟨live, ((sameHandles_setMappings s maps).trans
      (sameHandles_EMM_RestoreMappingTable hrun)).core hcore⟩
  | savePartial segments =>
    obtain rfl := Except.ok.inj hrun
    exact ⟨live, hcore⟩
  | restorePartial data => exact ⟨live, (restorePartial_same hrun).core hcore⟩

/-- Any request that comes back. -/
def AnyStep (s s' : Ems) : Prop := ∃ req status, Request.serve s req = .ok (status, s')

/-- **Every handle owns its pages** after any requests. -/
theorem reachable_core {s₀ : Ems} (h₀ : s₀.Initial) (hrun : Relation.ReflTransGen AnyStep s₀ s) :
    ∃ live, s.Core live := by
  induction hrun with
  | refl =>
    obtain ⟨live, hinv⟩ := h₀.inv
    exact ⟨live, hinv.core⟩
  | tail _ hstep ih =>
    obtain ⟨live, hcore⟩ := ih
    obtain ⟨req, status, hserve⟩ := hstep
    exact serve_core hcore hserve

/-! ## Requests for pages -/

namespace Request

/-- The requests that allocate, resize or release pages. -/
def ForPages : Request → Prop
  | allocate _ _ | reallocate _ _ | release _ => True
  | _ => False

/-- The request comes back with a status, and changes nothing if it is an error. -/
def Answers (s : Ems) (req : Request) : Prop :=
  ∃ status s', req.serve s = .ok (status, s') ∧ (status ≠ EMM_NO_ERROR → s' = s)

/-- The pages that are asked for can be had: a handle without pages asks for some, and for no
more than are free, and the allocation does not reach the end of the page table. -/
def Fits (s : Ems) : Request → Prop
  | allocate pages _ =>
    pages.toNat ≠ 0 → pages.toNat ≤ s.get_free_pages →
      s.freeHandle (EMM_MAX_HANDLES - 1) 1 ≠ none → s.mem.StopsBeforeEnd (pages.toNat * 4)
  | reallocate handle pages =>
    s.ValidHandle handle.toNat = true →
      if (s.emm_handles handle.toNat).pages = 0 then
        pages.toNat ≠ 0 ∧ pages.toNat * 4 ≤ s.mem.MEM_FreeTotal ∧
          s.mem.StopsBeforeEnd (pages.toNat * 4)
      else
        let need := pages.toNat * 4 - (s.emm_handles handle.toNat).pages * 4
        need ≠ 0 → need ≤ s.mem.MEM_FreeTotal → s.mem.StopsBeforeEnd need
  | _ => True

end Request

/-- An allocation of pages that are free comes back exactly when it does not reach the end of the
page table. -/
theorem allocate_ok_iff (hpos : 0 < n) (hfree : n ≤ m.MEM_FreeTotal) :
    (∃ r, m.MEM_AllocatePages n false = .ok r) ↔ m.StopsBeforeEnd n := by
  rw [← allocate_scattered_iff hpos hfree]
  constructor
  · rintro ⟨⟨handle, m'⟩, hrun⟩
    have hloop : allocateScattered n n none (0, m) = .ok (handle, m') := by
      rwa [MEM_AllocatePages, if_neg hpos.ne', if_neg (by decide), if_neg (by omega)] at hrun
    obtain ⟨k, B, rfl, hB⟩ := allocateScattered_scattered hpos.ne' hloop
    exact ⟨k, m', B, hrun, hB, Chained.nodup hB.chain⟩
  · rintro ⟨k, m', B, hrun, -⟩
    exact ⟨_, hrun⟩

/-- Where it comes back, it hands out pages. -/
theorem allocate_ne_zero {m' : MemoryBlock} {handle : ℤ} (hpos : 0 < n)
    (hfree : n ≤ m.MEM_FreeTotal) (hrun : m.MEM_AllocatePages n false = .ok (handle, m')) :
    handle ≠ 0 := by
  obtain ⟨k, m₁, B, hrun', hB, -⟩ :=
    (allocate_scattered_iff hpos hfree).mpr ((allocate_ok_iff hpos hfree).mp ⟨_, hrun⟩)
  rw [hrun'] at hrun
  obtain ⟨rfl, -⟩ := Prod.mk.inj (Except.ok.inj hrun)
  have hstart := (hB.free k (List.mem_of_mem_head? hB.head)).2.1
  have : XMS_START = 0x110 := rfl
  omega

theorem get_free_pages_le {pages : ℕ} (hle : pages ≤ s.get_free_pages) :
    pages * 4 ≤ s.mem.MEM_FreeTotal := by
  have hmin : pages ≤ s.mem.MEM_FreeTotal / EMM_MAX_PHYS := hle.trans (Nat.min_le_right ..)
  have hmax : EMM_MAX_PHYS = 4 := rfl
  rw [hmax] at hmin
  omega

/-- **`EMM_AllocateMemory`.** -/
theorem allocate_answers_iff {pages : UInt16} {zero : Bool} :
    (Request.allocate pages zero).Answers s ↔ (Request.allocate pages zero).Fits s := by
  have hanswer : (Request.allocate pages zero).Answers s ↔
      ∃ status dhandle s', s.EMM_AllocateMemory pages.toNat zero = .ok ((status, dhandle), s') ∧
        (status ≠ EMM_NO_ERROR → s' = s) := by
    constructor
    · rintro ⟨status, s', hrun, hsame⟩
      obtain ⟨⟨⟨status', dhandle⟩, s₁⟩, hal, hdone⟩ := bind_ok.mp hrun
      obtain ⟨rfl, rfl⟩ := Prod.mk.inj (Except.ok.inj hdone)
      exact ⟨status', dhandle, s₁, hal, hsame⟩
    · rintro ⟨status, dhandle, s', hal, hsame⟩
      refine ⟨status, s', ?_, hsame⟩
      rw [Request.serve, hal]
      rfl
  rw [hanswer, Request.Fits, EMM_AllocateMemory]
  by_cases hzero : pages.toNat = 0 ∧ zero = false
  · rw [if_pos hzero]
    exact iff_of_true ⟨_, _, _, rfl, fun _ => rfl⟩ fun h => absurd hzero.1 h
  rw [if_neg hzero]
  by_cases hfree : s.get_free_pages < pages.toNat
  · rw [if_pos hfree]
    exact iff_of_true ⟨_, _, _, rfl, fun _ => rfl⟩ fun _ h => absurd hfree (Nat.not_lt.mpr h)
  rw [if_neg hfree]
  cases hhandle : s.freeHandle (EMM_MAX_HANDLES - 1) 1 with
  | none => exact iff_of_true ⟨_, _, _, rfl, fun _ => rfl⟩ fun _ _ h => absurd rfl h
  | some handle =>
    by_cases hpages : pages.toNat = 0
    · refine iff_of_true ⟨EMM_NO_ERROR, some handle, s.setHandle handle
        { s.emm_handles handle with pages := pages.toNat, mem := 0 }, ?_, fun h => absurd rfl h⟩
        fun h => absurd hpages h
      dsimp only
      rw [if_neg (not_not_intro hpages)]
      simp only [bind, Except.bind]
      rw [if_neg fun h => h.1 hpages]
    · have hle := get_free_pages_le (Nat.le_of_not_lt hfree)
      have hpos : 0 < pages.toNat * 4 := by omega
      dsimp only
      rw [if_pos hpages]
      constructor
      · rintro ⟨status, dhandle, s', hrun, -⟩ - - -
        obtain ⟨r, hal, -⟩ := bind_ok.mp hrun
        exact (allocate_ok_iff hpos hle).mp ⟨r, hal⟩
      · intro hfits
        obtain ⟨⟨mem, m⟩, hal⟩ := (allocate_ok_iff hpos hle).mpr
          (hfits hpages (Nat.le_of_not_lt hfree) (Option.some_ne_none _))
        have hmem := allocate_ne_zero hpos hle hal
        refine ⟨EMM_NO_ERROR, some handle, { s with mem := m }.setHandle handle
          { s.emm_handles handle with pages := pages.toNat, mem := mem }, ?_,
          fun h => absurd rfl h⟩
        rw [hal]
        simp only [bind, Except.bind]
        rw [if_neg fun h => hmem h.2]

/-- **`EMM_ReleaseMemory`** always comes back. -/
theorem release_answers (hcore : s.Core live) (handle : UInt16) :
    (Request.release handle).Answers s := by
  rw [Request.Answers, Request.serve, EMM_ReleaseMemory]
  by_cases hvalid : s.ValidHandle handle.toNat = false
  · rw [if_pos hvalid]
    exact ⟨_, _, rfl, fun _ => rfl⟩
  · rw [if_neg hvalid]
    by_cases hpages : (s.emm_handles handle.toNat).pages = 0
    · rw [if_neg (not_not_intro hpages)]
      exact ⟨EMM_NO_ERROR, _, rfl, fun h => absurd rfl h⟩
    · obtain ⟨k, L, hk, hL, -⟩ := hcore.chain (by simpa using hvalid) hpages
      obtain ⟨m, hm, -⟩ := hcore.owned.release hL
      rw [if_pos hpages, hk, hm]
      exact ⟨EMM_NO_ERROR, _, rfl, fun h => absurd rfl h⟩

/-- A reallocation comes back exactly when what it lacks, and can be had, does not reach the end of
the page table. -/
theorem reallocate_ok_iff {L : List ℕ} {k : ℕ} (hown : m.Owned live) (hL : live k = some L) :
    (∃ r, m.MEM_ReAllocatePages k n false = .ok r) ↔
      (n - L.length ≠ 0 → n - L.length ≤ m.MEM_FreeTotal → m.StopsBeforeEnd (n - L.length)) := by
  have hpos := hown.pos_lt hL k (List.mem_of_mem_head? (hown.head hL))
  obtain ⟨A, x, hx⟩ : ∃ A x, L = A ++ [x] := by
    refine (List.eq_nil_or_concat' L).resolve_left ?_
    rintro rfl
    cases hown.head hL
  by_cases hn : n = 0
  · refine iff_of_true ?_ fun h => absurd (by omega) h
    obtain ⟨m', hm', -⟩ := hown.release hL
    rw [MEM_ReAllocatePages, if_neg (by omega), if_pos hn, hm']
    exact ⟨_, rfl⟩
  by_cases hle : n ≤ L.length
  · refine iff_of_true ?_ fun h => absurd (by omega) h
    rw [MEM_ReAllocatePages, if_neg (by omega), if_neg hn, hown.countLoop_eq hL hx]
    simp only [bind, Except.bind]
    by_cases heq : L.length = n
    · exact ⟨_, if_pos heq⟩
    · rw [if_neg heq, if_pos (by omega)]
      exact ⟨_, rfl⟩
  have hneed : 0 < n - L.length := by omega
  have hcall : m.MEM_ReAllocatePages k n false = m.MEM_AllocatePages (n - L.length) false >>=
      fun a => if a.1 = 0 then .ok (false, (k : ℤ), a.2)
        else .ok (true, (k : ℤ), a.2.setEntry x a.1) := by
    rw [MEM_ReAllocatePages, if_neg (by omega), if_neg hn, hown.countLoop_eq hL hx]
    simp only [bind, Except.bind]
    rw [if_neg (by omega), if_neg (by omega), if_neg (by decide)]
    rfl
  by_cases hfree : m.MEM_FreeTotal < n - L.length
  · exact iff_of_true ⟨_, hown.reallocate_refused hL (by omega) hfree⟩
      fun _ h => absurd hfree (Nat.not_lt.mpr h)
  have hiff := allocate_ok_iff hneed (Nat.le_of_not_lt hfree)
  rw [hcall]
  constructor
  · rintro ⟨r, hrun⟩ - -
    obtain ⟨res, hal, -⟩ := bind_ok.mp hrun
    exact hiff.mp ⟨res, hal⟩
  · intro hfits
    obtain ⟨⟨rem, m'⟩, hal⟩ := hiff.mpr (hfits hneed.ne' (Nat.le_of_not_lt hfree))
    have hrem := allocate_ne_zero hneed (Nat.le_of_not_lt hfree) hal
    refine ⟨(true, (k : ℤ), m'.setEntry x rem), ?_⟩
    rw [hal]
    simp only [bind, Except.bind]
    rw [if_neg hrem]

/-- `EMM_ReallocatePages` of a handle without pages. -/
theorem reallocate_empty_answers_iff {handle pages : UInt16}
    (hvalid : s.ValidHandle handle.toNat = true) (hempty : (s.emm_handles handle.toNat).pages = 0) :
    (Request.reallocate handle pages).Answers s ↔
      pages.toNat ≠ 0 ∧ pages.toNat * 4 ≤ s.mem.MEM_FreeTotal ∧
        s.mem.StopsBeforeEnd (pages.toNat * 4) := by
  rw [Request.Answers, Request.serve, EMM_ReallocatePages, if_neg (by rw [hvalid]; decide),
    if_neg (not_not_intro hempty)]
  by_cases hpages : pages.toNat = 0
  · refine iff_of_false ?_ fun h => h.1 hpages
    rintro ⟨status, s', hrun, -⟩
    rw [hpages] at hrun
    cases hrun
  by_cases hfree : s.mem.MEM_FreeTotal < pages.toNat * 4
  · refine iff_of_false ?_ fun h => absurd hfree (Nat.not_lt.mpr h.2.1)
    rintro ⟨status, s', hrun, -⟩
    rw [MEM_AllocatePages, if_neg (by omega), if_neg (by decide), if_pos hfree] at hrun
    cases hrun
  have hle := Nat.le_of_not_lt hfree
  have hiff := allocate_ok_iff (m := s.mem) (n := pages.toNat * 4) (by omega) hle
  constructor
  · rintro ⟨status, s', hrun, -⟩
    obtain ⟨r, hal, -⟩ := bind_ok.mp hrun
    exact ⟨hpages, hle, hiff.mp ⟨r, hal⟩⟩
  · rintro ⟨-, -, hstops⟩
    obtain ⟨⟨mem, m⟩, hal⟩ := hiff.mpr hstops
    have hmem := allocate_ne_zero (by omega) hle hal
    refine ⟨EMM_NO_ERROR, { s with mem := m }.setHandle handle.toNat
      { s.emm_handles handle.toNat with mem := mem, pages := pages.toNat }, ?_,
      fun h => absurd rfl h⟩
    rw [hal]
    simp only [bind, Except.bind]
    rw [if_neg hmem]

/-- **`EMM_ReallocatePages`.** -/
theorem reallocate_answers_iff {handle pages : UInt16} (hcore : s.Core live) :
    (Request.reallocate handle pages).Answers s ↔ (Request.reallocate handle pages).Fits s := by
  by_cases hvalid : s.ValidHandle handle.toNat = false
  · refine iff_of_true ?_ fun h => absurd h (by rw [hvalid]; decide)
    rw [Request.Answers, Request.serve, EMM_ReallocatePages, if_pos hvalid]
    exact ⟨_, _, rfl, fun _ => rfl⟩
  have hvalid' : s.ValidHandle handle.toNat = true := by simpa using hvalid
  rw [Request.Fits, imp_iff_right hvalid']
  by_cases hempty : (s.emm_handles handle.toNat).pages = 0
  · rw [if_pos hempty]
    exact reallocate_empty_answers_iff hvalid' hempty
  rw [if_neg hempty]
  obtain ⟨k, L, hk, hL, hlen⟩ := hcore.chain hvalid' hempty
  have hiff := reallocate_ok_iff (n := pages.toNat * 4) hcore.owned hL
  rw [hlen] at hiff
  dsimp only
  rw [← hiff, Request.Answers, Request.serve, EMM_ReallocatePages, if_neg hvalid,
    if_pos hempty, hk]
  constructor
  · rintro ⟨status, s', hrun, -⟩
    obtain ⟨r, hre, -⟩ := bind_ok.mp hrun
    exact ⟨r, hre⟩
  · rintro ⟨⟨ok, mem, m⟩, hre⟩
    have hres := hcore.owned.reallocateScatter hL hre
    rw [hre]
    cases hres with
    | refused hlt =>
      refine ⟨EMM_OUT_OF_LOG, _, rfl, fun _ => ?_⟩
      rw [← hk]
      exact congrArg (fun f => { s with emm_handles := f })
        (Function.update_eq_self handle.toNat s.emm_handles)
    | released hn hp hown => exact ⟨EMM_NO_ERROR, _, rfl, fun h => absurd rfl h⟩
    | resized hn hp hlen' hkeep hown => exact ⟨EMM_NO_ERROR, _, rfl, fun h => absurd rfl h⟩

/-- **Requests for pages answer exactly when they fit**, after any requests. -/
theorem answers_iff {s₀ : Ems} {req : Request} (h₀ : s₀.Initial)
    (hrun : Relation.ReflTransGen AnyStep s₀ s) (hpages : req.ForPages) :
    req.Answers s ↔ req.Fits s := by
  obtain ⟨live, hcore⟩ := reachable_core h₀ hrun
  cases req with
  | allocate pages zero => exact allocate_answers_iff
  | reallocate handle pages => exact reallocate_answers_iff hcore
  | release handle => exact iff_of_true (release_answers hcore handle) trivial
  | _ => exact absurd hpages id

/-- After the release of the pages of the system handle, a resize to no pages does not fit. -/
theorem emptied_system_handle : ∃ s₀ s : Ems, Initial s₀ ∧ Relation.ReflTransGen AnyStep s₀ s ∧
    s.ValidHandle 0 = true ∧ (s.emm_handles 0).pages = 0 := by
  obtain ⟨s, hinit, hvalid, hpages, -⟩ := twoMegabytes_starts
  obtain ⟨live, hinv⟩ := hinit.inv
  have hne : (s.emm_handles 0).pages ≠ 0 := by
    rw [hpages]
    decide
  obtain ⟨k, L, hk, hL, -⟩ := hinv.core.chain hvalid hne
  obtain ⟨m, hm, -⟩ := hinv.core.owned.release hL
  have hrelease : Request.serve s (.release 0) = .ok (EMM_NO_ERROR, { s with mem := m }.setHandle 0
      { s.emm_handles 0 with mem := 0, pages := 0, saved_page_map := false }) := by
    change s.EMM_ReleaseMemory 0 = _
    rw [EMM_ReleaseMemory, if_neg (by rw [hvalid]; decide), if_pos hne, hk, hm]
    rfl
  exact ⟨s, _, hinit, .single ⟨.release 0, EMM_NO_ERROR, hrelease⟩, rfl, rfl⟩

/-- A request that does not come back. -/
theorem answers_iff_emptied : ∃ s : Ems, s.ValidHandle 0 = true ∧
    ((Request.reallocate 0 0).Answers s ↔ (Request.reallocate 0 0).Fits s) ∧
    ¬ (Request.reallocate 0 0).Answers s := by
  obtain ⟨s₀, s, hinit, hrun, hvalid, hempty⟩ := emptied_system_handle
  have hiff := @answers_iff s s₀ (.reallocate 0 0) hinit hrun trivial
  refine ⟨s, hvalid, hiff, fun h => ?_⟩
  have hfits := hiff.mp h hvalid
  rw [show (0 : UInt16).toNat = 0 from rfl, if_pos hempty] at hfits
  exact hfits.1 rfl

/-- **A resize to no pages ends the emulator** where the handle has none. -/
theorem reallocate_zero_exits : ∃ s₀ s : Ems, Initial s₀ ∧ Relation.ReflTransGen AnyStep s₀ s ∧
    s.ValidHandle 0 = true ∧ Request.serve s (.reallocate 0 0) = .error .exit ∧
    ¬ (Request.reallocate 0 0).Answers s := by
  obtain ⟨s₀, s, hinit, hrun, hvalid, hempty⟩ := emptied_system_handle
  have hexit : Request.serve s (.reallocate 0 0) = .error .exit := by
    change s.EMM_ReallocatePages 0 0 = _
    rw [EMM_ReallocatePages, if_neg (by rw [hvalid]; decide), if_neg (not_not_intro hempty)]
    rfl
  refine ⟨s₀, s, hinit, hrun, hvalid, hexit, ?_⟩
  rintro ⟨status, s', hserve, -⟩
  rw [hexit] at hserve
  cases hserve

end Ems

end AugraDosbox
