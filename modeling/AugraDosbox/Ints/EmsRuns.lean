import Mathlib.Logic.Relation
import AugraDosbox.Ints.EmsMapping
import AugraDosbox.Lib.Fallible

/-!
# Whole runs of expanded memory requests

* `Inv` — every handle owns its pages, and every slot shows what is recorded for it.
* `Moves`, `PagesCall` — what a call on one handle does to the pages of the others, and to its own.
* `Request.Safe` — the requests that do not leave a mapping behind which names
  pages that are gone.
* `reachable_tables` — **in every run of safe requests the mapping table is valid,
  the walks made from it stay inside the page table, and the page frame shows what
  is recorded.**
* `release_leaves_mapping` — releasing a handle that is mapped is not safe.
-/

namespace AugraDosbox

namespace Ems

open EmmStatus MemoryBlock Fallible

variable {s s' : Ems} {live : ℕ → Option (List ℕ)} {i : ℕ}

/-! ## The invariant -/

/-- Every handle owns its pages, and every slot shows what is recorded for it. -/
structure Inv (s : Ems) (live : ℕ → Option (List ℕ)) : Prop where
  core : s.Core live
  slot : ∀ i, i < EMM_MAX_PHYS → s.Slot live i

/-- A handle of some pages. -/
def NonEmpty (s : Ems) (h : ℕ) : Prop :=
  s.ValidHandle h = true ∧ (s.emm_handles h).pages ≠ 0

/-- What a call on one handle does: it gets the pages of `live'`, and the pages of
the other handles stay. -/
structure Moves (s : Ems) (live : ℕ → Option (List ℕ)) (h : ℕ) (v : EMM_Handle) (m : MemoryBlock)
    (live' : ℕ → Option (List ℕ)) : Prop where
  owned : m.Owned live'
  others : ∀ {h'} {k : ℕ}, h' ≠ h → s.NonEmpty h' → (s.emm_handles h').mem = k → live' k = live k
  own : v.pages ≠ NULL_HANDLE → v.pages ≠ 0 → ∃ (k : ℕ) (L : List ℕ), v.mem = k ∧
    live' k = some L ∧ L.length = v.pages * 4 ∧
    ∀ {h'}, h' ≠ h → s.NonEmpty h' → (s.emm_handles h').mem ≠ k

variable {live' : ℕ → Option (List ℕ)} {h : ℕ} {v : EMM_Handle} {m : MemoryBlock}

theorem validHandle_setHandle_of_ne {h' : ℕ} (hne : h' ≠ h) :
    ({ s with mem := m }.setHandle h v).ValidHandle h' = s.ValidHandle h' := by
  simp only [ValidHandle, setHandle, Function.update_of_ne hne]

theorem Moves.core (hm : s.Moves live h v m live') (hcore : s.Core live) :
    ({ s with mem := m }.setHandle h v).Core live' := by
  have hother : ∀ {h'}, h' ≠ h → ({ s with mem := m }.setHandle h v).emm_handles h' =
      s.emm_handles h' := fun hne => Function.update_of_ne hne _ _
  have hself : ({ s with mem := m }.setHandle h v).emm_handles h = v := Function.update_self ..
  have hnull : ({ s with mem := m }.setHandle h v).ValidHandle h = true →
      v.pages ≠ NULL_HANDLE := by
    intro hvalid
    simp only [ValidHandle, hself, Bool.and_eq_true, decide_eq_true_eq] at hvalid
    exact hvalid.2
  refine ⟨hm.owned, ?_, ?_⟩
  · intro h' hvalid hpages
    by_cases hne : h' = h
    · subst hne
      rw [hself] at hpages ⊢
      obtain ⟨k, L, hk, hL, hlen, -⟩ := hm.own (hnull hvalid) hpages
      exact ⟨k, L, hk, hL, hlen⟩
    · rw [validHandle_setHandle_of_ne hne] at hvalid
      rw [hother hne] at hpages ⊢
      obtain ⟨k, L, hk, hL, hlen⟩ := hcore.chain hvalid hpages
      exact ⟨k, L, hk, by rw [hm.others hne ⟨hvalid, hpages⟩ hk]; exact hL, hlen⟩
  · intro h₁ h₂ hv₁ hv₂ hp₁ hp₂ heq
    by_cases hne₁ : h₁ = h
    · by_cases hne₂ : h₂ = h
      · rw [hne₁, hne₂]
      · subst hne₁
        rw [validHandle_setHandle_of_ne hne₂] at hv₂
        rw [hself] at hp₁ heq
        rw [hother hne₂] at hp₂ heq
        obtain ⟨k, L, hk, -, -, hsep⟩ := hm.own (hnull hv₁) hp₁
        exact absurd (heq.symm.trans hk) (hsep hne₂ ⟨hv₂, hp₂⟩)
    · rw [validHandle_setHandle_of_ne hne₁] at hv₁
      rw [hother hne₁] at hp₁ heq
      by_cases hne₂ : h₂ = h
      · subst hne₂
        rw [hself] at hp₂ heq
        obtain ⟨k, L, hk, -, -, hsep⟩ := hm.own (hnull hv₂) hp₂
        exact absurd (heq.trans hk) (hsep hne₁ ⟨hv₁, hp₁⟩)
      · rw [validHandle_setHandle_of_ne hne₂] at hv₂
        rw [hother hne₂] at hp₂ heq
        exact hcore.injective hv₁ hv₂ hp₁ hp₂ heq

/-- A slot that is not mapped to the handle stays. -/
theorem Moves.slot (hm : s.Moves live h v m live') (hslot : s.Slot live i)
    (hne : s.ValidHandle (s.emm_mappings i).handle = true → (s.emm_mappings i).handle ≠ h) :
    ({ s with mem := m }.setHandle h v).Slot live' i := by
  rcases hslot with hnull | ⟨hvalid, hpage, k, L, hk, hL, hshow⟩
  · exact Or.inl hnull
  · refine Or.inr ?_
    have hne' := hne hvalid
    have hother : ({ s with mem := m }.setHandle h v).emm_handles (s.emm_mappings i).handle =
        s.emm_handles (s.emm_mappings i).handle := Function.update_of_ne hne' _ _
    have hmap : ({ s with mem := m }.setHandle h v).emm_mappings = s.emm_mappings := rfl
    rw [hmap, validHandle_setHandle_of_ne hne', hother]
    refine ⟨hvalid, hpage, k, L, hk, ?_, hshow⟩
    rw [hm.others hne' ⟨hvalid, by omega⟩ hk]
    exact hL

variable {k n : ℕ} {res : EmmStatus × Ems}

/-- A slot that is mapped to the handle stays, if the handle keeps its first pages. -/
theorem Moves.slot_own {L L' : List ℕ} (hvalid : s.ValidHandle h = true) (hslot : s.Slot live i)
    (hh : (s.emm_mappings i).handle = h) (hk : (s.emm_handles h).mem = k) (hL : live k = some L)
    (hv : v.pages ≠ NULL_HANDLE) (hpage : (s.emm_mappings i).page < v.pages) (hvk : v.mem = k)
    (hL' : live' k = some L') (hkeep : ∀ x, x < v.pages * 4 → x < L.length → L'[x]? = L[x]?) :
    ({ s with mem := m }.setHandle h v).Slot live' i := by
  rcases hslot with hnull | ⟨-, hpage', k', M, hk', hM, hshow⟩
  · exact Or.inl hnull
  · refine Or.inr ?_
    have hself : ({ s with mem := m }.setHandle h v).emm_handles h = v := Function.update_self ..
    have hmap : ({ s with mem := m }.setHandle h v).emm_mappings = s.emm_mappings := rfl
    rw [hh] at hk'
    obtain rfl : k = k' := by exact_mod_cast hk.symm.trans hk'
    obtain rfl : L = M := Option.some.inj (hL.symm.trans hM)
    rw [hmap, hh, hself]
    refine ⟨?_, hpage, k, L', hvk, hL', fun j hj => ?_⟩
    · simp only [ValidHandle, Bool.and_eq_true, decide_eq_true_eq, hself] at hvalid ⊢
      exact ⟨hvalid.1, hv⟩
    · have hx := hshow j hj
      have hlt := (List.getElem?_eq_some_iff.1 hx).1
      rw [hkeep _ (by omega) hlt]
      exact hx

/-! ## The handle calls -/

theorem freeHandle_spec : ∀ {k handle : ℕ}, freeHandle s n k = some handle →
    k ≤ handle ∧ handle < k + n ∧ (s.emm_handles handle).pages = NULL_HANDLE := by
  induction n with
  | zero => intro k handle hrun; cases hrun
  | succ n ih =>
    intro k handle hrun
    rw [freeHandle] at hrun
    split at hrun
    · rename_i hfree
      obtain rfl := Option.some.inj hrun
      exact ⟨le_rfl, by omega, hfree⟩
    · obtain ⟨h1, h2, h3⟩ := ih hrun
      exact ⟨by omega, by omega, h3⟩

/-- A scattered allocation for a handle that had no pages. -/
theorem Core.moves_allocate (hcore : s.Core live) {B : List ℕ} (hB : Scattered s.mem n k m B)
    (hvk : v.mem = k) (hlen : n = v.pages * 4) :
    s.Moves live h v m (Function.update live k (some B)) := by
  obtain ⟨hnone, howned⟩ := hcore.owned.scatter hB
  have hsep : ∀ {h'} {k' : ℕ}, s.NonEmpty h' → (s.emm_handles h').mem = k' → k' ≠ k := by
    rintro h' k' ⟨hvalid, hpages⟩ hk' rfl
    obtain ⟨k'', L, hk'', hL, -⟩ := hcore.chain hvalid hpages
    obtain rfl : k' = k'' := by exact_mod_cast hk'.symm.trans hk''
    rw [hnone] at hL
    cases hL
  refine ⟨howned, fun _ hne hk' => Function.update_of_ne (hsep hne hk') _ _, fun _ _ => ?_⟩
  refine ⟨k, B, hvk, Function.update_self .., by rw [hB.length, hlen], fun _ hne hk' => ?_⟩
  exact hsep hne hk' rfl

theorem nonEmpty_of_slot (hslot : s.Slot live i)
    (hvalid : s.ValidHandle (s.emm_mappings i).handle = true) :
    (s.emm_mappings i).page < (s.emm_handles (s.emm_mappings i).handle).pages := by
  rcases hslot with ⟨hnull, -⟩ | ⟨-, hpage, -⟩
  · rw [hnull] at hvalid
    simp [ValidHandle, EMM_MAX_HANDLES, NULL_HANDLE] at hvalid
  · exact hpage

theorem Slot.ne_handle (hslot : s.Slot live i)
    (hempty : (s.emm_handles h).pages = 0 ∨ s.ValidHandle h = false)
    (hvalid : s.ValidHandle (s.emm_mappings i).handle = true) : (s.emm_mappings i).handle ≠ h := by
  rintro rfl
  have := nonEmpty_of_slot hslot hvalid
  rcases hempty with h0 | h0
  · omega
  · rw [hvalid] at h0
    cases h0

/-- A handle that had no pages gets new ones. -/
theorem Core.allocate (hcore : s.Core live) {mem : ℤ}
    (hrun : s.mem.MEM_AllocatePages n false = .ok (mem, m)) (hmem : mem ≠ 0) (hvk : v.mem = mem)
    (hlen : n = v.pages * 4) : ∃ live', s.Moves live h v m live' := by
  rcases allocate_scattered hrun with ⟨h0, -⟩ | ⟨k, B, rfl, -, hB⟩
  · exact absurd h0 hmem
  · exact ⟨_, hcore.moves_allocate hB hvk hlen⟩

/-- A handle is left without pages of its own. -/
theorem Moves.of_dropped (hv : v.pages = 0 ∨ v.pages = NULL_HANDLE) (hown : m.Owned live')
    (hothers : ∀ {h'} {k : ℕ}, h' ≠ h → s.NonEmpty h' → (s.emm_handles h').mem = k →
      live' k = live k) : s.Moves live h v m live' := by
  refine ⟨hown, hothers, fun h1 h2 => ?_⟩
  rcases hv with hv | hv
  · exact absurd hv h2
  · exact absurd hv h1

/-- Handles of some pages do not share them. -/
theorem Core.mem_ne (hcore : s.Core live) {h' : ℕ} (hne : h' ≠ h) (hh : s.NonEmpty h)
    (hh' : s.NonEmpty h') (hk : (s.emm_handles h).mem = k) : (s.emm_handles h').mem ≠ k :=
  fun hk' => hne (hcore.injective hh'.1 hh.1 hh'.2 hh.2 (hk'.trans hk.symm))

theorem Core.others (hcore : s.Core live) {o : Option (List ℕ)} (hh : s.NonEmpty h)
    (hk : (s.emm_handles h).mem = k) {h' k' : ℕ} (hne : h' ≠ h) (hh' : s.NonEmpty h')
    (hk' : (s.emm_handles h').mem = k') : Function.update live k o k' = live k' := by
  refine Function.update_of_ne ?_ _ _
  rintro rfl
  exact hcore.mem_ne hne hh hh' hk hk'

/-- What a call that allocates, resizes or releases the pages of a handle does: `n` pages are left
to the handle. -/
inductive PagesCall (s : Ems) (live : ℕ → Option (List ℕ)) (h n : ℕ) : Ems → Prop where
  | same : PagesCall s live h n s
  | fresh {v : EMM_Handle} {m : MemoryBlock} {live' : ℕ → Option (List ℕ)}
      (hmoves : s.Moves live h v m live')
      (hempty : (s.emm_handles h).pages = 0 ∨ s.ValidHandle h = false) :
      PagesCall s live h n ({ s with mem := m }.setHandle h v)
  | dropped {v : EMM_Handle} {m : MemoryBlock} {live' : ℕ → Option (List ℕ)}
      (hmoves : s.Moves live h v m live') (hvalid : s.ValidHandle h = true) (hn : n = 0) :
      PagesCall s live h n ({ s with mem := m }.setHandle h v)
  | resized {v : EMM_Handle} {m : MemoryBlock} {k : ℕ} {L L' : List ℕ}
      (hmoves : s.Moves live h v m (Function.update live k (some L')))
      (hvalid : s.ValidHandle h = true) (hk : (s.emm_handles h).mem = (k : ℕ))
      (hL : live k = some L) (hvk : v.mem = k) (hn : v.pages = n)
      (hkeep : ∀ x, x < n * 4 → x < L.length → L'[x]? = L[x]?)
      (hfree : (n - (s.emm_handles h).pages) * 4 ≤ s.mem.MEM_FreeTotal) :
      PagesCall s live h n ({ s with mem := m }.setHandle h v)

/-- Every handle owns its pages afterwards, whatever is mapped. -/
theorem PagesCall.core (hcall : s.PagesCall live h n s') (hcore : s.Core live) :
    ∃ live', s'.Core live' := by
  cases hcall with
  | same => exact ⟨live, hcore⟩
  | fresh hmoves => exact ⟨_, hmoves.core hcore⟩
  | dropped hmoves => exact ⟨_, hmoves.core hcore⟩
  | resized hmoves => exact ⟨_, hmoves.core hcore⟩

/-- The pages that a reallocation to `n` pages would take away from a slot are not
mapped. -/
def KeepsMapped (s : Ems) (h n : ℕ) : Prop :=
  ∀ i, i < EMM_MAX_PHYS → (s.emm_mappings i).handle = h → (s.emm_mappings i).page < n ∧
    (n = NULL_HANDLE → s.mem.MEM_FreeTotal < (n - (s.emm_handles h).pages) * 4)

/-- The slots stay in order where no page that is mapped is taken away. -/
theorem PagesCall.inv (hcall : s.PagesCall live h n s') (hinv : s.Inv live)
    (hmapped : s.ValidHandle h = true → s.KeepsMapped h n) : ∃ live', s'.Inv live' := by
  cases hcall with
  | same => exact ⟨live, hinv⟩
  | fresh hmoves hempty =>
    exact ⟨_, hmoves.core hinv.core, fun i hi =>
      hmoves.slot (hinv.slot i hi) fun hvalid => (hinv.slot i hi).ne_handle hempty hvalid⟩
  | dropped hmoves hvalid hn =>
    refine ⟨_, hmoves.core hinv.core, fun i hi => hmoves.slot (hinv.slot i hi) fun _ hi' => ?_⟩
    have hpage := (hmapped hvalid i hi hi').1
    omega
  | resized hmoves hvalid hk hL hvk hn hkeep hfree =>
    refine ⟨_, hmoves.core hinv.core, fun i hi => ?_⟩
    by_cases hi' : (s.emm_mappings i).handle = h
    · obtain ⟨hpage, hnull⟩ := hmapped hvalid i hi hi'
      have hne : n ≠ NULL_HANDLE := fun h => absurd (hnull h) (Nat.not_lt.2 hfree)
      exact Moves.slot_own hvalid (hinv.slot i hi) hi' hk hL (hn ▸ hne) (hn ▸ hpage) hvk
        (Function.update_self ..) (hn ▸ hkeep)
    · exact hmoves.slot (hinv.slot i hi) fun _ => hi'

/-- **`EMM_AllocateMemory`**, where it returns. -/
theorem EMM_AllocateMemory_call {pages : ℕ} {can_allocate_zpages : Bool}
    {res : (EmmStatus × Option ℕ) × Ems} (hcore : s.Core live)
    (hrun : s.EMM_AllocateMemory pages can_allocate_zpages = .ok res) :
    ∃ h, s.ValidHandle h = false ∧ s.PagesCall live h pages res.2 := by
  have hnone : s.ValidHandle EMM_MAX_HANDLES = false := by simp [ValidHandle]
  rw [EMM_AllocateMemory] at hrun
  split at hrun
  · obtain rfl := Except.ok.inj hrun
    exact ⟨_, hnone, .same⟩
  split at hrun
  · obtain rfl := Except.ok.inj hrun
    exact ⟨_, hnone, .same⟩
  split at hrun
  · obtain rfl := Except.ok.inj hrun
    exact ⟨_, hnone, .same⟩
  · rename_i handle hfree
    obtain ⟨-, -, hnull⟩ := freeHandle_spec hfree
    have hinvalid : s.ValidHandle handle = false := by
      rw [ValidHandle, hnull]
      simp
    refine ⟨handle, hinvalid, ?_⟩
    by_cases hpages : pages = 0
    · rw [if_neg (not_not_intro hpages)] at hrun
      simp only [bind, Except.bind] at hrun
      rw [if_neg fun h => h.1 hpages] at hrun
      obtain rfl := Except.ok.inj hrun
      exact .fresh (.of_dropped (.inl hpages) hcore.owned fun _ _ _ => rfl) (.inr hinvalid)
    · rw [if_pos hpages] at hrun
      obtain ⟨⟨mem, m⟩, hal, hrest⟩ := bind_ok.mp hrun
      dsimp only at hrest
      split at hrest
      · cases hrest
      · rename_i hmem
        obtain rfl := Except.ok.inj hrest
        obtain ⟨live', hmoves⟩ := hcore.allocate (h := handle) hal (fun h0 => hmem ⟨hpages, h0⟩)
          (v := { s.emm_handles handle with pages := pages, mem := mem }) rfl rfl
        exact .fresh hmoves (.inr hinvalid)

/-- **`EMM_ReleaseMemory`** leaves the handle without pages. -/
theorem EMM_ReleaseMemory_call (hcore : s.Core live) (hrun : s.EMM_ReleaseMemory h = .ok res) :
    s.PagesCall live h 0 res.2 := by
  rw [EMM_ReleaseMemory] at hrun
  split at hrun
  · obtain rfl := Except.ok.inj hrun
    exact .same
  · rename_i hvalid
    have hvalid' : s.ValidHandle h = true := by simpa using hvalid
    have hdropped : (if h = 0 then 0 else NULL_HANDLE) = 0 ∨
        (if h = 0 then 0 else NULL_HANDLE) = NULL_HANDLE := by
      split
      · exact .inl rfl
      · exact .inr rfl
    by_cases hpages : (s.emm_handles h).pages = 0
    · rw [if_neg (not_not_intro hpages)] at hrun
      obtain rfl := Except.ok.inj hrun
      exact .dropped (.of_dropped hdropped hcore.owned fun _ _ _ => rfl) hvalid' rfl
    · rw [if_pos hpages] at hrun
      obtain ⟨k, L, hk, hL, -⟩ := hcore.chain hvalid' hpages
      obtain ⟨m, hm, -, -, hown⟩ := hcore.owned.release hL
      rw [hk, hm] at hrun
      obtain rfl := Except.ok.inj hrun
      exact .dropped (.of_dropped hdropped hown fun hne hh' hk' =>
        hcore.others ⟨hvalid', hpages⟩ hk hne hh' hk') hvalid' rfl

theorem setHandle_setHandle (v w : EMM_Handle) :
    (s.setHandle h v).setHandle h w = s.setHandle h w := by
  simp only [setHandle, Function.update_idem]

/-- **`EMM_ReallocatePages`**, where it returns. -/
theorem EMM_ReallocatePages_call (hcore : s.Core live)
    (hrun : s.EMM_ReallocatePages h n = .ok res) : s.PagesCall live h n res.2 := by
  rw [EMM_ReallocatePages] at hrun
  split at hrun
  · obtain rfl := Except.ok.inj hrun
    exact .same
  rename_i hvalid
  have hvalid' : s.ValidHandle h = true := by simpa using hvalid
  by_cases hpages : (s.emm_handles h).pages = 0
  · rw [if_neg (not_not_intro hpages)] at hrun
    obtain ⟨⟨mem, m⟩, hal, hrest⟩ := bind_ok.mp hrun
    dsimp only at hrest
    split at hrest
    · cases hrest
    · rename_i hmem
      obtain rfl := Except.ok.inj hrest
      obtain ⟨live', hmoves⟩ := hcore.allocate (h := h) hal hmem
        (v := { s.emm_handles h with mem := mem, pages := n }) rfl rfl
      exact .fresh hmoves (.inl hpages)
  · rw [if_pos hpages] at hrun
    obtain ⟨k, L, hk, hL, hlen⟩ := hcore.chain hvalid' hpages
    obtain ⟨⟨ok, mem, m⟩, hre, hrest⟩ := bind_ok.mp hrun
    rw [hk] at hre
    dsimp only at hrest
    cases hcore.owned.reallocateScatter hL hre with
    | refused hlt =>
      rw [if_pos rfl] at hrest
      obtain rfl := Except.ok.inj hrest
      have hsame :
          { s with mem := s.mem }.setHandle h { s.emm_handles h with mem := (k : ℤ) } = s := by
        rw [← hk]
        exact congrArg (fun f => { s with emm_handles := f })
          (Function.update_eq_self h s.emm_handles)
      exact hsame.symm ▸ .same
    | released hn hp hown =>
      rw [if_neg (by simp), setHandle_setHandle] at hrest
      obtain rfl := Except.ok.inj hrest
      exact .dropped (.of_dropped (.inl (by show n = 0; omega)) hown fun hne hh' hk' =>
        hcore.others ⟨hvalid', hpages⟩ hk hne hh' hk') hvalid' (by omega)
    | resized hn hp hlen' hkeep hown =>
      rw [if_neg (by simp), setHandle_setHandle] at hrest
      obtain rfl := Except.ok.inj hrest
      refine .resized ⟨hown, fun hne hh' hk' => hcore.others ⟨hvalid', hpages⟩ hk hne hh' hk',
        fun _ _ => ?_⟩ hvalid' hk hL (by simp [setHandle]) rfl hkeep ?_
      · refine ⟨k, _, by simp [setHandle], Function.update_self .., hlen', fun hne hh' => ?_⟩
        exact hcore.mem_ne hne ⟨hvalid', hpages⟩ hh' hk
      · -- where more is asked for than is free, the call is refused
        by_contra hfree
        have hrefused := hcore.owned.reallocate_refused hL (n := n * 4) (by omega) (by omega)
        rw [hre] at hrefused
        cases hrefused

/-! ## Requests -/

/-- The requests of INT 67h that change handles or mappings.  The maps and arrays
that are restored are what is read from guest memory. -/
inductive Request where
  | allocate (pages : UInt16) (can_allocate_zpages : Bool)
  | reallocate (handle pages : UInt16)
  | release (handle : UInt16)
  | mapPage (phys_page handle log_page : UInt16)
  | mapSegment (segment handle log_page : UInt16)
  | savePageMap (handle : UInt16)
  | restorePageMap (handle : UInt16)
  | saveMap
  | restoreMap (maps : ℕ → EMM_Mapping)
  | savePartial (segments : List ℕ)
  | restorePartial (data : List PartialEntry)

namespace Request

/-- Serving a request. -/
def serve (s : Ems) : Request → Except Fault (EmmStatus × Ems)
  | allocate pages can_allocate_zpages => do
      let ((status, _), s) ← s.EMM_AllocateMemory pages.toNat can_allocate_zpages
      .ok (status, s)
  | reallocate handle pages => s.EMM_ReallocatePages handle.toNat pages.toNat
  | release handle => s.EMM_ReleaseMemory handle.toNat
  | mapPage phys_page handle log_page => s.EMM_MapPage phys_page.toNat handle.toNat log_page.toNat
  | mapSegment segment handle log_page =>
      s.EMM_MapSegment segment.toNat handle.toNat log_page.toNat
  | savePageMap handle => .ok (s.EMM_SavePageMap handle.toNat)
  | restorePageMap handle => s.EMM_RestorePageMap handle.toNat
  | saveMap => .ok (EMM_NO_ERROR, s)
  | restoreMap maps => s.restoreMap maps
  | savePartial segments => .ok ((s.savePartial segments).1, s)
  | restorePartial data => s.restorePartial data

/-- The last entry for every slot of the page frame is accepted, and where the loop
ends at an entry that is out of range, no slot comes before it. -/
def PartialSafe (s : Ems) (data : List PartialEntry) : Prop :=
  ((∀ e ∈ data, e.page < 0x40) → ∀ A e B, data = A ++ e :: B → e.page < EMM_MAX_PHYS →
    (∀ e' ∈ B, e'.page ≠ e.page) → s.Restorable ⟨e.handle, e.log_page⟩) ∧
  ∀ A e B, data = A ++ e :: B → 0x40 ≤ e.page → (∀ e' ∈ A, e'.page < 0x40) →
    ∀ e' ∈ A, EMM_MAX_PHYS ≤ e'.page

/-- The request leaves no mapping behind that names pages which are gone, restores
only mappings that are accepted, and maps segments slot by slot. -/
def Safe (s : Ems) : Request → Prop
  | reallocate handle pages =>
      s.ValidHandle handle.toNat = true → s.KeepsMapped handle.toNat pages.toNat
  | release handle => s.ValidHandle handle.toNat = true →
      ∀ i, i < EMM_MAX_PHYS → (s.emm_mappings i).handle ≠ handle.toNat
  | mapSegment segment handle log_page => s.ValidSegment segment.toNat = true →
      s.Restorable ⟨handle.toNat, log_page.toNat⟩ → Outside segment.toNat ∨ Aligned segment.toNat
  | restorePageMap handle => s.noPageMap handle.toNat = false →
      (s.emm_handles handle.toNat).saved_page_map = true →
      ∀ i, i < EMM_MAX_PHYS → s.Restorable ((s.emm_handles handle.toNat).page_map i)
  | restoreMap maps => ∀ i, i < EMM_MAX_PHYS → s.Restorable (maps i)
  | restorePartial data => PartialSafe s data
  | _ => True

end Request

/-- Restoring a table puts the slots in order again, whatever they showed. -/
theorem Inv.restore (hinv : s.Inv live) (hsame : SameHandles s s')
    (hres : ∀ i, i < EMM_MAX_PHYS → s.Restorable (s'.emm_mappings i)) :
    ∃ s₁, s'.EMM_RestoreMappingTable = .ok (EMM_NO_ERROR, s₁) ∧ s₁.Inv live := by
  obtain ⟨s₁, hrun, hsame', hslots⟩ := EMM_RestoreMappingTable_spec (hsame.core hinv.core)
    fun i hi => (restorable_congr hsame _).2 (hres i hi)
  exact ⟨s₁, hrun, hsame'.core (hsame.core hinv.core), hslots⟩

/-- Restoring a table that is written over the recorded one. -/
theorem Inv.restoreMappings (hinv : s.Inv live) (hsame : SameHandles s s')
    {maps : ℕ → EMM_Mapping} (hres : ∀ i, i < EMM_MAX_PHYS → s.Restorable (maps i)) :
    ∃ s₁, (s'.setMappings maps).EMM_RestoreMappingTable = .ok (EMM_NO_ERROR, s₁) ∧ s₁.Inv live := by
  refine hinv.restore (hsame.trans (SameHandles.of_eq rfl rfl)) fun i hi => ?_
  simp only [setMappings, if_pos hi]
  exact hres i hi

theorem Inv.congr (hinv : s.Inv live) (hsame : SameHandles s s')
    (hslots : ∀ i, i < EMM_MAX_PHYS → SameSlot s s' i) : s'.Inv live :=
  ⟨hsame.core hinv.core, fun i hi => (hslots i hi).slot hsame (hinv.slot i hi)⟩

theorem Inv.mapped (hinv : s.Inv live) (hsame : SameHandles s s') (hslot : s'.Slot live i)
    (hothers : ∀ j, j ≠ i → SameSlot s s' j) : s'.Inv live := by
  refine ⟨hsame.core hinv.core, fun j hj => ?_⟩
  by_cases hji : j = i
  · exact hji ▸ hslot
  · exact (hothers j hji).slot hsame (hinv.slot j hj)

/-- Saving a map does not touch the pages of any handle. -/
theorem sameHandles_setSaved {saved : Bool} {maps : ℕ → EMM_Mapping} :
    SameHandles s
      (s.setHandle h { s.emm_handles h with saved_page_map := saved, page_map := maps }) := by
  refine ⟨rfl, fun k => ?_, fun k => ?_⟩ <;> by_cases hk : k = h
  · subst hk
    simp [setHandle]
  · simp [setHandle, hk]
  · subst hk
    simp [setHandle]
  · simp [setHandle, hk]

/-! ## Loading a partial map -/

theorem loadPartial_same {data : List PartialEntry} : ∀ {s : Ems},
    SameHandles s (s.loadPartial data).2 ∧ (s.loadPartial data).2.firstmb = s.firstmb := by
  induction data with
  | nil => exact fun {s} => ⟨SameHandles.of_eq rfl rfl, rfl⟩
  | cons e l ih =>
    intro s
    rw [loadPartial]
    split
    · exact ⟨(sameHandles_setMapping _).trans ih.1, ih.2⟩
    split
    · exact ⟨(sameHandles_setSegmentMapping _).trans ih.1, ih.2⟩
    · exact ⟨SameHandles.of_eq rfl rfl, rfl⟩

/-- Where all entries are in range, a slot gets the last entry for it. -/
theorem loadPartial_complete {data : List PartialEntry} (hi : i < EMM_MAX_PHYS) : ∀ {s : Ems},
    (s.loadPartial data).1 = true → (∀ e ∈ data, e.page < 0x40) ∧
      (((s.loadPartial data).2.emm_mappings i = s.emm_mappings i ∧ ∀ e ∈ data, e.page ≠ i) ∨
        ∃ A e B, data = A ++ e :: B ∧ e.page = i ∧ (∀ e' ∈ B, e'.page ≠ i) ∧
          (s.loadPartial data).2.emm_mappings i = ⟨e.handle, e.log_page⟩) := by
  induction data with
  | nil => exact fun {s} _ => ⟨by simp, Or.inl ⟨rfl, by simp⟩⟩
  | cons e l ih =>
    intro s hrun
    have hmax : EMM_MAX_PHYS = 4 := rfl
    rw [loadPartial] at hrun ⊢
    by_cases h1 : e.page < EMM_MAX_PHYS
    · rw [if_pos h1] at hrun ⊢
      obtain ⟨hall, hlast⟩ := ih hrun
      refine ⟨by simpa using ⟨by omega, hall⟩, ?_⟩
      rcases hlast with ⟨hkeep, hno⟩ | ⟨A, e', B, rfl, he', hB, hmap⟩
      · by_cases hei : e.page = i
        · refine Or.inr ⟨[], e, l, rfl, hei, hno, ?_⟩
          rw [hkeep, ← hei]
          exact Function.update_self ..
        · refine Or.inl ⟨?_, by simpa using ⟨hei, hno⟩⟩
          rw [hkeep]
          exact Function.update_of_ne (Ne.symm hei) _ _
      · exact Or.inr ⟨e :: A, e', B, rfl, he', hB, hmap⟩
    rw [if_neg h1] at hrun ⊢
    by_cases h2 : e.page < 0x40
    · rw [if_pos h2] at hrun ⊢
      obtain ⟨hall, hlast⟩ := ih hrun
      refine ⟨by simpa using ⟨h2, hall⟩, ?_⟩
      rcases hlast with ⟨hkeep, hno⟩ | ⟨A, e', B, rfl, he', hB, hmap⟩
      · exact Or.inl ⟨hkeep, by simpa using ⟨by omega, hno⟩⟩
      · exact Or.inr ⟨e :: A, e', B, rfl, he', hB, hmap⟩
    · rw [if_neg h2] at hrun
      cases hrun

/-- Where an entry is out of range, the loop ends there. -/
theorem loadPartial_aborted {data : List PartialEntry} : ∀ {s : Ems},
    (s.loadPartial data).1 = false → ∃ A e B, data = A ++ e :: B ∧ 0x40 ≤ e.page ∧
      (∀ e' ∈ A, e'.page < 0x40) ∧
      ((∀ e' ∈ A, EMM_MAX_PHYS ≤ e'.page) →
        (s.loadPartial data).2.emm_mappings = s.emm_mappings) := by
  induction data with
  | nil => intro s hrun; cases hrun
  | cons e l ih =>
    intro s hrun
    have hmax : EMM_MAX_PHYS = 4 := rfl
    rw [loadPartial] at hrun ⊢
    by_cases h1 : e.page < EMM_MAX_PHYS
    · rw [if_pos h1] at hrun ⊢
      obtain ⟨A, e', B, rfl, he', hA, -⟩ := ih hrun
      refine ⟨e :: A, e', B, rfl, he', by simpa using ⟨by omega, hA⟩, fun hslots => ?_⟩
      have := hslots e List.mem_cons_self
      omega
    rw [if_neg h1] at hrun ⊢
    by_cases h2 : e.page < 0x40
    · rw [if_pos h2] at hrun ⊢
      obtain ⟨A, e', B, rfl, he', hA, hmap⟩ := ih hrun
      refine ⟨e :: A, e', B, rfl, he', by simpa using ⟨h2, hA⟩, fun hslots => ?_⟩
      exact hmap fun e'' he'' => hslots e'' (List.mem_cons_of_mem _ he'')
    · rw [if_neg h2]
      exact ⟨[], e, l, rfl, by omega, by simp, fun _ => rfl⟩

theorem restorePartial_inv {data : List PartialEntry} (hinv : s.Inv live)
    (hsafe : Request.PartialSafe s data) (hrun : s.restorePartial data = .ok res) :
    res.2.Inv live := by
  obtain ⟨hsame, hfirst⟩ := @loadPartial_same data s
  rw [restorePartial] at hrun
  cases hload : s.loadPartial data with
  | mk complete s₁ =>
    rw [hload] at hsame hfirst hrun
    cases complete with
    | true =>
      simp only at hrun
      have hres : ∀ i, i < EMM_MAX_PHYS → s.Restorable (s₁.emm_mappings i) := by
        intro i hi
        obtain ⟨hall, hlast⟩ := @loadPartial_complete i data hi s (by rw [hload])
        rw [hload] at hlast
        rcases hlast with ⟨hkeep, -⟩ | ⟨A, e, B, hdata, rfl, hB, hmap⟩
        · simp only at hkeep
          rw [hkeep]
          exact (hinv.slot i hi).restorable
        · simp only at hmap
          rw [hmap]
          exact hsafe.1 hall A e B hdata hi hB
      obtain ⟨s₂, hrun', hinv'⟩ := hinv.restore hsame hres
      rw [hrun'] at hrun
      obtain rfl := Except.ok.inj hrun
      exact hinv'
    | false =>
      simp only at hrun
      obtain rfl := Except.ok.inj hrun
      obtain ⟨A, e, B, hdata, he, hA, hmap⟩ := @loadPartial_aborted data s (by rw [hload])
      rw [hload] at hmap
      have hmap' : s₁.emm_mappings = s.emm_mappings := hmap (hsafe.2 A e B hdata he hA)
      refine hinv.congr hsame fun i _ => ⟨congrFun hmap' i, fun j _ => ?_⟩
      exact congrFun hfirst _

theorem EMM_MapPage_inv {phys_page handle log_page : ℕ} (hinv : s.Inv live)
    (hrun : s.EMM_MapPage phys_page handle log_page = .ok res) : res.2.Inv live := by
  by_cases hok : phys_page < EMM_MAX_PHYS ∧ s.Restorable ⟨handle, log_page⟩
  · obtain ⟨s', hmap, hsame, hslot, hothers, -⟩ := EMM_MapPage_spec hinv.core hok.1 hok.2
    rw [hmap] at hrun
    obtain rfl := Except.ok.inj hrun
    exact hinv.mapped hsame hslot hothers
  · obtain ⟨status, hmap⟩ := EMM_MapPage_refused hok
    rw [hmap] at hrun
    obtain rfl := Except.ok.inj hrun
    exact hinv

/-! ## Whole runs -/

/-- **One request** that is safe keeps the invariant. -/
theorem serve_inv {req : Request} (hinv : s.Inv live) (hsafe : req.Safe s)
    (hrun : req.serve s = .ok res) : ∃ live', res.2.Inv live' := by
  cases req with
  | allocate pages zero =>
    obtain ⟨⟨⟨status, dhandle⟩, s₁⟩, hal, hdone⟩ := bind_ok.mp hrun
    obtain rfl := Except.ok.inj hdone
    obtain ⟨h, hinvalid, hcall⟩ := EMM_AllocateMemory_call hinv.core hal
    exact hcall.inv hinv fun hvalid => absurd hvalid (by rw [hinvalid]; decide)
  | reallocate handle pages => exact (EMM_ReallocatePages_call hinv.core hrun).inv hinv hsafe
  | release handle =>
    exact (EMM_ReleaseMemory_call hinv.core hrun).inv hinv fun hvalid i hi hi' =>
      absurd hi' (hsafe hvalid i hi)
  | mapPage phys_page handle log_page =>
    exact ⟨live, EMM_MapPage_inv hinv hrun⟩
  | mapSegment segment handle log_page =>
    refine ⟨live, ?_⟩
    rw [Request.serve] at hrun
    by_cases hok : s.ValidSegment segment.toNat = true ∧ s.Restorable ⟨handle.toNat, log_page.toNat⟩
    · rcases hsafe hok.1 hok.2 with hout | haligned
      · obtain ⟨status, s', hmap, hsame, hslots⟩ := EMM_MapSegment_outside hinv.core hout
        rw [hmap] at hrun
        obtain rfl := Except.ok.inj hrun
        exact hinv.congr hsame hslots
      · rw [(EMM_MapSegment_aligned haligned).2] at hrun
        exact EMM_MapPage_inv hinv hrun
    · obtain ⟨status, hmap⟩ := EMM_MapSegment_refused hok
      rw [hmap] at hrun
      obtain rfl := Except.ok.inj hrun
      exact hinv
  | savePageMap handle =>
    refine ⟨live, ?_⟩
    obtain rfl := Except.ok.inj hrun
    rw [EMM_SavePageMap]
    split
    · exact hinv
    split
    · exact hinv
    · exact hinv.congr sameHandles_setSaved fun _ _ => ⟨rfl, fun _ _ => rfl⟩
  | restorePageMap handle =>
    refine ⟨live, ?_⟩
    rw [Request.serve, EMM_RestorePageMap] at hrun
    split at hrun
    · obtain rfl := Except.ok.inj hrun
      exact hinv
    rename_i hmap
    split at hrun
    · obtain rfl := Except.ok.inj hrun
      exact hinv
    rename_i hsaved
    have hres := hsafe (by simpa using hmap) (by simpa using hsaved)
    obtain ⟨s₁, hrun', hinv'⟩ := hinv.restoreMappings sameHandles_setSaved hres
    rw [hrun'] at hrun
    obtain rfl := Except.ok.inj hrun
    exact hinv'
  | saveMap =>
    obtain rfl := Except.ok.inj hrun
    exact ⟨live, hinv⟩
  | restoreMap maps =>
    refine ⟨live, ?_⟩
    obtain ⟨s₁, hrun', hinv'⟩ := hinv.restoreMappings (SameHandles.of_eq rfl rfl) hsafe
    rw [Request.serve, restoreMap, hrun'] at hrun
    obtain rfl := Except.ok.inj hrun
    exact hinv'
  | savePartial segments =>
    obtain rfl := Except.ok.inj hrun
    exact ⟨live, hinv⟩
  | restorePartial data => exact ⟨live, restorePartial_inv hinv hsafe hrun⟩

/-- A safe request that returns. -/
def Step (s s' : Ems) : Prop := ∃ req res, Request.Safe s req ∧ req.serve s = .ok (res, s')

/-- The tables as they are cleared when expanded memory is set up. -/
structure Cleared (s : Ems) : Prop where
  handles : ∀ h, s.emm_handles h = {}
  mappings : ∀ i, s.emm_mappings i = {}
  segmentmappings : ∀ i, s.emm_segmentmappings i = {}
  paging : ∀ x, x < LINK_START → s.firstmb x = x
  free : ∀ p, XMS_START ≤ p → p < s.mem.pages → s.mem.mhandles p = 0

/-- The first state: the tables are cleared, and the system handle is allocated. -/
def Initial (s : Ems) : Prop :=
  ∃ s₀ res, Cleared s₀ ∧ s₀.EMM_AllocateSystemHandle 24 = .ok (res, s)

theorem Cleared.inv (h : s.Cleared) : s.Inv fun _ => none := by
  have hinvalid : ∀ h', s.ValidHandle h' = false := by
    intro h'
    rw [ValidHandle, h.handles]
    simp
  refine ⟨⟨⟨by simp, by simp, by simp, by simp, fun p hp hp' _ => h.free p hp hp'⟩, ?_, ?_⟩, ?_⟩
  · intro h' hvalid
    rw [hinvalid] at hvalid
    cases hvalid
  · intro h' h'' hvalid
    rw [hinvalid] at hvalid
    cases hvalid
  · intro i hi
    refine Or.inl ⟨h.mappings i, fun j hj => h.paging _ ?_⟩
    have := slotPage_lt hi
    rw [slotPage]
    omega

theorem Initial.inv (h : s.Initial) : ∃ live, s.Inv live := by
  obtain ⟨s₀, res, hclear, hrun⟩ := h
  rw [EMM_AllocateSystemHandle] at hrun
  split at hrun
  · simp only [Except.ok.injEq, Prod.mk.injEq] at hrun
    exact ⟨_, hrun.2 ▸ hclear.inv⟩
  · have hnull : (s₀.emm_handles EMM_SYSTEM_HANDLE).pages = NULL_HANDLE := by rw [hclear.handles]
    have hinvalid : s₀.ValidHandle EMM_SYSTEM_HANDLE = false := by
      rw [ValidHandle, hnull]
      simp
    rw [if_neg (not_not.2 hnull)] at hrun
    obtain ⟨m₀, hm₀, hrest⟩ := bind_ok.mp hrun
    obtain rfl := Except.ok.inj hm₀
    obtain ⟨⟨mem, m⟩, hal, hdone⟩ := bind_ok.mp hrest
    dsimp only at hdone
    split at hdone
    · cases hdone
    · rename_i hmem
      obtain ⟨-, rfl⟩ := Prod.mk.inj (Except.ok.inj hdone)
      obtain ⟨live', hmoves⟩ := hclear.inv.core.allocate (h := EMM_SYSTEM_HANDLE) hal hmem
        (v := { s₀.emm_handles EMM_SYSTEM_HANDLE with pages := 24, mem := mem }) rfl rfl
      exact (PagesCall.fresh (n := 24) hmoves (.inr hinvalid)).inv hclear.inv fun hvalid =>
        absurd hvalid (by rw [hinvalid]; decide)

theorem reachable_inv {s₀ : Ems} (h₀ : s₀.Initial) (hrun : Relation.ReflTransGen Step s₀ s) :
    ∃ live, s.Inv live := by
  induction hrun with
  | refl => exact h₀.inv
  | tail _ hstep ih =>
    obtain ⟨live, hinv⟩ := ih
    obtain ⟨req, res, hsafe, hserve⟩ := hstep
    exact serve_inv hinv hsafe hserve

/-- The mapping table is valid: every slot that is mapped names a page of a valid
handle and shows it, and every other slot shows the memory at its own address; the
walks of the VCPI functions and of restoring the table stay inside the page
table. -/
structure TablesValid (s : Ems) : Prop where
  slot : ∀ i, i < EMM_MAX_PHYS → s.Unmapped i ∨ s.Shows i
  interface : ∀ i, i < EMM_MAX_PHYS → ∃ words, s.vcpiInterface i = .ok words
  address : ∀ cx, ∃ edx, s.vcpiPhysicalAddress cx = .ok edx
  restore : ∃ s', s.EMM_RestoreMappingTable = .ok (EMM_NO_ERROR, s')

theorem Inv.slotHandle (hinv : s.Inv live) (hi : i < EMM_MAX_PHYS) :
    ∃ memh, s.slotHandle i = .ok memh := by
  rw [Ems.slotHandle]
  rcases (hinv.slot i hi).shows hinv.core with ⟨hnull, -⟩ | ⟨hvalid, -, hwalk⟩
  · exact ⟨none, if_pos (by rw [hnull])⟩
  · have hlt : (s.emm_mappings i).handle < EMM_MAX_HANDLES := by
      rw [ValidHandle, Bool.and_eq_true, decide_eq_true_eq] at hvalid
      exact hvalid.1
    have hne : (s.emm_mappings i).handle ≠ NULL_HANDLE := by
      simp only [EMM_MAX_HANDLES, NULL_HANDLE] at *
      omega
    have hstart := hwalk 0 (by decide)
    rw [Nat.add_zero] at hstart
    rw [if_neg hne, if_neg (Nat.not_le.2 hlt), hstart]
    exact ⟨_, rfl⟩

theorem Inv.tablesValid (hinv : s.Inv live) : s.TablesValid := by
  refine ⟨fun i hi => (hinv.slot i hi).shows hinv.core, fun i hi => ?_, fun cx => ?_, ?_⟩
  · obtain ⟨memh, hwalk⟩ := hinv.slotHandle hi
    rw [vcpiInterface, hwalk]
    exact ⟨_, rfl⟩
  · rw [vcpiPhysicalAddress]
    split
    · generalize hphys : (if cx * 2 ^ 8 < EMM_PAGEFRAME + 0x400 then 0
        else if cx * 2 ^ 8 < EMM_PAGEFRAME + 0x800 then 1
        else if cx * 2 ^ 8 < EMM_PAGEFRAME + 0xc00 then 2 else 3) = phys_page
      have hlt : phys_page < EMM_MAX_PHYS := by
        rw [← hphys]
        split_ifs <;> decide
      obtain ⟨memh, hwalk⟩ := hinv.slotHandle hlt
      simp only [hphys, hwalk]
      exact ⟨_, rfl⟩
    · exact ⟨_, rfl⟩
  · obtain ⟨s', hrun, -⟩ := EMM_RestoreMappingTable_spec hinv.core fun i hi =>
      (hinv.slot i hi).restorable
    exact ⟨s', hrun⟩

/-- **The mapping tables stay valid** in every run of safe requests. -/
theorem reachable_tables {s₀ s : Ems} (h₀ : s₀.Initial) (hrun : Relation.ReflTransGen Step s₀ s) :
    s.TablesValid := by
  obtain ⟨live, hinv⟩ := reachable_inv h₀ hrun
  exact hinv.tablesValid

/-! ## Where a request is not safe -/

/-- A machine with 2 MB of memory before expanded memory is set up. -/
def twoMegabytes : Ems where
  mem :=
    { pages := 512
      mhandles := fun _ => 0
      bytes := fun _ => 0
      pages_le := (by decide : 512 ≤ 3072 * 256) }

theorem twoMegabytes_cleared : twoMegabytes.Cleared :=
  ⟨fun _ => rfl, fun _ => rfl, fun _ => rfl, fun _ _ => rfl, fun _ _ _ => rfl⟩

theorem twoMegabytes_takes :
    ∃ mem m, allocateScattered 96 96 none (0, twoMegabytes.mem) = .ok (mem, m) := by
  have hbest : BestMatch twoMegabytes.mem 1 = 0x110 := by decide +kernel
  obtain ⟨next', r, htake⟩ := @takeRun_ok 96 0x110 none (0, twoMegabytes.mem) (by decide)
    (fun _ _ _ => rfl) (by simp)
  rw [allocateScattered, hbest, if_neg (by decide), htake]
  exact ⟨_, _, rfl⟩

/-- The machine starts, with a system handle of 24 pages. -/
theorem twoMegabytes_starts :
    ∃ s, Initial s ∧ s.ValidHandle 0 = true ∧ (s.emm_handles 0).pages = 24 ∧ s.ems_type = 1 := by
  have htotal : twoMegabytes.mem.MEM_FreeTotal = 240 := by decide +kernel
  have hfree : ¬ twoMegabytes.get_free_pages < 24 := by
    rw [get_free_pages, htotal]
    decide
  obtain ⟨mem, m, hrun⟩ := twoMegabytes_takes
  have hal : twoMegabytes.mem.MEM_AllocatePages (24 * 4) false = .ok (mem, m) := by
    rw [MEM_AllocatePages, if_neg (by decide), if_neg (by decide), if_neg (by rw [htotal]; decide)]
    exact hrun
  obtain ⟨k, B, hk, hB⟩ := allocateScattered_scattered (by decide) hrun
  have hne : ¬ mem = 0 := by
    have hstart := (hB.free k (List.mem_of_mem_head? (by rw [hB.head]; rfl))).2.1
    rw [XMS_START] at hstart
    omega
  let s : Ems := { twoMegabytes with mem := m }.setHandle 0 ⟨24, mem, false, fun _ => {}⟩
  refine ⟨s, ⟨twoMegabytes, EMM_NO_ERROR, twoMegabytes_cleared, ?_⟩, rfl, rfl, rfl⟩
  rw [EMM_AllocateSystemHandle, if_neg hfree, if_neg (by decide)]
  simp only [bind, Except.bind, hal, if_neg hne]
  rfl

/-- The first page of the system handle is mapped into the first slot. -/
theorem twoMegabytes_maps : ∃ s s' : Ems, Initial s ∧ (∃ live, s'.Inv live) ∧
    Request.serve s (.mapPage 0 0 0) = .ok (EMM_NO_ERROR, s') ∧ s'.emm_mappings 0 = ⟨0, 0⟩ ∧
    s'.ValidHandle 0 = true ∧ (s'.emm_handles 0).pages = 24 := by
  obtain ⟨s, hinit, hvalid, hpages, -⟩ := twoMegabytes_starts
  obtain ⟨live, hinv⟩ := hinit.inv
  obtain ⟨s', hmap, hsame, hslot, hothers, hrec⟩ := @EMM_MapPage_spec s live 0 0 0 hinv.core
    (by decide) (Or.inr ⟨hvalid, by rw [hpages]; decide⟩)
  refine ⟨s, s', hinit, ⟨live, hinv.mapped hsame hslot hothers⟩, hmap, hrec, ?_, ?_⟩
  · rw [hsame.validHandle, hvalid]
  · rw [hsame.pages, hpages]

/-- A mapping of the system handle that leaves the tables valid. -/
theorem reachable_tables_twoMegabytes :
    ∃ s : Ems, s.emm_mappings 0 = ⟨0, 0⟩ ∧ s.TablesValid := by
  obtain ⟨s, s', hinit, -, hmap, hrec, -⟩ := twoMegabytes_maps
  exact ⟨s', hrec, reachable_tables hinit (.single ⟨.mapPage 0 0 0, EMM_NO_ERROR, trivial, hmap⟩)⟩

theorem not_tablesValid (hrec : s.emm_mappings 0 = ⟨0, 0⟩) (hpages : (s.emm_handles 0).pages = 0) :
    ¬ s.TablesValid := by
  intro htables
  rcases htables.slot 0 (by decide) with ⟨hnull, -⟩ | ⟨-, hpage, -⟩
  · rw [hrec] at hnull
    exact absurd hnull (by decide)
  · rw [hrec, hpages] at hpage
    exact absurd hpage (by decide)

/-- Releasing a handle that is mapped returns no error and leaves the mapping
behind. -/
theorem release_leaves_mapping : ∃ s s₁ s₂ : Ems, Initial s ∧
    Request.serve s (.mapPage 0 0 0) = .ok (EMM_NO_ERROR, s₁) ∧
    Request.serve s₁ (.release 0) = .ok (EMM_NO_ERROR, s₂) ∧ s₂.emm_mappings 0 = ⟨0, 0⟩ ∧
    (s₂.emm_handles 0).pages = 0 ∧ ¬ s₂.TablesValid := by
  obtain ⟨s, s₁, hinit, ⟨live, hinv⟩, hmap, hrec, hvalid, hpages⟩ := twoMegabytes_maps
  have hne : (s₁.emm_handles 0).pages ≠ 0 := by
    rw [hpages]
    decide
  obtain ⟨k, L, hk, hL, -⟩ := hinv.core.chain hvalid hne
  obtain ⟨m, hm, -⟩ := hinv.core.owned.release hL
  have hrelease : Request.serve s₁ (.release 0) = .ok (EMM_NO_ERROR,
      { s₁ with mem := m }.setHandle 0
        { s₁.emm_handles 0 with mem := 0, pages := 0, saved_page_map := false }) := by
    change s₁.EMM_ReleaseMemory 0 = _
    rw [EMM_ReleaseMemory, if_neg (by rw [hvalid]; decide), if_pos hne, hk, hm]
    rfl
  exact ⟨s, s₁, _, hinit, hmap, hrelease, hrec, rfl, not_tablesValid hrec rfl⟩

end Ems

end AugraDosbox
