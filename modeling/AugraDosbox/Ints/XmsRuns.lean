import Mathlib.Logic.Relation
import AugraDosbox.Hardware.PageChains
import AugraDosbox.Ints.Xms

/-!
# Runs of the XMS driver

Two handles of non-zero size should never share a page, and every page of such a
handle should be marked in use.  The driver breaks this with blocks of size 0:
`xms_allocate_memory` gives them the number of a page that stays free, and
`xms_free_memory` and `xms_resize_memory` later treat that number as an
allocation.

* `Safe` — the requests that do not reach that slip, as a condition on the state
  before the request.
* `reachable_blocks` — in every run of safe requests the blocks stay disjoint and
  in use, and no request releases a page of another handle.
* `blocks_overlap` — four requests after which two handles share a page.
-/

namespace AugraDosbox

open MemoryBlock

namespace Xms

/-- The handle is live: it was allocated and not freed since. -/
def Live (s : Xms) (i : ℕ) : Prop := s.xms_is_handle_valid i = true

/-- The handle is live and its block has a non-zero size. -/
def NonEmpty (s : Xms) (i : ℕ) : Prop := s.Live i ∧ (s.handles i).size_kb ≠ 0

/-- The page lies in the range of the block. -/
def Covers (s : Xms) (i p : ℕ) : Prop :=
  (s.handles i).mem_handle ≤ p ∧
    (p : ℤ) < (s.handles i).mem_handle + get_num_pages (s.handles i).size_kb

instance (s : Xms) (i : ℕ) : Decidable (s.NonEmpty i) :=
  inferInstanceAs (Decidable (_ = _ ∧ _ ≠ _))

instance (s : Xms) (i p : ℕ) : Decidable (s.Covers i p) :=
  inferInstanceAs (Decidable (_ ∧ _))

theorem live_iff {s : Xms} {i : ℕ} :
    s.Live i ↔ i ≠ 0 ∧ i < NumXmsHandles ∧ (s.handles i).is_free = false := by
  simp [Live, xms_is_handle_valid, and_assoc]

/-- What keeps the handle table and the page table in step.  `live` is the
record of which pages the allocator has handed out. -/
structure Inv (s : Xms) (live : ℕ → Option (List ℕ)) : Prop where
  owned : s.mem.Owned live
  /-- A non-empty block is a run of pages it owns. -/
  block : ∀ {i}, s.NonEmpty i → ∃ h : ℕ, (s.handles i).mem_handle = h ∧
    live h = some (List.range' h (get_num_pages (s.handles i).size_kb))
  /-- Different blocks are different runs. -/
  injective : ∀ {i j}, s.NonEmpty i → s.NonEmpty j →
    (s.handles i).mem_handle = (s.handles j).mem_handle → i = j
  /-- An empty block has no page number, or one inside the table. -/
  empty : ∀ {i}, s.Live i → (s.handles i).size_kb = 0 → (s.handles i).mem_handle ≤ 0 ∨
    ∃ p : ℕ, (s.handles i).mem_handle = p ∧ XMS_START ≤ p ∧ p < s.mem.pages

section Change

variable {s : Xms} {live live' : ℕ → Option (List ℕ)} {mem : MemoryBlock} {i : ℕ} {b : XMS_Block}

theorem nonEmpty_setBlock_of_ne {j : ℕ} (hji : j ≠ i) :
    NonEmpty (setBlock ⟨mem, s.handles⟩ i b) j ↔ s.NonEmpty j := by
  simp [NonEmpty, live_iff, Function.update_of_ne hji]

/-- **The one way a request changes the tables.**  It gives handle `i` a new
block and leaves the runs of all other blocks alone. -/
theorem Inv.change (hinv : s.Inv live) (hpages : mem.pages = s.mem.pages) (howned : mem.Owned live')
    (hother : ∀ {j}, j ≠ i → s.NonEmpty j → ∀ h : ℕ, (s.handles j).mem_handle = h →
      live' h = live h)
    (hblock : b.is_free = false → b.size_kb ≠ 0 → ∃ h : ℕ, b.mem_handle = h ∧
      live' h = some (List.range' h (get_num_pages b.size_kb)) ∧
      ∀ {j}, j ≠ i → s.NonEmpty j → (s.handles j).mem_handle ≠ h)
    (hempty : b.is_free = false → b.size_kb = 0 → b.mem_handle ≤ 0 ∨
      ∃ p : ℕ, b.mem_handle = p ∧ XMS_START ≤ p ∧ p < s.mem.pages) :
    (setBlock ⟨mem, s.handles⟩ i b).Inv live' := by
  have hself : ∀ {j}, NonEmpty (setBlock ⟨mem, s.handles⟩ i b) j → j = i →
      b.is_free = false ∧ b.size_kb ≠ 0 := by
    rintro j ⟨hl, hs⟩ rfl
    rw [live_iff] at hl
    exact ⟨by simpa using hl.2.2, by simpa using hs⟩
  constructor
  · exact howned
  · intro j hj
    by_cases hji : j = i
    · obtain ⟨hf, hs⟩ := hself hj hji
      obtain ⟨h, hh, hl, -⟩ := hblock hf hs
      exact ⟨h, by simp [hji, hh], by simp [hji, hl]⟩
    · have hj' := (nonEmpty_setBlock_of_ne hji).1 hj
      obtain ⟨h, hh, hl⟩ := hinv.block hj'
      refine ⟨h, by simp [Function.update_of_ne hji, hh], ?_⟩
      rw [hother hji hj' h hh, hl]
      simp [Function.update_of_ne hji]
  · intro j k hj hk hjk
    by_cases hji : j = i
    · by_cases hki : k = i
      · rw [hji, hki]
      · obtain ⟨hf, hs⟩ := hself hj hji
        obtain ⟨h, hh, -, hne⟩ := hblock hf hs
        refine absurd ?_ (hne hki ((nonEmpty_setBlock_of_ne hki).1 hk))
        simpa [hji, Function.update_of_ne hki, hh] using hjk.symm
    · by_cases hki : k = i
      · obtain ⟨hf, hs⟩ := hself hk hki
        obtain ⟨h, hh, -, hne⟩ := hblock hf hs
        refine absurd ?_ (hne hji ((nonEmpty_setBlock_of_ne hji).1 hj))
        simpa [hki, Function.update_of_ne hji, hh] using hjk
      · refine hinv.injective ((nonEmpty_setBlock_of_ne hji).1 hj)
          ((nonEmpty_setBlock_of_ne hki).1 hk) ?_
        simpa [Function.update_of_ne hji, Function.update_of_ne hki] using hjk
  · intro j hj hs
    rw [live_iff] at hj
    by_cases hji : j = i
    · subst hji
      simp only [setBlock_handles, Function.update_self] at hj hs ⊢
      rw [setBlock_mem, hpages]
      exact hempty hj.2.2 hs
    · simp only [setBlock_handles, Function.update_of_ne hji] at hj hs ⊢
      rw [setBlock_mem, hpages]
      exact hinv.empty (live_iff.2 hj) hs

/-- A request that leaves memory and the run of its own block alone. -/
theorem Inv.setBlock_same (hinv : s.Inv live) (hi : s.Live i)
    (hm : b.mem_handle = (s.handles i).mem_handle) (hk : b.size_kb = (s.handles i).size_kb) :
    (s.setBlock i b).Inv live := by
  refine Inv.change hinv (Eq.refl s.mem.pages) hinv.owned (fun _ _ _ _ => rfl) (fun _ hs => ?_)
    fun _ hs => ?_
  · obtain ⟨h, hh, hl⟩ := hinv.block (i := i) ⟨hi, hk ▸ hs⟩
    refine ⟨h, hm.trans hh, by rw [hk]; exact hl, fun hji hj heq => hji ?_⟩
    exact hinv.injective hj ⟨hi, hk ▸ hs⟩ (heq.trans hh.symm)
  · rw [hm]
    exact hinv.empty hi (hk ▸ hs)

theorem Inv.claim (hinv : s.Inv live) {k n : ℕ} (hpages : mem.pages = s.mem.pages)
    (hnone : live k = none) (howned : mem.Owned (Function.update live k (some (List.range' k n))))
    (hbk : b.mem_handle = k) (hbn : get_num_pages b.size_kb = n) (hb0 : b.size_kb ≠ 0) :
    (setBlock ⟨mem, s.handles⟩ i b).Inv (Function.update live k (some (List.range' k n))) := by
  have hne : ∀ {j}, s.NonEmpty j → (s.handles j).mem_handle ≠ k := by
    intro j hj heq
    obtain ⟨h, hh, hl⟩ := hinv.block hj
    obtain rfl : h = k := by
      rw [hh] at heq
      exact_mod_cast heq
    rw [hl] at hnone
    exact absurd hnone (by simp)
  refine Inv.change hinv hpages howned (fun _ hj h hh => ?_) (fun _ _ => ?_)
    fun _ hs => absurd hs hb0
  · refine Function.update_of_ne ?_ _ _
    rintro rfl
    exact hne hj hh
  · refine ⟨k, hbk, ?_, fun _ hj => hne hj⟩
    rw [hbn, Function.update_self]

end Change

/-! ## The requests that stay clear of the slip -/

/-- The handle is unlocked, has size 0 and still carries the page number that
`xms_allocate_memory` gave it. -/
def Borrows (s : Xms) (i p : ℕ) : Prop :=
  s.Live i ∧ (s.handles i).lock_count = 0 ∧ (s.handles i).size_kb = 0 ∧
    (s.handles i).mem_handle = p ∧ 0 < p

/-- What the driver can do with a page number it does not own without damage.
Freeing the handle or shrinking it to nothing needs the page to be still free.
Giving it a size needs that too; a single page is then taken without being
marked, and a larger block must fit behind the page or at least not be placed
over it. -/
def Safe (s : Xms) : Request → Prop
  | .free i => ∀ p, s.Borrows i p → s.mem.mhandles p = 0
  | .reallocate i new_size_kb => ∀ p, s.Borrows i p → s.mem.mhandles p = 0 ∧
      get_num_pages new_size_kb ≠ 1 ∧
      (get_num_pages new_size_kb - 1 ≤
        freeBehind s.mem.mhandles (s.mem.pages - (p + 1)) (p + 1) 0 ∨
        ¬ Owned.MatchCovers s.mem (get_num_pages new_size_kb) p)
  | _ => True

/-! ## One request -/

/-- What a request leaves behind: the tables are in step again, and the blocks
of the other handles are as they were. -/
def Serves (s : Xms) (r : Request) (res : XmsResult) (s' : Xms) : Prop :=
  s.serve r = .ok (res, s') ∧ (∃ live', s'.Inv live') ∧
    ∀ j, r.handle ≠ some j → s.NonEmpty j → s'.handles j = s.handles j

theorem findHandle_spec {s : Xms} {k : ℕ} : ∀ {n index : ℕ}, findHandle s n index = some k →
    index ≤ k ∧ k < index + n ∧ (s.handles k).is_free = true := by
  intro n
  induction n with
  | zero =>
    intro index h
    simp [findHandle] at h
  | succ n ih =>
    intro index h
    simp only [findHandle] at h
    split at h
    · rename_i hfree
      obtain rfl : index = k := by simpa using h
      exact ⟨le_rfl, by omega, hfree⟩
    · obtain ⟨h1, h2, h3⟩ := ih h
      exact ⟨by omega, by omega, h3⟩

theorem NonEmpty.not_free {s : Xms} {i : ℕ} (h : s.NonEmpty i) :
    (s.handles i).is_free = false := (live_iff.1 h.1).2.2

variable {s : Xms} {live : ℕ → Option (List ℕ)}

theorem serve_allocate (hinv : s.Inv live) (size_kb : ℕ) :
    ∃ res s', s.Serves (.allocate size_kb) res s' := by
  cases hf : findHandle s (NumXmsHandles - 1) 1 with
  | none =>
    exact ⟨_, _, by simp only [serve, xms_allocate_memory, hf, bind, Except.bind]; rfl,
      ⟨live, hinv⟩, fun _ _ _ => rfl⟩
  | some index =>
    have hother : ∀ j, s.NonEmpty j → j ≠ index := by
      rintro j hj rfl
      have := (findHandle_spec hf).2.2
      rw [hj.not_free] at this
      exact absurd this (by decide)
    by_cases h0 : size_kb = 0
    · subst h0
      refine ⟨_, _, by simp only [serve, xms_allocate_memory, hf, bind, Except.bind]; rfl,
        ⟨live, ?_⟩, fun j _ hj => Function.update_of_ne (hother j hj) _ _⟩
      refine Inv.change hinv (Eq.refl s.mem.pages) hinv.owned (fun _ _ _ _ => rfl)
        (fun _ hs => absurd rfl hs) fun _ _ => ?_
      by_cases hb : BestMatch s.mem 1 = 0
      · left
        simp [MEM_GetNextFreePage, hb]
      · obtain ⟨h1, h2, -⟩ := BestMatch_spec hb
        exact Or.inr ⟨BestMatch s.mem 1, rfl, h1, by omega⟩
    · rcases hinv.owned.allocate (get_num_pages size_kb) with
        hfail | ⟨k, m', hm', -, -, hk, -, -, hnone, hp, -, ho'⟩
      · refine ⟨_, _, by
          simp only [serve, xms_allocate_memory, hf, hfail, h0, bind, Except.bind, ne_eq,
            not_false_eq_true, if_true]; rfl, ⟨live, hinv⟩, fun _ _ _ => rfl⟩
      · have hk0 : ¬ (k : ℤ) = 0 := by
          have : XMS_START = 0x110 := rfl
          omega
        refine ⟨_, _, by
          simp only [serve, xms_allocate_memory, hf, hm', h0, hk0, bind, Except.bind, ne_eq,
            not_false_eq_true, if_true, if_false]; rfl,
          ⟨_, hinv.claim hp hnone ho' rfl rfl h0⟩,
          fun j _ hj => Function.update_of_ne (hother j hj) _ _⟩

theorem ne_of_handle {i j : ℕ} (h : some i ≠ some j) : j ≠ i := fun hji => h (by rw [hji])

theorem serve_free (hinv : s.Inv live) {i : ℕ} (hsafe : s.Safe (.free i)) :
    ∃ res s', s.Serves (.free i) res s' := by
  by_cases hv : s.xms_is_handle_valid i = true
  swap
  · exact ⟨_, _, by simp only [serve, xms_free_memory, hv]; rfl, ⟨live, hinv⟩, fun _ _ _ => rfl⟩
  by_cases hlock : (s.handles i).lock_count = 0
  swap
  · exact ⟨.XmsBlockLocked, s, by simp [serve, xms_free_memory, hv, hlock], ⟨live, hinv⟩,
      fun _ _ _ => rfl⟩
  have hrel : ∀ {m : MemoryBlock} {live' : ℕ → Option (List ℕ)},
      MEM_ReleasePages s.mem (s.handles i).mem_handle = .ok m → m.pages = s.mem.pages →
      m.Owned live' → (∀ {j}, j ≠ i → s.NonEmpty j → ∀ h : ℕ, (s.handles j).mem_handle = h →
        live' h = live h) → ∃ res s', s.Serves (.free i) res s' := by
    intro m live' hm hp ho hother
    refine ⟨_, _, by simp only [serve, xms_free_memory, hv, hlock, hm, bind, Except.bind]; rfl,
      ⟨live', ?_⟩, fun j hj _ => Function.update_of_ne (ne_of_handle hj) _ _⟩
    exact hinv.change hp ho hother (fun h => absurd h (by decide)) fun h => absurd h (by decide)
  by_cases hs : (s.handles i).size_kb = 0
  · rcases hinv.empty hv hs with hneg | ⟨p, hp, hstart, hlt⟩
    · exact hrel (Owned.release_nonpos hneg) rfl hinv.owned fun _ _ _ _ => rfl
    · have hp0 : 0 < p := by
        have : XMS_START = 0x110 := rfl
        omega
      refine hrel ?_ rfl hinv.owned fun _ _ _ _ => rfl
      rw [hp]
      exact Owned.release_free (by omega) hlt (hsafe p ⟨hv, hlock, hs, hp, hp0⟩)
  · obtain ⟨h, hh, hl⟩ := hinv.block ⟨hv, hs⟩
    obtain ⟨m', hm', h1, -, ho'⟩ := hinv.owned.release hl
    refine hrel (by rw [hh]; exact hm') h1 ho' fun hji hj k hk => Function.update_of_ne ?_ _ _
    rintro rfl
    exact hji (hinv.injective hj ⟨hv, hs⟩ (hk.trans hh.symm))

/-- The part of `xms_resize_memory` after the call of `MEM_ReAllocatePages`. -/
theorem serve_reallocate_of_call {i new_size_kb : ℕ} (hv : s.Live i)
    (hlock : (s.handles i).lock_count = 0) {ok : Bool} {h : ℤ} {mem : MemoryBlock}
    (hcall : MEM_ReAllocatePages s.mem (s.handles i).mem_handle (get_num_pages new_size_kb) true =
      .ok (ok, h, mem))
    (hnext : ∃ live', (setBlock ⟨mem, s.handles⟩ i { s.handles i with
      mem_handle := h, size_kb := if ok then new_size_kb else (s.handles i).size_kb }).Inv live') :
    ∃ res s', s.Serves (.reallocate i new_size_kb) res s' := by
  have hv' : s.xms_is_handle_valid i = true := hv
  cases ok with
  | true =>
    exact ⟨_, _, by
      simp only [serve, xms_resize_memory, hv', hlock, hcall, bind, Except.bind]; rfl, hnext,
      fun j hj _ => Function.update_of_ne (ne_of_handle hj) _ _⟩
  | false =>
    exact ⟨_, _, by
      simp only [serve, xms_resize_memory, hv', hlock, hcall, bind, Except.bind]; rfl, hnext,
      fun j hj _ => Function.update_of_ne (ne_of_handle hj) _ _⟩

theorem serve_reallocate (hinv : s.Inv live) {i new_size_kb : ℕ}
    (hsafe : s.Safe (.reallocate i new_size_kb)) :
    ∃ res s', s.Serves (.reallocate i new_size_kb) res s' := by
  by_cases hv : s.xms_is_handle_valid i = true
  swap
  · exact ⟨_, _, by simp only [serve, xms_resize_memory, hv]; rfl, ⟨live, hinv⟩, fun _ _ _ => rfl⟩
  by_cases hlock : (s.handles i).lock_count = 0
  swap
  · exact ⟨.XmsBlockLocked, s, by simp [serve, xms_resize_memory, hv, Nat.pos_of_ne_zero hlock],
      ⟨live, hinv⟩, fun _ _ _ => rfl⟩
  have hsize : 0 < get_num_pages new_size_kb → new_size_kb ≠ 0 := by
    rintro hpos rfl
    exact absurd hpos (by decide)
  have hzero : get_num_pages new_size_kb = 0 → new_size_kb = 0 := by
    intro h0
    by_contra hne
    have := get_num_pages_pos hne
    omega
  by_cases hs : (s.handles i).size_kb = 0
  · rcases hinv.empty hv hs with hneg | ⟨p, hp, hstart, hlt⟩
    · rcases hinv.owned.reallocate_nonpos hneg (get_num_pages new_size_kb) with
        ⟨h', hh', hcall⟩ | ⟨hn, j, m', hcall, hpg, hnone, ho'⟩
      · refine serve_reallocate_of_call hv hlock hcall ⟨live, ?_⟩
        refine hinv.change rfl hinv.owned (fun _ _ _ _ => rfl) (fun _ hne => ?_)
          fun _ _ => Or.inl hh'
        simp only [decide_eq_true_eq] at hne
        split at hne
        · rename_i h0
          exact absurd (hzero h0) hne
        · exact absurd hs hne
      · exact serve_reallocate_of_call hv hlock hcall
          ⟨_, hinv.claim hpg hnone ho' rfl rfl (hsize hn)⟩
    · have hp0 : 0 < p := by
        have : XMS_START = 0x110 := rfl
        omega
      obtain ⟨hfree, hone, hfits⟩ := hsafe p ⟨hv, hlock, hs, hp, hp0⟩
      by_cases hn : get_num_pages new_size_kb = 0
      · have hcall : MEM_ReAllocatePages s.mem (s.handles i).mem_handle
            (get_num_pages new_size_kb) true = .ok (true, -1, s.mem) := by
          have hrel := Owned.release_free (m := s.mem) (by omega) hlt hfree
          rw [hp, hn]
          simp [MEM_ReAllocatePages, hrel, bind, Except.bind, show p ≠ 0 by omega]
        refine serve_reallocate_of_call hv hlock hcall ⟨live, ?_⟩
        exact hinv.change rfl hinv.owned (fun _ _ _ _ => rfl) (fun _ hne => absurd (hzero hn) hne)
          fun _ _ => Or.inl (by simp)
      · rcases hinv.owned.reallocate_free hstart hlt hfree (n := get_num_pages new_size_kb)
          (by omega) hfits with hcall | ⟨j, m', hcall, hpg, hnone, ho'⟩
        · rw [← hp] at hcall
          exact serve_reallocate_of_call hv hlock hcall
            ⟨live, hinv.setBlock_same hv rfl rfl⟩
        · rw [← hp] at hcall
          exact serve_reallocate_of_call hv hlock hcall
            ⟨_, hinv.claim hpg hnone ho' rfl rfl (hsize (by omega))⟩
  · obtain ⟨h, hh, hl⟩ := hinv.block ⟨hv, hs⟩
    have hother : ∀ {j}, j ≠ i → s.NonEmpty j → (s.handles j).mem_handle ≠ h :=
      fun hji hj heq => hji (hinv.injective hj ⟨hv, hs⟩ (heq.trans hh.symm))
    rcases hinv.owned.reallocate hl (get_num_pages new_size_kb) with
      hcall | ⟨hn, m', hcall, hpg, -, ho'⟩ | ⟨hn, j, m', hcall, hpg, hj, -, -, ho'⟩
    · rw [← hh] at hcall
      exact serve_reallocate_of_call hv hlock hcall ⟨live, hinv.setBlock_same hv rfl rfl⟩
    · rw [← hh] at hcall
      refine serve_reallocate_of_call hv hlock hcall ⟨_, hinv.change hpg ho' ?_
        (fun _ hne => absurd (hzero hn) hne) fun _ _ => Or.inl (by simp)⟩
      intro j hji hj k hk
      refine Function.update_of_ne ?_ _ _
      rintro rfl
      exact hother hji hj hk
    · rw [← hh] at hcall
      have hnew : ∀ {k}, k ≠ i → s.NonEmpty k → (s.handles k).mem_handle ≠ j := by
        intro k hki hk heq
        rcases hj with rfl | hnone
        · exact hother hki hk heq
        · obtain ⟨h', hh', hl'⟩ := hinv.block hk
          obtain rfl : h' = j := by
            rw [hh'] at heq
            exact_mod_cast heq
          rw [hl'] at hnone
          exact absurd hnone (by simp)
      refine serve_reallocate_of_call hv hlock hcall ⟨_, hinv.change hpg ho' ?_
        (fun _ _ => ⟨j, rfl, Function.update_self .., hnew⟩)
        fun _ h0 => absurd h0 (hsize hn)⟩
      intro k hki hk l hl'
      rw [Function.update_of_ne, Function.update_of_ne]
      · rintro rfl
        exact hother hki hk hl'
      · rintro rfl
        exact hnew hki hk hl'

variable {r : Request}

/-- A request that changes nothing, or only the lock count of its handle. -/
theorem serves_of_lock_count (hinv : s.Inv live) {i : ℕ} {res : XmsResult} {s' : Xms}
    (hserve : s.serve r = .ok (res, s')) (hr : r.handle = some i)
    (hs' : s' = s ∨ s.Live i ∧ ∃ n, s' = s.setBlock i { s.handles i with lock_count := n }) :
    s.Serves r res s' := by
  rcases hs' with rfl | ⟨hi, n, rfl⟩
  · exact ⟨hserve, ⟨live, hinv⟩, fun _ _ _ => rfl⟩
  · refine ⟨hserve, ⟨live, hinv.setBlock_same hi rfl rfl⟩, fun j hj _ => ?_⟩
    rw [hr] at hj
    exact Function.update_of_ne (ne_of_handle hj) _ _

theorem serve_lock (hinv : s.Inv live) (i : ℕ) : ∃ res s', s.Serves (.lock i) res s' := by
  refine ⟨(s.xms_lock_memory i).1, (s.xms_lock_memory i).2, serves_of_lock_count hinv rfl rfl ?_⟩
  unfold xms_lock_memory
  by_cases hv : s.xms_is_handle_valid i = true
  · by_cases hc : 255 ≤ (s.handles i).lock_count
    · simp [hv, hc]
    · exact Or.inr ⟨hv, _, by simp [hv, hc]; rfl⟩
  · simp [hv]

theorem serve_unlock (hinv : s.Inv live) (i : ℕ) : ∃ res s', s.Serves (.unlock i) res s' := by
  refine ⟨(s.xms_unlock_memory i).1, (s.xms_unlock_memory i).2, serves_of_lock_count hinv rfl rfl ?_⟩
  unfold xms_unlock_memory
  by_cases hv : s.xms_is_handle_valid i = true
  · by_cases hc : (s.handles i).lock_count = 0
    · simp [hv, hc]
    · exact Or.inr ⟨hv, _, by simp [hv, hc]; rfl⟩
  · simp [hv]

/-- **Every safe request is served and keeps the tables in step.** -/
theorem serve_spec (hinv : s.Inv live) (hsafe : s.Safe r) :
    ∃ res s', s.Serves r res s' := by
  cases r with
  | allocate size_kb => exact serve_allocate hinv size_kb
  | free i => exact serve_free hinv hsafe
  | reallocate i new_size_kb => exact serve_reallocate hinv hsafe
  | lock i => exact serve_lock hinv i
  | unlock i => exact serve_unlock hinv i

/-! ## Runs -/

/-- A safe request that was served, as a step of the system. -/
def Step (s s' : Xms) : Prop := ∃ r res, s.Safe r ∧ s.serve r = .ok (res, s')

/-- All handles and all pages are free. -/
structure Initial (s : Xms) : Prop where
  handles : ∀ i, s.handles i = {}
  free : ∀ p, XMS_START ≤ p → p < s.mem.pages → s.mem.mhandles p = 0

theorem Initial.inv (h : s.Initial) : s.Inv fun _ => none := by
  have hno : ∀ {i}, ¬ s.Live i := by
    intro i hi
    rw [live_iff, h.handles i] at hi
    exact absurd hi.2.2 (by decide)
  exact ⟨⟨by simp, by simp, by simp, by simp, fun p hp hp' _ => h.free p hp hp'⟩,
    fun hi => absurd hi.1 hno, fun hi => absurd hi.1 hno, fun hi => absurd hi hno⟩

theorem Step.inv {s' : Xms} (h : Step s s') (hinv : ∃ live, s.Inv live) :
    ∃ live', s'.Inv live' := by
  obtain ⟨r, res, hsafe, hserve⟩ := h
  obtain ⟨live, hinv⟩ := hinv
  obtain ⟨res', s'', hserve', hinv', -⟩ := serve_spec hinv hsafe
  rw [hserve] at hserve'
  cases hserve'
  exact hinv'

theorem reachable_inv {s₀ : Xms} (h₀ : s₀.Initial) (hrun : Relation.ReflTransGen Step s₀ s) :
    ∃ live, s.Inv live := by
  induction hrun with
  | refl => exact ⟨_, h₀.inv⟩
  | tail _ hstep ih => exact hstep.inv ih

/-! ## The blocks after a run -/

/-- No two blocks share a page. -/
def Disjoint (s : Xms) : Prop :=
  ∀ i j p, s.NonEmpty i → s.NonEmpty j → s.Covers i p → s.Covers j p → i = j

/-- Every page of every block is marked in the page table. -/
def InUse (s : Xms) : Prop :=
  ∀ i p, s.NonEmpty i → s.Covers i p → p < s.mem.pages ∧ s.mem.mhandles p ≠ 0

theorem Inv.covers (hinv : s.Inv live) {i p : ℕ} (hi : s.NonEmpty i) (hp : s.Covers i p) :
    ∃ (h : ℕ) (L : List ℕ), (s.handles i).mem_handle = h ∧ live h = some L ∧ p ∈ L := by
  obtain ⟨h, hh, hl⟩ := hinv.block hi
  refine ⟨h, _, hh, hl, ?_⟩
  rw [Covers, hh] at hp
  rw [List.mem_range'_1]
  omega

theorem Inv.disjoint (hinv : s.Inv live) : s.Disjoint := by
  intro i j p hi hj hpi hpj
  obtain ⟨h, L, hh, hl, hp⟩ := hinv.covers hi hpi
  obtain ⟨h', L', hh', hl', hp'⟩ := hinv.covers hj hpj
  by_contra hij
  have hne : h ≠ h' := by
    rintro rfl
    exact hij (hinv.injective hi hj (hh.trans hh'.symm))
  exact hinv.owned.disjoint hl hl' hne hp hp'

theorem Inv.inUse (hinv : s.Inv live) : s.InUse := by
  intro i p hi hpi
  obtain ⟨h, L, -, hl, hp⟩ := hinv.covers hi hpi
  exact ⟨(hinv.owned.bounds hl p hp).2, hinv.owned.entry_ne_zero hl hp⟩

/-- The request leaves the blocks of other handles, and their pages, alone. -/
def Spares (s : Xms) (r : Request) (s' : Xms) : Prop :=
  ∀ j, r.handle ≠ some j → s.NonEmpty j →
    s'.handles j = s.handles j ∧ ∀ p, s.Covers j p → s'.mem.mhandles p ≠ 0

theorem Serves.spares {res : XmsResult} {s' : Xms} (h : s.Serves r res s') :
    s.Spares r s' := by
  obtain ⟨-, ⟨live', hinv'⟩, hframe⟩ := h
  intro j hr hj
  have heq := hframe j hr hj
  have hj' : s'.NonEmpty j := by
    rw [NonEmpty, live_iff, heq, ← live_iff]
    exact hj
  refine ⟨heq, fun p hp => (hinv'.inUse j p hj' ?_).2⟩
  rwa [Covers, heq]

/-- **Blocks never overlap in a run of safe requests.**  After every such run the
non-empty blocks are disjoint and every page of them is in use, and the next
safe request is served and releases no page of another handle. -/
theorem reachable_blocks {s₀ s : Xms} (h₀ : s₀.Initial)
    (hrun : Relation.ReflTransGen Step s₀ s) :
    s.Disjoint ∧ s.InUse ∧
      ∀ r, s.Safe r → ∃ res s', s.serve r = .ok (res, s') ∧ s.Spares r s' := by
  obtain ⟨live, hinv⟩ := reachable_inv h₀ hrun
  refine ⟨hinv.disjoint, hinv.inUse, fun r hsafe => ?_⟩
  obtain ⟨res, s', hserves⟩ := serve_spec hinv hsafe
  exact ⟨res, s', hserves.1, hserves.spares⟩

/-- A machine with four pages above the HMA and no XMS block. -/
def fourPages : Xms where
  mem :=
    { pages := 0x114
      mhandles := fun _ => 0
      bytes := fun _ => 0
      pages_le := (by decide : 0x114 ≤ 786432) }
  handles := fun _ => {}

theorem fourPages_initial : fourPages.Initial := ⟨fun _ => rfl, fun _ _ _ => rfl⟩

/-- Serving requests one after the other, safe or not. -/
def serveAll (s : Xms) (rs : List Request) : Except Fault Xms :=
  rs.foldlM (fun s r => (s.serve r).map Prod.snd) s

set_option maxRecDepth 8000 in
/-- A block of two pages is grown to three while an empty one is around. -/
theorem reachable_blocks_fourPages :
    ∃ s, Relation.ReflTransGen Step fourPages s ∧ s.NonEmpty 1 ∧ s.Covers 1 0x112 ∧
      s.Live 2 ∧ s.Disjoint ∧ s.InUse ∧
      ∃ res s', s.serve (.free 1) = .ok (res, s') ∧ s.Spares (.free 1) s' := by
  obtain ⟨r, s, r', s', r'', s'', h, h', h'', hlive, hcov, hlive', hsize⟩ : ∃ r s r' s' r'' s'',
      fourPages.serve (.allocate 8) = .ok (r, s) ∧ s.serve (.allocate 0) = .ok (r', s') ∧
      s'.serve (.reallocate 1 9) = .ok (r'', s'') ∧ s''.NonEmpty 1 ∧ s''.Covers 1 0x112 ∧
      s''.Live 2 ∧ (s'.handles 1).size_kb ≠ 0 :=
    ⟨_, _, _, _, _, _, rfl, rfl, rfl, by decide, by decide, rfl, by decide⟩
  have hrun : Relation.ReflTransGen Step fourPages s'' :=
    ((Relation.ReflTransGen.single ⟨.allocate 8, r, trivial, h⟩).tail
      ⟨.allocate 0, r', trivial, h'⟩).tail
      ⟨.reallocate 1 9, r'', fun _ hb => absurd hb.2.2.1 hsize, h''⟩
  obtain ⟨hdisj, huse, hnext⟩ := reachable_blocks fourPages_initial hrun
  exact ⟨s'', hrun, hlive, hcov, hlive', hdisj, huse,
    hnext (.free 1) fun _ hb => absurd hb.2.2.1 hlive.2⟩

set_option maxRecDepth 8000 in
/-- **Two handles share a page** after an empty block was allocated and freed. -/
theorem blocks_overlap : fourPages.Initial ∧
    ∃ s, serveAll fourPages [.allocate 0, .allocate 4, .free 1, .allocate 4] = .ok s ∧
      ¬ s.Disjoint := by
  refine ⟨fourPages_initial, _, rfl, fun h => ?_⟩
  have h12 := h 1 2 0x110 (by decide) (by decide) (by decide) (by decide)
  exact absurd h12 (by decide)

end Xms

end AugraDosbox
