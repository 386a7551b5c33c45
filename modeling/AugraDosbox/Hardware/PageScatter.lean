import AugraDosbox.Hardware.PageChains

/-!
# Allocations of scattered pages

`MEM_AllocatePages` without `sequence` takes free pages wherever they are, and
`MEM_ReAllocatePages` then cuts a chain or hooks new pages onto its end.

* `Owned.scatter` — what a scattered allocation hands out, if it returns.
* `Owned.cut`, `Owned.append` — shrinking and growing a chain.
* `Owned.reallocateScatter` — the reallocation, assembled from them.
* `Owned.nextHandleAt` — walking over an allocation stays inside the table.
* **`release_allocated`** — releasing undoes allocating.
-/

namespace AugraDosbox

namespace MemoryBlock

open Threaded

/-! ## Taking free pages -/

/-- The pages taken so far: all but the last one are linked to the next one, and the
entry of the last one is still to be written. -/
structure Taken (r : ℤ × MemoryBlock) (next : Option ℕ) (L : List ℕ) : Prop where
  next_eq : next = L.getLast?
  head : ∀ h, L.head? = some h → r.1 = h
  chain : ∀ i, next = some i → Chained (Function.update r.2.mhandles i (-1)) L

variable {m m' : MemoryBlock} {live : ℕ → Option (List ℕ)} {L : List ℕ} {next : Option ℕ}
  {r : ℤ × MemoryBlock}

theorem Taken.take {index : ℕ} (h : Taken r next L) (hnew : index ∉ L) :
    Taken (writeNext next index r) (some index) (L ++ [index]) := by
  cases hn : next with
  | none =>
    have hL : L = [] := by
      rw [hn] at h
      exact List.getLast?_eq_none_iff.1 h.next_eq.symm
    subst hL
    refine ⟨rfl, ?_, ?_⟩
    · intro k hk
      obtain rfl : index = k := by simpa using hk
      rfl
    · intro i hi
      obtain rfl : index = i := by simpa using hi
      simp [Chained]
  | some j =>
    have hlast : some j = L.getLast? := by rw [← hn]; exact h.next_eq
    obtain ⟨A, rfl⟩ : ∃ A, L = A ++ [j] := by
      obtain ⟨A, hA⟩ := List.getLast?_eq_some_iff.1 hlast.symm
      exact ⟨A, hA⟩
    have hch := h.chain j hn
    have hij : index ≠ j := fun hij => hnew (by simp [hij])
    refine ⟨by simp, ?_, ?_⟩
    · intro k hk
      have := h.head k (by cases A <;> simpa using hk)
      exact this
    · intro i hi
      obtain rfl : index = i := by simpa using hi
      have hjA : j ∉ A := by
        have := Chained.nodup hch
        simp [List.nodup_append] at this
        exact fun hj => this.2 j hj rfl
      have hjoin := Linked.join (hch.update (x := index) (v := -1) hnew)
        (B := []) (y := index) (by simp) hjA (by simpa using hij.symm)
      have heq : Function.update (Function.update (Function.update r.2.mhandles j (-1)) index (-1)) j
          (index : ℤ) = Function.update (Function.update r.2.mhandles j index) index (-1) := by
        rw [Function.update_comm hij, Function.update_idem]
      rw [heq] at hjoin
      simpa [Chained, writeNext] using hjoin

@[simp] theorem writeNext_pages (v : ℤ) : (writeNext next v r).2.pages = r.2.pages := by
  cases next <;> rfl

@[simp] theorem writeNext_bytes (v : ℤ) : (writeNext next v r).2.bytes = r.2.bytes := by
  cases next <;> rfl

theorem writeNext_of_ne {v : ℤ} {p : ℕ} (hp : next ≠ some p) :
    (writeNext next v r).2.mhandles p = r.2.mhandles p := by
  cases next with
  | none => rfl
  | some i => exact Function.update_of_ne (fun h => hp (by rw [h])) _ _

theorem Taken.next_ne (h : Taken r next L) {p : ℕ} (hp : p ∉ L) : next ≠ some p := by
  intro hnext
  rw [h.next_eq] at hnext
  exact hp (List.mem_of_getLast? hnext)

/-- The end mark makes the pages taken a chain. -/
theorem Taken.close (h : Taken r next L) :
    Taken (writeNext next (-1) r) next L ∧
      (L ≠ [] → Chained (writeNext next (-1) r).2.mhandles L) := by
  cases hn : next with
  | none =>
    have hL : L = [] := by
      rw [hn] at h
      exact List.getLast?_eq_none_iff.1 h.next_eq.symm
    subst hL
    exact ⟨⟨rfl, by simp, by simp⟩, fun hL => absurd rfl hL⟩
  | some i =>
    have hch := h.chain i hn
    refine ⟨⟨hn ▸ h.next_eq, h.head, ?_⟩, fun _ => hch⟩
    intro j hj
    obtain rfl : i = j := by simpa using hj
    rw [writeNext, setEntry_mhandles, Function.update_idem]
    exact hch

/-- What the loops of the scattered branch do: free pages are put behind those taken
before, and no other entry is written. -/
structure Takes (r : ℤ × MemoryBlock) (L : List ℕ) (n : ℕ) (r' : ℤ × MemoryBlock) (next' : Option ℕ)
    (B : List ℕ) : Prop where
  taken : Taken r' next' (L ++ B)
  length : B.length = n
  pages : r'.2.pages = r.2.pages
  bytes : r'.2.bytes = r.2.bytes
  free : ∀ p ∈ B, r.2.mhandles p = 0 ∧ XMS_START ≤ p ∧ p < r.2.pages
  frame : ∀ p, p ∉ L ++ B → r'.2.mhandles p = r.2.mhandles p

variable {n : ℕ}

theorem takeRun_spec : ∀ {index : ℕ} {next : Option ℕ} {r : ℤ × MemoryBlock} {L : List ℕ}
    {left : ℕ} {next' : Option ℕ} {r' : ℤ × MemoryBlock}, Taken r next L → XMS_START ≤ index →
    (∀ p ∈ L, index ≤ p → r.2.mhandles p ≠ 0) → takeRun n index next r = .ok (left, next', r') →
    ∃ B, left ≤ n ∧ Takes r L (n - left) r' next' B := by
  induction n with
  | zero =>
    intro index next r L left next' r' hr hstart hused hrun
    simp only [takeRun, Except.ok.injEq, Prod.mk.injEq] at hrun
    obtain ⟨rfl, rfl, rfl⟩ := hrun
    exact ⟨[], le_rfl, by simpa using hr, rfl, rfl, rfl, by simp, fun _ _ => rfl⟩
  | succ n ih =>
    intro index next r L left next' r' hr hstart hused hrun
    rw [takeRun] at hrun
    split at hrun
    · cases hrun
    · rename_i hin
      split at hrun
      · rename_i hfree
        have hnew : index ∉ L := fun hL => hused index hL le_rfl hfree
        have hused' : ∀ p ∈ L ++ [index], index + 1 ≤ p →
            (writeNext next (index : ℤ) r).2.mhandles p ≠ 0 := by
          intro p hp hle
          rcases List.mem_append.1 hp with hp | hp
          · by_cases hnext : next = some p
            · rw [hnext, writeNext, setEntry_mhandles, Function.update_self]
              have : XMS_START = 0x110 := rfl
              omega
            · rw [writeNext_of_ne hnext]
              exact hused p hp (by omega)
          · rw [List.mem_singleton.1 hp] at hle
            omega
        obtain ⟨B, hle, htakes⟩ := ih (hr.take hnew) (by omega) hused' hrun
        refine ⟨index :: B, by omega, ?_, ?_, ?_, ?_, ?_, ?_⟩
        · simpa using htakes.taken
        · have := htakes.length
          rw [List.length_cons]
          omega
        · rw [htakes.pages, writeNext_pages]
        · rw [htakes.bytes, writeNext_bytes]
        · intro p hp
          rcases List.mem_cons.1 hp with rfl | hp
          · exact ⟨hfree, hstart, by omega⟩
          · obtain ⟨h0, h1, h2⟩ := htakes.free p hp
            refine ⟨?_, h1, by simpa using h2⟩
            by_cases hnext : next = some p
            · rw [hnext, writeNext, setEntry_mhandles, Function.update_self] at h0
              have : XMS_START = 0x110 := rfl
              omega
            · rwa [writeNext_of_ne hnext] at h0
        · intro p hp
          simp only [List.mem_append, List.mem_cons, not_or] at hp
          rw [htakes.frame p (by simp [hp]), writeNext_of_ne (hr.next_ne hp.1)]
      · simp only [Except.ok.injEq, Prod.mk.injEq] at hrun
        obtain ⟨rfl, rfl, rfl⟩ := hrun
        exact ⟨[], le_rfl, by simpa using hr, by simp, rfl, rfl, by simp, fun _ _ => rfl⟩

/-- A run of free pages is taken without a fault. -/
theorem takeRun_ok {n : ℕ} : ∀ {index : ℕ} {next : Option ℕ} {r : ℤ × MemoryBlock},
    index + n ≤ r.2.pages → (∀ p, index ≤ p → p < index + n → r.2.mhandles p = 0) →
    (∀ i, next = some i → i < index) → ∃ next' r', takeRun n index next r = .ok (0, next', r') := by
  induction n with
  | zero => exact fun _ _ _ => ⟨_, _, rfl⟩
  | succ n ih =>
    intro index next r hlen hfree hnext
    rw [takeRun, if_neg (by omega), if_pos (hfree index le_rfl (by omega))]
    refine ih (by rw [writeNext_pages]; omega) (fun p h1 h2 => ?_) fun i hi => ?_
    · rw [writeNext_of_ne fun hp => ?_]
      · exact hfree p (by omega) (by omega)
      · have := hnext p hp
        omega
    · obtain rfl : index = i := by simpa using hi
      omega

theorem Takes.trans {r₁ r' : ℤ × MemoryBlock} {next₁ next' : Option ℕ} {B C : List ℕ} {k : ℕ}
    (h : Takes r L k r₁ next₁ B) (hpos : ∀ p ∈ L ++ B, p ≠ 0)
    (h' : Takes (writeNext next₁ (-1) r₁) (L ++ B) n r' next' C) :
    Takes r L (k + n) r' next' (B ++ C) := by
  have hframe : ∀ p, p ∉ L ++ B → (writeNext next₁ (-1) r₁).2.mhandles p = r.2.mhandles p := by
    intro p hp
    rw [writeNext_of_ne (h.taken.next_ne hp), h.frame p hp]
  refine ⟨by simpa using h'.taken, ?_, ?_, ?_, ?_, ?_⟩
  · rw [List.length_append, h.length, h'.length]
  · rw [h'.pages, writeNext_pages, h.pages]
  · rw [h'.bytes, writeNext_bytes, h.bytes]
  · intro p hp
    rcases List.mem_append.1 hp with hp | hp
    · exact h.free p hp
    · obtain ⟨h0, h1, h2⟩ := h'.free p hp
      rw [writeNext_pages, h.pages] at h2
      have hnew : p ∉ L ++ B := fun hp' =>
        Chained.entry_ne_zero (h.taken.close.2 (List.ne_nil_of_mem hp')) hpos hp' h0
      exact ⟨by rw [← hframe p hnew]; exact h0, h1, h2⟩
  · intro p hp
    simp only [List.mem_append, not_or] at hp
    rw [h'.frame p (by simp [hp]), hframe p (by simp [hp])]

theorem allocateScattered_spec {fuel : ℕ} : ∀ {n : ℕ} {next : Option ℕ} {r r' : ℤ × MemoryBlock}
    {L : List ℕ}, Taken r next L → (L ≠ [] → Chained r.2.mhandles L) → (∀ p ∈ L, p ≠ 0) →
    allocateScattered fuel n next r = .ok r' →
    ∃ B next', Takes r L n r' next' B ∧ (L ++ B ≠ [] → Chained r'.2.mhandles (L ++ B)) := by
  induction fuel with
  | zero =>
    intro n next r r' L hr hch hpos hrun
    cases n with
    | zero =>
      obtain rfl : r = r' := by simpa [allocateScattered] using hrun
      exact ⟨[], next, ⟨by simpa using hr, rfl, rfl, rfl, by simp, fun _ _ => rfl⟩,
        by simpa using hch⟩
    | succ n => cases hrun
  | succ fuel ih =>
    intro n next r r' L hr hch hpos hrun
    cases n with
    | zero =>
      obtain rfl : r = r' := by simpa [allocateScattered] using hrun
      exact ⟨[], next, ⟨by simpa using hr, rfl, rfl, rfl, by simp, fun _ _ => rfl⟩,
        by simpa using hch⟩
    | succ n =>
      simp only [allocateScattered] at hrun
      split at hrun
      · cases hrun
      · rename_i hbest
        obtain ⟨hstart, -, -⟩ := BestMatch_spec hbest
        cases htake : takeRun (n + 1) (BestMatch r.2 1) next r with
        | error e =>
          rw [htake] at hrun
          cases hrun
        | ok res =>
          obtain ⟨left, next₁, r₁⟩ := res
          rw [htake] at hrun
          obtain ⟨B, hle, htakes⟩ := takeRun_spec hr hstart
            (fun p hp _ => Chained.entry_ne_zero (hch (List.ne_nil_of_mem hp)) hpos hp) htake
          obtain ⟨hclose, hchain⟩ := htakes.taken.close
          have hpos' : ∀ p ∈ L ++ B, p ≠ 0 := by
            intro p hp
            rcases List.mem_append.1 hp with hp | hp
            · exact hpos p hp
            · have := (htakes.free p hp).2.1
              have : XMS_START = 0x110 := rfl
              omega
          obtain ⟨C, next', htakes', hchain'⟩ := ih hclose hchain hpos' hrun
          refine ⟨B ++ C, next', ?_, by simpa using hchain'⟩
          have hall := htakes.trans hpos' htakes'
          rwa [Nat.sub_add_cancel hle] at hall

/-- Pages that an allocation has taken: a chain of free pages, and no other entry is
written. -/
structure Scattered (m : MemoryBlock) (n k : ℕ) (m' : MemoryBlock) (B : List ℕ) : Prop where
  head : B.head? = some k
  chain : Chained m'.mhandles B
  length : B.length = n
  pages : m'.pages = m.pages
  bytes : m'.bytes = m.bytes
  free : ∀ p ∈ B, m.mhandles p = 0 ∧ XMS_START ≤ p ∧ p < m.pages
  frame : ∀ p, p ∉ B → m'.mhandles p = m.mhandles p

theorem allocateScattered_scattered {handle : ℤ} (hn : n ≠ 0)
    (h : allocateScattered n n none (0, m) = .ok (handle, m')) :
    ∃ k B, handle = (k : ℕ) ∧ Scattered m n k m' B := by
  obtain ⟨B, next', htakes, hchain⟩ := allocateScattered_spec (L := [])
    ⟨rfl, by simp, by simp⟩ (fun hL => absurd rfl hL) (by simp) h
  have hB : B ≠ [] := by
    rintro rfl
    exact hn htakes.length.symm
  obtain ⟨k, T, rfl⟩ := List.exists_cons_of_ne_nil hB
  exact ⟨k, k :: T, htakes.taken.head k rfl, rfl, hchain (by simp), htakes.length, htakes.pages,
    htakes.bytes, htakes.free, htakes.frame⟩

/-- **`MEM_AllocatePages`** without `sequence`, where it returns: it fails without a
trace, or hands out a chain of free pages. -/
theorem allocate_scattered {handle : ℤ} (h : MEM_AllocatePages m n false = .ok (handle, m')) :
    (handle = 0 ∧ m' = m) ∨ ∃ k B, handle = (k : ℕ) ∧ 0 < n ∧ Scattered m n k m' B := by
  have hfail : Except.ok (0, m) = (Except.ok (handle, m') : Except Fault _) →
      handle = 0 ∧ m' = m := by
    intro heq
    simp only [Except.ok.injEq, Prod.mk.injEq] at heq
    exact ⟨heq.1.symm, heq.2.symm⟩
  rw [MEM_AllocatePages] at h
  split at h
  · exact Or.inl (hfail h)
  · rename_i hn
    rw [if_neg (by decide)] at h
    split at h
    · exact Or.inl (hfail h)
    · obtain ⟨k, B, hk, hB⟩ := allocateScattered_scattered hn h
      exact Or.inr ⟨k, B, hk, Nat.pos_of_ne_zero hn, hB⟩

namespace Owned

theorem scatter (ho : Owned m live) {n k : ℕ} {B : List ℕ} (h : Scattered m n k m' B) :
    live k = none ∧ Owned m' (Function.update live k (some B)) := by
  have hk : k ∈ B := List.mem_of_mem_head? h.head
  have hnone : live k = none := by
    cases hl : live k with
    | none => rfl
    | some L =>
      exact absurd (List.mem_of_mem_head? (ho.head hl)) (ho.not_mem_of_free (h.free k hk).1 hl)
  refine ⟨hnone, ho.change h.pages ?_ (fun p _ hp => h.frame p hp) (by simp [hnone])⟩
  intro L hL
  obtain rfl : B = L := by simpa using hL
  exact ⟨h.head, h.chain, fun p hp => (h.free p hp).2, fun p hp => Or.inr (h.free p hp).1⟩

variable {h x : ℕ}

/-- Scattered pages are hooked onto the last page of an allocation. -/
theorem append (ho : Owned m live) {n k : ℕ} {A B : List ℕ} (hL : live h = some (A ++ [x]))
    (hB : Scattered m n k m' B) :
    Owned (m'.setEntry x k) (Function.update live h (some (A ++ x :: B))) := by
  have hdisj : ∀ p ∈ B, p ∉ A ++ [x] := fun p hp => ho.not_mem_of_free (hB.free p hp).1 hL
  have hxB : x ∉ B := fun hx => hdisj x hx (by simp)
  have hnd := Chained.nodup (ho.chain hL)
  have hxA : x ∉ A := by
    rw [List.nodup_append] at hnd
    exact fun hx => hnd.2.2 x hx x (by simp) rfl
  have hchain : Chained (m'.setEntry x k).mhandles (A ++ x :: B) := by
    have hhead := hB.head
    cases hcase : B with
    | nil => rw [hcase] at hhead; cases hhead
    | cons y T =>
      rw [hcase] at hhead hxB
      obtain rfl : y = k := by simpa using hhead
      have hA : Chained m'.mhandles (A ++ [x]) :=
        (ho.chain hL).congr fun p hp => hB.frame p fun hp' => hdisj p hp' hp
      exact Linked.join hA (hcase ▸ hB.chain) hxA hxB
  refine ho.change hB.pages ?_ ?_ ?_
  · intro L hLn
    obtain rfl : A ++ x :: B = L := by simpa using hLn
    refine ⟨?_, hchain, fun p hp => ?_, fun p hp => ?_⟩
    · have := ho.head hL
      cases A <;> simpa using this
    · rcases List.mem_append.1 (show p ∈ (A ++ [x]) ++ B by simpa using hp) with hp | hp
      · exact ho.bounds hL p hp
      · exact (hB.free p hp).2
    · rcases List.mem_append.1 (show p ∈ (A ++ [x]) ++ B by simpa using hp) with hp | hp
      · left
        rwa [hL]
      · exact Or.inr (hB.free p hp).1
  · intro p hp hp'
    simp only [Option.getD_some, List.mem_append, List.mem_cons, not_or] at hp'
    rw [setEntry_mhandles, Function.update_of_ne hp'.2.1, hB.frame p hp'.2.2]
  · intro p hp hp'
    rw [hL, Option.getD_some] at hp
    exact absurd (show p ∈ A ++ x :: B by
      rcases List.mem_append.1 hp with hp | hp
      · exact List.mem_append_left _ hp
      · rw [List.mem_singleton.1 hp]; simp) hp'

/-- What a reallocation of scattered pages can do to an allocation. -/
inductive Reallocated (live : ℕ → Option (List ℕ)) (m : MemoryBlock) (h : ℕ) (L : List ℕ) (n : ℕ) :
    Bool × ℤ × MemoryBlock → Prop
  | refused : L.length < n → Reallocated live m h L n (false, h, m)
  | released {m' : MemoryBlock} : n = 0 → m'.pages = m.pages →
      Owned m' (Function.update live h none) → Reallocated live m h L n (true, -1, m')
  | resized {m' : MemoryBlock} {L' : List ℕ} : 0 < n → m'.pages = m.pages → L'.length = n →
      (∀ i, i < n → i < L.length → L'[i]? = L[i]?) → Owned m' (Function.update live h (some L')) →
      Reallocated live m h L n (true, h, m')

theorem countLoop_eq (ho : Owned m live) (hL : live h = some L) {A : List ℕ} (hx : L = A ++ [x]) :
    countLoop m m.pages h 0 0 = .ok (L.length, (x : ℤ)) := by
  have hcons := ho.eq_cons hL
  have hlen := ho.length_le hL
  have hcount : countLoop m m.pages h 0 0 = _ := countLoop_spec (L := L.tail)
    (by rw [hcons, List.length_cons] at hlen; exact hlen) (by rw [← hcons]; exact ho.chain hL)
    (by rw [← hcons]; exact ho.pos_lt hL)
  rw [hcount]
  have hlast : (h :: L.tail).getLast (List.cons_ne_nil h L.tail) = x := by
    have : (h :: L.tail).getLast? = some x := by rw [← hcons, hx]; simp
    rw [List.getLast?_eq_some_getLast (List.cons_ne_nil h L.tail)] at this
    exact Option.some.inj this
  have hlen' : L.tail.length + 1 = L.length := by
    rw [hcons]
    simp
  rw [hlast, Nat.zero_add, hlen']

/-- **`MEM_ReAllocatePages`** without `sequence`, where it returns. -/
theorem reallocateScatter (ho : Owned m live) {n : ℕ} (hL : live h = some L)
    {res : Bool × ℤ × MemoryBlock} (hrun : MEM_ReAllocatePages m h n false = .ok res) :
    Reallocated live m h L n res := by
  have hpos := ho.pos_lt hL h (List.mem_of_mem_head? (ho.head hL))
  have hself : Function.update live h (some L) = live := by rw [← hL, Function.update_eq_self]
  rw [MEM_ReAllocatePages, if_neg (by omega)] at hrun
  by_cases hn : n = 0
  · rw [if_pos hn] at hrun
    obtain ⟨m', hm', h1, -, hown⟩ := ho.release hL
    rw [hm'] at hrun
    obtain rfl : (true, (-1 : ℤ), m') = res := Except.ok.inj hrun
    exact .released hn h1 hown
  rw [if_neg hn] at hrun
  obtain ⟨A, x, hx⟩ : ∃ A x, L = A ++ [x] := by
    refine (List.eq_nil_or_concat' L).resolve_left ?_
    rintro rfl
    cases ho.head hL
  rw [ho.countLoop_eq hL hx] at hrun
  simp only [bind, Except.bind] at hrun
  by_cases heq : L.length = n
  · rw [if_pos heq] at hrun
    obtain rfl : (true, (h : ℤ), m) = res := Except.ok.inj hrun
    exact .resized (by omega) rfl heq (fun _ _ _ => rfl) (by rw [hself]; exact ho)
  rw [if_neg heq] at hrun
  by_cases hlt : n < L.length
  · rw [if_pos hlt] at hrun
    obtain ⟨B, y, C, hB, hC, hsplit⟩ : ∃ B y C, B.length = n - 1 ∧ C.length + 1 = L.length - n ∧
        ∃ z, L = B ++ y :: z :: C := by
      have hdrop := List.length_drop (i := n - 1) (l := L)
      obtain ⟨y, T, hyT⟩ := List.exists_cons_of_length_pos (l := L.drop (n - 1)) (by omega)
      rw [hyT, List.length_cons] at hdrop
      obtain ⟨z, C, hzC⟩ := List.exists_cons_of_length_pos (l := T) (by omega)
      rw [hzC, List.length_cons] at hdrop
      refine ⟨L.take (n - 1), y, C, by rw [List.length_take]; omega, by omega, z, ?_⟩
      rw [← hzC, ← hyT, List.take_append_drop]
    obtain ⟨z, rfl⟩ := hsplit
    obtain ⟨h1, -, hown⟩ := ho.cut hL
    rw [hB, hC] at h1 hown
    obtain rfl := Except.ok.inj hrun
    refine .resized (by omega) h1 (by rw [List.length_append, hB]; simp; omega)
      (fun i hi _ => ?_) hown
    have hlen : i < (B ++ [y]).length := by
      rw [List.length_append, hB, List.length_singleton]
      omega
    rw [show B ++ y :: z :: C = (B ++ [y]) ++ z :: C by simp]
    exact (List.getElem?_append_left hlen).symm
  · rw [if_neg hlt, if_neg (by decide)] at hrun
    cases hal : MEM_AllocatePages m (n - L.length) false with
    | error e =>
      rw [hal] at hrun
      cases hrun
    | ok r =>
      obtain ⟨rem, m₁⟩ := r
      rw [hal] at hrun
      simp only at hrun
      rcases allocate_scattered hal with ⟨rfl, rfl⟩ | ⟨k, B, rfl, -, hB⟩
      · rw [if_pos rfl] at hrun
        obtain rfl : (false, (h : ℤ), m₁) = res := Except.ok.inj hrun
        exact .refused (by omega)
      · have hk : (k : ℤ) ≠ 0 := by
          have := (hB.free k (List.mem_of_mem_head? hB.head)).2.1
          have : XMS_START = 0x110 := rfl
          omega
        rw [if_neg hk, Int.toNat_natCast] at hrun
        obtain rfl : (true, (h : ℤ), m₁.setEntry x k) = res := Except.ok.inj hrun
        subst hx
        have hown := ho.append hL hB
        refine .resized (by omega) hB.pages ?_ ?_ hown
        · have := hB.length
          simp only [List.length_append, List.length_cons, List.length_nil] at *
          omega
        · intro i _ hi
          rw [show A ++ x :: B = (A ++ [x]) ++ B by simp, List.getElem?_append_left hi]

theorem reallocate_refused (ho : Owned m live) {n : ℕ} (hL : live h = some L) (hn : L.length < n)
    (hfree : MEM_FreeTotal m < n - L.length) :
    MEM_ReAllocatePages m h n false = .ok (false, (h : ℤ), m) := by
  have hpos := ho.pos_lt hL h (List.mem_of_mem_head? (ho.head hL))
  obtain ⟨A, x, hx⟩ : ∃ A x, L = A ++ [x] := by
    refine (List.eq_nil_or_concat' L).resolve_left ?_
    rintro rfl
    cases ho.head hL
  have hal : MEM_AllocatePages m (n - L.length) false = .ok (0, m) := by
    rw [MEM_AllocatePages, if_neg (by omega), if_neg (by decide), if_pos hfree]
  rw [MEM_ReAllocatePages, if_neg (by omega), if_neg (by omega), ho.countLoop_eq hL hx]
  simp only [bind, Except.bind]
  rw [if_neg hn.ne, if_neg (by omega), if_neg (by decide), hal]
  rfl

theorem nextHandleAt_chain {i : ℕ} : ∀ {h x : ℕ} {T : List ℕ}, Chained m.mhandles (h :: T) →
    (∀ p ∈ h :: T, p < m.pages) → (h :: T)[i]? = some x → MEM_NextHandleAt m h i = .ok (x : ℤ) := by
  induction i with
  | zero =>
    intro h x T _ _ hx
    obtain rfl : h = x := by simpa using hx
    rfl
  | succ i ih =>
    intro h x T hch hb hx
    cases T with
    | nil => simp at hx
    | cons y T =>
      have hlt := hb h (by simp)
      have hnext : MEM_NextHandle m h = .ok (y : ℤ) := by
        rw [MEM_NextHandle, if_neg (by omega), Int.toNat_natCast, hch.1]
      rw [MEM_NextHandleAt, hnext]
      exact ih hch.2 (fun p hp => hb p (List.mem_cons_of_mem _ hp)) (by simpa using hx)

/-- The page after a page of an allocation. -/
theorem nextHandle (ho : Owned m live) {i : ℕ} (hL : live h = some L) (hx : L[i]? = some x) :
    ∃ v, MEM_NextHandle m x = .ok v ∧ ∀ y, L[i + 1]? = some y → v = (y : ℕ) := by
  have hmem := List.mem_of_getElem? hx
  refine ⟨m.mhandles x, ?_, fun y hy => ?_⟩
  · have := (ho.bounds hL x hmem).2
    rw [MEM_NextHandle, if_neg (by omega), Int.toNat_natCast]
  · obtain ⟨hi, rfl⟩ := List.getElem?_eq_some_iff.1 hx
    obtain ⟨hi', rfl⟩ := List.getElem?_eq_some_iff.1 hy
    have hsplit : L = L.take i ++ L[i] :: L[i + 1] :: L.drop (i + 2) := by
      rw [← List.drop_eq_getElem_cons hi', ← List.drop_eq_getElem_cons hi, List.take_append_drop]
    have hch := ho.chain hL
    rw [hsplit] at hch
    exact Linked.entry hch

/-- **Walking over an allocation** ends at the page asked for. -/
theorem nextHandleAt (ho : Owned m live) {i : ℕ} (hL : live h = some L) (hx : L[i]? = some x) :
    MEM_NextHandleAt m h i = .ok (x : ℤ) := by
  have hcons := ho.eq_cons hL
  refine nextHandleAt_chain ?_ ?_ (T := L.tail) ?_
  · rw [← hcons]
    exact ho.chain hL
  · rw [← hcons]
    exact fun p hp => (ho.bounds hL p hp).2
  · rw [← hcons]
    exact hx

end Owned

/-! ## Allocating and releasing -/

theorem Scattered.release {k : ℕ} {B : List ℕ} (h : Scattered m n k m' B) :
    MEM_ReleasePages m' k = .ok m := by
  have hsub : B ⊆ List.range m'.pages := fun p hp =>
    List.mem_range.2 (h.pages ▸ (h.free p hp).2.2)
  have hlength : B.length ≤ m'.pages := by
    simpa using ((Chained.nodup h.chain).subperm hsub).length_le
  have hcons : B = k :: B.tail := (List.cons_head?_tail h.head).symm
  obtain ⟨r, hr, hpages, hbytes, hentries⟩ := releaseLoop_spec (k := m'.pages + 1)
    (by omega) (hcons ▸ h.chain) h.head fun p hp => by
      have hstart : XMS_START = 0x110 := rfl
      have hfree := h.free p hp
      rw [h.pages]
      omega
  have hmhandles : r.mhandles = m.mhandles := funext fun p => by
    rw [hentries p]
    split
    · next hp => exact (h.free p hp).1.symm
    · next hp => exact h.frame p hp
  have heq : r = m := by
    have hsize := hpages.trans h.pages
    have hsame := hbytes.trans h.bytes
    cases r
    cases m
    simp only at hsize hsame hmhandles
    subst hsize hsame hmhandles
    rfl
  rw [MEM_ReleasePages, hr, heq]

/-- **Releasing undoes allocating**: what `MEM_AllocatePages` has given, wherever its pages are,
`MEM_ReleasePages` takes back without a trace. -/
theorem release_allocated (m : MemoryBlock) (n : ℕ) (sequence : Bool) :
    (do let (handle, m') ← MEM_AllocatePages m n sequence; MEM_ReleasePages m' handle)
      = (MEM_AllocatePages m n sequence).map fun _ => m := by
  rcases h : MEM_AllocatePages m n sequence with e | ⟨handle, m'⟩
  · rfl
  show MEM_ReleasePages m' handle = .ok m
  have hnone : MEM_ReleasePages m 0 = .ok m := releaseLoop_of_nonpos le_rfl _ _
  cases sequence with
  | false =>
    obtain ⟨rfl, rfl⟩ | ⟨k, B, rfl, -, hB⟩ := allocate_scattered h
    · exact hnone
    · exact hB.release
  | true =>
    simp only [MEM_AllocatePages, if_true] at h
    split_ifs at h with hn hmatch
    all_goals obtain ⟨hhandle, rfl⟩ := Prod.mk.inj (Except.ok.inj h)
    · exact hhandle ▸ hnone
    · exact hhandle ▸ hnone
    · obtain ⟨hstart, hend, hfree⟩ := BestMatch_spec hmatch
      obtain ⟨hfirst, hpages, hbytes, hframe, hchain⟩ :=
        allocateSequence_none (i := BestMatch m n) (m := m) (Nat.pos_of_ne_zero hn)
      have hB : Scattered m n (BestMatch m n) _ (List.range' (BestMatch m n) n) :=
        ⟨by simp [List.head?_range', hn], hchain, List.length_range', hpages, hbytes,
          fun p hp => by
            rw [List.mem_range'_1] at hp
            exact ⟨hfree p hp.1 hp.2, by omega, by omega⟩,
          fun p hp => hframe p (by rw [List.mem_range'_1] at hp; omega)⟩
      rw [← hhandle, hfirst]
      exact hB.release

end MemoryBlock

end AugraDosbox
