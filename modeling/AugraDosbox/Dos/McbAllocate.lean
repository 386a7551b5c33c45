import AugraDosbox.Dos.McbUpper

/-!
# The block that `DOS_AllocateMemory` returns

The search walks over one chain or, with bit 7 of the strategy, over the upper one and then the
low one.  First fit stops at the first block that fits; best fit and last fit note a block down
and go on.

* `searched` — the blocks of the chains that the strategy searches, in the order of the search;
* `Searching` — what the loop knows about the blocks that it has come by;
* **`DOS_AllocateMemory_result`** — whether a block is returned, and which one.
-/

namespace AugraDosbox

open Tiling DOS_MCB

namespace DosMemory

/-! ## What is searched -/

/-- The blocks that the walk from a segment on comes by. -/
def walk (mem : Memory) : ℕ → ℕ → List (ℕ × Mcb)
  | 0, _ => []
  | rounds + 1, seg =>
      (seg, header mem seg) ::
        if GetType mem seg = ending_mcb_type then []
        else walk mem rounds (u16 (seg + GetSize mem seg + 1))

/-- The blocks of the chains that the strategy searches, in the order of the search. -/
def searched (s : DosMemory) : List (ℕ × Mcb) :=
  if s.umb_start = umb_start_seg ∧ s.allocation_strategy &&& 0xc0 ≠ 0 then
    walk s.mem maxRounds s.umb_start ++
      if s.allocation_strategy &&& 0x80 ≠ 0 then walk s.mem maxRounds s.firstMCB else []
  else walk s.mem maxRounds s.firstMCB

/-- A free block of at least `n` paragraphs. -/
def Fits (n : ℕ) (x : ℕ × Mcb) : Prop := x.2.psp = MCB_FREE ∧ n ≤ x.2.size

instance (n : ℕ) (x : ℕ × Mcb) : Decidable (Fits n x) :=
  inferInstanceAs (Decidable (_ ∧ _))

/-- The size of the largest free block of a list. -/
def largestFree : List (ℕ × Mcb) → ℕ
  | [] => 0
  | x :: L => if x.2.psp = MCB_FREE then max x.2.size (largestFree L) else largestFree L

theorem largestFree_concat (L : List (ℕ × Mcb)) (x : ℕ × Mcb) :
    largestFree (L ++ [x]) =
      if x.2.psp = MCB_FREE then max (largestFree L) x.2.size else largestFree L := by
  induction L with
  | nil => simp [largestFree]
  | cons y L ih =>
    rw [List.cons_append, largestFree, largestFree, ih]
    split <;> split <;> simp [max_assoc]

/-! ## What is returned -/

/-- The block of the list that first fit (0), best fit (1) or last fit takes. -/
def Chosen (mode n : ℕ) (B : List (ℕ × Mcb)) (x : ℕ × Mcb) (C : List (ℕ × Mcb)) : Prop :=
  Fits n x ∧
    (mode = 0 → ∀ y ∈ B, ¬ Fits n y) ∧
    (mode = 1 → ∀ y ∈ B ++ x :: C, Fits n y → x.2.size ≤ y.2.size) ∧
    (2 ≤ mode → ∀ y ∈ C, ¬ Fits n y)

/-- The segment of the header of the `n` paragraphs that are taken: last fit takes the end. -/
def taken (mode n : ℕ) (x : ℕ × Mcb) : ℕ := if mode < 2 then x.1 else x.1 + (x.2.size - n)

/-- `n` paragraphs of the block that the strategy chooses belong to the running program. -/
def Served (s : DosMemory) (mode n : ℕ) (L : List (ℕ × Mcb)) (a : Allocation) (s' : DosMemory) :
    Prop :=
  ∃ B x C, L = B ++ x :: C ∧ Chosen mode n B x C ∧ a.segment = taken mode n x + 1 ∧
    (header s'.mem (taken mode n x)).psp = s.psp ∧ (header s'.mem (taken mode n x)).size = n

/-- What a search of the list ends with. -/
def Ends (s : DosMemory) (mode n : ℕ) (L : List (ℕ × Mcb)) (a : Allocation) (s' : DosMemory) :
    Prop :=
  (a.ok = true ∧ Served s mode n L a s') ∨
    (a.ok = false ∧ (∀ x ∈ L, ¬ Fits n x) ∧ a.blocks = largestFree L ∧ s'.mem = s.mem)

/-! ## Taking a block -/

variable {r : Region} {s s' : DosMemory} {A B F L : List Mcb} {b : Mcb} {n mode : ℕ}

theorem segment_lt (h : s.Inv r (A ++ b :: L)) : after A + b.extent < 2 ^ 16 := by
  simpa using Inv.run_lt (L := [b]) (B := L) (by simpa using h)

theorem header_splitLow (name : Fin 8 → UInt8) (h : s.Inv r (A ++ b :: L)) (hb : b.psp = MCB_FREE)
    (hlt : n < b.size) :
    header (DosMemory.splitLow s name n (after A) b.size) (after A) =
      ⟨middle_mcb_type, s.psp, n⟩ :=
  (h.splitLow name hb hlt).1.header_at

theorem header_splitHigh (name : Fin 8 → UInt8) (h : s.Inv r (A ++ b :: L))
    (hb : b.psp = MCB_FREE) (hlt : n < b.size) :
    header (DosMemory.splitHigh s name n (after A) b.size) (after A + (b.size - n)) =
      ⟨b.type, s.psp, n⟩ := by
  have hinv := (h.splitHigh name hb hlt).1
  have hlist : A ++ ⟨middle_mcb_type, MCB_FREE, b.size - n - 1⟩ :: ⟨b.type, s.psp, n⟩ :: L =
      (A ++ [⟨middle_mcb_type, MCB_FREE, b.size - n - 1⟩]) ++ ⟨b.type, s.psp, n⟩ :: L := by simp
  rw [hlist] at hinv
  have hat := hinv.header_at
  rw [after_concat, Mcb.extent] at hat
  rwa [show b.size - n = b.size - n - 1 + 1 by omega]

theorem header_setOwner (h : s.Inv r (A ++ b :: L)) :
    header (SetPSPSeg s.mem (after A) s.psp) (after A) = { b with psp := s.psp } := by
  rw [header_SetPSPSeg h.psp, if_pos rfl, h.header_at]

/-! ## The way of the search -/

/-- The blocks that the loop comes by from a segment on. -/
def Path (s : DosMemory) : ℕ → ℕ → List (ℕ × Mcb) → Prop
  | _, _, [] => False
  | mem_strat, seg, x :: R =>
      x = (seg, header s.mem seg) ∧
        if GetType s.mem seg = ending_mcb_type then
          if mem_strat &&& 0x80 ≠ 0 ∧ s.umb_start = umb_start_seg then
            Path s (mem_strat &&& 0xff3f) s.firstMCB R
          else R = []
        else Path s mem_strat (u16 (seg + GetSize s.mem seg + 1)) R

variable {mem_strat seg : ℕ}

/-- The walk over a chain is a part of the way. -/
theorem path_walk {T : List (ℕ × Mcb)}
    (hT : if mem_strat &&& 0x80 ≠ 0 ∧ s.umb_start = umb_start_seg then
      Path s (mem_strat &&& 0xff3f) s.firstMCB T else T = [])
    {rounds : ℕ} :
    ∀ {A : List Mcb} {b : Mcb} {L : List Mcb}, s.Inv r (A ++ b :: L) → L.length < rounds →
      Path s mem_strat (after A) (walk s.mem rounds (after A) ++ T) := by
  induction rounds with
  | zero =>
    intro A b L _ hlen
    omega
  | succ rounds ih =>
    intro A b L h hlen
    rw [walk, List.cons_append, Path]
    refine ⟨rfl, ?_⟩
    by_cases hz : b.type = ending_mcb_type
    · rw [if_pos (h.getType_at.trans hz), if_pos (h.getType_at.trans hz)]
      exact hT
    · have hne : GetType s.mem (after A) ≠ ending_mcb_type := by rwa [h.getType_at]
      obtain ⟨c, M, rfl⟩ := h.exists_next hz
      have h' : s.Inv r ((A ++ [b]) ++ c :: M) := by simpa using h
      rw [if_neg hne, if_neg hne, h.getSize_at, h.u16_next]
      rw [List.length_cons] at hlen
      exact ih h' (by omega)

/-- The walk comes by blocks of the chain only, from the lowest on. -/
theorem walk_placed {rounds : ℕ} : ∀ {A : List Mcb} {b : Mcb} {L : List Mcb},
    s.Inv r (A ++ b :: L) → L.length < rounds →
      (∀ x ∈ walk s.mem rounds (after A),
        after A ≤ x.1 ∧ x ∈ placed Mcb.extent DOS_MEM_START (A ++ b :: L)) ∧
      (walk s.mem rounds (after A)).Pairwise fun x y => x.1 < y.1 := by
  induction rounds with
  | zero =>
    intro A b L _ hlen
    omega
  | succ rounds ih =>
    intro A b L h hlen
    have hhere : (after A, header s.mem (after A)) ∈
        placed Mcb.extent DOS_MEM_START (A ++ b :: L) := by
      rw [h.header_at]
      exact placed_after
    rw [walk]
    by_cases hz : b.type = ending_mcb_type
    · rw [if_pos (h.getType_at.trans hz)]
      refine ⟨fun x hx => ?_, List.pairwise_singleton _ _⟩
      rw [List.mem_singleton.mp hx]
      exact ⟨le_rfl, hhere⟩
    · have hne : GetType s.mem (after A) ≠ ending_mcb_type := by rwa [h.getType_at]
      obtain ⟨c, M, rfl⟩ := h.exists_next hz
      have hlist : A ++ b :: c :: M = (A ++ [b]) ++ c :: M := by simp
      rw [List.length_cons] at hlen
      obtain ⟨hmem, hsorted⟩ := ih (hlist ▸ h) (by omega)
      have hbehind : after A < after (A ++ [b]) := by
        rw [after_concat]
        exact Nat.lt_add_of_pos_right b.extent_pos
      rw [if_neg hne, h.getSize_at, h.u16_next]
      refine ⟨fun x hx => ?_, List.pairwise_cons.mpr ⟨fun x hx => ?_, hsorted⟩⟩
      · rcases List.mem_cons.mp hx with rfl | hx
        · exact ⟨le_rfl, hhere⟩
        · obtain ⟨hle, hx⟩ := hmem x hx
          exact ⟨by omega, hlist ▸ hx⟩
      · exact hbehind.trans_le (hmem x hx).1

/-- A walk of the chain takes fewer rounds than there are segments. -/
theorem length_walk_le (mem : Memory) (rounds seg : ℕ) :
    (walk mem rounds seg).length ≤ rounds := by
  induction rounds generalizing seg with
  | zero => exact le_rfl
  | succ rounds ih =>
    rw [walk, List.length_cons]
    split
    · exact Nat.succ_le_succ (Nat.zero_le _)
    · exact Nat.succ_le_succ (ih _)

/-! ## The loop -/

/-- What the loop knows after the blocks of the list. -/
structure Searching (mode n : ℕ) (P : List (ℕ × Mcb)) (bigsize found_seg found_seg_size : ℕ) :
    Prop where
  largest : (∀ x ∈ P, ¬ Fits n x) → bigsize = largestFree P
  none : found_seg = 0 → found_seg_size = 0 ∧ ∀ x ∈ P, ¬ Fits n x
  first : mode = 0 → found_seg = 0
  noted : found_seg ≠ 0 → ∃ B x C, P = B ++ x :: C ∧ Chosen mode n B x C ∧ x.1 = found_seg ∧
    x.2.size = found_seg_size ∧ (mode = 1 → n < x.2.size)

theorem Searching.start (mode n : ℕ) : Searching mode n [] 0 0 0 :=
  ⟨fun _ => rfl, fun _ => ⟨rfl, nofun⟩, fun _ => rfl, fun h => absurd rfl h⟩

section Step

variable {P : List (ℕ × Mcb)} {bigsize found_seg found_seg_size : ℕ} {x : ℕ × Mcb}

theorem Searching.pass (h : Searching mode n P bigsize found_seg found_seg_size) {big : ℕ}
    (hbig : ¬ Fits n x → big = if x.2.psp = MCB_FREE then max bigsize x.2.size else bigsize)
    (hkeep : Fits n x → mode = 1 ∧ found_seg ≠ 0 ∧ found_seg_size ≤ x.2.size) :
    Searching mode n (P ++ [x]) big found_seg found_seg_size := by
  refine ⟨fun hall => ?_, fun h0 => ?_, h.first, fun hne => ?_⟩
  · rw [largestFree_concat, hbig (hall x (by simp)),
      h.largest fun y hy => hall y (List.mem_append_left _ hy)]
  · obtain ⟨hsize, hnone⟩ := h.none h0
    refine ⟨hsize, fun y hy => ?_⟩
    rcases List.mem_append.mp hy with hy | hy
    · exact hnone y hy
    · rw [List.mem_singleton.mp hy]
      exact fun hfits => (hkeep hfits).2.1 h0
  · obtain ⟨B, y, C, rfl, ⟨hfits, hfirst, hbest, hlast⟩, hseg, hsize, hexact⟩ := h.noted hne
    refine ⟨B, y, C ++ [x], by simp, ⟨hfits, hfirst, fun hone z hz hz' => ?_, fun htwo z hz => ?_⟩,
      hseg, hsize, hexact⟩
    · rcases List.mem_append.mp (show z ∈ (B ++ y :: C) ++ [x] by simpa using hz) with hz | hz
      · exact hbest hone z hz hz'
      · rw [List.mem_singleton.mp hz] at hz' ⊢
        rw [hsize]
        exact (hkeep hz').2.2
    · rcases List.mem_append.mp hz with hz | hz
      · exact hlast htwo z hz
      · rw [List.mem_singleton.mp hz]
        intro hz'
        have := (hkeep hz').1
        omega

/-- A smallest block of the list that fits is larger than one that is better than what the loop
has noted down. -/
theorem Searching.lt_of_better (h : Searching mode n P bigsize found_seg found_seg_size)
    (hone : mode = 1) {size : ℕ} (hbetter : found_seg_size = 0 ∨ size < found_seg_size)
    {y : ℕ × Mcb} (hy : y ∈ P) (hfits : Fits n y) : size < y.2.size := by
  by_cases h0 : found_seg = 0
  · exact absurd hfits ((h.none h0).2 y hy)
  · obtain ⟨B, z, C, rfl, hchosen, -, hsize, hlt⟩ := h.noted h0
    have hle := hchosen.2.2.1 hone y hy hfits
    have hlarger := hlt hone
    rcases hbetter with hzero | hless <;> omega

/-- What best fit has noted down is larger than what is asked for. -/
theorem Searching.lt_noted (h : Searching mode n P bigsize found_seg found_seg_size)
    (hone : mode = 1) : found_seg_size = 0 ∨ n < found_seg_size := by
  by_cases h0 : found_seg = 0
  · exact .inl (h.none h0).1
  · obtain ⟨B, x, C, hP, hchosen, hseg, hsize, hlt⟩ := h.noted h0
    exact .inr (hsize ▸ hlt hone)

theorem Searching.note (h : Searching mode n P bigsize found_seg found_seg_size)
    (hx : Fits n x) (hseg : x.1 ≠ 0) (hmode : mode ≠ 0) (hexact : mode = 1 → n < x.2.size)
    (hbetter : mode = 1 → found_seg_size = 0 ∨ x.2.size < found_seg_size) :
    Searching mode n (P ++ [x]) bigsize x.1 x.2.size := by
  refine ⟨fun hall => absurd hx (hall x (by simp)), fun h0 => absurd h0 hseg, fun h0 =>
    absurd h0 hmode, fun _ => ⟨P, x, [], rfl, ⟨hx, fun h0 => absurd h0 hmode, ?_, nofun⟩, rfl, rfl,
      hexact⟩⟩
  intro hone z hz hz'
  rcases List.mem_append.mp hz with hz | hz
  · exact (h.lt_of_better hone (hbetter hone) hz hz').le
  · rw [List.mem_singleton.mp hz]

end Step

/-- Of the blocks of the list that fit, those before the one at the segment are larger. -/
def FirstSmallest (n : ℕ) (P : List (ℕ × Mcb)) (seg size : ℕ) : Prop :=
  ∃ B x C, P = B ++ x :: C ∧ x.1 = seg ∧ x.2.size = size ∧ ∀ y ∈ B, Fits n y → size < y.2.size

theorem FirstSmallest.append {P Q : List (ℕ × Mcb)} {size : ℕ} (h : FirstSmallest n P seg size) :
    FirstSmallest n (P ++ Q) seg size := by
  obtain ⟨B, x, C, rfl, hseg, hsize, hlarger⟩ := h
  exact ⟨B, x, C ++ Q, by simp, hseg, hsize, hlarger⟩

/-- Best fit takes the first of the smallest blocks. -/
def TakesFirst (mode n : ℕ) (L : List (ℕ × Mcb)) (a : Allocation) : Prop :=
  mode = 1 → a.ok = true → ∃ seg size, a.segment = seg + 1 ∧ FirstSmallest n L seg size

/-- A block of the list is one of the chain. -/
theorem exists_block {x : ℕ × Mcb} (hx : x ∈ placed Mcb.extent DOS_MEM_START F) :
    ∃ A L, F = A ++ x.2 :: L ∧ x.1 = after A := mem_placed.mp hx

theorem allocateFound_ends (name : Fin 8 → UInt8) (h : s.Inv r F) {P : List (ℕ × Mcb)}
    {bigsize found_seg found_seg_size mem_strat : ℕ} (hmode : mem_strat &&& 0x3f = mode)
    (hP : ∀ x ∈ P, x ∈ placed Mcb.extent DOS_MEM_START F)
    (hsearch : Searching mode n P bigsize found_seg found_seg_size) :
    Ends s mode n P (allocateFound s name n mem_strat bigsize found_seg found_seg_size).1
        (allocateFound s name n mem_strat bigsize found_seg found_seg_size).2 ∧
      Outcome r NoBlock s F
        (allocateFound s name n mem_strat bigsize found_seg found_seg_size).2 := by
  rw [allocateFound]
  by_cases h0 : found_seg = 0
  · rw [if_neg (not_not_intro h0)]
    have hnone := (hsearch.none h0).2
    exact ⟨.inr ⟨rfl, hnone, hsearch.largest hnone, rfl⟩, F, h.withError, Keeps.refl⟩
  · rw [if_pos h0]
    obtain ⟨B, x, C, rfl, hchosen, rfl, rfl, hexact⟩ := hsearch.noted h0
    obtain ⟨hfree, hle⟩ := hchosen.1
    obtain ⟨A, L, rfl, hA⟩ := exists_block (hP x (by simp))
    have hseg := segment_lt h
    rw [Mcb.extent] at hseg
    have hmode0 : mode ≠ 0 := fun hm => h0 (hsearch.first hm)
    have hlow : u16 (x.1 + 1) = x.1 + 1 := Nat.mod_eq_of_lt (by omega)
    by_cases hone : mode = 1
    · rw [if_pos (hmode.trans hone)]
      have htaken : taken mode n x = x.1 := if_pos (by omega)
      have hheader := header_splitLow name h hfree (hexact hone)
      rw [← hA] at hheader
      refine ⟨.inl ⟨rfl, B, x, C, rfl, hchosen, by rw [htaken]; exact hlow, ?_, ?_⟩, _,
        hA ▸ h.splitLow name hfree (hexact hone)⟩
      · rw [htaken]
        exact congrArg Mcb.psp hheader
      · rw [htaken]
        exact congrArg Mcb.size hheader
    · rw [if_neg fun hm => hone (hmode.symm.trans hm)]
      have htaken : taken mode n x = x.1 + (x.2.size - n) := if_neg (by omega)
      by_cases hwhole : x.2.size = n
      · rw [if_pos hwhole]
        have hheader : header (SetFileName (SetPSPSeg s.mem x.1 s.psp) x.1 name) x.1 =
            { x.2 with psp := s.psp } := by
          rw [header_SetFileName, hA]
          exact header_setOwner h
        rw [hwhole, Nat.sub_self, Nat.add_zero] at htaken
        refine ⟨.inl ⟨rfl, B, x, C, rfl, hchosen, by rw [htaken]; exact hlow, ?_, ?_⟩, _,
          h.setOwner (v := s.psp) (by rw [hfree]; decide) ?_ (hA ▸ hheader) fun hb => hb hfree⟩
        · rw [htaken]
          exact congrArg Mcb.psp hheader
        · rw [htaken]
          exact (congrArg Mcb.size hheader).trans hwhole
        · have hpos := x.2.extent_pos
          rw [hA]
          exact (SameOutside.refl.SetPSPSeg le_rfl (by omega)).SetFileName le_rfl (by omega)
      · rw [if_neg hwhole]
        have hheader := header_splitHigh (n := n) name h hfree (by omega)
        rw [← hA] at hheader
        have hhigh : u16 (x.1 + 1 + x.2.size - n) = x.1 + (x.2.size - n) + 1 := by
          have hlt : x.1 + 1 + x.2.size - n < 2 ^ 16 := by omega
          exact (Nat.mod_eq_of_lt hlt).trans (by omega)
        refine ⟨.inl ⟨rfl, B, x, C, rfl, hchosen, by rw [htaken]; exact hhigh, ?_, ?_⟩, _,
          hA ▸ h.splitHigh name hfree (by omega)⟩
        · rw [htaken]
          exact congrArg Mcb.psp hheader
        · rw [htaken]
          exact congrArg Mcb.size hheader

theorem allocateFound_first (name : Fin 8 → UInt8) (h : s.Inv r F) {P : List (ℕ × Mcb)}
    {bigsize found_seg found_seg_size : ℕ} (hmode : mem_strat &&& 0x3f = mode)
    (hP : ∀ x ∈ P, x ∈ placed Mcb.extent DOS_MEM_START F)
    (hfirst : mode = 1 → found_seg ≠ 0 → FirstSmallest n P found_seg found_seg_size) :
    TakesFirst mode n P
      (allocateFound s name n mem_strat bigsize found_seg found_seg_size).1 := by
  intro hone hok
  rw [allocateFound] at hok ⊢
  by_cases h0 : found_seg = 0
  · rw [if_neg (not_not_intro h0)] at hok
    cases hok
  · rw [if_pos h0, if_pos (hmode.trans hone)]
    have hsmallest := hfirst hone h0
    obtain ⟨B, x, C, hPx, rfl, -⟩ := id hsmallest
    obtain ⟨A, L, rfl, hA⟩ := exists_block (hP x (by rw [hPx]; simp))
    have hseg := segment_lt h
    have hpos := x.2.extent_pos
    exact ⟨x.1, found_seg_size, Nat.mod_eq_of_lt (by omega), hsmallest⟩

/-- **The loop searches all blocks of its way**, or stops at the one that it takes. -/
theorem allocateLoop_ends (name : Fin 8 → UInt8) (h : s.Inv r F) {rounds : ℕ} :
    ∀ {mem_strat seg bigsize found_seg found_seg_size : ℕ} {P R : List (ℕ × Mcb)},
      R.length ≤ rounds → Path s mem_strat seg R → mem_strat &&& 0x3f = mode →
      (∀ x ∈ P ++ R, x ∈ placed Mcb.extent DOS_MEM_START F) →
      Searching mode n P bigsize found_seg found_seg_size →
      (mode = 1 → found_seg ≠ 0 → FirstSmallest n P found_seg found_seg_size) →
      ∃ a s', allocateLoop s name n rounds mem_strat seg bigsize found_seg found_seg_size =
        .ok (a, s') ∧ (Ends s mode n (P ++ R) a s' ∧ Outcome r NoBlock s F s') ∧
          TakesFirst mode n (P ++ R) a := by
  induction rounds with
  | zero =>
    intro mem_strat seg _ _ _ P R hlen hpath
    rw [List.eq_nil_of_length_eq_zero (Nat.le_zero.mp hlen)] at hpath
    exact hpath.elim
  | succ rounds ih =>
    intro mem_strat seg bigsize found_seg found_seg_size P R hlen hpath hmode hplaced hsearch hfirst
    cases R with
    | nil => exact hpath.elim
    | cons x R =>
    obtain ⟨rfl, hnext⟩ := hpath
    have happend : P ++ (seg, header s.mem seg) :: R = (P ++ [(seg, header s.mem seg)]) ++ R := by
      simp
    -- going on with the search, or ending it
    have honward {big found size : ℕ}
        (hsearch : Searching mode n (P ++ [(seg, header s.mem seg)]) big found size)
        (hfirst : mode = 1 → found ≠ 0 →
          FirstSmallest n (P ++ [(seg, header s.mem seg)]) found size) :
        ∃ a s', (if GetType s.mem seg = ending_mcb_type then
          if mem_strat &&& 0x80 ≠ 0 ∧ s.umb_start = umb_start_seg then
            allocateLoop s name n rounds (mem_strat &&& 0xff3f) s.firstMCB big found size
          else .ok (allocateFound s name n mem_strat big found size)
        else
          allocateLoop s name n rounds mem_strat (u16 (seg + GetSize s.mem seg + 1)) big found
            size) = .ok (a, s') ∧
          (Ends s mode n (P ++ (seg, header s.mem seg) :: R) a s' ∧ Outcome r NoBlock s F s') ∧
          TakesFirst mode n (P ++ (seg, header s.mem seg) :: R) a := by
      rw [happend] at hplaced ⊢
      rw [List.length_cons] at hlen
      by_cases hz : GetType s.mem seg = ending_mcb_type
      · rw [if_pos hz] at hnext ⊢
        by_cases hlow : mem_strat &&& 0x80 ≠ 0 ∧ s.umb_start = umb_start_seg
        · rw [if_pos hlow] at hnext ⊢
          refine ih (by omega) hnext ?_ hplaced hsearch hfirst
          rw [Nat.and_assoc]
          exact hmode
        · rw [if_neg hlow] at hnext ⊢
          subst hnext
          rw [List.append_nil] at hplaced ⊢
          exact ⟨_, _, rfl, allocateFound_ends name h hmode hplaced hsearch,
            allocateFound_first name h hmode hplaced hfirst⟩
      · rw [if_neg hz] at hnext ⊢
        exact ih (by omega) hnext hmode hplaced hsearch hfirst
    obtain ⟨A, L, rfl, hA⟩ := exists_block (hplaced (seg, header s.mem seg) (by simp))
    have hseg := segment_lt h
    rw [Mcb.extent] at hseg
    have hlow : u16 (seg + 1) = seg + 1 := Nat.mod_eq_of_lt (by dsimp only at hA; omega)
    have hsize : GetSize s.mem seg = (header s.mem seg).size := rfl
    have hpassed (hone : mode = 1) (hne : found_seg ≠ 0) :
        FirstSmallest n (P ++ [(seg, header s.mem seg)]) found_seg found_seg_size :=
      (hfirst hone hne).append
    have hhere (hone : mode = 1)
        (hbetter : found_seg_size = 0 ∨ (header s.mem seg).size < found_seg_size) :
        FirstSmallest n (P ++ [(seg, header s.mem seg)]) seg (header s.mem seg).size :=
      ⟨P, _, [], rfl, rfl, rfl, fun y hy => hsearch.lt_of_better hone hbetter hy⟩
    rw [allocateLoop]
    by_cases hfree : GetPSPSeg s.mem seg = MCB_FREE
    · have hfree' : (header s.mem seg).psp = MCB_FREE := hfree
      rw [if_pos hfree]
      dsimp only
      by_cases hsmall : GetSize s.mem seg < n
      · rw [if_pos hsmall]
        exact honward (hsearch.pass (fun _ => (if_pos hfree').symm) fun hfits =>
          absurd hfits.2 (by dsimp only; omega)) hpassed
      rw [if_neg hsmall]
      have hfits : Fits n (seg, header s.mem seg) := ⟨hfree, by dsimp only; omega⟩
      have hne : seg ≠ 0 := by
        have : 0 < after A := Nat.lt_of_lt_of_le (by decide) (Nat.le_add_right _ _)
        dsimp only at hA
        omega
      by_cases hexact : GetSize s.mem seg = n ∧ mem_strat &&& 0x3f < 2
      · -- first fit and best fit take a block of exactly this size at once
        rw [if_pos hexact]
        have hmode2 : mode < 2 := hmode ▸ hexact.2
        have htaken : taken mode n (seg, header s.mem seg) = seg := if_pos hmode2
        have hchosen : Chosen mode n P (seg, header s.mem seg) R :=
          ⟨hfits, fun h0 => (hsearch.none (hsearch.first h0)).2,
            fun _ y _ hy => hexact.1.trans_le hy.2, fun h2 => absurd hmode2 (by omega)⟩
        have hheader := header_setOwner h
        rw [← hA] at hheader
        have howner : _ ∧ Keeps NoBlock _ _ _ _ :=
          h.setPSPSeg (by rw [hfree']; decide) h.psp fun hb => hb hfree'
        refine ⟨_, _, rfl, ⟨.inl ⟨rfl, P, _, R, rfl, hchosen, by rw [htaken]; exact hlow, ?_, ?_⟩,
          _, hA ▸ howner⟩, fun hone _ => ?_⟩
        · rw [htaken]
          exact congrArg Mcb.psp hheader
        · rw [htaken]
          exact (congrArg Mcb.size hheader).trans hexact.1
        · have hbetter : found_seg_size = 0 ∨ (header s.mem seg).size < found_seg_size := by
            rw [← hsize, hexact.1]
            exact hsearch.lt_noted hone
          exact ⟨seg, _, hlow, by rw [happend]; exact (hhere hone hbetter).append⟩
      rw [if_neg hexact]
      by_cases hfirst : mem_strat &&& 0x3f = 0
      · rw [if_pos hfirst]
        have hmode0 : mode = 0 := hmode.symm.trans hfirst
        have hlt : n < (header s.mem seg).size := by omega
        have htaken : taken mode n (seg, header s.mem seg) = seg := if_pos (by omega)
        have hchosen : Chosen mode n P (seg, header s.mem seg) R :=
          ⟨hfits, fun h0 => (hsearch.none (hsearch.first h0)).2, fun h1 => absurd h1 (by omega),
            fun h2 => absurd h2 (by omega)⟩
        have hheader := header_splitLow (n := n) name h hfree' hlt
        rw [← hA] at hheader
        refine ⟨_, _, rfl, ⟨.inl ⟨rfl, P, _, R, rfl, hchosen, by rw [htaken]; exact hlow, ?_, ?_⟩,
          _, hA ▸ h.splitLow name hfree' hlt⟩, fun hone => absurd hone (by omega)⟩
        · rw [htaken]
          exact congrArg Mcb.psp hheader
        · rw [htaken]
          exact congrArg Mcb.size hheader
      rw [if_neg hfirst]
      have hmode0 : mode ≠ 0 := fun h0 => hfirst (hmode.trans h0)
      by_cases hbest : mem_strat &&& 0x3f = 1
      · rw [if_pos hbest]
        have hmode1 : mode = 1 := hmode.symm.trans hbest
        by_cases hbetter : found_seg_size = 0 ∨ GetSize s.mem seg < found_seg_size
        · rw [if_pos hbetter]
          exact honward (hsearch.note hfits hne hmode0 (fun _ => by dsimp only; omega)
            fun _ => hbetter) fun hone _ => hhere hone hbetter
        · rw [if_neg hbetter]
          have hfound : found_seg ≠ 0 := fun h0 => hbetter (.inl (hsearch.none h0).1)
          exact honward (hsearch.pass (fun hno => absurd hfits hno)
            fun _ => ⟨hmode1, hfound, by dsimp only; omega⟩) hpassed
      · rw [if_neg hbest]
        have hmode1 : mode ≠ 1 := fun h1 => hbest (hmode.trans h1)
        exact honward (hsearch.note hfits hne hmode0 (fun h1 => absurd h1 hmode1)
          fun h1 => absurd h1 hmode1) fun h1 => absurd h1 hmode1
    · rw [if_neg hfree]
      exact honward (hsearch.pass (fun _ => (if_neg hfree).symm) fun hfits => absurd hfits.1 hfree)
        hpassed

/-! ## The call -/

/-- The segments from which the walks start. -/
def Starts (s : DosMemory) (seg : ℕ) : Prop :=
  seg = s.firstMCB ∨ (s.umb_start = umb_start_seg ∧ seg = s.umb_start)

theorem exists_start (h : s.Inv r F) (hseg : Starts s seg) :
    ∃ A b L, F = A ++ b :: L ∧ seg = after A ∧ L.length < maxRounds := by
  have hlen := h.length_lt
  rcases hseg with rfl | ⟨hupper, rfl⟩
  · obtain ⟨b, L, rfl⟩ := h.exists_first
    rw [List.length_cons] at hlen
    exact ⟨[], b, L, rfl, h.first, by omega⟩
  · obtain ⟨A, b, L, rfl, hA⟩ := h.exists_cover (h.umb_start_iff.1 hupper)
    rw [List.length_append, List.length_cons] at hlen
    exact ⟨A, b, L, rfl, hupper.trans hA.symm, by omega⟩

/-- A whole walk, and what comes after it. -/
theorem path_start (h : s.Inv r F) (hseg : Starts s seg) {T : List (ℕ × Mcb)}
    (hT : if mem_strat &&& 0x80 ≠ 0 ∧ s.umb_start = umb_start_seg then
      Path s (mem_strat &&& 0xff3f) s.firstMCB T else T = [])
    :
    Path s mem_strat seg (walk s.mem maxRounds seg ++ T) := by
  obtain ⟨A, b, L, rfl, rfl, hlen⟩ := exists_start h hseg
  exact path_walk hT h hlen

theorem walk_start (h : s.Inv r F) (hseg : Starts s seg) :
    (∀ x ∈ walk s.mem maxRounds seg, x ∈ placed Mcb.extent DOS_MEM_START F) ∧
      (walk s.mem maxRounds seg).Pairwise fun x y => x.1 < y.1 := by
  obtain ⟨A, b, L, rfl, rfl, hlen⟩ := exists_start h hseg
  obtain ⟨hmem, hsorted⟩ := walk_placed h hlen
  exact ⟨fun x hx => (hmem x hx).2, hsorted⟩

/-- The loop comes by the blocks of the chains that the strategy searches. -/
theorem path_searched (h : s.Inv r F) :
    Path s s.allocation_strategy
      (if s.umb_start = umb_start_seg ∧ s.allocation_strategy &&& 0xc0 ≠ 0 then s.umb_start
        else s.firstMCB) (searched s) := by
  rw [searched]
  have hfirst : Starts s s.firstMCB := .inl rfl
  by_cases hhigh : s.umb_start = umb_start_seg ∧ s.allocation_strategy &&& 0xc0 ≠ 0
  · rw [if_pos hhigh, if_pos hhigh]
    refine path_start h (.inr ⟨hhigh.1, rfl⟩) ?_
    by_cases hboth : s.allocation_strategy &&& 0x80 ≠ 0
    · rw [if_pos ⟨hboth, hhigh.1⟩, if_pos hboth]
      have hbit : s.allocation_strategy &&& 0xff3f &&& 0x80 = 0 := by
        rw [Nat.and_assoc]
        exact Nat.and_zero _
      have hlow : Path s (s.allocation_strategy &&& 0xff3f) s.firstMCB
          (walk s.mem maxRounds s.firstMCB ++ []) :=
        path_start h hfirst (by rw [if_neg fun h => h.1 hbit])
      rwa [List.append_nil] at hlow
    · rw [if_neg fun h => hboth h.1, if_neg hboth]
  · rw [if_neg hhigh, if_neg hhigh]
    have hone : ¬ (s.allocation_strategy &&& 0x80 ≠ 0 ∧ s.umb_start = umb_start_seg) := by
      rintro ⟨hbit, hupper⟩
      refine hhigh ⟨hupper, fun h0 => hbit ?_⟩
      have hmask : s.allocation_strategy &&& 0xc0 &&& 0x80 = s.allocation_strategy &&& 0x80 :=
        Nat.and_assoc ..
      rw [← hmask, h0]
      exact Nat.zero_and _
    have hlow := path_start h hfirst (T := []) (by rw [if_neg hone])
    rwa [List.append_nil] at hlow

theorem searched_placed (h : s.Inv r F) :
    (∀ x ∈ searched s, x ∈ placed Mcb.extent DOS_MEM_START F) ∧
      (searched s).length ≤ 2 * maxRounds := by
  have hfirst := (walk_start h (.inl rfl)).1
  have hlow := length_walk_le s.mem maxRounds s.firstMCB
  have hupper := length_walk_le s.mem maxRounds s.umb_start
  rw [searched]
  split
  · next hhigh =>
    have hhigh := (walk_start h (.inr ⟨hhigh.1, rfl⟩)).1
    split
    · refine ⟨fun x hx => ?_, by rw [List.length_append]; omega⟩
      rcases List.mem_append.mp hx with hx | hx
      · exact hhigh x hx
      · exact hfirst x hx
    · rw [List.append_nil]
      exact ⟨hhigh, by omega⟩
  · exact ⟨hfirst, by omega⟩

/-- The call searches the chain in which free blocks are joined. -/
theorem DOS_AllocateMemory_ends (h : s.Inv r F) (blocks : ℕ) :
    ∃ mem₁ a s', s.DOS_CompressMemory = .ok { s with mem := mem₁ } ∧
      Inv r { s with mem := mem₁ } (compressed F) ∧ s.DOS_AllocateMemory blocks = .ok (a, s') ∧
      Outcome r NoBlock s F s' ∧
      Ends { s with mem := mem₁ } (s.allocation_strategy &&& 0x3f) blocks
        (searched { s with mem := mem₁ }) a s' ∧
      TakesFirst (s.allocation_strategy &&& 0x3f) blocks (searched { s with mem := mem₁ }) a := by
  obtain ⟨mem₁, hcall, hinv, hkeep⟩ := h.compress
  obtain ⟨hplaced, hlen⟩ := searched_placed hinv
  obtain ⟨a, s', hloop, ⟨hends, hout⟩, hfirst⟩ := allocateLoop_ends
    (GetFileName mem₁ (u16 (s.psp + 2 ^ 16 - 1))) hinv hlen (path_searched hinv) rfl
    (P := []) hplaced (Searching.start _ blocks) fun _ hne => absurd rfl hne
  refine ⟨mem₁, a, s', hcall, hinv, ?_, hout.trans hkeep fun _ _ _ h _ _ => h, hends, hfirst⟩
  rw [DOS_AllocateMemory, hcall]
  simp only [bind, Except.bind]
  exact hloop

/-- **`DOS_AllocateMemory`** returns for every size and strategy, and keeps every
allocated block. -/
theorem DOS_AllocateMemory_outcome (h : s.Inv r F) (blocks : ℕ) :
    ∃ a s', s.DOS_AllocateMemory blocks = .ok (a, s') ∧ Outcome r NoBlock s F s' := by
  obtain ⟨mem₁, a, s', -, -, hallocate, hout, -⟩ := DOS_AllocateMemory_ends h blocks
  exact ⟨a, s', hallocate, hout⟩

/-- **`DOS_AllocateMemory`**, on a well-formed chain and after coalescing, returns a block
exactly when one fits among those that the strategy searches, each chain from its lowest block
on: `blocks` paragraphs of the running program, at the start of the first block that fits, at
the start of a smallest one or at the end of the last one.  Otherwise it returns the size of the
largest free block and changes nothing. -/
theorem DOS_AllocateMemory_result (h : s.Inv r F) (blocks : ℕ) :
    ∃ s₁ a s', s.DOS_CompressMemory = .ok s₁ ∧ s.DOS_AllocateMemory blocks = .ok (a, s') ∧
      (∀ seg, Starts s₁ seg → (walk s₁.mem maxRounds seg).Pairwise fun x y => x.1 < y.1) ∧
      (a.ok = true ↔ ∃ x ∈ searched s₁, Fits blocks x) ∧
      (a.ok = true →
        Served s₁ (s.allocation_strategy &&& 0x3f) blocks (searched s₁) a s') ∧
      (a.ok = false → a.blocks = largestFree (searched s₁) ∧ s'.mem = s₁.mem) := by
  obtain ⟨mem₁, a, s', hcall, hinv, hallocate, -, hends, -⟩ := DOS_AllocateMemory_ends h blocks
  refine ⟨_, a, s', hcall, hallocate, fun seg hseg => (walk_start hinv hseg).2, ?_⟩
  · rcases hends with ⟨hok, hserved⟩ | ⟨hno, hnone, hblocks, hmem⟩
    · refine ⟨iff_of_true hok ?_, fun _ => hserved, fun hno => ?_⟩
      · obtain ⟨B, x, C, hL, hchosen, -⟩ := hserved
        exact ⟨x, by rw [hL]; simp, hchosen.1⟩
      · rw [hok] at hno
        cases hno
    · refine ⟨iff_of_false (by rw [hno]; decide) fun ⟨x, hx, hfits⟩ => hnone x hx hfits,
        fun hok => ?_, fun _ => ⟨hblocks, hmem⟩⟩
      rw [hno] at hok
      cases hok

/-- What can be computed of a well-formed chain. -/
def Checked (r : Region) (s : DosMemory) (F : List Mcb) : Prop :=
  (s.firstMCB = DOS_MEM_START ∧ s.umb_start = (if r.umb then umb_start_seg else 0xffff) ∧
    s.umb_state = 0 ∧ s.psp < 2 ^ 16) ∧
  Tiles Mcb.extent (header s.mem) DOS_MEM_START F r.stop ∧
  (∀ x ∈ placed Mcb.extent DOS_MEM_START F,
    x.2.type = endType r s.umb_state (x.1 + x.2.extent)) ∧
  ∃ x ∈ placed Mcb.extent DOS_MEM_START F, x.1 = umb_start_seg ∧ x.2.psp = MCB_DOS

instance : Decidable (Checked r s F) := inferInstanceAs (Decidable (_ ∧ _ ∧ _ ∧ _))

theorem Checked.inv (h : Checked r s F) : s.Inv r F := by
  obtain ⟨⟨hfirst, hstart, hstate, hpsp⟩, htiles, htypes, ⟨p, b⟩, hp, rfl, hb⟩ := h
  exact ⟨hfirst, htiles, fun hp => htypes _ hp, fun _ => ⟨b, hp, hb⟩, hstart, .inl hstate, hpsp⟩

/-- The chain that is built at boot. -/
def setup : DosMemory := DOS_SetupMemory .Other (unused (fun _ => 0) 0x200 .Repair)

theorem setup_inv : Inv (lowRegion .Other) setup (setupBlocks .Other) :=
  DOS_SetupMemory_inv .Other rfl rfl (by decide)

theorem setup_compress : setup.DOS_CompressMemory = .ok setup := by
  rfl

/-- On it a program gets 16 paragraphs. -/
theorem DOS_AllocateMemory_result_setup :
    ∃ a s', setup.DOS_AllocateMemory 16 = .ok (a, s') ∧ a.ok = true ∧
      Served setup 0 16 (searched setup) a s' := by
  obtain ⟨s₁, a, s', hcall, hok, -, hiff, hserved, -⟩ := DOS_AllocateMemory_result setup_inv 16
  rw [setup_compress] at hcall
  cases hcall
  have hfits : ∃ x ∈ searched setup, Fits 16 x := by decide
  exact ⟨a, s', hok, hiff.mpr hfits, hserved (hiff.mpr hfits)⟩

end DosMemory

end AugraDosbox
