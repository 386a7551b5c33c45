import AugraDosbox.Dos.McbCalls

/-!
# Upper memory blocks and the first chain

* `DOS_LinkUMBsToMemChain_spec` — linking and unlinking only rewrite the type of
  the last low block.
* `setup_inv` — the chain that `DOS_SetupMemory` and `DOS_BuildUMBChain` build.
-/

namespace AugraDosbox

open Tiling DOS_MCB

namespace DosMemory

variable {r : Region} {s : DosMemory} {A B F P Q : List Mcb} {b d : Mcb} {mem mem' : Memory}

/-! ## Linking -/

/-- Writing in a header keeps the data of all blocks. -/
theorem Keeps.header {but : ℕ → Mcb → Prop} {t : ℕ}
    (hmem : SameOutside (after P) (after P + 1) mem mem') :
    Keeps but mem mem' (P ++ d :: Q) (P ++ { d with type := t } :: Q) := by
  intro p b hp _ _
  have hd : (after P, d) ∈ placed Mcb.extent DOS_MEM_START (P ++ d :: Q) := placed_after
  refine ⟨?_, fun a h1 h2 => hmem a ?_⟩
  · have hsame : placed Mcb.extent (after P) (d :: Q) =
        (after P, d) :: placed Mcb.extent (after P + d.extent) Q := rfl
    rw [placed_append, List.mem_append, hsame, List.mem_cons] at hp
    rw [placed_append]
    rcases hp with hp | hp | hp
    · exact ⟨b, List.mem_append_left _ hp, rfl, rfl⟩
    · obtain ⟨rfl, rfl⟩ := Prod.mk.inj hp
      exact ⟨{ b with type := t }, List.mem_append_right _ List.mem_cons_self, rfl, rfl⟩
    · exact ⟨b, List.mem_append_right _ (List.mem_cons_of_mem _ hp), rfl, rfl⟩
  · rcases placed_disjoint hp hd with ⟨rfl, -⟩ | h | h
    · omega
    · rw [Mcb.extent] at h
      omega
    · rw [Mcb.extent] at h
      omega

/-- The last low block gets the type that the new state of the link asks for. -/
theorem Inv.relink {u t : ℕ} (h : s.Inv r (P ++ d :: Q)) (humb : r.umb = true)
    (hend : after (P ++ [d]) = umb_start_seg) (hu : u = 0 ∨ u = 1)
    (ht : t = endType r u umb_start_seg) :
    Inv r { s with mem := SetType s.mem (after P) t, umb_state := u }
      (P ++ { d with type := t } :: Q) := by
  have htlt : t < 256 := by
    rw [ht, endType]
    split <;> decide
  rw [after_concat] at hend
  have hmem : SameOutside (after P) (after P + d.extent) s.mem (SetType s.mem (after P) t) :=
    SameOutside.refl.SetType le_rfl (Nat.lt_add_of_pos_right d.extent_pos)
  have hplaced : ∀ {e : Mcb} {p b}, e.extent = d.extent →
      ((p, b) ∈ placed Mcb.extent DOS_MEM_START (P ++ e :: Q) ↔
        (p, b) ∈ placed Mcb.extent DOS_MEM_START P ∨ (p = after P ∧ b = e) ∨
          (p, b) ∈ placed Mcb.extent umb_start_seg Q) := by
    intro e p b he
    simp only [placed_append, placed, List.mem_append, List.mem_cons, Prod.mk.injEq, he, hend]
  -- the ends of the other blocks do not depend on the link
  have hsame : ∀ {e}, e ≠ umb_start_seg → endType r u e = endType r s.umb_state e := by
    intro e he
    simp only [endType, he, and_false, or_false]
  constructor
  · exact h.first
  · have htiles : Tiles Mcb.extent (header s.mem) DOS_MEM_START (P ++ [d] ++ Q) r.stop := by
      simpa using h.tiles
    have hd : header (SetType s.mem (after P) t) (after P) = { d with type := t } := by
      rw [header_SetType htlt, if_pos rfl, h.header_at]
    have hres := htiles.replace Mcb.extent_pos (Y := [{ d with type := t }])
      ⟨hd, by simp [Tiles, Mcb.extent]⟩ fun p hp => hmem.header (by simpa [Nat.add_assoc] using hp)
    simpa using hres
  · intro p b hp
    rcases (hplaced (e := { d with type := t }) rfl).1 hp with hP | ⟨rfl, rfl⟩ | hQ
    · rw [h.types ((hplaced rfl).2 (Or.inl hP)), hsame]
      have := ((tiles_append.1 h.tiles).1).placed_bounds hP
      have := d.extent_pos
      simp only [after] at hend
      omega
    · rw [ht, ← hend]
      rfl
    · rw [h.types ((hplaced rfl).2 (Or.inr (Or.inr hQ))), hsame]
      obtain ⟨C, D, -, rfl⟩ := mem_placed.1 hQ
      have := b.extent_pos
      omega
  · intro _
    obtain ⟨b, hb, hpsp⟩ := h.cover humb
    rcases (hplaced rfl).1 hb with hP | ⟨hp, -⟩ | hQ
    · exact ⟨b, (hplaced (e := { d with type := t }) rfl).2 (Or.inl hP), hpsp⟩
    · have := d.extent_pos
      omega
    · exact ⟨b, (hplaced (e := { d with type := t }) rfl).2 (Or.inr (Or.inr hQ)), hpsp⟩
  · exact h.umb_start
  · rcases hu with rfl | rfl
    · exact Or.inl rfl
    · exact Or.inr ⟨rfl, humb⟩
  · exact h.psp

theorem Inv.exists_last_low (h : s.Inv r F) (hu : r.umb = true) :
    ∃ P d Q, F = P ++ d :: Q ∧ after (P ++ [d]) = umb_start_seg := by
  obtain ⟨A, b, L, rfl, hA⟩ := h.exists_cover hu
  rcases List.eq_nil_or_concat A with rfl | ⟨P, d, rfl⟩
  · exact absurd hA (by decide)
  · exact ⟨P, d, b :: L, by simp, by simpa using hA⟩

/-- A low block before the last one has the middle type. -/
theorem Inv.type_low (h : s.Inv r (A ++ b :: B)) (hu : r.umb = true)
    (hlt : after (A ++ [b]) < umb_start_seg) : b.type = middle_mcb_type := by
  have hstop := r.umb_lt hu
  rw [h.types placed_after, endType, ← after_concat, if_neg]
  omega

/-- One round of the walk, over a low block before the last one. -/
theorem linkLoop_step {rounds prev : ℕ} (h : s.Inv r (A ++ b :: B)) (hu : r.umb = true)
    (htype : b.type = middle_mcb_type) (hlt : after A < umb_start_seg) :
    linkLoop s (rounds + 1) prev (after A) = linkLoop s rounds (after A) (after (A ++ [b])) := by
  have hstart := h.umb_start_iff.2 hu
  have hgo : after A ≠ s.umb_start ∧ GetType s.mem (after A) ≠ ending_mcb_type := by
    rw [h.getType_at, htype, hstart]
    exact ⟨hlt.ne, by decide⟩
  rw [linkLoop, if_pos hgo, h.getSize_at, h.u16_next]

theorem linkLoop_low (hu : r.umb = true) :
    ∀ {A : List Mcb} (rounds prev : ℕ), s.Inv r (A ++ B ++ d :: Q) →
      after (A ++ B ++ [d]) = umb_start_seg →
      ∃ prev', linkLoop s (rounds + B.length) prev (after A) =
        linkLoop s rounds prev' (after (A ++ B)) := by
  induction B with
  | nil => exact fun rounds prev _ _ => ⟨prev, by simp⟩
  | cons b B ih =>
    intro A rounds prev h hend
    have hb : s.Inv r (A ++ b :: (B ++ d :: Q)) := by simpa using h
    have hlt : after (A ++ [b]) < umb_start_seg := by
      have := d.extent_pos
      rw [← hend, after_concat]
      simp only [after, total_append, total_cons, total_nil]
      omega
    have hlt' : after A < umb_start_seg := by
      rw [after_concat] at hlt
      omega
    obtain ⟨prev', hloop⟩ := ih rounds (after A) (A := A ++ [b]) (by simpa using h)
      (by simpa using hend)
    refine ⟨prev', ?_⟩
    rw [List.length_cons, ← Nat.add_assoc, linkLoop_step hb hu (hb.type_low hu hlt) hlt', hloop]
    simp

/-- **`DOS_LinkUMBsToMemChain`** returns, and keeps every allocated block. -/
theorem DOS_LinkUMBsToMemChain_spec {linkstate : ℕ} (h : s.Inv r F)
    (hstate : linkstate = 0 ∨ linkstate = 1) :
    ∃ ok s', s.DOS_LinkUMBsToMemChain linkstate = .ok (ok, s') ∧ Outcome r NoBlock s F s' := by
  rw [DOS_LinkUMBsToMemChain]
  by_cases hstart : s.umb_start ≠ umb_start_seg
  · rw [if_pos hstart]
    exact ⟨_, _, rfl, F, h, Keeps.refl⟩
  rw [if_neg hstart]
  by_cases hsame : linkstate &&& 1 = s.umb_state &&& 1
  · rw [if_pos hsame]
    exact ⟨_, _, rfl, F, h, Keeps.refl⟩
  rw [if_neg hsame]
  have hu := h.umb_start_iff.1 (not_not.1 hstart)
  obtain ⟨P, d, Q, rfl, hend⟩ := h.exists_last_low hu
  have hlt : after P < umb_start_seg := by
    rw [← hend, after_concat]
    exact Nat.lt_add_of_pos_right d.extent_pos
  obtain ⟨n, hn⟩ : ∃ n, maxRounds = (n + 2) + P.length := by
    have := h.length_lt
    rw [List.length_append, List.length_cons] at this
    exact ⟨maxRounds - P.length - 2, by omega⟩
  obtain ⟨prev', hloop⟩ := linkLoop_low hu (A := []) (n + 2) s.firstMCB (by simpa using h)
    (by simpa using hend)
  have hfirst : after [] = s.firstMCB := h.first.symm
  rw [hfirst, List.nil_append, ← hn] at hloop
  rw [hloop]
  have hdtype := h.types placed_after
  rw [← after_concat, hend] at hdtype
  have hstop := (r.umb_lt hu).ne
  rcases hstate with rfl | rfl
  · have hlinked : s.umb_state = 1 := by
      rcases h.umb_state with hs | hs
      · exact absurd (by rw [hs]) hsame
      · exact hs.1
    have hmiddle : d.type = middle_mcb_type := by
      rw [hdtype, endType, if_neg]
      rintro (heq | ⟨-, hne', -⟩)
      · exact hstop heq
      · exact hne' hlinked
    have hlast : linkLoop s (n + 2) prev' (after P) = .ok (after P, s.umb_start) := by
      rw [linkLoop_step h hu hmiddle hlt, hend, not_not.1 hstart, linkLoop,
        if_neg fun hgo => hgo.1 (not_not.1 hstart).symm]
    rw [hlast]
    simp only [bind, Except.bind]
    rw [if_pos ⟨h.getType_at.trans hmiddle, trivial⟩]
    refine ⟨_, _, rfl, _, h.relink hu hend (Or.inl rfl) ?_, Keeps.header ?_⟩
    · rw [endType, if_pos (Or.inr ⟨hu, by decide, rfl⟩)]
    · exact SameOutside.refl.SetType le_rfl (Nat.lt_succ_self _)
  · have hlinked : s.umb_state = 0 := by
      rcases h.umb_state with hs | hs
      · exact hs
      · exact absurd (by rw [hs.1]) hsame
    have hending : GetType s.mem (after P) = ending_mcb_type := by
      rw [h.getType_at, hdtype, endType, if_pos (Or.inr ⟨hu, by omega, rfl⟩)]
    have hlast : linkLoop s (n + 2) prev' (after P) = .ok (prev', after P) := by
      rw [linkLoop, if_neg fun hgo => hgo.2 hending]
    rw [hlast]
    simp only [bind, Except.bind]
    rw [if_pos hending]
    refine ⟨_, _, rfl, _, h.relink hu hend (Or.inr rfl) ?_, Keeps.header ?_⟩
    · rw [endType, if_neg]
      rintro (heq | ⟨-, hne', -⟩)
      · exact hstop heq
      · exact hne' rfl
    · exact SameOutside.refl.SetType le_rfl (Nat.lt_succ_self _)

/-! ## The first chain -/

theorem header_putMcb {seg q psp size mcb_type : ℕ} (hpsp : psp < 2 ^ 16) (hsize : size < 2 ^ 16)
    (htype : mcb_type < 256) :
    header (putMcb mem seg psp size mcb_type) q =
      if q = seg then ⟨mcb_type, psp, size⟩ else header mem q := by
  rw [putMcb, header_SetType htype, header_SetSize hsize, header_SetPSPSeg hpsp]
  split <;> rfl

/-- The segment at which the low chain ends. -/
def lowStop : Machine → ℕ
  | .Tandy => 0x9c00
  | .PcjrExpanded => umb_start_seg
  | .PcjrStandard => 0x1800
  | .Other => umb_start_seg

/-- The low chain. -/
def lowRegion (machine : Machine) : Region where
  stop := lowStop machine
  umb := false
  lt_stop := by cases machine <;> decide
  stop_le := by cases machine <;> decide
  umb_lt := by intro h; cases h

/-- The blocks that `DOS_SetupMemory` lays out. -/
def setupBlocks (machine : Machine) : List Mcb :=
  [⟨middle_mcb_type, MCB_DOS, 1⟩, ⟨middle_mcb_type, MCB_FREE, 4⟩, ⟨middle_mcb_type, 0x40, 16⟩] ++
    match machine with
    | .Tandy => [⟨ending_mcb_type, MCB_FREE, 0x9BFF - (DOS_MEM_START + 24)⟩]
    | .PcjrExpanded =>
        [⟨middle_mcb_type, MCB_DOS, 0x2400 - (DOS_MEM_START + 24) - 1⟩,
          ⟨ending_mcb_type, MCB_FREE, umb_start_seg - 0x2400 - 1⟩]
    | .PcjrStandard => [⟨ending_mcb_type, MCB_FREE, 0x1800 - (DOS_MEM_START + 24) - 1⟩]
    | .Other => [⟨ending_mcb_type, MCB_FREE, 0x9FFE - (DOS_MEM_START + 24)⟩]

/-- The memory manager before the chain is built. -/
def unused (mem : Memory) (psp : UInt16) (strategy : McbFaultStrategy) : DosMemory :=
  { mem := mem, psp := psp.toNat, mcb_fault_strategy := strategy }

/-- **`DOS_SetupMemory`** builds a well-formed low chain. -/
theorem DOS_SetupMemory_inv (machine : Machine) (hstart : s.umb_start = 0xffff)
    (hstate : s.umb_state = 0) (hpsp : s.psp < 2 ^ 16) :
    Inv (lowRegion machine) (DOS_SetupMemory machine s) (setupBlocks machine) := by
  constructor
  · rfl
  · simp only [DOS_SetupMemory]
    generalize List.foldl _ _ _ = mem
    cases machine <;> simp [setupBlocks, setupFree, Tiles, header_putMcb, Mcb.extent, lowRegion,
      lowStop, MCB_DOS, MCB_FREE, DOS_MEM_START, middle_mcb_type, ending_mcb_type, umb_start_seg]
  · intro p b hp
    have hall : ∀ q ∈ placed Mcb.extent DOS_MEM_START (setupBlocks machine),
        q.2.type = endType (lowRegion machine) 0 (q.1 + q.2.extent) := by
      cases machine <;> decide
    have hb := hall (p, b) hp
    rwa [← hstate] at hb
  · intro h
    cases h
  · exact hstart
  · exact Or.inl hstate
  · exact hpsp

theorem Inv.frame (h : s.Inv r F) (hmem : ∀ a, a < 16 * r.stop → mem' a = s.mem a) :
    Inv r { s with mem := mem' } F where
  first := h.first
  tiles := h.tiles.congr Mcb.extent_pos fun p _ hp => header_congr fun a _ _ => hmem a (by omega)
  types := h.types
  cover := h.cover
  umb_start := h.umb_start
  umb_state := h.umb_state
  psp := h.psp

/-- The walk of `DOS_BuildUMBChain` ends at the last low block. -/
theorem lastLoop_spec (hu : r.umb = false) {L : List Mcb} :
    ∀ {A : List Mcb} {b : Mcb} {rounds : ℕ}, s.Inv r (A ++ b :: L) → L.length < rounds →
      ∃ P d, A ++ b :: L = P ++ [d] ∧ lastLoop s.mem rounds (after A) = .ok (after P) := by
  induction L with
  | nil =>
    intro A b rounds h hlen
    obtain ⟨n, rfl⟩ := Nat.exists_eq_add_of_lt hlen
    refine ⟨A, b, rfl, ?_⟩
    have htype : GetType s.mem (after A) = ending_mcb_type := by
      rw [h.getType_at, h.types placed_after, endType, if_pos]
      left
      rw [h.stop_eq, after_concat]
    rw [lastLoop, if_neg (not_not.2 htype)]
  | cons c L ih =>
    intro A b rounds h hlen
    obtain ⟨n, rfl⟩ := Nat.exists_eq_add_of_lt hlen
    have h' : s.Inv r ((A ++ [b]) ++ c :: L) := by simpa using h
    have htype : GetType s.mem (after A) ≠ ending_mcb_type := by
      rw [h.getType_at, h.types placed_after, endType, if_neg]
      · decide
      · rintro (heq | ⟨hu', -⟩)
        · have := h'.stop_eq
          have := c.extent_pos
          simp only [after, total_append, total_cons, total_nil] at *
          omega
        · rw [hu] at hu'
          cases hu'
    obtain ⟨P, d, hPd, hloop⟩ := ih h' (Nat.lt_succ_of_le (Nat.le_add_right L.length n))
    rw [Nat.succ_eq_add_one, Nat.add_right_comm] at hloop
    refine ⟨P, d, by simpa using hPd, ?_⟩
    rw [lastLoop, if_pos htype, h.getSize_at, h.u16_next, List.length_cons, hloop]

/-- The low chain with upper memory blocks behind it. -/
def upperRegion (ems_active : Bool) : Region where
  stop := if ems_active then 0xe000 else 0xf000
  umb := true
  lt_stop := by cases ems_active <;> decide
  stop_le := by cases ems_active <;> decide
  umb_lt := by intro _; cases ems_active <;> decide

/-- The region that `DOS_BuildUMBChain` leaves. -/
def builtRegion (machine : Machine) (umb_active ems_active : Bool) : Region :=
  if umb_active ∧ machine = .Other then upperRegion ems_active else lowRegion machine

/-- The upper blocks behind the low chain. -/
theorem Inv.addUpper {ems_active : Bool} {y z : Mcb} (h : s.Inv (lowRegion .Other) F)
    (hmem : ∀ a, a < 16 * umb_start_seg → mem' a = s.mem a)
    (hy : header mem' umb_start_seg = y) (hz : header mem' (umb_start_seg + y.extent) = z)
    (hstop : umb_start_seg + y.extent + z.extent = (upperRegion ems_active).stop)
    (htypes : y.type = middle_mcb_type ∧ z.type = ending_mcb_type) (hpsp : y.psp = MCB_DOS) :
    Inv (upperRegion ems_active) { s with mem := mem', umb_start := umb_start_seg, umb_state := 0 }
      (F ++ [y, z]) := by
  have hend : after F = umb_start_seg := h.stop_eq.symm
  have hpos := z.extent_pos
  have hplaced : ∀ {p b}, (p, b) ∈ placed Mcb.extent DOS_MEM_START (F ++ [y, z]) ↔
      (p, b) ∈ placed Mcb.extent DOS_MEM_START F ∨ (p = umb_start_seg ∧ b = y) ∨
        (p = umb_start_seg + y.extent ∧ b = z) := by
    intro p b
    have hend' : DOS_MEM_START + total Mcb.extent F = umb_start_seg := hend
    simp only [placed_append, placed, hend', List.mem_append, List.mem_cons, Prod.mk.injEq,
      List.not_mem_nil, or_false]
  constructor
  · exact h.first
  · refine tiles_append.2 ⟨?_, ?_⟩
    · exact (h.frame hmem).tiles.stop_eq ▸ (h.frame hmem).tiles
    · rw [show DOS_MEM_START + total Mcb.extent F = umb_start_seg from hend]
      exact ⟨hy, hz, hstop⟩
  · intro p b hp
    have hne : umb_start_seg + y.extent ≠ umb_start_seg := by
      have := y.extent_pos
      omega
    rcases hplaced.1 hp with hF | ⟨rfl, rfl⟩ | ⟨rfl, rfl⟩
    · have hle := (h.tiles.placed_bounds hF).2
      have hlt : umb_start_seg < (upperRegion ems_active).stop := (upperRegion ems_active).umb_lt rfl
      have hstop' : p + b.extent ≠ (upperRegion ems_active).stop :=
        (lt_of_le_of_lt hle hlt).ne
      have humb : (upperRegion ems_active).umb = true := rfl
      rw [h.types hF]
      simp only [endType, hstop', humb, false_or]
      simp [lowRegion, lowStop]
    · rw [htypes.1, endType, if_neg]
      rintro (heq | ⟨-, -, heq⟩)
      · omega
      · exact hne heq
    · rw [htypes.2, endType, if_pos (Or.inl hstop)]
  · exact fun _ => ⟨y, hplaced.2 (Or.inr (Or.inl ⟨rfl, rfl⟩)), hpsp⟩
  · rfl
  · exact Or.inl rfl
  · exact h.psp

/-- **`DOS_BuildUMBChain`** returns, and puts the upper chain behind the low one. -/
theorem DOS_BuildUMBChain_inv {machine : Machine} {umb_active ems_active : Bool}
    (h : s.Inv (lowRegion machine) F) :
    ∃ s' F', DOS_BuildUMBChain machine s umb_active ems_active = .ok s' ∧
      Inv (builtRegion machine umb_active ems_active) s' F' := by
  simp only [DOS_BuildUMBChain, builtRegion]
  by_cases hon : umb_active ∧ machine = .Other
  · rw [if_pos hon, if_pos hon]
    obtain ⟨-, rfl⟩ := hon
    -- the header of the first upper block lies behind the low chain
    generalize hsize : (if ems_active = true then 0x1000 else 0x2000) = first_umb_size
    have hlt : first_umb_size - 1 < 2 ^ 16 := by
      rw [← hsize]
      split <;> decide
    have hmem₁ : putMcb s.mem 0xd000 0 (first_umb_size - 1) ending_mcb_type =
        SetType (SetSize (SetPSPSeg s.mem 0xd000 0) 0xd000 (first_umb_size - 1)) 0xd000
          ending_mcb_type := rfl
    rw [← hmem₁]
    have hupper : ∀ seg, header (putMcb s.mem 0xd000 0 (first_umb_size - 1) ending_mcb_type) seg =
        if seg = 0xd000 then ⟨ending_mcb_type, 0, first_umb_size - 1⟩ else header s.mem seg :=
      fun seg => header_putMcb (by decide) hlt (by decide)
    have hlow : ∀ a, a < 16 * (lowRegion .Other).stop →
        putMcb s.mem 0xd000 0 (first_umb_size - 1) ending_mcb_type a = s.mem a := by
      intro a ha
      refine SameOutside.SetType (q := 0xd001) (p := 0xd000) (.SetSize (.SetPSPSeg .refl ?_ ?_) ?_ ?_)
        ?_ ?_ a (Or.inl ?_) <;> simp only [lowRegion, lowStop, umb_start_seg] at ha ⊢ <;> omega
    generalize putMcb s.mem 0xd000 0 (first_umb_size - 1) ending_mcb_type = mem₁ at *
    have h₁ := h.frame hlow
    obtain ⟨b, L, rfl⟩ := h₁.exists_first
    obtain ⟨P, d, hPd, hloop⟩ := lastLoop_spec rfl (A := []) h₁
      (Nat.lt_of_succ_lt h₁.length_lt)
    rw [List.nil_append] at hPd
    rw [hPd] at h₁
    have hfirst : after [] = s.firstMCB := h.first.symm
    rw [hfirst] at hloop
    simp only [bind, Except.bind]
    rw [hloop]
    have hcover : u16 (after P + GetSize mem₁ (after P) + 1) = umb_start_seg := by
      have hsize' : GetSize mem₁ (after P) = d.size := h₁.getSize_at
      rw [hsize', h₁.u16_next]
      exact h₁.stop_eq.symm
    simp only [hcover]
    generalize hmem' : SetFileName _ umb_start_seg coverName = mem'
    have hout : SameOutside umb_start_seg (umb_start_seg + 1) mem₁ mem' := by
      rw [← hmem']
      refine SameOutside.SetFileName (.SetSize (.SetPSPSeg (.SetType .refl ?_ ?_) ?_ ?_) ?_ ?_) ?_ ?_
        <;> omega
    have hy : header mem' umb_start_seg = ⟨middle_mcb_type, MCB_DOS, 0xd000 - umb_start_seg - 1⟩ := by
      have hfit : u16 (0xd000 - umb_start_seg - 1) = 0xd000 - umb_start_seg - 1 := by decide
      rw [← hmem', hfit, header_SetFileName, header_SetSize (by decide), header_SetPSPSeg (by decide),
        header_SetType (by decide)]
      rfl
    have hz : header mem' 0xd000 = ⟨ending_mcb_type, 0, first_umb_size - 1⟩ := by
      rw [hout.header (by decide), hupper, if_pos rfl]
    refine ⟨_, _, rfl, h.addUpper (fun a ha => ?_) hy hz ?_ ⟨rfl, rfl⟩ rfl⟩
    · rw [hout a (Or.inl ha), hlow a ha]
    · rw [← hsize]
      cases ems_active <;> rfl
  · rw [if_neg hon, if_neg hon]
    refine ⟨_, F, rfl, h.first, h.tiles, ?_, h.cover, rfl, Or.inl rfl, h.psp⟩
    intro p b hp
    rw [h.types hp]
    simp [endType, lowRegion]

end DosMemory

end AugraDosbox
