import AugraDosbox.Dos.McbCompress

/-!
# What the memory calls do to the chain

One specification for each function of `dos/dos_memory.cpp`: it returns, keeps the
invariant, and keeps every allocated block that it is not asked to free or resize.
-/

namespace AugraDosbox

open Tiling DOS_MCB

namespace DosMemory

variable {r : Region} {s : DosMemory} {A B F L : List Mcb} {b c : Mcb} {mem : Memory}

variable {but : ℕ → Mcb → Prop} {blocks : ℕ}

/-! ## Joining free blocks -/

/-- The system keeps the block that covers video memory. -/
theorem Inv.compress (h : s.Inv r F) :
    ∃ mem', s.DOS_CompressMemory = .ok { s with mem := mem' } ∧
      Inv r { s with mem := mem' } (compressed F) ∧ Keeps NoBlock s.mem mem' F (compressed F) := by
  obtain ⟨mem', hcall, htiled, hkeep⟩ := DOS_CompressMemory_exact h.tiled
  exact ⟨mem', hcall, h.of_tiled htiled hkeep (fun _ _ _ => not_false) rfl rfl, hkeep⟩

/-- **`DOS_CompressMemory`** returns and keeps every allocated block. -/
theorem DOS_CompressMemory_spec (h : s.Inv r F) :
    ∃ mem' F', s.DOS_CompressMemory = .ok { s with mem := mem' } ∧
      Inv r { s with mem := mem' } F' ∧ Keeps NoBlock s.mem mem' F F' := by
  obtain ⟨mem', hcall⟩ := h.compress
  exact ⟨mem', _, hcall⟩

/-! ## Changing the owner -/

theorem Inv.ne_cover (h : s.Inv r (A ++ b :: L)) (hb : b.psp ≠ MCB_DOS) (hu : r.umb = true) :
    after A ≠ umb_start_seg := by
  intro hat
  obtain ⟨d, hd, hpsp⟩ := h.cover hu
  rw [← h.tiles.read_placed hd, ← hat, h.header_at] at hpsp
  exact hb hpsp

/-- An edit of a block that is not a system block. -/
theorem Inv.edited {mem' : Memory} {F' : List Mcb} (h : s.Inv r (A ++ b :: L))
    (hb : b.psp ≠ MCB_DOS) (hbut : b.psp ≠ MCB_FREE → but (after A) b)
    (hedit : Tiled r { s with mem := mem' } F' ∧
      Keeps (fun p d => p = after A ∧ d = b ∧ b.psp ≠ MCB_FREE) s.mem mem' (A ++ b :: L) F') :
    Inv r { s with mem := mem' } F' ∧ Keeps but s.mem mem' (A ++ b :: L) F' := by
  obtain ⟨htiled, hkeep⟩ := hedit
  refine ⟨h.of_tiled htiled hkeep ?_ rfl rfl, hkeep.mono ?_⟩
  · rintro d - hpsp ⟨-, rfl, -⟩
    exact hb hpsp
  · rintro p d ⟨rfl, rfl, hne⟩
    exact hbut hne

/-- A block that is not a system block gets another owner. -/
theorem Inv.setOwner {v : ℕ} {mem' : Memory} (h : s.Inv r (A ++ b :: L)) (hb : b.psp ≠ MCB_DOS)
    (hmem : SameOutside (after A) (after A + b.extent) s.mem mem')
    (hy : header mem' (after A) = { b with psp := v }) (hbut : b.psp ≠ MCB_FREE → but (after A) b) :
    Inv r { s with mem := mem' } (A ++ { b with psp := v } :: L) ∧
      Keeps but s.mem mem' (A ++ b :: L) (A ++ { b with psp := v } :: L) := by
  refine h.edited hb hbut ?_
  have hX : s.Tiled r (A ++ b :: [] ++ L) := by simpa using h.tiled
  have htype : b.type = endType r s.umb_state (after A + b.extent) := h.tiled.types placed_after
  have hres : _ ∧ Keeps (fun p d => p = after A ∧ d = b ∧ b.psp ≠ MCB_FREE) _ _ _ _ :=
    hX.toOne (y := { b with psp := v }) (by simp) hmem (by simp [Mcb.extent]) hy htype fun hne =>
      ⟨fun hu hat => absurd hat (h.ne_cover hb hu), rfl, rfl, hne⟩
  simpa using hres

theorem Inv.setPSPSeg {v : ℕ} (h : s.Inv r (A ++ b :: L)) (hb : b.psp ≠ MCB_DOS) (hv : v < 2 ^ 16)
    (hbut : b.psp ≠ MCB_FREE → but (after A) b) :
    Inv r { s with mem := SetPSPSeg s.mem (after A) v } (A ++ { b with psp := v } :: L) ∧
      Keeps but s.mem (SetPSPSeg s.mem (after A) v) (A ++ b :: L)
        (A ++ { b with psp := v } :: L) := by
  refine h.setOwner hb (SameOutside.refl.SetPSPSeg le_rfl ?_) ?_ hbut
  · exact Nat.lt_add_of_pos_right b.extent_pos
  · rw [header_SetPSPSeg hv, if_pos rfl, h.header_at]

/-- The blocks of a program. -/
abbrev OwnedBy (pspseg : ℕ) : ℕ → Mcb → Prop := fun _ b => b.psp = pspseg

theorem ownedBy_congr (pspseg p : ℕ) (b b' : Mcb) (h : OwnedBy pspseg p b') (hpsp : b'.psp = b.psp)
    (_ : b'.size = b.size) : OwnedBy pspseg p b := hpsp.symm.trans h

theorem freeProcessLoop_spec (strategy : McbFaultStrategy) (rounds : ℕ) {pspseg : ℕ}
    (hdos : pspseg ≠ MCB_DOS) :
    ∀ {A : List Mcb} {b : Mcb} {L : List Mcb} {s : DosMemory}, s.Inv r (A ++ b :: L) →
      L.length < rounds →
      ∃ mem' F', freeProcessLoop strategy pspseg rounds 0 (after A) s.mem = .ok mem' ∧
        Inv r { s with mem := mem' } F' ∧
        Keeps (OwnedBy pspseg) s.mem mem' (A ++ b :: L) F' := by
  induction rounds with
  | zero => intro A b L s _ hlen; omega
  | succ rounds ih =>
    intro A b L s h hlen
    -- the block after its owner has been looked at
    obtain ⟨mem₁, b₁, hmem₁, htype, hinv, hkeep⟩ : ∃ mem₁ b₁,
        (if GetPSPSeg s.mem (after A) = pspseg then SetPSPSeg s.mem (after A) MCB_FREE
          else s.mem) = mem₁ ∧ b₁.type = b.type ∧
        Inv r { s with mem := mem₁ } (A ++ b₁ :: L) ∧
        Keeps (OwnedBy pspseg) s.mem mem₁ (A ++ b :: L) (A ++ b₁ :: L) := by
      rw [h.getPSPSeg_at]
      by_cases hpsp : b.psp = pspseg
      · rw [if_pos hpsp]
        exact ⟨_, { b with psp := MCB_FREE }, rfl, rfl,
          h.setPSPSeg (hpsp ▸ hdos) (by decide) fun _ => hpsp⟩
      · rw [if_neg hpsp]
        exact ⟨_, b, rfl, rfl, h, Keeps.refl⟩
    rw [freeProcessLoop, if_neg (by decide)]
    simp only [hmem₁]
    by_cases hz : b₁.type = ending_mcb_type
    · exact ⟨mem₁, _, by rw [if_pos (hinv.getType_at.trans hz)], hinv, hkeep⟩
    · obtain ⟨c, L, rfl⟩ := hinv.exists_next hz
      have h' : Inv r { s with mem := mem₁ } ((A ++ [b₁]) ++ c :: L) := by simpa using hinv
      simp only [List.length_cons] at hlen
      obtain ⟨mem', F', hloop, hinv', hkeep'⟩ := ih h' (by omega)
      refine ⟨mem', F', ?_, hinv', hkeep.trans (by simpa using hkeep') (ownedBy_congr _)⟩
      rw [if_neg (by rw [hinv.getType_at]; exact hz),
        triage_block_ok (by rw [hinv.getType_at]; exact hinv.type_eq)]
      simp only [bind, Except.bind, Bool.toNat_false, hinv.getSize_at, hinv.u16_next]
      exact hloop

/-- **`DOS_FreeProcessMemory`** of a program keeps the blocks of all others. -/
theorem DOS_FreeProcessMemory_spec {pspseg : ℕ} (h : s.Inv r F) (hdos : pspseg ≠ MCB_DOS) :
    ∃ mem' F', s.DOS_FreeProcessMemory pspseg = .ok { s with mem := mem' } ∧
      Inv r { s with mem := mem' } F' ∧ Keeps (OwnedBy pspseg) s.mem mem' F F' := by
  obtain ⟨b, L, rfl⟩ := h.exists_first
  have hlen := h.length_lt
  rw [List.length_cons] at hlen
  obtain ⟨mem₁, F₁, hloop₁, hinv₁, hkeep₁⟩ :=
    freeProcessLoop_spec s.mcb_fault_strategy maxRounds hdos (A := []) h (by omega)
  obtain ⟨mem₂, F₂, hloop₂, hinv₂, hkeep₂⟩ : ∃ mem₂ F₂,
      (if s.umb_start = umb_start_seg then
        freeProcessLoop s.mcb_fault_strategy pspseg maxRounds 0 s.umb_start mem₁
        else .ok mem₁) = .ok mem₂ ∧
      Inv r { s with mem := mem₂ } F₂ ∧ Keeps (OwnedBy pspseg) mem₁ mem₂ F₁ F₂ := by
    by_cases hu : s.umb_start = umb_start_seg
    · obtain ⟨A, c, L', rfl, hA⟩ := hinv₁.exists_cover (h.umb_start_iff.1 hu)
      have hlen' : L'.length < maxRounds := by
        have := hinv₁.length_lt
        rw [List.length_append, List.length_cons] at this
        omega
      obtain ⟨mem₂, F₂, hloop₂, hrest⟩ :=
        freeProcessLoop_spec s.mcb_fault_strategy maxRounds hdos hinv₁ hlen'
      exact ⟨mem₂, F₂, by rw [if_pos hu, hu, ← hA]; exact hloop₂, hrest⟩
    · exact ⟨mem₁, F₁, if_neg hu, hinv₁, Keeps.refl⟩
  obtain ⟨mem', F', hcall, hinv', hkeep'⟩ := DOS_CompressMemory_spec hinv₂
  refine ⟨mem', F', ?_, hinv', (hkeep₁.trans hkeep₂ (ownedBy_congr _)).trans
    (hkeep'.mono fun _ _ => False.elim) (ownedBy_congr _)⟩
  simp only [after, total_nil, Nat.add_zero, ← h.first] at hloop₁
  rw [DOS_FreeProcessMemory, hloop₁]
  simp only [bind, Except.bind]
  by_cases hu : s.umb_start = umb_start_seg
  · rw [if_pos hu] at hloop₂ ⊢
    rw [hloop₂]
    exact hcall
  · rw [if_neg hu] at hloop₂ ⊢
    obtain rfl := Except.ok.inj hloop₂
    exact hcall

/-! ## Allocating -/

theorem middle_mcb_type_lt : middle_mcb_type < 256 := by decide

theorem mcb_free_lt : MCB_FREE < 2 ^ 16 := by decide

theorem Inv.split {mem' : Memory} {y z : Mcb} (h : s.Inv r (A ++ b :: L)) (hb : b.psp ≠ MCB_DOS)
    (hbut : b.psp ≠ MCB_FREE → but (after A) b) (hlen : b.extent = y.extent + z.extent)
    (hmem : SameOutside (after A) (after A + b.extent) s.mem mem') (hy : header mem' (after A) = y)
    (hz : header mem' (after A + y.extent) = z) (hmiddle : y.type = middle_mcb_type)
    (hlast : z.type = b.type) :
    Inv r { s with mem := mem' } (A ++ y :: z :: L) ∧
      Keeps but s.mem mem' (A ++ b :: L) (A ++ y :: z :: L) := by
  refine h.edited hb hbut ?_
  have hX : s.Tiled r (A ++ b :: [] ++ L) := by simpa using h.tiled
  have hres : _ ∧ Keeps (fun p d => p = after A ∧ d = b ∧ b.psp ≠ MCB_FREE) _ _ _ _ :=
    hX.toTwo (by simp) (hlen ▸ hmem) (by simpa using hlen) hy hz hmiddle
      (by rw [hlast, ← hlen]; exact h.tiled.types placed_after) fun hne =>
      ⟨fun hu hat => absurd hat (h.ne_cover hb hu), rfl, rfl, hne⟩
  simpa using hres

/-- A free block is cut in two, and its beginning is taken. -/
theorem Inv.splitLow (name : Fin 8 → UInt8) (h : s.Inv r (A ++ b :: L)) (hb : b.psp = MCB_FREE)
    (hlt : blocks < b.size) :
    let y : Mcb := ⟨middle_mcb_type, s.psp, blocks⟩
    let z : Mcb := ⟨b.type, MCB_FREE, b.size - blocks - 1⟩
    let mem' := DosMemory.splitLow s name blocks (after A) b.size
    Inv r { s with mem := mem' } (A ++ y :: z :: L) ∧
      Keeps NoBlock s.mem mem' (A ++ b :: L) (A ++ y :: z :: L) := by
  intro y z mem'
  have hrun : after A + b.extent < 2 ^ 16 := by
    simpa using Inv.run_lt (L := [b]) (B := L) (by simpa using h)
  rw [Mcb.extent] at hrun
  have hnext : u16 (after A + blocks + 1) = after A + (blocks + 1) := Nat.mod_eq_of_lt (by omega)
  have hrest : u16 (b.size - blocks - 1) = b.size - blocks - 1 := Nat.mod_eq_of_lt (by omega)
  have hne : after A ≠ after A + (blocks + 1) := by omega
  have hm := middle_mcb_type_lt
  have hf := mcb_free_lt
  have hpsp := h.psp
  have htype := h.type_lt
  have hmem : SameOutside (after A) (after A + b.extent) s.mem mem' := by
    simp only [mem', DosMemory.splitLow, hnext, Mcb.extent]
    refine SameOutside.SetFileName (.SetPSPSeg (.SetType (.SetSize (.SetSize (.SetType (.SetPSPSeg
      .refl ?_ ?_) ?_ ?_) ?_ ?_) ?_ ?_) ?_ ?_) ?_ ?_) ?_ ?_ <;> omega
  refine h.split (by rw [hb]; decide) (fun h => h hb) (by simp only [Mcb.extent, y, z]; omega) hmem
    ?_ ?_ rfl rfl
  · simp (disch := omega) only [mem', DosMemory.splitLow, hnext, hrest, getType_eq,
      header_SetFileName, header_SetPSPSeg, header_SetType, header_SetSize, h.header_at, hne,
      if_true, if_false, y]
  · simp (disch := omega) only [mem', DosMemory.splitLow, hnext, hrest, getType_eq, Mcb.extent,
      header_SetFileName, header_SetPSPSeg, header_SetType, header_SetSize, h.header_at, hne,
      hne.symm, if_true, if_false, y, z]

/-- A free block is cut in two, and its end is taken. -/
theorem Inv.splitHigh (name : Fin 8 → UInt8) (h : s.Inv r (A ++ b :: L)) (hb : b.psp = MCB_FREE)
    (hlt : blocks < b.size) :
    let y : Mcb := ⟨middle_mcb_type, MCB_FREE, b.size - blocks - 1⟩
    let z : Mcb := ⟨b.type, s.psp, blocks⟩
    let mem' := DosMemory.splitHigh s name blocks (after A) b.size
    Inv r { s with mem := mem' } (A ++ y :: z :: L) ∧
      Keeps NoBlock s.mem mem' (A ++ b :: L) (A ++ y :: z :: L) := by
  intro y z mem'
  have hrun : after A + b.extent < 2 ^ 16 := by
    simpa using Inv.run_lt (L := [b]) (B := L) (by simpa using h)
  rw [Mcb.extent] at hrun
  have hnext : u16 (u16 (after A + 1 + b.size - blocks) + 2 ^ 16 - 1) =
      after A + (b.size - blocks - 1 + 1) := by
    rw [u16, u16]
    omega
  have hrest : u16 (b.size - blocks - 1) = b.size - blocks - 1 := Nat.mod_eq_of_lt (by omega)
  have hne : after A ≠ after A + (b.size - blocks - 1 + 1) := by omega
  have hm := middle_mcb_type_lt
  have hf := mcb_free_lt
  have hpsp := h.psp
  have htype := h.type_lt
  have hmem : SameOutside (after A) (after A + b.extent) s.mem mem' := by
    simp only [mem', DosMemory.splitHigh, hnext, Mcb.extent]
    refine SameOutside.SetType (.SetPSPSeg (.SetSize (.SetFileName (.SetPSPSeg (.SetType (.SetSize
      .refl ?_ ?_) ?_ ?_) ?_ ?_) ?_ ?_) ?_ ?_) ?_ ?_) ?_ ?_ <;> omega
  refine h.split (by rw [hb]; decide) (fun h => h hb) (by simp only [Mcb.extent, y, z]; omega) hmem
    ?_ ?_ rfl rfl
  · simp (disch := omega) only [mem', DosMemory.splitHigh, hnext, hrest, getType_eq,
      header_SetFileName, header_SetPSPSeg, header_SetType, header_SetSize, h.header_at, hne,
      if_true, if_false, y]
  · simp (disch := omega) only [mem', DosMemory.splitHigh, hnext, hrest, getType_eq, Mcb.extent,
      header_SetFileName, header_SetPSPSeg, header_SetType, header_SetSize, h.header_at, hne,
      hne.symm, if_true, if_false, y, z]

/-- A call that ends in a well-formed chain and keeps the allocated blocks. -/
def Outcome (r : Region) (but : ℕ → Mcb → Prop) (s : DosMemory) (F : List Mcb) (s' : DosMemory) :
    Prop :=
  ∃ F', Inv r s' F' ∧ Keeps but s.mem s'.mem F F'

theorem Inv.withError {e : Option DosError} (h : s.Inv r F) : Inv r { s with errorcode := e } F :=
  ⟨h.first, h.tiles, h.types, h.cover, h.umb_start, h.umb_state, h.psp⟩

theorem Outcome.trans {s₁ s' : DosMemory} {F₁ : List Mcb} (hkeep : Keeps but s.mem s₁.mem F F₁)
    (h : Outcome r but s₁ F₁ s')
    (hbut : ∀ p b b', but p b' → b'.psp = b.psp → b'.size = b.size → but p b) :
    Outcome r but s F s' := by
  obtain ⟨F', hinv, hkeep'⟩ := h
  exact ⟨F', hinv, hkeep.trans hkeep' hbut⟩

/-! ## Resizing and freeing -/

/-- The block at a position. -/
abbrev BlockAt (mcb : ℕ) : ℕ → Mcb → Prop := fun p _ => p = mcb

theorem u16_mcb {mcb : ℕ} (h : mcb < 2 ^ 16) : u16 (mcb + 1 + 2 ^ 16 - 1) = mcb := by
  rw [u16]
  omega

/-- Only the headers at two segments are written. -/
def OnlyHeaders (p q : ℕ) (mem mem' : Memory) : Prop :=
  ∀ a, (a < 16 * p ∨ 16 * p + 16 ≤ a) → (a < 16 * q ∨ 16 * q + 16 ≤ a) → mem' a = mem a

theorem OnlyHeaders.refl {p q : ℕ} : OnlyHeaders p q mem mem := fun _ _ _ => rfl

section Headers

variable {p q seg v : ℕ} {mem' : Memory}

theorem OnlyHeaders.SetType (h : OnlyHeaders p q mem mem') (hseg : seg = p ∨ seg = q) :
    OnlyHeaders p q mem (SetType mem' seg v) :=
  fun a hp hq => (Memory.writeb_of_ne (by omega)).trans (h a hp hq)

theorem OnlyHeaders.SetPSPSeg (h : OnlyHeaders p q mem mem') (hseg : seg = p ∨ seg = q) :
    OnlyHeaders p q mem (SetPSPSeg mem' seg v) :=
  fun a hp hq => (Memory.writew_of_ne (by omega) (by omega)).trans (h a hp hq)

theorem OnlyHeaders.SetSize (h : OnlyHeaders p q mem mem') (hseg : seg = p ∨ seg = q) :
    OnlyHeaders p q mem (SetSize mem' seg v) :=
  fun a hp hq => (Memory.writew_of_ne (by omega) (by omega)).trans (h a hp hq)

theorem OnlyHeaders.sameOutside {e : ℕ} (h : OnlyHeaders p q mem mem') (hpq : p ≤ q)
    (hq : q < e) : SameOutside p e mem mem' :=
  fun a ha => h a (by omega) (by omega)

variable {n : ℕ}

/-- What a block that shrinks writes: the headers of the block and of the rest. -/
theorem shrink_headers (hb : header s.mem p = b)
    (ht : b.type = middle_mcb_type ∨ b.type = ending_mcb_type) (hfit : p + b.extent < 2 ^ 16)
    (hpsp : s.psp < 2 ^ 16) (hlt : n < b.size) :
    ∃ mem', s.shrink (p + 1) n b.size = DOS_CompressMemory { s with mem := mem' } ∧
      OnlyHeaders p (p + (n + 1)) s.mem mem' ∧
      header mem' p = ⟨middle_mcb_type, s.psp, n⟩ ∧
      header mem' (p + (n + 1)) = ⟨b.type, MCB_FREE, b.size - n - 1⟩ := by
  rw [Mcb.extent] at hfit
  have hmcb : u16 (p + 1 + 2 ^ 16 - 1) = p := u16_mcb (by omega)
  have hnext : u16 (p + 1 + n) = p + (n + 1) := by
    rw [u16]
    omega
  have hrest : u16 (b.size - n - 1) = b.size - n - 1 := Nat.mod_eq_of_lt (by omega)
  have hne : p ≠ p + (n + 1) := by omega
  have hm := middle_mcb_type_lt
  have hf := mcb_free_lt
  have htype : b.type < 256 := by rcases ht with ht | ht <;> rw [ht] <;> decide
  rw [shrink]
  simp only [hmcb, hnext, hrest]
  generalize hmem' : SetPSPSeg _ p s.psp = mem'
  have hif : GetType (SetType (SetSize s.mem p n) (p + (n + 1))
      (GetType (SetSize s.mem p n) p)) p = b.type := by
    simp (disch := omega) only [getType_eq, header_SetSize, header_SetType, hb, hne, if_true,
      if_false]
  rw [hif] at hmem'
  refine ⟨mem', rfl, ?_, ?_, ?_⟩
  · rw [← hmem']
    refine OnlyHeaders.SetPSPSeg (.SetPSPSeg (.SetSize ?_ (.inr rfl)) (.inr rfl)) (.inl rfl)
    split
    · exact .SetType (.SetType (.SetSize .refl (.inl rfl)) (.inr rfl)) (.inl rfl)
    · exact .SetType (.SetSize .refl (.inl rfl)) (.inr rfl)
  · rw [← hmem']
    rcases ht with ht | ht
    · rw [if_neg (by rw [ht]; decide)]
      simp (disch := omega) only [getType_eq, header_SetPSPSeg, header_SetType, header_SetSize,
        hb, hne, if_true, if_false, ht]
    · rw [if_pos ht]
      simp (disch := omega) only [getType_eq, header_SetPSPSeg, header_SetType, header_SetSize,
        hb, hne, if_true, if_false]
  · rw [← hmem']
    split <;> simp (disch := omega) only [getType_eq, header_SetPSPSeg, header_SetType,
      header_SetSize, hb, hne.symm, if_true, if_false]

/-- What a block that grows into a part of the next one writes: the headers of the block and of
the rest. -/
theorem growPart_headers (hb : header s.mem p = b) (hc : header s.mem (p + b.extent) = c)
    (ht : b.type ≠ ending_mcb_type) (hct : c.type < 256) (hfit : p + b.extent + c.extent < 2 ^ 16)
    (hpsp : s.psp < 2 ^ 16) (hgt : b.size < n) (hlt : n < b.size + c.size + 1) :
    ∃ mem', s.growPart (p + 1) n (b.size + c.size + 1) =
        DOS_CompressMemory { s with mem := mem' } ∧
      OnlyHeaders p (p + (n + 1)) s.mem mem' ∧
      header mem' p = ⟨middle_mcb_type, s.psp, n⟩ ∧
      header mem' (p + (n + 1)) = ⟨c.type, MCB_FREE, b.size + c.size + 1 - n - 1⟩ := by
  rw [Mcb.extent] at hc
  rw [Mcb.extent, Mcb.extent] at hfit
  have hmcb : u16 (p + 1 + 2 ^ 16 - 1) = p := u16_mcb (by omega)
  have hold : u16 (p + 1 + b.size) = p + (b.size + 1) := by
    rw [u16]
    omega
  have hnext : u16 (p + 1 + n) = p + (n + 1) := by
    rw [u16]
    omega
  have hrest : u16 (b.size + c.size + 1 - n - 1) = b.size + c.size + 1 - n - 1 :=
    Nat.mod_eq_of_lt (by omega)
  have hne : p ≠ p + (n + 1) := by omega
  have hm := middle_mcb_type_lt
  have hf := mcb_free_lt
  have hbt : GetType s.mem p = b.type := congrArg Mcb.type hb
  have hbs : GetSize s.mem p = b.size := congrArg Mcb.size hb
  have hctype : GetType s.mem (p + (b.size + 1)) = c.type := congrArg Mcb.type hc
  rw [growPart]
  simp only [hmcb, hbs, hold, hnext, hrest, hbt, hctype]
  rw [if_pos ht]
  generalize hmem' : SetPSPSeg _ p s.psp = mem'
  refine ⟨mem', rfl, ?_, ?_, ?_⟩
  · rw [← hmem']
    exact OnlyHeaders.SetPSPSeg (.SetType (.SetPSPSeg (.SetType (.SetSize (.SetSize (.SetType .refl
      (.inl rfl)) (.inl rfl)) (.inr rfl)) (.inr rfl)) (.inr rfl)) (.inl rfl)) (.inl rfl)
  · rw [← hmem']
    simp (disch := omega) only [getType_eq, header_SetPSPSeg, header_SetType, header_SetSize,
      hb, hne, if_true, if_false]
  · rw [← hmem']
    simp (disch := omega) only [getType_eq, header_SetPSPSeg, header_SetType, header_SetSize,
      hb, hne, hne.symm, if_true, if_false]

/-- What a block that absorbs the next one writes: its header. -/
theorem growAll_joins_headers (hb : header s.mem p = b) (hc : header s.mem (p + b.extent) = c)
    (ht : b.type ≠ ending_mcb_type) (hct : c.type < 256) (hfree : c.psp = MCB_FREE)
    (hfit : p + b.extent + c.extent < 2 ^ 16) (hpsp : s.psp < 2 ^ 16) :
    OnlyHeaders p p s.mem (s.growAll (p + 1) (b.size + c.size + 1)) ∧
      header (s.growAll (p + 1) (b.size + c.size + 1)) p =
        ⟨c.type, s.psp, b.size + c.size + 1⟩ := by
  rw [Mcb.extent] at hc
  rw [Mcb.extent, Mcb.extent] at hfit
  have hmcb : u16 (p + 1 + 2 ^ 16 - 1) = p := u16_mcb (by omega)
  have hold : u16 (p + 1 + b.size) = p + (b.size + 1) := by
    rw [u16]
    omega
  have hbt : GetType s.mem p = b.type := congrArg Mcb.type hb
  have hbs : GetSize s.mem p = b.size := congrArg Mcb.size hb
  have hctype : GetType s.mem (p + (b.size + 1)) = c.type := congrArg Mcb.type hc
  have hcpsp : GetPSPSeg s.mem (p + (b.size + 1)) = c.psp := congrArg Mcb.psp hc
  rw [growAll]
  simp only [hmcb, hbs, hold, hbt, hctype, hcpsp]
  rw [if_pos ⟨hfree, ht⟩]
  refine ⟨.SetPSPSeg (.SetSize (.SetType .refl (.inl rfl)) (.inl rfl)) (.inl rfl), ?_⟩
  simp (disch := omega) only [header_SetPSPSeg, header_SetType, header_SetSize, hb, if_true]

/-- What a block that cannot grow writes: its header, with the size it had. -/
theorem growAll_stays_headers (hb : header s.mem p = b) (hfit : p + b.extent < 2 ^ 16)
    (hpsp : s.psp < 2 ^ 16)
    (hstay : ¬ (b.type ≠ ending_mcb_type ∧ GetPSPSeg s.mem (u16 (p + 1 + b.size)) = MCB_FREE)) :
    OnlyHeaders p p s.mem (s.growAll (p + 1) b.size) ∧
      header (s.growAll (p + 1) b.size) p = { b with psp := s.psp } := by
  rw [Mcb.extent] at hfit
  have hmcb : u16 (p + 1 + 2 ^ 16 - 1) = p := u16_mcb (by omega)
  have hbt : GetType s.mem p = b.type := congrArg Mcb.type hb
  have hbs : GetSize s.mem p = b.size := congrArg Mcb.size hb
  rw [growAll]
  simp only [hmcb, hbs, hbt]
  rw [if_neg fun hc => hstay hc.symm]
  refine ⟨.SetPSPSeg (.SetSize .refl (.inl rfl)) (.inl rfl), ?_⟩
  simp (disch := omega) only [header_SetPSPSeg, header_SetSize, hb, if_true]

end Headers

/-- **`DOS_FreeMemory`** of an allocated block keeps every other one. -/
theorem DOS_FreeMemory_spec {p : ℕ} (h : s.Inv r F)
    (hp : (p, b) ∈ placed Mcb.extent DOS_MEM_START F) (hdos : b.psp ≠ MCB_DOS) :
    Outcome r (BlockAt p) s F (s.DOS_FreeMemory (p + 1)).2 := by
  obtain ⟨A, L, rfl, rfl⟩ := mem_placed.1 hp
  have hlt : after A < 2 ^ 16 := lt_of_le_of_lt h.after_le (by decide)
  have hcheck : ¬ (b.type ≠ middle_mcb_type ∧ b.type ≠ ending_mcb_type) := by
    rcases h.type_eq with ht | ht <;> simp [ht]
  have hstart : ¬ after A + 1 < DOS_MEM_START + 1 := by
    simp only [after]
    omega
  simp only [DOS_FreeMemory, u16_mcb hlt]
  rw [if_neg hstart, h.getType_at, if_neg hcheck]
  exact ⟨_, h.setPSPSeg hdos (by decide) fun _ => rfl⟩

end DosMemory

end AugraDosbox
