import AugraDosbox.Dos.McbResize

/-!
# Whole runs of memory requests

Programs and DOS itself ask for memory, resize it, give it back and end, and
programs write to memory wherever no block header is.

* `Chain`, `Visits` — what walking over the headers finds.
* `Request.serve`, `Run` — the requests and their runs.
* `runs_keep_blocks` — **both chains are well formed after every run, and an
  allocated block stays as it is until a request is about it.**
-/

namespace AugraDosbox

open Tiling DOS_MCB

namespace DosMemory

/-! ## Walking over the headers -/

/-- The headers from a segment on have the middle type, up to one of the ending
type whose block ends at `stop`.  Each block starts right behind the one before,
and no segment wraps around. -/
inductive Chain (mem : Memory) : ℕ → ℕ → Prop
  | last {seg stop : ℕ} : GetType mem seg = ending_mcb_type → seg + GetSize mem seg + 1 = stop →
      stop < 2 ^ 16 → Chain mem seg stop
  | next {seg stop : ℕ} : GetType mem seg = middle_mcb_type →
      seg + GetSize mem seg + 1 < 2 ^ 16 → Chain mem (seg + GetSize mem seg + 1) stop →
      Chain mem seg stop

/-- The walk from a segment on, as the source makes it, comes by a header. -/
inductive Visits (mem : Memory) : ℕ → ℕ → Prop
  | here {seg : ℕ} : Visits mem seg seg
  | next {seg p : ℕ} : GetType mem seg ≠ ending_mcb_type →
      Visits mem (u16 (seg + GetSize mem seg + 1)) p → Visits mem seg p

/-- The block belongs to one of the two chains. -/
def Visited (s : DosMemory) (p : ℕ) : Prop :=
  Visits s.mem s.firstMCB p ∨ s.umb_start = umb_start_seg ∧ Visits s.mem s.umb_start p

/-- The block belongs to a chain and has an owner. -/
def Allocated (s : DosMemory) (p : ℕ) : Prop := s.Visited p ∧ GetPSPSeg s.mem p ≠ MCB_FREE

/-- Both chains are well formed; the low one goes on with the upper one while they
are linked. -/
structure WellFormed (r : Region) (s : DosMemory) : Prop where
  low : Chain s.mem s.firstMCB (if r.umb = true ∧ s.umb_state ≠ 1 then umb_start_seg else r.stop)
  high : r.umb = true → s.umb_start = umb_start_seg ∧ Chain s.mem umb_start_seg r.stop

/-- The block has its start, its owner, its size and its data in both states. -/
structure SameBlock (s s' : DosMemory) (p : ℕ) : Prop where
  allocated : s'.Allocated p
  owner : GetPSPSeg s'.mem p = GetPSPSeg s.mem p
  size : GetSize s'.mem p = GetSize s.mem p
  data : ∀ a, 16 * (p + 1) ≤ a → a < 16 * (p + 1 + GetSize s.mem p) → s'.mem a = s.mem a

/-! ## Requests -/

/-- The memory requests, and a program that writes a byte. -/
inductive Request where
  | setMemAllocStrategy (strat : ℕ)
  | setPsp (psp : ℕ)
  | allocateMemory (blocks : ℕ)
  | resizeMemory (segment blocks : ℕ)
  | freeMemory (segment : ℕ)
  | freeProcessMemory (pspseg : ℕ)
  | linkUMBsToMemChain (linkstate : ℕ)
  | write (addr val : ℕ)
  deriving DecidableEq, Repr

namespace Request

/-- Serving a request. -/
def serve (s : DosMemory) : Request → Except Fault DosMemory
  | setMemAllocStrategy strat => .ok (s.DOS_SetMemAllocStrategy strat).2
  | setPsp psp => .ok { s with psp := psp }
  | allocateMemory blocks => do
      let (_, s) ← s.DOS_AllocateMemory blocks
      .ok s
  | resizeMemory segment blocks => do
      let (_, s) ← s.DOS_ResizeMemory segment blocks
      .ok s
  | freeMemory segment => .ok (s.DOS_FreeMemory segment).2
  | freeProcessMemory pspseg => s.DOS_FreeProcessMemory pspseg
  | linkUMBsToMemChain linkstate => do
      let (_, s) ← s.DOS_LinkUMBsToMemChain linkstate
      .ok s
  | write addr val => .ok { s with mem := s.mem.writeb addr val }

/-- Blocks are resized and freed by their data segment while they are allocated,
and are not system blocks; programs do not overwrite block headers. -/
def Allowed (s : DosMemory) : Request → Prop
  | setMemAllocStrategy _ => True
  | setPsp psp => psp < 2 ^ 16
  | allocateMemory _ => True
  | resizeMemory segment _ => ∃ p, segment = p + 1 ∧ s.Allocated p ∧ GetPSPSeg s.mem p ≠ MCB_DOS
  | freeMemory segment => ∃ p, segment = p + 1 ∧ s.Allocated p ∧ GetPSPSeg s.mem p ≠ MCB_DOS
  | freeProcessMemory pspseg => pspseg ≠ MCB_DOS
  | linkUMBsToMemChain linkstate => linkstate = 0 ∨ linkstate = 1
  | write addr _ => ∀ p, s.Visited p → addr < 16 * p ∨ 16 * (p + 1) ≤ addr

/-- The request is not about a block with this start, owner and size. -/
def Spares (p owner size : ℕ) : Request → Prop
  | setMemAllocStrategy _ => True
  | setPsp _ => True
  | allocateMemory _ => True
  | resizeMemory segment _ => segment ≠ p + 1
  | freeMemory segment => segment ≠ p + 1
  | freeProcessMemory pspseg => pspseg ≠ owner
  | linkUMBsToMemChain _ => True
  | write addr _ => addr < 16 * (p + 1) ∨ 16 * (p + 1 + size) ≤ addr

end Request

/-- A run of requests that are all allowed. -/
inductive Run : DosMemory → List Request → DosMemory → Prop
  | nil {s : DosMemory} : Run s [] s
  | cons {s s₁ s' : DosMemory} {req : Request} {reqs : List Request} : req.Allowed s →
      req.serve s = .ok s₁ → Run s₁ reqs s' → Run s (req :: reqs) s'

/-- The chain as it is built: by `DOS_SetupMemory`, and by `DOS_BuildUMBChain` if
that is called. -/
def boot (machine : Machine) (upper : Option (Bool × Bool)) (s : DosMemory) :
    Except Fault DosMemory :=
  match upper with
  | none => .ok (DOS_SetupMemory machine s)
  | some (umb_active, ems_active) =>
      DOS_BuildUMBChain machine (DOS_SetupMemory machine s) umb_active ems_active

/-- The region of the chains that are built. -/
def bootRegion (machine : Machine) (upper : Option (Bool × Bool)) : Region :=
  match upper with
  | none => lowRegion machine
  | some (umb_active, ems_active) => builtRegion machine umb_active ems_active

/-! ## What the walks find -/

variable {r : Region} {s s' : DosMemory} {A B F L : List Mcb} {b d : Mcb} {mem : Memory}

/-- The walk over blocks of the middle type that end with one of the ending type. -/
theorem chain_of_tiles {seg stop : ℕ} (htiles : Tiles Mcb.extent (header mem) seg (B ++ [d]) stop)
    (hB : ∀ b ∈ B, b.type = middle_mcb_type) (hd : d.type = ending_mcb_type) (hstop : stop < 2 ^ 16) :
    Chain mem seg stop ∧ ∀ {p b}, (p, b) ∈ placed Mcb.extent seg (B ++ [d]) → Visits mem seg p := by
  induction B generalizing seg with
  | nil =>
    obtain ⟨rfl, hstop'⟩ := htiles
    refine ⟨.last hd hstop' hstop, fun {p b} hp => ?_⟩
    obtain ⟨rfl, -⟩ : p = seg ∧ b = _ := by simpa [placed] using hp
    exact .here
  | cons c B ih =>
    obtain ⟨rfl, hrest⟩ := htiles
    obtain ⟨hchain, hvisits⟩ := ih hrest fun b hb => hB b (List.mem_cons_of_mem _ hb)
    have htype : GetType mem seg = middle_mcb_type := hB _ List.mem_cons_self
    have hlt : seg + GetSize mem seg + 1 < 2 ^ 16 := by
      have := hrest.stop_eq
      have hext : (header mem seg).extent = GetSize mem seg + 1 := rfl
      rw [hext] at this
      omega
    refine ⟨.next htype hlt hchain, fun {p b} hp => ?_⟩
    rw [List.cons_append, placed, List.mem_cons] at hp
    rcases hp with hp | hp
    · rw [(Prod.mk.inj hp).1]
      exact .here
    · refine .next (by rw [htype]; decide) ?_
      rw [u16, Nat.mod_eq_of_lt hlt]
      exact hvisits hp

/-- A block that does not end where a chain does has the middle type. -/
theorem Inv.type_middle (h : s.Inv r (A ++ b :: L)) (hstop : after (A ++ [b]) ≠ r.stop)
    (hlow : r.umb = true ∧ s.umb_state ≠ 1 → after (A ++ [b]) ≠ umb_start_seg) :
    b.type = middle_mcb_type := by
  rw [h.types placed_after, endType, ← after_concat, if_neg]
  rintro (heq | ⟨hu, hstate, heq⟩)
  · exact hstop heq
  · exact hlow ⟨hu, hstate⟩ heq

/-- The walk over the blocks of a part of the list that ends where a chain does. -/
theorem Inv.chain_part {Q : List Mcb} (h : s.Inv r (A ++ (B ++ [d]) ++ Q))
    (hend : after (A ++ (B ++ [d])) = r.stop ∨
      r.umb = true ∧ s.umb_state ≠ 1 ∧ after (A ++ (B ++ [d])) = umb_start_seg)
    (hlow : r.umb = true ∧ s.umb_state ≠ 1 → umb_start_seg ≤ after A ∨
      after (A ++ (B ++ [d])) = umb_start_seg) :
    Chain s.mem (after A) (after (A ++ (B ++ [d]))) ∧
      ∀ {p b}, (p, b) ∈ placed Mcb.extent (after A) (B ++ [d]) → Visits s.mem (after A) p := by
  have htiles := (tiles_append.1 (tiles_append.1 h.tiles).1).2
  refine chain_of_tiles htiles (fun b hb => ?_) ?_ (lt_of_le_of_lt h.after_le (by decide))
  · obtain ⟨C, D, rfl⟩ := List.append_of_mem hb
    have h' : s.Inv r ((A ++ C) ++ b :: (D ++ [d] ++ Q)) := by simpa using h
    have hlt : after (A ++ C ++ [b]) < after (A ++ ((C ++ b :: D) ++ [d])) := by
      have := d.extent_pos
      simp only [after, total_append, total_cons, total_nil]
      omega
    have hgt : after A < after (A ++ C ++ [b]) := by
      have := b.extent_pos
      simp only [after, total_append, total_cons, total_nil]
      omega
    have hle : after (A ++ ((C ++ b :: D) ++ [d])) ≤ r.stop := by
      rw [h.stop_eq]
      simp only [after, total_append]
      omega
    refine h'.type_middle (by omega) fun hu heq => ?_
    rcases hlow hu with hA | hA <;> omega
  · have h' : s.Inv r ((A ++ B) ++ d :: Q) := by simpa using h
    rw [h'.types placed_after, endType, ← after_concat, List.append_assoc, if_pos hend]

theorem Inv.high (h : s.Inv r (A ++ b :: L)) (hu : r.umb = true) (hA : after A = umb_start_seg) :
    (s.umb_start = umb_start_seg ∧ Chain s.mem umb_start_seg r.stop) ∧
      ∀ {p c}, (p, c) ∈ placed Mcb.extent (after A) (b :: L) → s.Visited p := by
  have hstart := h.umb_start_iff.2 hu
  obtain ⟨B, d, hBd⟩ := (List.eq_nil_or_concat' (b :: L)).resolve_left (by simp)
  rw [hBd] at h ⊢
  have hend : after (A ++ (B ++ [d])) = r.stop := h.stop_eq.symm
  obtain ⟨hchain, hvisits⟩ := Inv.chain_part (Q := []) (by simpa using h) (Or.inl hend)
    fun _ => Or.inl hA.ge
  rw [hend, hA] at hchain
  refine ⟨⟨hstart, hchain⟩, fun {p c} hp => Or.inr ⟨hstart, ?_⟩⟩
  rw [hstart, ← hA]
  exact hvisits hp

/-- **Both chains are well formed, and the walks come by every block.** -/
theorem Inv.wellFormed (h : s.Inv r F) :
    WellFormed r s ∧ ∀ {p b}, (p, b) ∈ placed Mcb.extent DOS_MEM_START F → s.Visited p := by
  have hfirst : s.firstMCB = after [] := h.first
  by_cases hun : r.umb = true ∧ s.umb_state ≠ 1
  · obtain ⟨A, c, L, rfl, hA⟩ := h.exists_cover hun.1
    obtain ⟨hhigh, hvisited⟩ := h.high hun.1 hA
    obtain ⟨B, d, rfl⟩ := (List.eq_nil_or_concat' A).resolve_left
      (by rintro rfl; exact absurd hA (by decide))
    obtain ⟨hchain, hvisits⟩ := Inv.chain_part (A := []) (B := B) (d := d) (Q := c :: L)
      (by simpa using h) (Or.inr ⟨hun.1, hun.2, by simpa using hA⟩)
      fun _ => Or.inr (by simpa using hA)
    rw [List.nil_append, hA, ← hfirst] at hchain
    refine ⟨⟨by rw [if_pos hun]; exact hchain, fun _ => hhigh⟩, fun {p b} hp => ?_⟩
    rw [placed_append, List.mem_append] at hp
    rcases hp with hp | hp
    · rw [Visited, hfirst]
      exact Or.inl (hvisits hp)
    · exact hvisited hp
  · obtain ⟨B, d, rfl⟩ := (List.eq_nil_or_concat' F).resolve_left
      (by rintro rfl; obtain ⟨b, L, hbL⟩ := h.exists_first; cases hbL)
    have hend : after ([] ++ (B ++ [d])) = r.stop := h.stop_eq.symm
    obtain ⟨hchain, hvisits⟩ := Inv.chain_part (A := []) (Q := []) (by simpa using h)
      (Or.inl hend) fun hu => absurd hu hun
    rw [hend, ← hfirst] at hchain
    refine ⟨⟨by rw [if_neg hun]; exact hchain, fun hu => ?_⟩, fun {p b} hp => ?_⟩
    · obtain ⟨A, c, L, hF, hA⟩ := h.exists_cover hu
      exact ((hF ▸ h).high hu hA).1
    · rw [Visited, hfirst]
      exact Or.inl (hvisits hp)

variable {p : ℕ}

/-- The walk stays on the blocks of the list. -/
theorem Inv.placed_of_visits (h : s.Inv r F) {seg : ℕ} (hv : Visits s.mem seg p)
    (hseg : ∃ b, (seg, b) ∈ placed Mcb.extent DOS_MEM_START F) :
    ∃ b, (p, b) ∈ placed Mcb.extent DOS_MEM_START F := by
  induction hv with
  | here => exact hseg
  | next hgo _ ih =>
    refine ih ?_
    obtain ⟨b, hb⟩ := hseg
    obtain ⟨A, L, rfl, rfl⟩ := mem_placed.1 hb
    have h' : s.Inv r (A ++ b :: L) := h
    obtain ⟨c, M, rfl⟩ := h'.exists_next fun hz => hgo (h'.getType_at.trans hz)
    refine ⟨c, mem_placed.2 ⟨A ++ [b], M, by simp, ?_⟩⟩
    rw [show GetSize s.mem (DOS_MEM_START + total Mcb.extent A) = b.size from h'.getSize_at]
    exact h'.u16_next

theorem Inv.visited_iff (h : s.Inv r F) :
    s.Visited p ↔ ∃ b, (p, b) ∈ placed Mcb.extent DOS_MEM_START F := by
  constructor
  · rintro (hv | ⟨hstart, hv⟩)
    · refine h.placed_of_visits hv ?_
      obtain ⟨b, L, rfl⟩ := h.exists_first
      exact ⟨b, by rw [h.first]; exact List.mem_cons_self⟩
    · refine h.placed_of_visits hv ?_
      obtain ⟨b, hb, -⟩ := h.cover (h.umb_start_iff.1 hstart)
      exact ⟨b, hstart ▸ hb⟩
  · rintro ⟨b, hb⟩
    exact h.wellFormed.2 hb

/-- The allocated blocks are those of the list that have an owner. -/
theorem Inv.allocated_iff (h : s.Inv r F) :
    s.Allocated p ↔ ∃ b, (p, b) ∈ placed Mcb.extent DOS_MEM_START F ∧ b.psp ≠ MCB_FREE := by
  rw [Allocated, h.visited_iff]
  constructor
  · rintro ⟨⟨b, hb⟩, hpsp⟩
    refine ⟨b, hb, ?_⟩
    rwa [← h.tiles.read_placed hb]
  · rintro ⟨b, hb, hpsp⟩
    refine ⟨⟨b, hb⟩, ?_⟩
    rwa [getPSPSeg_eq, h.tiles.read_placed hb]

/-! ## One request -/

/-- A block with which the request has to do. -/
def Request.Concerns (req : Request) (p : ℕ) (b : Mcb) : Prop := ¬ req.Spares p b.psp b.size

theorem Outcome.concerns {req : Request} {but : ℕ → Mcb → Prop} (h : Outcome r but s F s')
    (hbut : ∀ p b, but p b → req.Concerns p b) : Outcome r req.Concerns s F s' := by
  obtain ⟨F', hinv, hkeep⟩ := h
  exact ⟨F', hinv, hkeep.mono hbut⟩

theorem Inv.write {addr val : ℕ} (h : s.Inv r F)
    (haddr : ∀ p, s.Visited p → addr < 16 * p ∨ 16 * (p + 1) ≤ addr) :
    Outcome r (Request.write addr val).Concerns s F { s with mem := s.mem.writeb addr val } := by
  refine ⟨F, ?_, fun p b hp _ hout => ⟨⟨b, hp, rfl, rfl⟩, fun a h1 h2 => ?_⟩⟩
  · refine ⟨h.first, ?_, h.types, h.cover, h.umb_start, h.umb_state, h.psp⟩
    refine h.tiles.congr_placed fun {p b} hp => header_congr fun a h1 h2 => ?_
    have := haddr p (h.visited_iff.2 ⟨b, hp⟩)
    exact Memory.writeb_of_ne (by omega)
  · have hspares := not_not.1 hout
    simp only [Request.Spares] at hspares
    exact Memory.writeb_of_ne (by omega)

/-- **One request**: it is served, keeps the invariant, and keeps every block that
it is not about. -/
theorem serve_spec {req : Request} (h : s.Inv r F) (hallowed : req.Allowed s) :
    ∃ s', req.serve s = .ok s' ∧ Outcome r req.Concerns s F s' := by
  cases req with
  | setMemAllocStrategy strat =>
    refine ⟨_, rfl, ?_⟩
    rw [DOS_SetMemAllocStrategy]
    split
    · exact ⟨F, ⟨h.first, h.tiles, h.types, h.cover, h.umb_start, h.umb_state, h.psp⟩, Keeps.refl⟩
    · exact ⟨F, h, Keeps.refl⟩
  | setPsp psp =>
    exact ⟨_, rfl, F, ⟨h.first, h.tiles, h.types, h.cover, h.umb_start, h.umb_state, hallowed⟩,
      Keeps.refl⟩
  | allocateMemory blocks =>
    obtain ⟨a, s', hcall, hout⟩ := DOS_AllocateMemory_outcome h blocks
    exact ⟨s', by rw [Request.serve, hcall]; rfl, hout.concerns fun _ _ => False.elim⟩
  | resizeMemory segment blocks =>
    obtain ⟨p, rfl, halloc, hdos⟩ := hallowed
    obtain ⟨b, hb, hfree⟩ := h.allocated_iff.1 halloc
    rw [getPSPSeg_eq, h.tiles.read_placed hb] at hdos
    obtain ⟨res, s', hcall, hout⟩ := DOS_ResizeMemory_spec blocks h hb hfree hdos
    refine ⟨s', by rw [Request.serve, hcall]; rfl, hout.concerns ?_⟩
    rintro q b rfl hspares
    exact hspares rfl
  | freeMemory segment =>
    obtain ⟨p, rfl, halloc, hdos⟩ := hallowed
    obtain ⟨b, hb, -⟩ := h.allocated_iff.1 halloc
    rw [getPSPSeg_eq, h.tiles.read_placed hb] at hdos
    refine ⟨_, rfl, (DOS_FreeMemory_spec h hb hdos).concerns ?_⟩
    rintro q b rfl hspares
    exact hspares rfl
  | freeProcessMemory pspseg =>
    obtain ⟨mem', F', hcall, hinv, hkeep⟩ := DOS_FreeProcessMemory_spec h hallowed
    refine ⟨_, hcall, Outcome.concerns ⟨F', hinv, hkeep⟩ ?_⟩
    intro q b hb hspares
    exact hspares hb.symm
  | linkUMBsToMemChain linkstate =>
    obtain ⟨ok, s', hcall, hout⟩ := DOS_LinkUMBsToMemChain_spec h hallowed
    exact ⟨s', by rw [Request.serve, hcall]; rfl, hout.concerns fun _ _ => False.elim⟩
  | write addr val => exact ⟨_, rfl, h.write hallowed⟩

/-! ## Whole runs -/

/-- A run keeps the invariant, and every block that none of its requests is about. -/
theorem Run.outcome {reqs : List Request} (hrun : Run s reqs s') (h : s.Inv r F) :
    Outcome r (fun p b => ∃ req ∈ reqs, req.Concerns p b) s F s' := by
  induction hrun generalizing F with
  | nil => exact ⟨F, h, Keeps.refl⟩
  | @cons s s₁ s' req reqs hallowed hserve _ ih =>
    obtain ⟨s₁', hserve', F₁, hinv, hkeep⟩ := serve_spec h hallowed
    obtain rfl : s₁ = s₁' := Except.ok.inj (hserve.symm.trans hserve')
    obtain ⟨F', hinv', hkeep'⟩ := ih hinv
    refine ⟨F', hinv', (hkeep.mono fun p b hb => ?_).trans (hkeep'.mono fun p b hb => ?_) ?_⟩
    · exact ⟨req, List.mem_cons_self, hb⟩
    · obtain ⟨q, hq, hcon⟩ := hb
      exact ⟨q, List.mem_cons_of_mem _ hq, hcon⟩
    · rintro p b b' ⟨q, hq, hcon⟩ hpsp hsize
      refine ⟨q, hq, ?_⟩
      rwa [Request.Concerns, ← hpsp, ← hsize]

theorem Outcome.sameBlock {but : ℕ → Mcb → Prop} (h : s.Inv r F) (hout : Outcome r but s F s')
    (halloc : s.Allocated p)
    (hbut : ∀ {b}, b.psp = GetPSPSeg s.mem p → b.size = GetSize s.mem p → ¬ but p b) :
    SameBlock s s' p := by
  obtain ⟨F', hinv', hkeep⟩ := hout
  obtain ⟨b, hb, hfree⟩ := h.allocated_iff.1 halloc
  have hread := h.tiles.read_placed hb
  have hpsp : GetPSPSeg s.mem p = b.psp := congrArg Mcb.psp hread
  have hsize : GetSize s.mem p = b.size := congrArg Mcb.size hread
  obtain ⟨⟨b', hb', hpsp', hsize'⟩, hdata⟩ := hkeep p b hb hfree (hbut hpsp.symm hsize.symm)
  have hread' := hinv'.tiles.read_placed hb'
  refine ⟨hinv'.allocated_iff.2 ⟨b', hb', hpsp' ▸ hfree⟩, ?_, ?_, ?_⟩
  · rw [getPSPSeg_eq, hread', hpsp', hpsp]
  · rw [getSize_eq, hread', hsize', hsize]
  · rw [hsize]
    exact hdata

theorem boot_inv (machine : Machine) (upper : Option (Bool × Bool)) (hstart : s.umb_start = 0xffff)
    (hstate : s.umb_state = 0) (hpsp : s.psp < 2 ^ 16) :
    ∃ s₀ F, boot machine upper s = .ok s₀ ∧ Inv (bootRegion machine upper) s₀ F := by
  have hsetup := DOS_SetupMemory_inv machine hstart hstate hpsp
  cases upper with
  | none => exact ⟨_, _, rfl, hsetup⟩
  | some upper => exact DOS_BuildUMBChain_inv hsetup

/-- **The memory block chain is sound.**  The chains that `DOS_SetupMemory` and
`DOS_BuildUMBChain` build stay well formed in every run of requests: each walk
finds headers of the middle type up to one of the ending type, and the blocks tile
their region.  Every further request is served, and a block that is allocated keeps
its start, owner, size and data through all requests that are not about it. -/
theorem runs_keep_blocks (machine : Machine) (upper : Option (Bool × Bool)) (mem : Memory)
    (psp : UInt16) (strategy : McbFaultStrategy) :
    ∃ s₀, boot machine upper (unused mem psp strategy) = .ok s₀ ∧
      ∀ {reqs s}, Run s₀ reqs s →
        WellFormed (bootRegion machine upper) s ∧
        (∀ {req : Request}, req.Allowed s → ∃ s', req.serve s = .ok s') ∧
        ∀ {p reqs' s'}, s.Allocated p → Run s reqs' s' →
          (∀ req ∈ reqs', req.Spares p (GetPSPSeg s.mem p) (GetSize s.mem p)) →
          SameBlock s s' p := by
  obtain ⟨s₀, F₀, hboot, hinv₀⟩ := boot_inv machine upper (s := unused mem psp strategy) rfl rfl
    psp.toNat_lt
  refine ⟨s₀, hboot, fun {reqs s} hrun => ?_⟩
  obtain ⟨F, hinv, -⟩ := hrun.outcome hinv₀
  refine ⟨hinv.wellFormed.1, fun {req} hallowed => ?_, fun {p reqs' s'} halloc hrun' hspares => ?_⟩
  · obtain ⟨s', hserve, -⟩ := serve_spec hinv hallowed
    exact ⟨s', hserve⟩
  · refine (hrun'.outcome hinv).sameBlock hinv halloc fun {b} hpsp hsize => ?_
    rintro ⟨req, hreq, hcon⟩
    refine hcon ?_
    rw [hpsp, hsize]
    exact hspares req hreq

/-- The block that locks the environment keeps its data when a program takes 16
paragraphs. -/
theorem runs_keep_blocks_allocate :
    ∃ s₀ s', boot .Other none (unused (fun _ => 0) 0x200 .Repair) = .ok s₀ ∧
      (Request.allocateMemory 16).serve s₀ = .ok s' ∧ SameBlock s₀ s' 0x176 := by
  obtain ⟨s₀, hboot, hruns⟩ := runs_keep_blocks .Other none (fun _ => 0) 0x200 .Repair
  obtain ⟨-, hserve, hkeep⟩ := hruns Run.nil
  have hallowed : (Request.allocateMemory 16).Allowed s₀ := trivial
  obtain ⟨s', hs'⟩ := hserve hallowed
  have hinv : Inv (lowRegion .Other) s₀ (setupBlocks .Other) := by
    obtain rfl := Except.ok.inj hboot
    exact DOS_SetupMemory_inv .Other rfl rfl (by decide)
  have halloc : s₀.Allocated 0x176 :=
    hinv.allocated_iff.2 ⟨⟨middle_mcb_type, 0x40, 16⟩, by decide, by decide⟩
  refine ⟨s₀, s', hboot, hs', hkeep halloc (Run.cons hallowed hs' Run.nil) ?_⟩
  intro req hreq
  rw [List.mem_singleton.1 hreq]
  trivial

end DosMemory

end AugraDosbox
