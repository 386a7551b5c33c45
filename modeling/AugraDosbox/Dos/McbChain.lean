import Mathlib.Tactic.Common
import AugraDosbox.Lib.Tiling
import AugraDosbox.Dos.Mcb

/-!
# The chain of memory control blocks

All blocks from `DOS_MEM_START` on tile one region, whether or not the upper
memory blocks are linked: the block that covers video memory starts exactly where
the low chain ends.  Linking only decides the type of the last low block.

* `Inv` — the blocks of a list tile the region, and every type byte is what the
  end of its block asks for.
* `Keeps` — the allocated blocks are kept, apart from some.
* `Tiled.edit` — the one way a call changes the chain: a run of blocks is replaced
  by another one of the same extent.
-/

namespace AugraDosbox

open Tiling DOS_MCB

/-! ## Reading headers back -/

/-- The fields of a header that the chain rests on. -/
@[ext]
structure Mcb where
  type : ℕ
  psp : ℕ
  size : ℕ
  deriving DecidableEq, Repr

namespace Mcb

/-- The paragraphs of a block with its header. -/
def extent (b : Mcb) : ℕ := b.size + 1

theorem extent_pos (b : Mcb) : 0 < b.extent := Nat.succ_pos _

end Mcb

/-- The header at a segment. -/
def header (mem : Memory) (seg : ℕ) : Mcb := ⟨GetType mem seg, GetPSPSeg mem seg, GetSize mem seg⟩

namespace Memory

variable {mem mem' : Memory} {a v : ℕ}

theorem writeb_of_ne {b : ℕ} (h : b ≠ a) : mem.writeb a v b = mem b := Function.update_of_ne h _ _

theorem writew_of_ne {b : ℕ} (h : b ≠ a) (h' : b ≠ a + 1) : mem.writew a v b = mem b := by
  rw [writew, writeb_of_ne h', writeb_of_ne h]

theorem toNat_writeb : (mem.writeb a v a).toNat = v % 256 := by
  simp [writeb]

theorem readw_writew (h : v < 2 ^ 16) : (mem.writew a v).readw a = v := by
  have h1 : mem.writew a v a = mem.writeb a v a := writeb_of_ne (by omega)
  rw [readw, h1, toNat_writeb, writew, toNat_writeb]
  omega

theorem readw_congr (h0 : mem' a = mem a) (h1 : mem' (a + 1) = mem (a + 1)) :
    mem'.readw a = mem.readw a := by
  rw [readw, readw, h0, h1]

end Memory

/-- The bytes of the paragraphs outside of a range are the same. -/
def SameOutside (p q : ℕ) (mem mem' : Memory) : Prop :=
  ∀ a, a < 16 * p ∨ 16 * q ≤ a → mem' a = mem a

section Headers

variable {mem mem' : Memory} {seg p q v : ℕ}

theorem header_congr (h : ∀ a, 16 * seg ≤ a → a < 16 * seg + 16 → mem' a = mem a) :
    header mem' seg = header mem seg := by
  rw [header, header, GetType, GetPSPSeg, GetSize, GetType, GetPSPSeg, GetSize,
    h (seg * 16) (by omega) (by omega),
    Memory.readw_congr (h _ (by omega) (by omega)) (h _ (by omega) (by omega)),
    Memory.readw_congr (h _ (by omega) (by omega)) (h _ (by omega) (by omega))]

theorem SameOutside.header (h : SameOutside p q mem mem') (hs : seg < p ∨ q ≤ seg) :
    header mem' seg = header mem seg :=
  header_congr fun a _ _ => h a (by omega)

theorem header_SetType (hv : v < 256) :
    header (SetType mem q v) seg =
      if seg = q then { header mem seg with type := v } else header mem seg := by
  split
  · rename_i h
    subst h
    refine Mcb.ext ?_ ?_ ?_
    · simp only [header, GetType, SetType, Memory.toNat_writeb, Nat.mod_eq_of_lt hv]
    · exact Memory.readw_congr (Memory.writeb_of_ne (by omega)) (Memory.writeb_of_ne (by omega))
    · exact Memory.readw_congr (Memory.writeb_of_ne (by omega)) (Memory.writeb_of_ne (by omega))
  · exact header_congr fun a _ _ => Memory.writeb_of_ne (by omega)

theorem header_SetPSPSeg (hv : v < 2 ^ 16) :
    header (SetPSPSeg mem q v) seg =
      if seg = q then { header mem seg with psp := v } else header mem seg := by
  split
  · rename_i h
    subst h
    refine Mcb.ext ?_ (Memory.readw_writew hv) ?_
    · simp only [header, GetType, SetPSPSeg]
      rw [Memory.writew_of_ne (by omega) (by omega)]
    · exact Memory.readw_congr (Memory.writew_of_ne (by omega) (by omega))
        (Memory.writew_of_ne (by omega) (by omega))
  · exact header_congr fun a _ _ => Memory.writew_of_ne (by omega) (by omega)

theorem header_SetSize (hv : v < 2 ^ 16) :
    header (SetSize mem q v) seg =
      if seg = q then { header mem seg with size := v } else header mem seg := by
  split
  · rename_i h
    subst h
    refine Mcb.ext ?_ ?_ (Memory.readw_writew hv)
    · simp only [header, GetType, SetSize]
      rw [Memory.writew_of_ne (by omega) (by omega)]
    · exact Memory.readw_congr (Memory.writew_of_ne (by omega) (by omega))
        (Memory.writew_of_ne (by omega) (by omega))
  · exact header_congr fun a _ _ => Memory.writew_of_ne (by omega) (by omega)

theorem header_SetFileName {name : Fin 8 → UInt8} :
    header (SetFileName mem q name) seg = header mem seg := by
  have hout : ∀ a, a < q * 16 + 8 ∨ q * 16 + 16 ≤ a → SetFileName mem q name a = mem a := by
    intro a ha
    rw [SetFileName, dif_neg (by omega)]
  by_cases h : seg = q
  · subst h
    refine Mcb.ext ?_ ?_ ?_
    · simp only [header, GetType]
      rw [hout _ (by omega)]
    · exact Memory.readw_congr (hout _ (by omega)) (hout _ (by omega))
    · exact Memory.readw_congr (hout _ (by omega)) (hout _ (by omega))
  · exact header_congr fun a _ _ => hout a (by omega)

theorem getType_eq : GetType mem seg = (header mem seg).type := rfl

theorem getPSPSeg_eq : GetPSPSeg mem seg = (header mem seg).psp := rfl

theorem getSize_eq : GetSize mem seg = (header mem seg).size := rfl

theorem SameOutside.refl : SameOutside p q mem mem := fun _ _ => rfl

theorem SameOutside.SetType (h : SameOutside p q mem mem') (h1 : p ≤ seg) (h2 : seg < q) :
    SameOutside p q mem (SetType mem' seg v) :=
  fun a ha => (Memory.writeb_of_ne (by omega)).trans (h a ha)

theorem SameOutside.SetPSPSeg (h : SameOutside p q mem mem') (h1 : p ≤ seg) (h2 : seg < q) :
    SameOutside p q mem (SetPSPSeg mem' seg v) :=
  fun a ha => (Memory.writew_of_ne (by omega) (by omega)).trans (h a ha)

theorem SameOutside.SetSize (h : SameOutside p q mem mem') (h1 : p ≤ seg) (h2 : seg < q) :
    SameOutside p q mem (SetSize mem' seg v) :=
  fun a ha => (Memory.writew_of_ne (by omega) (by omega)).trans (h a ha)

theorem SameOutside.SetFileName {name : Fin 8 → UInt8} (h : SameOutside p q mem mem')
    (h1 : p ≤ seg) (h2 : seg < q) : SameOutside p q mem (SetFileName mem' seg name) := by
  intro a ha
  rw [DOS_MCB.SetFileName, dif_neg (by omega)]
  exact h a ha

end Headers

/-! ## The invariant -/

/-- The region that the blocks tile, and whether it has upper memory blocks. -/
structure Region where
  stop : ℕ
  umb : Bool
  lt_stop : DOS_MEM_START < stop
  stop_le : stop ≤ 0xf000
  umb_lt : umb = true → umb_start_seg < stop

namespace DosMemory

/-- The type of a block that ends at `e`. -/
def endType (r : Region) (umb_state e : ℕ) : ℕ :=
  if e = r.stop ∨ (r.umb = true ∧ umb_state ≠ 1 ∧ e = umb_start_seg) then ending_mcb_type
  else middle_mcb_type

/-- The blocks of the list tile the region, and the block that covers video memory
starts where the low chain ends. -/
structure Inv (r : Region) (s : DosMemory) (F : List Mcb) : Prop where
  first : s.firstMCB = DOS_MEM_START
  tiles : Tiles Mcb.extent (header s.mem) DOS_MEM_START F r.stop
  types : ∀ {p b}, (p, b) ∈ placed Mcb.extent DOS_MEM_START F →
    b.type = endType r s.umb_state (p + b.extent)
  cover : r.umb = true →
    ∃ b, (umb_start_seg, b) ∈ placed Mcb.extent DOS_MEM_START F ∧ b.psp = MCB_DOS
  umb_start : s.umb_start = if r.umb then umb_start_seg else 0xffff
  umb_state : s.umb_state = 0 ∨ s.umb_state = 1 ∧ r.umb = true
  psp : s.psp < 2 ^ 16

/-- A chain in which the block that covers video memory may have any owner. -/
structure Tiled (r : Region) (s : DosMemory) (F : List Mcb) : Prop where
  first : s.firstMCB = DOS_MEM_START
  tiles : Tiles Mcb.extent (header s.mem) DOS_MEM_START F r.stop
  types : ∀ {p b}, (p, b) ∈ placed Mcb.extent DOS_MEM_START F →
    b.type = endType r s.umb_state (p + b.extent)
  cover : r.umb = true →
    ∃ b, (umb_start_seg, b) ∈ placed Mcb.extent DOS_MEM_START F ∧ b.psp ≠ MCB_FREE
  psp : s.psp < 2 ^ 16

theorem Inv.tiled {r : Region} {s : DosMemory} {F : List Mcb} (h : s.Inv r F) : s.Tiled r F :=
  ⟨h.first, h.tiles, h.types, fun hu => (h.cover hu).imp fun _ hb => ⟨hb.1, by rw [hb.2]; decide⟩,
    h.psp⟩

/-- The block is allocated in both lists, with the same owner, size and data. -/
structure Kept (mem mem' : Memory) (F' : List Mcb) (p : ℕ) (b : Mcb) : Prop where
  placed : ∃ b', (p, b') ∈ placed Mcb.extent DOS_MEM_START F' ∧ b'.psp = b.psp ∧ b'.size = b.size
  data : ∀ a, 16 * (p + 1) ≤ a → a < 16 * (p + 1 + b.size) → mem' a = mem a

/-- All allocated blocks are kept, apart from some. -/
def Keeps (but : ℕ → Mcb → Prop) (mem mem' : Memory) (F F' : List Mcb) : Prop :=
  ∀ p b, (p, b) ∈ placed Mcb.extent DOS_MEM_START F → b.psp ≠ MCB_FREE → ¬ but p b →
    Kept mem mem' F' p b

section Edit

variable {r : Region} {s : DosMemory} {F A X Y B : List Mcb} {mem mem' mem₁ : Memory}
  {but : ℕ → Mcb → Prop}

theorem Keeps.refl : Keeps but mem mem F F :=
  fun _ b hp _ _ => ⟨⟨b, hp, rfl, rfl⟩, fun _ _ _ => rfl⟩

theorem Keeps.trans {F₁ F' : List Mcb}
    (h : Keeps but mem mem₁ F F₁) (h' : Keeps but mem₁ mem' F₁ F')
    (hbut : ∀ p b b', but p b' → b'.psp = b.psp → b'.size = b.size → but p b) :
    Keeps but mem mem' F F' := by
  intro p b hp hfree hout
  obtain ⟨⟨b₁, hp₁, hpsp, hsize⟩, hdata⟩ := h p b hp hfree hout
  obtain ⟨⟨b', hp', hpsp', hsize'⟩, hdata'⟩ := h' p b₁ hp₁ (hpsp ▸ hfree)
    fun hb => hout (hbut p b b₁ hb hpsp hsize)
  refine ⟨⟨b', hp', hpsp'.trans hpsp, hsize'.trans hsize⟩, fun a h1 h2 => ?_⟩
  rw [hdata' a h1 (hsize.symm ▸ h2), hdata a h1 h2]

theorem Keeps.mono {but' : ℕ → Mcb → Prop} (h : Keeps but mem mem' F Y)
    (hbut : ∀ p b, but p b → but' p b) : Keeps but' mem mem' F Y :=
  fun p b hp hfree hout => h p b hp hfree fun hb => hout (hbut p b hb)

/-- The segment at which a block behind the list starts. -/
abbrev after (A : List Mcb) : ℕ := DOS_MEM_START + total Mcb.extent A

theorem Tiled.stop_eq (h : s.Tiled r F) : r.stop = after F := h.tiles.stop_eq

theorem Inv.stop_eq (h : s.Inv r F) : r.stop = after F := h.tiled.stop_eq

theorem Tiled.after_le (h : s.Tiled r (A ++ B)) : after A ≤ 0xf000 := by
  have := h.stop_eq
  have := r.stop_le
  rw [after, total_append] at *
  omega

theorem Inv.after_le (h : s.Inv r (A ++ B)) : after A ≤ 0xf000 := h.tiled.after_le

/-- The blocks of a list in which a run stands. -/
theorem mem_placed_run {p : ℕ} {b : Mcb} :
    (p, b) ∈ placed Mcb.extent DOS_MEM_START (A ++ X ++ B) ↔
      (p, b) ∈ placed Mcb.extent DOS_MEM_START A ∨ (p, b) ∈ placed Mcb.extent (after A) X ∨
        (p, b) ∈ placed Mcb.extent (after A + total Mcb.extent X) B := by
  rw [placed_append, placed_append, total_append, List.mem_append, List.mem_append, or_assoc,
    Nat.add_assoc]

/-- A block with some owner at a position, after a run has been replaced by one of the same
extent. -/
theorem exists_placed_edit {P : ℕ → Prop} {p : ℕ}
    (hlen : total Mcb.extent Y = total Mcb.extent X)
    (h : ∃ b, (p, b) ∈ placed Mcb.extent DOS_MEM_START (A ++ X ++ B) ∧ P b.psp)
    (hrun : ∀ {b}, (p, b) ∈ placed Mcb.extent (after A) X → P b.psp →
      ∃ b', (p, b') ∈ placed Mcb.extent (after A) Y ∧ P b'.psp) :
    ∃ b, (p, b) ∈ placed Mcb.extent DOS_MEM_START (A ++ Y ++ B) ∧ P b.psp := by
  obtain ⟨b, hb, hpsp⟩ := h
  rcases mem_placed_run.1 hb with hA | hX | hB
  · exact ⟨b, mem_placed_run.2 (Or.inl hA), hpsp⟩
  · obtain ⟨b', hb', hpsp'⟩ := hrun hX hpsp
    exact ⟨b', mem_placed_run.2 (Or.inr (Or.inl hb')), hpsp'⟩
  · exact ⟨b, mem_placed_run.2 (Or.inr (Or.inr (hlen ▸ hB))), hpsp⟩

/-- **The one way a call changes the chain.**  A run of blocks is replaced by
another one with the same extent; only bytes of these blocks are written. -/
theorem Tiled.edit (h : s.Tiled r (A ++ X ++ B))
    (hmem : SameOutside (after A) (after A + total Mcb.extent X) s.mem mem')
    (hY : Tiles Mcb.extent (header mem') (after A) Y (after A + total Mcb.extent X))
    (htypes : ∀ {p b}, (p, b) ∈ placed Mcb.extent (after A) Y →
      b.type = endType r s.umb_state (p + b.extent))
    (hcover : r.umb = true → ∃ b, (umb_start_seg, b) ∈
      placed Mcb.extent DOS_MEM_START (A ++ Y ++ B) ∧ b.psp ≠ MCB_FREE) :
    Tiled r { s with mem := mem' } (A ++ Y ++ B) := by
  have hlen : total Mcb.extent Y = total Mcb.extent X := by
    have := hY.stop_eq
    omega
  refine ⟨h.first, h.tiles.replace Mcb.extent_pos hY fun p hp => hmem.header hp, ?_,
    hcover, h.psp⟩
  intro p b hp
  rcases mem_placed_run.1 hp with hA | hZ | hB
  · exact h.types (mem_placed_run.2 (Or.inl hA))
  · exact htypes hZ
  · exact h.types (mem_placed_run.2 (Or.inr (Or.inr (hlen ▸ hB))))

/-- What an edit keeps: everything but the blocks it replaces. -/
theorem Keeps.edit (h : s.Tiled r (A ++ X ++ B))
    (hmem : SameOutside (after A) (after A + total Mcb.extent X) s.mem mem')
    (hlen : total Mcb.extent Y = total Mcb.extent X)
    (hX : ∀ {p b}, (p, b) ∈ placed Mcb.extent (after A) X → b.psp ≠ MCB_FREE → but p b) :
    Keeps but s.mem mem' (A ++ X ++ B) (A ++ Y ++ B) := by
  intro p b hp hfree hout
  have hbounds := h.tiles.placed_bounds hp
  rw [placed_append, placed_append, List.mem_append, List.mem_append, total_append] at hp
  rcases hp with (hA | hX') | hB
  · refine ⟨⟨b, ?_, rfl, rfl⟩, fun a h1 h2 => hmem a (Or.inl ?_)⟩
    · rw [placed_append, placed_append, List.mem_append, List.mem_append]
      exact Or.inl (Or.inl hA)
    · have := ((tiles_append.1 (tiles_append.1 h.tiles).1).1).placed_bounds hA
      simp only [Mcb.extent] at this
      simp only [after]
      omega
  · exact absurd (hX hX' hfree) hout
  · refine ⟨⟨b, ?_, rfl, rfl⟩, fun a h1 h2 => hmem a (Or.inr ?_)⟩
    · rw [placed_append, placed_append, List.mem_append, List.mem_append, total_append, hlen]
      exact Or.inr hB
    · obtain ⟨C, D, -, rfl⟩ := mem_placed.1 hB
      simp only [after]
      omega

/-! ## Standing at a block -/

theorem after_concat (A : List Mcb) (b : Mcb) : after (A ++ [b]) = after A + b.extent := by
  simp [after, Nat.add_assoc]

variable {b : Mcb} {L : List Mcb}

theorem Tiled.header_at (h : s.Tiled r (A ++ b :: L)) : header s.mem (after A) = b :=
  (tiles_append.1 h.tiles).2.1

theorem Tiled.getType_at (h : s.Tiled r (A ++ b :: L)) : GetType s.mem (after A) = b.type :=
  congrArg Mcb.type h.header_at

theorem Tiled.getPSPSeg_at (h : s.Tiled r (A ++ b :: L)) : GetPSPSeg s.mem (after A) = b.psp :=
  congrArg Mcb.psp h.header_at

theorem Tiled.getSize_at (h : s.Tiled r (A ++ b :: L)) : GetSize s.mem (after A) = b.size :=
  congrArg Mcb.size h.header_at

theorem placed_after :
    (after A, b) ∈ placed Mcb.extent DOS_MEM_START (A ++ b :: L) :=
  mem_placed.2 ⟨A, L, rfl, rfl⟩

/-- The segment behind a block does not wrap around. -/
theorem Tiled.u16_next (h : s.Tiled r (A ++ b :: L)) :
    u16 (after A + b.size + 1) = after (A ++ [b]) := by
  have hle := Tiled.after_le (A := A ++ [b]) (B := L) (by simpa using h)
  rw [after_concat] at *
  rw [u16, Nat.mod_eq_of_lt (by rw [Mcb.extent] at hle; omega)]
  rfl

theorem Tiled.type_eq (h : s.Tiled r (A ++ b :: L)) :
    b.type = middle_mcb_type ∨ b.type = ending_mcb_type := by
  rw [h.types placed_after, endType]
  split
  · exact Or.inr rfl
  · exact Or.inl rfl

/-- A block of the middle type has a block behind it. -/
theorem Tiled.exists_next (h : s.Tiled r (A ++ b :: L)) (hb : b.type ≠ ending_mcb_type) :
    ∃ c L', L = c :: L' := by
  cases L with
  | cons c L' => exact ⟨c, L', rfl⟩
  | nil =>
    refine absurd ?_ hb
    rw [h.types placed_after, endType, if_pos]
    left
    rw [h.stop_eq, after_concat]

theorem Tiled.exists_first (h : s.Tiled r F) : ∃ b L, F = b :: L := by
  cases F with
  | cons b L => exact ⟨b, L, rfl⟩
  | nil => exact absurd h.tiles r.lt_stop.ne

theorem Tiled.type_lt (h : s.Tiled r (A ++ b :: L)) : b.type < 256 := by
  rcases h.type_eq with h | h <;> rw [h] <;> decide

/-- All sizes and segments of the chain fit in 16 bits. -/
theorem Tiled.run_lt (h : s.Tiled r (A ++ L ++ B)) : after A + total Mcb.extent L < 2 ^ 16 := by
  have hle := h.after_le
  rw [after, total_append] at hle
  simp only [after]
  omega

theorem Tiled.length_lt (h : s.Tiled r F) : F.length < maxRounds := by
  have hlen : ∀ L : List Mcb, L.length ≤ total Mcb.extent L := by
    intro L
    induction L with
    | nil => simp
    | cons b L ih =>
      have := b.extent_pos
      simp only [List.length_cons, total_cons]
      omega
  have h1 := hlen F
  have h2 := h.stop_eq
  have h3 := r.stop_le
  simp only [maxRounds]
  simp only [after] at h2
  omega

section Inv

variable (h : s.Inv r (A ++ b :: L))

include h

theorem Inv.header_at : header s.mem (after A) = b := h.tiled.header_at

theorem Inv.getType_at : GetType s.mem (after A) = b.type := h.tiled.getType_at

theorem Inv.getPSPSeg_at : GetPSPSeg s.mem (after A) = b.psp := h.tiled.getPSPSeg_at

theorem Inv.getSize_at : GetSize s.mem (after A) = b.size := h.tiled.getSize_at

theorem Inv.u16_next : u16 (after A + b.size + 1) = after (A ++ [b]) := h.tiled.u16_next

theorem Inv.type_eq : b.type = middle_mcb_type ∨ b.type = ending_mcb_type := h.tiled.type_eq

theorem Inv.type_lt : b.type < 256 := h.tiled.type_lt

theorem Inv.exists_next (hb : b.type ≠ ending_mcb_type) : ∃ c L', L = c :: L' :=
  h.tiled.exists_next hb

end Inv

theorem Inv.exists_first (h : s.Inv r F) : ∃ b L, F = b :: L := h.tiled.exists_first

theorem Inv.run_lt (h : s.Inv r (A ++ L ++ B)) : after A + total Mcb.extent L < 2 ^ 16 :=
  h.tiled.run_lt

theorem Inv.length_lt (h : s.Inv r F) : F.length < maxRounds := h.tiled.length_lt

/-- The covering block, where the walk of the upper chain starts. -/
theorem Inv.exists_cover (h : s.Inv r F) (hu : r.umb = true) :
    ∃ A b L, F = A ++ b :: L ∧ after A = umb_start_seg := by
  obtain ⟨b, hb, -⟩ := h.cover hu
  obtain ⟨A, L, hF, hA⟩ := mem_placed.1 hb
  exact ⟨A, b, L, hF, hA.symm⟩

/-- An invariant chain becomes a tiled one, and the system keeps the block that covers video
memory. -/
theorem Inv.of_tiled {s' : DosMemory} {F' : List Mcb} (h : s.Inv r F) (htiled : s'.Tiled r F')
    (hkeep : Keeps but s.mem s'.mem F F')
    (hcover : ∀ b, (umb_start_seg, b) ∈ placed Mcb.extent DOS_MEM_START F → b.psp = MCB_DOS →
      ¬ but umb_start_seg b)
    (hstart : s'.umb_start = s.umb_start) (hstate : s'.umb_state = s.umb_state) :
    s'.Inv r F' := by
  refine ⟨htiled.first, htiled.tiles, htiled.types, fun hu => ?_, hstart.trans h.umb_start,
    by rw [hstate]; exact h.umb_state, htiled.psp⟩
  obtain ⟨b, hb, hpsp⟩ := h.cover hu
  obtain ⟨⟨b', hb', hpsp', -⟩, -⟩ := hkeep _ b hb (by rw [hpsp]; decide) (hcover b hb hpsp)
  exact ⟨b', hb', hpsp'.trans hpsp⟩

theorem Inv.umb_start_iff (h : s.Inv r F) : s.umb_start = umb_start_seg ↔ r.umb = true := by
  rw [h.umb_start]
  cases r.umb <;> decide

end Edit

end DosMemory

end AugraDosbox
