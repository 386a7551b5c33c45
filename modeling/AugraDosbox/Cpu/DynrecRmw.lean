import AugraDosbox.Cpu.DynrecFlags
import Mathlib.Logic.Function.Basic

/-!
# Instructions with a memory destination in the dynamic core

`dyn_dop_ebgb` and `dyn_dop_evgv` of `src/cpu/core_dynrec/decoder_opcodes.h` with the memory
operand first: a checked read, the helper, a checked write.

* `Memory` — the bytes, and which accesses report an exception;
* `mem_read_checked`, `mem_write_checked` — the accesses of the three widths, byte by byte
  where they go over the end of a page;
* `dyn_dop` — the instruction, up to its end or to the call of `DynRunException`;
* `Restartable` — after an exception nothing has changed, and the instruction does later what
  it would have done;
* **`restartable_iff`** — when that is so: the flags have been recorded before the write
  fails, and the first bytes of a value that lies in two pages may have been written.

The accessed bits that a read sets in the page tables are left out.
-/

namespace AugraDosbox.Dynrec

open FlagType DualOps

abbrev Bytes := BitVec 32 → BitVec 8

/-! ## Checked accesses -/

/-- Whether an access within one page reports an exception may depend on the memory. -/
structure Memory where
  bytes : Bytes
  /-- Writes to ROM are dropped. -/
  rom : BitVec 32 → Bool
  readFault : Bytes → BitVec 32 → ℕ → Bool
  writeFault : Bytes → BitVec 32 → List (BitVec 8) → Bool

/-- The number of bytes of an operand. -/
def byteCount (w : Width) : ℕ := w.bits / 8

/-- The bytes of a value, the low one first. -/
def toBytes {w : Width} (value : BitVec w.bits) : List (BitVec 8) :=
  (List.range (byteCount w)).map fun k => value.extractLsb' (8 * k) 8

namespace Memory

def value (m : Memory) (w : Width) (address : BitVec 32) : BitVec w.bits :=
  match w with
  | .byte => m.bytes address
  | .word => m.bytes (address + 1) ++ m.bytes address
  | .dword => m.bytes (address + 3) ++ m.bytes (address + 2) ++ m.bytes (address + 1) ++
      m.bytes address

/-- The operand lies in one page. -/
def inPage (w : Width) (address : BitVec 32) : Bool :=
  (address &&& 0xfff).toNat + byteCount w ≤ 0x1000

/-- `mem_readb_checked`, `mem_readw_checked` and `mem_readd_checked`. -/
def mem_read_checked (m : Memory) (w : Width) (address : BitVec 32) : Option (BitVec w.bits) :=
  if inPage w address then
    if m.readFault m.bytes address (byteCount w) then none else some (m.value w address)
  else if (List.range (byteCount w)).any fun k => m.readFault m.bytes (address + BitVec.ofNat 32 k) 1
  then none
  else some (m.value w address)

def store (m : Memory) (address : BitVec 32) (byte : BitVec 8) : Memory :=
  if m.rom address then m else { m with bytes := Function.update m.bytes address byte }

/-- Bytes are written one after another, up to the first that reports an exception. -/
def writeEach (m : Memory) (address : BitVec 32) : List (BitVec 8) → Bool × Memory
  | [] => (false, m)
  | byte :: rest =>
    if m.writeFault m.bytes address [byte] then (true, m)
    else (m.store address byte).writeEach (address + 1) rest

def storeAll (m : Memory) (address : BitVec 32) : List (BitVec 8) → Memory
  | [] => m
  | byte :: rest => (m.store address byte).storeAll (address + 1) rest

/-- `mem_writeb_checked`, `mem_writew_checked` and `mem_writed_checked`. -/
def mem_write_checked (m : Memory) (w : Width) (address : BitVec 32) (value : BitVec w.bits) :
    Bool × Memory :=
  if inPage w address then
    if m.writeFault m.bytes address (toBytes value) then (true, m)
    else (false, m.storeAll address (toBytes value))
  else m.writeEach address (toBytes value)

end Memory

/-! ## The instruction -/

abbrev Registers := Fin 8 → BitVec 32

structure State where
  regs : Registers
  cpu : Cpu
  mem : Memory

/-- An instruction with a memory operand and a register. -/
structure Rmw where
  op : DualOps
  w : Width
  /-- What `dyn_fill_ea` makes of the registers. -/
  ea : Registers → BitVec 32
  reg : Fin 8

/-- The register operand; a byte is in one of the first four, low or high. -/
def Rmw.operand (i : Rmw) (regs : Registers) : BitVec i.w.bits :=
  match i.w with
  | .byte => (regs (i.reg % 4) >>> (if i.reg.val < 4 then 0 else 8)).setWidth 8
  | .word => (regs i.reg).setWidth 16
  | .dword => regs i.reg

/-- The call of the helper, or of its variant without flags when a later instruction of the
block sets all flags. -/
def gencall (patched : Bool) (w : Width) (op1 op2 : BitVec w.bits) (c : Cpu) (op : DualOps) :
    Option (BitVec w.bits) × Cpu :=
  if patched then (dual_simple w op1 op2 c op, c) else dual_call w op1 op2 c op

/-- `dyn_dop_ebgb` and `dyn_dop_evgv`; the flag says that `DynRunException` is called. -/
def dyn_dop (patched : Bool) (i : Rmw) (s : State) : Bool × State :=
  let address := i.ea s.regs
  match s.mem.mem_read_checked i.w address with
  | none => (true, s)
  | some op1 =>
    let r := gencall patched i.w op1 (i.operand s.regs) s.cpu i.op
    match r.1 with
    | none => (false, { s with cpu := r.2 })
    | some res =>
      let write := s.mem.mem_write_checked i.w address res
      (write.1, { s with cpu := r.2, mem := write.2 })

/-! ## Restarting it -/

/-- The two states have the same condition flags. -/
def SameFlags (c c' : Cpu) : Prop := ∀ f, isSet (FillFlags c).1 f = isSet (FillFlags c').1 f

structure SameState (s s' : State) : Prop where
  regs : s.regs = s'.regs
  flags : SameFlags s.cpu s'.cpu
  mem : s.mem = s'.mem

/-- After an exception everything is as before, and whatever the handler does to the memory,
the instruction then does what it would have done. -/
def Restartable (patched : Bool) (i : Rmw) (s : State) : Prop :=
  (dyn_dop patched i s).1 = true →
    SameState (dyn_dop patched i s).2 s ∧
      ∀ repair : Memory → Memory,
        let again := dyn_dop patched i
          { (dyn_dop patched i s).2 with mem := repair (dyn_dop patched i s).2.mem }
        let once := dyn_dop patched i { s with mem := repair s.mem }
        again.1 = once.1 ∧ SameState again.2 once.2

/-- The lazy flags are of a kind that an instruction leaves behind. -/
def Cpu.Valid (c : Cpu) : Prop := c.lflags.type = t_UNKNOWN ∨ c.lflags.type.Recorded

/-- Up to the first exception every byte is the one that is there already, or goes to ROM. -/
def Unharmed (m : Memory) (address : BitVec 32) : List (BitVec 8) → Prop
  | [] => True
  | byte :: rest => m.writeFault m.bytes address [byte] = true ∨
      (m.rom address = true ∨ m.bytes address = byte) ∧ Unharmed m (address + 1) rest

/-- The read fails, or the write does not, or else the flags and the memory already are what
the instruction makes of them. -/
def Harmless (patched : Bool) (i : Rmw) (s : State) : Prop :=
  match s.mem.mem_read_checked i.w (i.ea s.regs) with
  | none => True
  | some op1 =>
    let op2 := i.operand s.regs
    let cf := truth (get_CF s.cpu)
    let res := i.op.result i.w op1 op2 cf
    i.op.writes = false ∨ (s.mem.mem_write_checked i.w (i.ea s.regs) res).1 = false ∨
      (patched = true ∨ ∀ f, isSet (FillFlags s.cpu).1 f = i.op.flag i.w op1 op2 cf f) ∧
        (Memory.inPage i.w (i.ea s.regs) = true ∨ Unharmed s.mem (i.ea s.regs) (toBytes res))

/-! ## What a write leaves -/

section

variable {m : Memory} {address : BitVec 32} {bytes : List (BitVec 8)}

variable {byte : BitVec 8}

theorem store_of_ne {x : BitVec 32} (h : x ≠ address) :
    (m.store address byte).bytes x = m.bytes x := by
  unfold Memory.store
  split
  · rfl
  · exact Function.update_of_ne h ..

theorem store_eq_iff : (m.store address byte).bytes address = m.bytes address ↔
    m.rom address = true ∨ m.bytes address = byte := by
  unfold Memory.store
  split
  · rename_i hrom
    exact iff_of_true rfl (.inl hrom)
  · rename_i hrom
    rw [or_iff_right hrom]
    change Function.update m.bytes address byte address = m.bytes address ↔ _
    rw [Function.update_self, eq_comm]

theorem store_eq_self (h : m.rom address = true ∨ m.bytes address = byte) :
    m.store address byte = m := by
  unfold Memory.store
  split
  · rfl
  · rename_i hrom
    have hsame : Function.update m.bytes address byte = m.bytes := by
      rw [← h.resolve_left hrom]
      exact Function.update_eq_self address m.bytes
    rw [hsame]

/-- Writing does not touch what lies elsewhere. -/
theorem writeEach_of_ne {x : BitVec 32}
    (h : ∀ k < bytes.length, x ≠ address + BitVec.ofNat 32 k) :
    (m.writeEach address bytes).2.bytes x = m.bytes x := by
  induction bytes generalizing m address with
  | nil => rfl
  | cons byte rest ih =>
    unfold Memory.writeEach
    split
    · rfl
    · have hrest : ∀ k < rest.length, x ≠ address + 1 + BitVec.ofNat 32 k := by
        intro k hk heq
        refine h (k + 1) (by simpa using hk) ?_
        rw [heq, BitVec.add_assoc, Nat.add_comm k 1, BitVec.ofNat_add]
        rfl
      have hne : x ≠ address := by
        have hzero := h 0 (by simp)
        simpa using hzero
      rw [ih hrest, store_of_ne hne]

/-- A write that fails leaves the memory as it was exactly when the bytes before were there. -/
theorem writeEach_eq_self_iff (hlength : bytes.length < 2 ^ 32)
    (hfails : (m.writeEach address bytes).1 = true) :
    (m.writeEach address bytes).2 = m ↔ Unharmed m address bytes := by
  induction bytes generalizing m address with
  | nil => exact absurd hfails (by simp [Memory.writeEach])
  | cons byte rest ih =>
    have hlength' : rest.length + 1 < 2 ^ 32 := hlength
    unfold Memory.writeEach Unharmed
    unfold Memory.writeEach at hfails
    by_cases hfault : m.writeFault m.bytes address [byte] = true
    · rw [if_pos hfault]
      exact iff_of_true rfl (.inl hfault)
    · rw [if_neg hfault] at hfails ⊢
      rw [or_iff_right hfault]
      constructor
      · intro hsame
        -- the byte is not written again
        have hfirst : ((m.store address byte).writeEach (address + 1) rest).2.bytes address =
            (m.store address byte).bytes address := by
          refine writeEach_of_ne fun k hk heq => ?_
          have hsum := congrArg BitVec.toNat heq
          rw [BitVec.toNat_add, BitVec.toNat_add, BitVec.toNat_ofNat] at hsum
          have hlt := address.isLt
          have hone : (1 : BitVec 32).toNat = 1 := rfl
          omega
        rw [hsame] at hfirst
        have hthere := store_eq_iff.mp hfirst.symm
        rw [store_eq_self hthere] at hsame hfails
        exact ⟨hthere, (ih (by omega) hfails).mp hsame⟩
      · rintro ⟨hthere, hrest⟩
        rw [store_eq_self hthere] at hfails ⊢
        exact (ih (by omega) hfails).mpr hrest

theorem length_toBytes {w : Width} {value : BitVec w.bits} : (toBytes value).length ≤ 4 := by
  cases w <;> simp [toBytes, byteCount, Width.bits]

theorem write_eq_self_iff {w : Width} {value : BitVec w.bits}
    (hfails : (m.mem_write_checked w address value).1 = true) :
    (m.mem_write_checked w address value).2 = m ↔
      Memory.inPage w address = true ∨ Unharmed m address (toBytes value) := by
  unfold Memory.mem_write_checked at hfails ⊢
  by_cases hpage : Memory.inPage w address = true
  · rw [if_pos hpage] at hfails ⊢
    have hfault : m.writeFault m.bytes address (toBytes value) = true := by
      by_contra h
      rw [if_neg h] at hfails
      exact absurd hfails (by simp)
    rw [if_pos hfault]
    exact iff_of_true rfl (.inl hpage)
  · rw [if_neg hpage] at hfails ⊢
    rw [or_iff_right hpage]
    exact writeEach_eq_self_iff (length_toBytes.trans_lt (by decide)) hfails

end

/-! ## States with the same flags -/

section

variable {c c' : Cpu} {s s' : State} {i : Rmw} {patched : Bool}

theorem SameFlags.refl (c : Cpu) : SameFlags c c := fun _ => rfl

theorem SameState.refl (s : State) : SameState s s := ⟨rfl, .refl _, rfl⟩

/-- `get_CF` reads the carry that `FillFlags` reads. -/
theorem Cpu.Valid.truth_get_CF (h : Cpu.Valid c) :
    truth (get_CF c) = isSet (FillFlags c).1 .CF := by
  rcases h with h | h
  · simp only [get_CF, FillFlags, h, truth_GETFLAG]
  · rw [CF_agrees h]
    rcases c with ⟨r, l⟩
    cases ht : l.type <;> simp only [ht, FlagType.Recorded] at h <;> simp only [FillFlags, ht]

variable {w : Width} {op : DualOps}

theorem valid_gencall {op1 op2 : BitVec w.bits} (h : Cpu.Valid c) :
    Cpu.Valid (gencall patched w op1 op2 c op).2 := by
  unfold gencall
  split
  · exact h
  · exact .inr recorded_dual_call

theorem gencall_result {op1 op2 : BitVec w.bits} :
    (gencall patched w op1 op2 c op).1 =
      if op.writes then some (op.result w op1 op2 (truth (get_CF c))) else none := by
  unfold gencall
  split
  · exact dual_simple_result
  · exact dual_call_result

theorem gencall_congr {op1 op2 : BitVec w.bits} (h : Cpu.Valid c) (h' : Cpu.Valid c')
    (hsame : SameFlags c c') :
    (gencall patched w op1 op2 c op).1 = (gencall patched w op1 op2 c' op).1 ∧
      SameFlags (gencall patched w op1 op2 c op).2 (gencall patched w op1 op2 c' op).2 := by
  have hcf : truth (get_CF c) = truth (get_CF c') := by
    rw [h.truth_get_CF, h'.truth_get_CF, hsame]
  constructor
  · rw [gencall_result, gencall_result, hcf]
  · intro f
    unfold gencall
    split
    · exact hsame f
    · rw [flags_dual_call, flags_dual_call, hcf]

/-- The instruction does not tell such states apart. -/
theorem dyn_dop_congr (h : Cpu.Valid s.cpu) (h' : Cpu.Valid s'.cpu) (hsame : SameState s s') :
    (dyn_dop patched i s).1 = (dyn_dop patched i s').1 ∧
      SameState (dyn_dop patched i s).2 (dyn_dop patched i s').2 := by
  obtain ⟨regs, cpu, mem⟩ := s
  obtain ⟨regs', cpu', mem'⟩ := s'
  obtain ⟨hregs, hflags, hmem⟩ := hsame
  obtain rfl : regs = regs' := hregs
  obtain rfl : mem = mem' := hmem
  unfold dyn_dop
  dsimp only
  cases mem.mem_read_checked i.w (i.ea regs) with
  | none => exact ⟨rfl, rfl, hflags, rfl⟩
  | some op1 =>
    obtain ⟨hresult, hcall⟩ : (gencall patched i.w op1 (i.operand regs) cpu i.op).1 =
        (gencall patched i.w op1 (i.operand regs) cpu' i.op).1 ∧ _ := gencall_congr h h' hflags
    dsimp only
    rw [hresult]
    cases (gencall patched i.w op1 (i.operand regs) cpu' i.op).1 with
    | none => exact ⟨rfl, rfl, hcall, rfl⟩
    | some res => exact ⟨rfl, rfl, hcall, rfl⟩

/-- The flags after the call are the ones before it. -/
theorem gencall_sameFlags_iff {op1 op2 : BitVec w.bits} :
    SameFlags (gencall patched w op1 op2 c op).2 c ↔ patched = true ∨
      ∀ f, isSet (FillFlags c).1 f = op.flag w op1 op2 (truth (get_CF c)) f := by
  unfold gencall
  cases patched with
  | true => exact iff_of_true (SameFlags.refl c) (.inl rfl)
  | false =>
    rw [or_iff_right (by decide)]
    refine forall_congr' fun f => ?_
    rw [if_neg (by decide), flags_dual_call]
    exact eq_comm

theorem valid_dyn_dop (h : Cpu.Valid s.cpu) : Cpu.Valid (dyn_dop patched i s).2.cpu := by
  unfold dyn_dop
  dsimp only
  cases s.mem.mem_read_checked i.w (i.ea s.regs) with
  | none => exact h
  | some op1 =>
    dsimp only
    cases (gencall patched i.w op1 (i.operand s.regs) s.cpu i.op).1 with
    | none => exact valid_gencall h
    | some res => exact valid_gencall h

/-- After an exception nothing has changed. -/
theorem unchanged_iff : ((dyn_dop patched i s).1 = true → SameState (dyn_dop patched i s).2 s) ↔
    Harmless patched i s := by
  unfold dyn_dop Harmless
  dsimp only
  cases s.mem.mem_read_checked i.w (i.ea s.regs) with
  | none => exact iff_of_true (fun _ => .refl s) trivial
  | some op1 =>
    dsimp only
    have hresult : (gencall patched i.w op1 (i.operand s.regs) s.cpu i.op).1 = _ := gencall_result
    by_cases hwrites : i.op.writes = true
    · rw [if_pos hwrites] at hresult
      rw [hresult, or_iff_right (by rw [hwrites]; decide)]
      dsimp only
      generalize i.op.result i.w op1 (i.operand s.regs) (truth (get_CF s.cpu)) = res
      by_cases hfails : (s.mem.mem_write_checked i.w (i.ea s.regs) res).1 = true
      · rw [or_iff_right (by rw [hfails]; decide), ← write_eq_self_iff hfails,
          ← gencall_sameFlags_iff]
        constructor
        · intro h
          exact ⟨(h hfails).flags, (h hfails).mem⟩
        · rintro ⟨hflags, hmem⟩ _
          exact ⟨rfl, hflags, hmem⟩
      · exact iff_of_true (fun h => absurd h hfails) (.inl (Bool.eq_false_iff.mpr hfails))
    · rw [if_neg hwrites] at hresult
      rw [hresult]
      dsimp only
      exact iff_of_true (fun h => absurd h (by decide)) (.inl (Bool.eq_false_iff.mpr hwrites))

/-- **An instruction can be restarted exactly when its exception does no harm**: the flags have
not been recorded yet, or they are what they were, and no byte before the one that fails is
another than before. -/
theorem restartable_iff (h : Cpu.Valid s.cpu) :
    Restartable patched i s ↔ Harmless patched i s := by
  rw [← unchanged_iff]
  constructor
  · exact fun hrestart hexception => (hrestart hexception).1
  · intro hunchanged hexception
    have hsame := hunchanged hexception
    refine ⟨hsame, fun repair => ?_⟩
    have hrepaired : SameState
        { (dyn_dop patched i s).2 with mem := repair (dyn_dop patched i s).2.mem }
        { s with mem := repair s.mem } :=
      ⟨hsame.regs, hsame.flags, congrArg repair hsame.mem⟩
    exact dyn_dop_congr (valid_dyn_dop h) h hrepaired

end

/-! ## An instruction that cannot be restarted -/

/-- A page that can be read and not written, with the byte 0xff. -/
def readOnlyState : State where
  regs := fun _ => 1
  cpu := ⟨2, {}⟩
  mem := {
    bytes := fun _ => 0xff
    rom := fun _ => false
    readFault := fun _ _ _ => false
    writeFault := fun _ _ _ => true }

/-- `ADC [0x1000],AL`. -/
def adcByte : Rmw := ⟨DOP_ADC, .byte, fun _ => 0x1000, 0⟩

/-- The carry that `ADC` has recorded is there when the write fails. -/
theorem adc_not_restartable : ¬ ∀ patched i s, Cpu.Valid s.cpu → Restartable patched i s := by
  intro hall
  have hrestart := hall false adcByte readOnlyState (.inl rfl) (by decide)
  exact absurd (hrestart.1.flags .CF) (by decide)

/-- When the page cannot be read either, nothing has happened yet. -/
theorem restartable_unreadable :
    Restartable false adcByte { readOnlyState with
      mem := { readOnlyState.mem with readFault := fun _ _ _ => true } } :=
  (restartable_iff (.inl rfl)).mpr trivial

end AugraDosbox.Dynrec
