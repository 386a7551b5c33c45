import Mathlib.Data.List.Induction
import AugraDosbox.Ints.XmsMove

/-!
# A20 accounting

Functions 03h to 06h and 0Bh of `XMS_Handler` in `src/ints/xms.cpp`: the global and the local
calls share one counter, and Global Enable is recorded in a flag of its own.

* `line_iff` — after every run the A20 line is on exactly while the counter is not zero;
* `XMS_Handler_backed_iff` — the one call after which the flag is set without a count behind it:
  a Local Disable that takes back the count of Global Enable;
* **`a20_accounting`** — what holds after every run, and of the runs without such a call;
* `global_enable_unbacked` — a run of three calls with one: Global Enable reports success with
  the line off.
-/

namespace AugraDosbox

/-! ## The counter -/

/-- The results of the A20 calls. -/
inductive A20Result where
  | OK
  | A20LineError
  | A20StillEnabled
deriving DecidableEq, Repr

/-- The value of the enumeration, which is what BL reports. -/
def A20Result.code : A20Result → BitVec 8
  | .OK => 0x00
  | .A20LineError => 0x82
  | .A20StillEnabled => 0x94

/-- The value of the enumeration, which is what BL reports. -/
def MoveResult.code : MoveResult → BitVec 8
  | .OK => 0x00
  | .XmsInvalidSrcHandle => 0xa3
  | .XmsInvalidSrcOffset => 0xa4
  | .XmsInvalidDestHandle => 0xa5
  | .XmsInvalidDestOffset => 0xa6
  | .XmsInvalidLength => 0xa7
  | .XmsParityError => 0xa9

def A20MaxTimesEnabled : BitVec 32 := 0xFFFFFFFF

namespace MoveDriver

/-- `a20_local_enable`; `none` is `E_Exit`. -/
def a20_local_enable (d : MoveDriver) : Option (A20Result × MoveDriver) :=
  if d.num_times_enabled = A20MaxTimesEnabled then some (.A20LineError, d)
  else
    let d' := { d with num_times_enabled := d.num_times_enabled + 1 }
    if d.num_times_enabled = 0 then
      (d'.a20.a20_enable true).map fun a20 => (.OK, { d' with a20 })
    else some (.OK, d')

def a20_local_disable (d : MoveDriver) : Option (A20Result × MoveDriver) :=
  if d.num_times_enabled = 0 then some (.A20LineError, d)
  else
    let d' := { d with num_times_enabled := d.num_times_enabled - 1 }
    if d'.num_times_enabled ≠ 0 then some (.A20StillEnabled, d')
    else (d'.a20.a20_enable false).map fun a20 => (.OK, { d' with a20 })

/-- The A20 line is on exactly while the counter is not zero. -/
def Counted (d : MoveDriver) : Prop := d.a20.enabled = true ↔ 0 < d.num_times_enabled.toNat

/-! ## What one call does -/

variable {d : MoveDriver}

/-- Local Enable counts, up to the maximum, and keeps the line with the counter. -/
theorem a20_local_enable_spec (hcounted : d.Counted) :
    ∃ result d', d.a20_local_enable = some (result, d') ∧ d'.Counted ∧
      ((result = .A20LineError ∧ d' = d ∧ d.num_times_enabled = A20MaxTimesEnabled) ∨
        (result = .OK ∧ d'.num_times_enabled.toNat = d.num_times_enabled.toNat + 1)) := by
  by_cases hmax : d.num_times_enabled = A20MaxTimesEnabled
  · exact ⟨.A20LineError, d, if_pos hmax, hcounted, .inl ⟨rfl, rfl, hmax⟩⟩
  · have hlt : d.num_times_enabled.toNat + 1 < 2 ^ 32 := by
      have hne : d.num_times_enabled.toNat ≠ 0xFFFFFFFF :=
        fun h => hmax (BitVec.eq_of_toNat_eq h)
      have hbound := d.num_times_enabled.isLt
      omega
    have hsucc : (d.num_times_enabled + 1).toNat = d.num_times_enabled.toNat + 1 := by
      rw [BitVec.toNat_add]
      exact Nat.mod_eq_of_lt hlt
    by_cases hzero : d.num_times_enabled = 0
    · refine ⟨.OK, { d with
        num_times_enabled := d.num_times_enabled + 1
        a20 := { d.a20 with enabled := true } }, ?_, ?_, .inr ⟨rfl, hsucc⟩⟩
      · rw [a20_local_enable, if_neg hmax]
        dsimp only
        rw [if_pos hzero, FastA20.a20_enable_eq, Option.map_some]
      · show true = true ↔ 0 < (d.num_times_enabled + 1).toNat
        rw [hsucc]
        exact ⟨fun _ => Nat.succ_pos _, fun _ => rfl⟩
    · refine ⟨.OK, { d with num_times_enabled := d.num_times_enabled + 1 }, ?_, ?_,
        .inr ⟨rfl, hsucc⟩⟩
      · rw [a20_local_enable, if_neg hmax]
        exact if_neg hzero
      · have hpos : 0 < d.num_times_enabled.toNat :=
          Nat.pos_of_ne_zero fun h => hzero (BitVec.eq_of_toNat_eq h)
        show d.a20.enabled = true ↔ 0 < (d.num_times_enabled + 1).toNat
        rw [hsucc]
        exact ⟨fun _ => Nat.succ_pos _, fun _ => hcounted.mpr hpos⟩

/-- Local Disable counts down, also when it reports that the line is still on. -/
theorem a20_local_disable_spec (hcounted : d.Counted) :
    ∃ result d', d.a20_local_disable = some (result, d') ∧ d'.Counted ∧
      d'.num_times_enabled.toNat = d.num_times_enabled.toNat - 1 ∧
      (result = .OK ↔ d.num_times_enabled = 1) := by
  by_cases hzero : d.num_times_enabled = 0
  · refine ⟨.A20LineError, d, if_pos hzero, hcounted, ?_, ?_⟩
    · rw [hzero]
      rfl
    · rw [hzero]
      decide
  · have hpos : 1 ≤ d.num_times_enabled.toNat :=
      Nat.pos_of_ne_zero fun h => hzero (BitVec.eq_of_toNat_eq h)
    have hpred : (d.num_times_enabled - 1).toNat = d.num_times_enabled.toNat - 1 :=
      BitVec.toNat_sub_of_le hpos
    by_cases hlast : d.num_times_enabled - 1 = 0
    · have hone : d.num_times_enabled = 1 := by
        refine BitVec.eq_of_toNat_eq ?_
        show d.num_times_enabled.toNat = 1
        rw [hlast] at hpred
        change 0 = _ at hpred
        omega
      refine ⟨.OK, { d with
        num_times_enabled := d.num_times_enabled - 1
        a20 := { d.a20 with enabled := false } }, ?_, ?_, hpred, by simp [hone]⟩
      · rw [a20_local_disable, if_neg hzero]
        dsimp only
        rw [if_neg (not_not_intro hlast), FastA20.a20_enable_eq, Option.map_some]
      · show false = true ↔ 0 < (d.num_times_enabled - 1).toNat
        rw [hlast]
        decide
    · refine ⟨.A20StillEnabled, { d with num_times_enabled := d.num_times_enabled - 1 }, ?_, ?_,
        hpred, ?_⟩
      · rw [a20_local_disable, if_neg hzero]
        exact if_pos hlast
      · have hpos' : 0 < (d.num_times_enabled - 1).toNat :=
          Nat.pos_of_ne_zero fun h => hlast (BitVec.eq_of_toNat_eq h)
        exact ⟨fun _ => hpos', fun _ => hcounted.mpr hpos⟩
      · refine ⟨nofun, fun hone => absurd ?_ hlast⟩
        rw [hone]
        rfl

/-- A move leaves the line and the counter as they were. -/
theorem xms_move_memory_a20 (d : MoveDriver) (move : XMS_MemMove) :
    ∃ result d', xms_move_memory d move = some (result, d') ∧ d'.a20 = d.a20 ∧
      d'.num_times_enabled = d.num_times_enabled := by
  rw [xms_move_memory]
  split
  · exact ⟨_, _, rfl, rfl, rfl⟩
  · split
    · exact ⟨_, _, rfl, rfl, rfl⟩
    · split
      · exact ⟨_, _, rfl, rfl, rfl⟩
      · split
        · rw [Move.copy_eq, Option.map_some]
          exact ⟨_, _, rfl, rfl, rfl⟩
        · exact ⟨_, _, rfl, rfl, rfl⟩

end MoveDriver

/-! ## The handler -/

/-- The driver with `a20.enable_global`. -/
structure A20Driver where
  move : MoveDriver
  enable_global : Bool

/-- The functions 03h to 06h, and 0Bh with the request it reads from guest memory. -/
inductive XmsCall where
  | GlobalEnable
  | GlobalDisable
  | LocalEnable
  | LocalDisable
  | Move (move : XMS_MemMove)

/-- The registers a call returns its result in. -/
structure XmsReply where
  reg_ax : BitVec 16
  reg_bl : BitVec 8
deriving DecidableEq, Repr

def set_return_value (result : BitVec 8) : XmsReply where
  reg_ax := if result = 0 then 1 else 0
  reg_bl := result

def set_return_value_bl_only_fail (regs : XmsReply) (result : BitVec 8) : XmsReply where
  reg_ax := if result = 0 then 1 else 0
  reg_bl := if result = 0 then regs.reg_bl else result

namespace A20Driver

/-- `XMS_Handler` of one call; `none` is `E_Exit`. -/
def XMS_Handler (d : A20Driver) (regs : XmsReply) : XmsCall → Option (XmsReply × A20Driver)
  | .GlobalEnable =>
    if !d.enable_global then
      d.move.a20_local_enable.map fun (result, move) =>
        (set_return_value result.code, ⟨move, d.enable_global || decide (result = .OK)⟩)
    else some (set_return_value A20Result.OK.code, d)
  | .GlobalDisable =>
    if d.enable_global then
      d.move.a20_local_disable.map fun (result, move) =>
        (set_return_value result.code, ⟨move, d.enable_global && !decide (result = .OK)⟩)
    else some (set_return_value A20Result.OK.code, d)
  | .LocalEnable =>
    d.move.a20_local_enable.map fun (result, move) =>
      (set_return_value result.code, { d with move })
  | .LocalDisable =>
    d.move.a20_local_disable.map fun (result, move) =>
      (set_return_value result.code, { d with move })
  | .Move request =>
    (xms_move_memory d.move request).map fun (result, move) =>
      (set_return_value_bl_only_fail regs result.code, { d with move })

/-- The calls in order, each with the registers the guest enters it with. -/
def run (d : A20Driver) : List (XmsReply × XmsCall) → Option A20Driver
  | [] => some d
  | (regs, call) :: calls => (d.XMS_Handler regs call).bind fun (_, d') => d'.run calls

/-- The A20 line is off, and the counters are zero. -/
structure Initial (d : A20Driver) : Prop where
  line : d.move.a20.enabled = false
  count : d.move.num_times_enabled = 0
  enable_global : d.enable_global = false

/-- Global Enable has a count behind it. -/
def Backed (d : A20Driver) : Prop := d.enable_global = true → 0 < d.move.num_times_enabled.toNat

/-- The call is a Local Disable that takes back the count of Global Enable. -/
def TakesBack (d : A20Driver) (call : XmsCall) : Prop :=
  call = .LocalDisable ∧ d.enable_global = true ∧ d.move.num_times_enabled = 1

/-- No call of the run takes back the count of Global Enable. -/
def KeepsGlobal (d : A20Driver) (calls : List (XmsReply × XmsCall)) : Prop :=
  ∀ before regs call after, calls = before ++ (regs, call) :: after →
    ∀ s, d.run before = some s → ¬ s.TakesBack call

/-! ## What one call keeps -/

variable {d : A20Driver}

theorem initial_counted (h : d.Initial) : d.move.Counted := by
  rw [MoveDriver.Counted, h.line, h.count]
  decide

theorem initial_backed (h : d.Initial) : d.Backed := by
  intro hglobal
  rw [h.enable_global] at hglobal
  cases hglobal

theorem not_takesBack {call : XmsCall} (h : call ≠ .LocalDisable) : ¬ d.TakesBack call :=
  fun htakes => h htakes.1

/-- **One call.**  The line stays with the counter, and only a call that takes back the count of
Global Enable leaves the flag without one. -/
theorem XMS_Handler_spec (hcounted : d.move.Counted) (regs : XmsReply) (call : XmsCall) :
    ∃ reply d', d.XMS_Handler regs call = some (reply, d') ∧ d'.move.Counted ∧
      (d.Backed → (d'.Backed ↔ ¬ d.TakesBack call)) ∧
      (call = .GlobalEnable → reply.reg_ax = 1 → d'.enable_global = true) := by
  obtain ⟨move, enable_global⟩ := d
  dsimp only at hcounted
  cases call with
  | GlobalEnable =>
    cases enable_global with
    | false =>
      obtain ⟨result, move', hcall, hcounted', hresult⟩ :=
        MoveDriver.a20_local_enable_spec hcounted
      refine ⟨set_return_value result.code, ⟨move', decide (result = .OK)⟩, ?_, hcounted',
        fun _ => ⟨fun _ => not_takesBack nofun, fun _ hglobal => ?_⟩, fun _ hax => ?_⟩
      · simp only [XMS_Handler, Bool.not_false, if_true, hcall, Option.map_some, Bool.false_or]
      · rcases hresult with ⟨rfl, -, -⟩ | ⟨-, hcount⟩
        · cases hglobal
        · show 0 < move'.num_times_enabled.toNat
          omega
      · rcases hresult with ⟨rfl, -, -⟩ | ⟨rfl, -⟩
        · exact absurd hax (by decide)
        · rfl
    | true =>
      exact ⟨_, _, rfl, hcounted,
        fun hbacked => ⟨fun _ => not_takesBack nofun, fun _ => hbacked⟩, fun _ _ => rfl⟩
  | GlobalDisable =>
    cases enable_global with
    | false =>
      exact ⟨_, _, rfl, hcounted,
        fun hbacked => ⟨fun _ => not_takesBack nofun, fun _ => hbacked⟩, nofun⟩
    | true =>
      obtain ⟨result, move', hcall, hcounted', hcount, hlast⟩ :=
        MoveDriver.a20_local_disable_spec hcounted
      refine ⟨set_return_value result.code, ⟨move', !decide (result = .OK)⟩, ?_, hcounted',
        fun hbacked => ⟨fun _ => not_takesBack nofun, fun _ hglobal => ?_⟩, nofun⟩
      · simp only [XMS_Handler, if_true, hcall, Option.map_some, Bool.true_and]
      · have hpos : 0 < move.num_times_enabled.toNat := hbacked rfl
        have hne : move.num_times_enabled ≠ 1 := by
          intro hone
          rw [hlast.mpr hone] at hglobal
          cases hglobal
        have hne' : move.num_times_enabled.toNat ≠ 1 := fun h => hne (BitVec.eq_of_toNat_eq h)
        show 0 < move'.num_times_enabled.toNat
        omega
  | LocalEnable =>
    obtain ⟨result, move', hcall, hcounted', hresult⟩ := MoveDriver.a20_local_enable_spec hcounted
    refine ⟨set_return_value result.code, ⟨move', enable_global⟩, ?_, hcounted',
      fun hbacked => ⟨fun _ => not_takesBack nofun, fun _ hglobal => ?_⟩, nofun⟩
    · simp only [XMS_Handler, hcall, Option.map_some]
    · rcases hresult with ⟨-, rfl, -⟩ | ⟨-, hcount⟩
      · exact hbacked hglobal
      · show 0 < move'.num_times_enabled.toNat
        omega
  | LocalDisable =>
    obtain ⟨result, move', hcall, hcounted', hcount, -⟩ :=
      MoveDriver.a20_local_disable_spec hcounted
    refine ⟨set_return_value result.code, ⟨move', enable_global⟩, ?_, hcounted',
      fun hbacked => ⟨fun hbacked' htakes => ?_, fun hkeeps hglobal => ?_⟩, nofun⟩
    · simp only [XMS_Handler, hcall, Option.map_some]
    · obtain ⟨-, hglobal, hone⟩ := htakes
      have hpos : 0 < move'.num_times_enabled.toNat := hbacked' hglobal
      dsimp only at hone
      rw [hone] at hcount
      change _ = 1 - 1 at hcount
      omega
    · have hpos : 0 < move.num_times_enabled.toNat := hbacked hglobal
      have hne : move.num_times_enabled.toNat ≠ 1 :=
        fun h => hkeeps ⟨rfl, hglobal, BitVec.eq_of_toNat_eq h⟩
      show 0 < move'.num_times_enabled.toNat
      omega
  | Move request =>
    obtain ⟨result, move', hcall, hline, hcount⟩ := MoveDriver.xms_move_memory_a20 move request
    refine ⟨set_return_value_bl_only_fail regs result.code, ⟨move', enable_global⟩, ?_, ?_,
      fun hbacked => ⟨fun _ => not_takesBack nofun, fun _ hglobal => ?_⟩, nofun⟩
    · simp only [XMS_Handler, hcall, Option.map_some]
    · rw [MoveDriver.Counted] at hcounted ⊢
      dsimp only
      rw [hline, hcount]
      exact hcounted
    · show 0 < move'.num_times_enabled.toNat
      rw [hcount]
      exact hbacked hglobal

/-! ## Runs -/

theorem run_append (d : A20Driver) (before after : List (XmsReply × XmsCall)) :
    d.run (before ++ after) = (d.run before).bind fun s => s.run after := by
  induction before generalizing d with
  | nil => rfl
  | cons entry before ih =>
    obtain ⟨regs, call⟩ := entry
    simp only [List.cons_append, run, Option.bind_assoc]
    congr 1
    funext ⟨reply, d'⟩
    exact ih d'

/-- The line stays with the counter, and no run ends in `E_Exit`. -/
theorem line_iff (hcounted : d.move.Counted) (calls : List (XmsReply × XmsCall)) :
    ∃ s, d.run calls = some s ∧ s.move.Counted := by
  induction calls generalizing d with
  | nil => exact ⟨d, rfl, hcounted⟩
  | cons entry calls ih =>
    obtain ⟨regs, call⟩ := entry
    obtain ⟨reply, d', hcall, hcounted', -, -⟩ := XMS_Handler_spec hcounted regs call
    obtain ⟨s, hrun, hs⟩ := ih hcounted'
    refine ⟨s, ?_, hs⟩
    rw [run, hcall, Option.bind_some]
    exact hrun

theorem run_concat {calls : List (XmsReply × XmsCall)} {s s' : A20Driver} {regs reply : XmsReply}
    {call : XmsCall} (hrun : d.run calls = some s)
    (hcall : s.XMS_Handler regs call = some (reply, s')) :
    d.run (calls ++ [(regs, call)]) = some s' := by
  rw [run_append, hrun, Option.bind_some, run, hcall]
  rfl

/-- A run that keeps the count of Global Enable ends with the flag backed. -/
theorem KeepsGlobal.backed (hinit : d.Initial) {calls : List (XmsReply × XmsCall)}
    (hkeeps : d.KeepsGlobal calls) {s : A20Driver} (hrun : d.run calls = some s) : s.Backed := by
  induction calls using List.reverseRecOn generalizing s with
  | nil =>
    cases hrun
    exact initial_backed hinit
  | append_singleton calls entry ih =>
    obtain ⟨regs, call⟩ := entry
    obtain ⟨s₀, hrun₀, hcounted⟩ := line_iff (initial_counted hinit) calls
    have hbacked : s₀.Backed := by
      refine ih (fun before regs' call' after hsplit => ?_) hrun₀
      exact hkeeps before regs' call' (after ++ [(regs, call)]) (by rw [hsplit]; simp)
    obtain ⟨reply, s', hcall, -, hstep, -⟩ := XMS_Handler_spec hcounted regs call
    rw [run_concat hrun₀ hcall] at hrun
    cases hrun
    exact (hstep hbacked).mpr (hkeeps calls regs call [] rfl s₀ hrun₀)

/-- The flag is backed in every state of a run exactly when the run keeps the count of Global
Enable. -/
theorem backed_iff (hinit : d.Initial) (calls : List (XmsReply × XmsCall)) :
    (∀ before, before <+: calls → ∀ s, d.run before = some s → s.Backed) ↔
      d.KeepsGlobal calls := by
  constructor
  · intro hbacked before regs call after hsplit s hrun
    obtain ⟨s₀, hrun₀, hcounted⟩ := line_iff (initial_counted hinit) before
    rw [hrun] at hrun₀
    cases hrun₀
    obtain ⟨reply, s', hcall, -, hstep, -⟩ := XMS_Handler_spec hcounted regs call
    refine (hstep (hbacked before ⟨_, hsplit.symm⟩ s hrun)).mp ?_
    exact hbacked (before ++ [(regs, call)]) ⟨after, by rw [hsplit]; simp⟩ s'
      (run_concat hrun hcall)
  · rintro hkeeps before ⟨after, rfl⟩ s hrun
    refine KeepsGlobal.backed hinit (fun before' regs call after' hsplit => ?_) hrun
    exact hkeeps before' regs call (after' ++ after) (by rw [hsplit]; simp)

/-- **A20 accounting.**  The line is on exactly while the counter is not zero, in every run.  The
flag of Global Enable is backed by a count throughout exactly the runs in which no Local Disable
takes that count back, and after those a Global Enable that succeeds leaves the line on. -/
theorem a20_accounting (hinit : d.Initial) (calls : List (XmsReply × XmsCall)) :
    ∃ s, d.run calls = some s ∧
      (s.move.a20.enabled = true ↔ 0 < s.move.num_times_enabled.toNat) ∧
      ((∀ before, before <+: calls → ∀ s', d.run before = some s' → s'.Backed) ↔
        d.KeepsGlobal calls) ∧
      (d.KeepsGlobal calls → ∀ regs, ∃ reply s',
        s.XMS_Handler regs .GlobalEnable = some (reply, s') ∧
          (reply.reg_ax = 1 → s'.move.a20.enabled = true)) := by
  obtain ⟨s, hrun, hcounted⟩ := line_iff (initial_counted hinit) calls
  refine ⟨s, hrun, hcounted, backed_iff hinit calls, fun hkeeps regs => ?_⟩
  obtain ⟨reply, s', hcall, hcounted', hstep, hglobal⟩ :=
    XMS_Handler_spec hcounted regs .GlobalEnable
  refine ⟨reply, s', hcall, fun hax => hcounted'.mpr ?_⟩
  have hbacked : s.Backed := hkeeps.backed hinit hrun
  exact (hstep hbacked).mpr (fun h => nomatch h.1) (hglobal rfl hax)

/-- The driver of `Move.oneBlock` after its start. -/
def started : A20Driver := ⟨Move.oneBlock, false⟩

theorem started_initial : started.Initial := ⟨rfl, rfl, rfl⟩

theorem a20_accounting_started :
    ∃ s, started.run [(⟨0, 0⟩, .LocalEnable), (⟨0, 0⟩, .GlobalEnable)] = some s ∧
      (s.move.a20.enabled = true ↔ 0 < s.move.num_times_enabled.toNat) ∧
      ((∀ before, before <+: [(⟨0, 0⟩, .LocalEnable), (⟨0, 0⟩, .GlobalEnable)] →
        ∀ s', started.run before = some s' → s'.Backed) ↔
        started.KeepsGlobal [(⟨0, 0⟩, .LocalEnable), (⟨0, 0⟩, .GlobalEnable)]) ∧
      (started.KeepsGlobal [(⟨0, 0⟩, .LocalEnable), (⟨0, 0⟩, .GlobalEnable)] →
        ∀ regs, ∃ reply s', s.XMS_Handler regs .GlobalEnable = some (reply, s') ∧
          (reply.reg_ax = 1 → s'.move.a20.enabled = true)) :=
  a20_accounting started_initial _

/-- **Global Enable, Local Disable and Global Enable**: the flag is set while the counter is zero,
and the second Global Enable reports success with the line off. -/
theorem global_enable_unbacked : started.Initial ∧
    ∃ s, started.run [(⟨0, 0⟩, .GlobalEnable), (⟨0, 0⟩, .LocalDisable)] = some s ∧
      (s.enable_global = true ∧ s.move.num_times_enabled = 0) ∧
      ∃ reply s', s.XMS_Handler ⟨0, 0⟩ .GlobalEnable = some (reply, s') ∧
        reply.reg_ax = 1 ∧ s'.move.a20.enabled = false :=
  ⟨started_initial, _, rfl, ⟨rfl, rfl⟩, _, _, rfl, rfl, rfl⟩

end A20Driver

end AugraDosbox
