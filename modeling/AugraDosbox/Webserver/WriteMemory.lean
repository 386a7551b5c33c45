import Mathlib.Logic.Relation
import AugraDosbox.Hardware.Pages
import AugraDosbox.Webserver.Bridge

/-!
# Memory writes over the web server

`WriteMemoryCommand`: a PUT request writes bytes into the emulated memory, and with an
`If-Match` header only where the bytes that are there match it.  Clients use this as a
compare-and-swap on a lock cell.

* `WriteMemoryCommand.Execute` — the compare and the write, on the emulation thread.
* `WriteMemoryCommand.Put` — the request before the command is queued, and the answer
  after it is done.
* `execute_lockRequest` — what one request on the cell does and how it is answered.
* `reachable_compareAndSwap` — **in every run the cell changes only at requests that are
  answered with success, and at most one client holds the lock.**
-/

namespace AugraDosbox

namespace Webserver

open MemoryBlock

inductive Segment where
  | None
  | CS
  | SS
  | DS
  | ES
  | FS
  | GS
  deriving DecidableEq, Repr

/-- The emulated machine, as far as the memory commands see it. -/
structure Machine where
  mem : MemoryBlock
  /-- `Segs.phys`. -/
  SegPhys : Segment → UInt32

namespace Machine

def base_segment_to_offset (m : Machine) : Segment → UInt32
  | .None => 0
  | segment => m.SegPhys segment

def MEM_BlockRead (bytes : ℕ → UInt8) (pt : UInt32) : ℕ → List UInt8
  | 0 => []
  | size + 1 => bytes pt.toNat :: MEM_BlockRead bytes (pt + 1) size

def MEM_BlockWrite (bytes : ℕ → UInt8) (pt : UInt32) : List UInt8 → ℕ → UInt8
  | [] => bytes
  | d :: data => MEM_BlockWrite (Function.update bytes pt.toNat d) (pt + 1) data

/-- `MEM_TotalPages` in bytes. -/
def mem_total (m : Machine) : ℕ := m.mem.pages * MemPageSize

end Machine

structure WriteMemoryCommand where
  base : Segment
  offset : UInt32
  data : List UInt8
  expected_data : List UInt8
  effective_addr : UInt32 := 0
  conflict_data : List UInt8 := []
  error : String := ""

namespace WriteMemoryCommand

open Machine

/-- The text of the only error of `Execute`. -/
def rangeError (effective_addr : UInt32) (size mem_total : ℕ) : String :=
  "Address range 0x" ++ toString effective_addr ++ " + " ++ toString size ++
    " exceeds emulated memory size (" ++ toString mem_total ++ " bytes)"

/-- `WriteMemoryCommand::Execute`. -/
def Execute (cmd : WriteMemoryCommand) (m : Machine) : WriteMemoryCommand × Machine :=
  let effective_addr := m.base_segment_to_offset cmd.base + cmd.offset
  let cmd := { cmd with effective_addr := effective_addr }
  let write := { m with mem := { m.mem with
    bytes := MEM_BlockWrite m.mem.bytes effective_addr cmd.data } }
  if m.mem_total < effective_addr.toNat + cmd.data.length then
    ({ cmd with error := rangeError effective_addr cmd.data.length m.mem_total }, m)
  else if cmd.expected_data ≠ [] then
    let conflict_data := MEM_BlockRead m.mem.bytes effective_addr cmd.expected_data.length
    if cmd.expected_data ≠ conflict_data then ({ cmd with conflict_data := conflict_data }, m)
    else ({ cmd with conflict_data := [] }, write)
  else (cmd, write)

/-- The body of a PUT request, by its `Content-Type`; `none` is a body that does not
parse. -/
inductive Content where
  | json (data : Option (List UInt8))
  | binary (body : List UInt8)
  | other

/-- The segment of the path: a register, or an address. -/
inductive SegmentParam where
  | register (segment : Segment)
  | address (segment : UInt16)

/-- A PUT request. -/
structure Request where
  segment : Option SegmentParam
  offset : UInt32
  content : Content
  if_match : Option (List Char)

/-- The errors that are answered before a command is queued. -/
inductive PutError where
  | contentType
  | malformedBody
  | tooLarge
  | malformedEtag
  deriving DecidableEq, Repr

def parse_mem_addr (req : Request) : Segment × UInt32 :=
  match req.segment with
  | none => (.None, req.offset)
  | some (.register segment) => (segment, req.offset)
  | some (.address segment) => (.None, req.offset + segment.toUInt32 * 16)

/-- An etag without its quotes. -/
def unquote (etag : List Char) : List Char :=
  if etag.head? = some '"' ∧ etag.getLast? = some '"' then etag.tail.dropLast else etag

def MaxWriteBytes : ℕ := 128 * 1024 * 1024

/-- The bytes to write. -/
def content_data : Content → Except PutError (List UInt8)
  | .json none => .error .malformedBody
  | .json (some data) => .ok data
  | .binary body => .ok body
  | .other => .error .contentType

/-- The bytes that the `If-Match` header expects. -/
def if_match_data (from_base64 : List Char → Option (List UInt8)) :
    Option (List Char) → Except PutError (List UInt8)
  | none => .ok []
  | some etag =>
      match from_base64 (unquote etag) with
      | none => .error .malformedEtag
      | some expected_data => .ok expected_data

/-- `WriteMemoryCommand::Put` up to the call of `WaitForCompletion`. -/
def Put (from_base64 : List Char → Option (List UInt8)) (req : Request) :
    Except PutError WriteMemoryCommand := do
  let (segment, offset) := parse_mem_addr req
  let data ← content_data req.content
  if MaxWriteBytes < data.length then .error .tooLarge
  else
    let expected_data ← if_match_data from_base64 req.if_match
    .ok { base := segment, offset := offset, data := data, expected_data := expected_data }

/-- The answers to a PUT request whose command was done. -/
inductive Answer where
  | ok (addr : UInt32)
  | preconditionFailed (addr : UInt32) (data : List UInt8)
  | outOfRange
  deriving DecidableEq, Repr

/-- `WriteMemoryCommand::Put` after the call of `WaitForCompletion`. -/
def answer (cmd : WriteMemoryCommand) : Answer :=
  if cmd.error ≠ "" then .outOfRange
  else if cmd.conflict_data ≠ [] then .preconditionFailed cmd.effective_addr cmd.conflict_data
  else .ok cmd.effective_addr

end WriteMemoryCommand

/-! ## One request on the cell -/

namespace Machine

theorem length_MEM_BlockRead {bytes : ℕ → UInt8} {size : ℕ} : ∀ {pt : UInt32},
    (MEM_BlockRead bytes pt size).length = size := by
  induction size with
  | zero => exact rfl
  | succ size ih =>
    intro pt
    rw [MEM_BlockRead, List.length_cons, ih]

theorem toNat_add_one {pt : UInt32} (h : pt.toNat + 1 < 2 ^ 32) : (pt + 1).toNat = pt.toNat + 1 := by
  rw [UInt32.toNat_add, show (1 : UInt32).toNat = 1 from rfl, Nat.mod_eq_of_lt h]

/-- A write does not reach below its start. -/
theorem MEM_BlockWrite_below {data : List UInt8} : ∀ {bytes : ℕ → UInt8} {pt : UInt32} {x : ℕ},
    pt.toNat + data.length ≤ 2 ^ 32 → x < pt.toNat → MEM_BlockWrite bytes pt data x = bytes x := by
  induction data with
  | nil => exact fun _ _ => rfl
  | cons d data ih =>
    intro bytes pt x hlen hx
    rw [List.length_cons] at hlen
    rw [MEM_BlockWrite]
    cases data with
    | nil => exact Function.update_of_ne (by omega) _ _
    | cons e data =>
      rw [List.length_cons] at hlen
      have hpt := toNat_add_one (show pt.toNat + 1 < 2 ^ 32 by omega)
      rw [ih (by rw [hpt, List.length_cons]; omega) (by omega)]
      exact Function.update_of_ne (by omega) _ _

theorem MEM_BlockRead_write {data : List UInt8} : ∀ {bytes : ℕ → UInt8} {pt : UInt32},
    pt.toNat + data.length ≤ 2 ^ 32 →
    MEM_BlockRead (MEM_BlockWrite bytes pt data) pt data.length = data := by
  induction data with
  | nil => exact fun _ => rfl
  | cons d data ih =>
    intro bytes pt hlen
    rw [List.length_cons] at hlen
    rw [List.length_cons, MEM_BlockRead, MEM_BlockWrite]
    cases data with
    | nil => simp [MEM_BlockRead, MEM_BlockWrite]
    | cons e data =>
      rw [List.length_cons] at hlen
      have hpt := toNat_add_one (show pt.toNat + 1 < 2 ^ 32 by omega)
      have hlen' : (pt + 1).toNat + (e :: data).length ≤ 2 ^ 32 := by
        rw [hpt, List.length_cons]
        omega
      rw [ih hlen', MEM_BlockWrite_below hlen' (by omega), Function.update_self]

theorem mem_total_lt (m : Machine) : m.mem_total < 2 ^ 32 := by
  have := m.mem.pages_le
  simp only [mem_total, MemPageSize, MaxPages] at *
  omega

end Machine

open Machine WriteMemoryCommand

/-- The commands of the queue: a memory write, or any other command that returns. -/
inductive ApiCommand where
  | write (cmd : WriteMemoryCommand)
  | other (Execute : Machine → Machine)

/-- `Command::Execute`. -/
def ApiCommand.Execute : ApiCommand → Machine → Outcome ApiCommand Machine
  | write cmd, m => .returns (.write (cmd.Execute m).1) (cmd.Execute m).2
  | other f, m => .returns (.other f) (f m)

/-- The `k` bytes of the cell at address `a`. -/
def cell (a : UInt32) (k : ℕ) (m : Machine) : List UInt8 := MEM_BlockRead m.mem.bytes a k

/-- A PUT request that names the cell and whose `If-Match` value has the length of its
data. -/
structure LockRequest (a : UInt32) (k : ℕ) (cmd : WriteMemoryCommand) (m : Machine) : Prop where
  addr : m.base_segment_to_offset cmd.base + cmd.offset = a
  data : cmd.data.length = k
  expected : cmd.expected_data.length = k

/-- How a request on the cell ends: it swaps and succeeds, it finds other bytes and
returns them, or the cell is not in memory. -/
inductive Swaps (a : UInt32) (k : ℕ) (cmd : WriteMemoryCommand) (m m' : Machine) : Answer → Prop
  | swapped (hfound : cell a k m = cmd.expected_data) (hwritten : cell a k m' = cmd.data) :
      Swaps a k cmd m m' (.ok a)
  | conflict (hfound : cell a k m ≠ cmd.expected_data) (hsame : m' = m) :
      Swaps a k cmd m m' (.preconditionFailed a (cell a k m))
  | outOfRange (hsame : m' = m) : Swaps a k cmd m m' .outOfRange

theorem rangeError_ne (addr : UInt32) (size total : ℕ) : rangeError addr size total ≠ "" := by
  unfold rangeError
  simp only [ne_eq, String.append_eq_empty_iff]
  rintro ⟨-, hbytes⟩
  exact absurd hbytes (by decide)

variable {cmd : WriteMemoryCommand} {m : Machine}

theorem execute_lockRequest {a : UInt32} {k : ℕ} (h : LockRequest a k cmd m)
    (herror : cmd.error = "") (hconflict : cmd.conflict_data = []) :
    Swaps a k cmd m (cmd.Execute m).2 (cmd.Execute m).1.answer := by
  obtain ⟨rfl, hdata, hexp⟩ := h
  simp only [Execute]
  split
  · rw [answer, if_pos (rangeError_ne _ _ _)]
    exact .outOfRange rfl
  · rename_i hrange
    have hlen : (m.base_segment_to_offset cmd.base + cmd.offset).toNat + cmd.data.length ≤
        2 ^ 32 := by
      have := m.mem_total_lt
      omega
    have hwritten : cell (m.base_segment_to_offset cmd.base + cmd.offset) k
        { m with mem := { m.mem with
          bytes := MEM_BlockWrite m.mem.bytes (m.base_segment_to_offset cmd.base + cmd.offset)
            cmd.data } } = cmd.data := by
      rw [cell, ← hdata]
      exact MEM_BlockRead_write hlen
    split
    · rename_i hne
      split
      · rename_i hdiff
        rw [hexp] at hdiff
        have hnonempty : MEM_BlockRead m.mem.bytes (m.base_segment_to_offset cmd.base + cmd.offset)
            cmd.expected_data.length ≠ [] := by
          intro hnil
          have := congrArg List.length hnil
          rw [length_MEM_BlockRead, List.length_nil, List.length_eq_zero_iff] at this
          exact hne this
        rw [answer, if_neg (not_not.2 herror), if_pos hnonempty]
        simp only [hexp]
        exact .conflict (Ne.symm hdiff) rfl
      · rename_i hsame
        rw [answer, if_neg (not_not.2 herror), if_neg (not_not.2 rfl)]
        rw [not_not, hexp] at hsame
        exact .swapped hsame.symm hwritten
    · rename_i hempty
      rw [not_not] at hempty
      rw [answer, if_neg (not_not.2 herror), if_neg (not_not.2 hconflict)]
      refine .swapped ?_ hwritten
      have hk : k = 0 := by
        rw [← hexp, hempty]
        rfl
      rw [hempty, hk]
      rfl

/-! ## Runs -/

/-- No call has been made, and the commands are as `Put` makes them. -/
structure Fresh (b : Bridge Machine ApiCommand) : Prop where
  initial : b.Initial
  written : ∀ c cmd, b.cmd c = .write cmd → cmd.error = "" ∧ cmd.conflict_data = []

theorem fresh_of_put {from_base64 : List Char → Option (List UInt8)} {req : Request}
    (h : Put from_base64 req = .ok cmd) :
    cmd.error = "" ∧ cmd.conflict_data = [] := by
  simp only [Put, bind, Except.bind] at h
  cases hdata : content_data req.content with
  | error e => simp [hdata] at h
  | ok data =>
    cases hexp : if_match_data from_base64 req.if_match with
    | error e =>
      simp only [hdata, hexp] at h
      split at h <;> cases h
    | ok expected_data =>
      simp only [hdata, hexp] at h
      split at h
      · cases h
      · obtain rfl := Except.ok.inj h
        exact ⟨rfl, rfl⟩

/-- One action, where the machine by itself leaves the cell alone. -/
def ApiStep (a : UInt32) (k : ℕ) (b b' : Bridge Machine ApiCommand) : Prop :=
  ∃ action, (∀ m, action = .guest m → cell a k m = cell a k b.world) ∧
    b.act ApiCommand.Execute action = some b'

/-- The commands that were executed access the cell only by requests of its length. -/
def Shared (a : UInt32) (k : ℕ) (b₀ b : Bridge Machine ApiCommand) : Prop :=
  ∀ c m m', .executed c m m' ∈ b.log →
    (∃ cmd, b₀.cmd c = .write cmd ∧ LockRequest a k cmd m) ∨ cell a k m' = cell a k m

/-- Every request on the cell swaps `free` for the tag of its client, or back. -/
def Tagged (a : UInt32) (k : ℕ) (b₀ b : Bridge Machine ApiCommand) {ι : Type}
    (free : List UInt8) (tag : ι → List UInt8) (owner : ℕ → ι) : Prop :=
  ∀ c cmd m m', .executed c m m' ∈ b.log → b₀.cmd c = .write cmd → LockRequest a k cmd m →
    (cmd.expected_data = free ∧ cmd.data = tag (owner c)) ∨
      (cmd.expected_data = tag (owner c) ∧ cmd.data = free)

/-- A request of the call `c` on the cell was executed with success. -/
def Succeeded (a : UInt32) (k : ℕ) (b₀ b : Bridge Machine ApiCommand) (c : ℕ)
    (cmd : WriteMemoryCommand) (m : Machine) : Prop :=
  b₀.cmd c = .write cmd ∧ LockRequest a k cmd m ∧
    ∃ cmd', b.cmd c = .write cmd' ∧ cmd'.answer = .ok a

/-- The client has swapped `free` for its tag with success, and has not swapped its tag
for `free` since. -/
def Holds (a : UInt32) (k : ℕ) (b₀ b : Bridge Machine ApiCommand) {ι : Type}
    (free : List UInt8) (tag : ι → List UInt8) (owner : ℕ → ι) (i : ι) : Prop :=
  ∃ l₁ c cmd m m' l₂, b.log = l₁ ++ .executed c m m' :: l₂ ∧ owner c = i ∧
    cmd.expected_data = free ∧ cmd.data = tag i ∧ Succeeded a k b₀ b c cmd m ∧
    ∀ d cmd₂ m₂ m₂', .executed d m₂ m₂' ∈ l₂ → owner d = i → cmd₂.expected_data = tag i →
      ¬ Succeeded a k b₀ b d cmd₂ m₂

/-- What the clients of the cell can rely on. -/
structure CompareAndSwap (a : UInt32) (k : ℕ) (b₀ b : Bridge Machine ApiCommand) : Prop where
  /-- The cell changes only when a command is executed, … -/
  traced : Bridge.Traced (cell a k) (cell a k b₀.world) b.log (cell a k b.world)
  /-- … and then the command is a request on it that is answered with success. -/
  changes : ∀ c m m', .executed c m m' ∈ b.log → cell a k m' ≠ cell a k m →
    b.phase c ≠ .timedOut ∧ ∃ cmd, Succeeded a k b₀ b c cmd m
  /-- What a request on the cell finds, what it leaves and how it is answered. -/
  swaps : ∀ c cmd m m', .executed c m m' ∈ b.log → b₀.cmd c = .write cmd → LockRequest a k cmd m →
    ∃ cmd', b.cmd c = .write cmd' ∧ Swaps a k cmd m m' cmd'.answer
  /-- A request that is answered was executed once, … -/
  returned : ∀ c, b.phase c = .returned → b.executed.count c = 1
  /-- … and one that timed out was not executed. -/
  timedOut : ∀ c, b.phase c = .timedOut → c ∉ b.executed
  /-- At most one client holds the lock. -/
  exclusive : ∀ {ι : Type} {free : List UInt8} {tag : ι → List UInt8} {owner : ℕ → ι},
    Function.Injective tag → (∀ i, tag i ≠ free) → Tagged a k b₀ b free tag owner →
    ∀ i j, Holds a k b₀ b free tag owner i → Holds a k b₀ b free tag owner j → i = j

variable {a : UInt32} {k : ℕ} {b₀ b b' : Bridge Machine ApiCommand}

theorem executeAll_returns {l : List ℕ} : ∀ {b : Bridge Machine ApiCommand},
    (b.executeAll ApiCommand.Execute l).1 = true := by
  induction l with
  | nil => exact rfl
  | cons c l ih =>
    intro b
    rw [Bridge.executeAll, Bridge.executeOne]
    cases b.cmd c <;> exact ih

theorem ApiStep.step (h : ApiStep a k b b') :
    Bridge.Step ApiCommand.Execute (fun m m' => cell a k m' = cell a k m) b b' := by
  obtain ⟨action, hguest, hact⟩ := h
  refine ⟨action, ?_, hact⟩
  cases action with
  | processRequests => exact executeAll_returns
  | guest m => exact hguest m rfl
  | _ => trivial

/-- What a logged request on the cell did. -/
theorem swaps_of_executed (hfresh : Fresh b₀) (hres : Bridge.Results ApiCommand.Execute b₀ b)
    {c : ℕ} {m' : Machine} (hc : .executed c m m' ∈ b.log) (hcmd : b₀.cmd c = .write cmd)
    (hlock : LockRequest a k cmd m) :
    ∃ cmd', b.cmd c = .write cmd' ∧ Swaps a k cmd m m' cmd'.answer := by
  have hrun := hres.result c m m' hc
  rw [hcmd, ApiCommand.Execute, Outcome.returns.injEq] at hrun
  obtain ⟨herror, hconflict⟩ := hfresh.written c cmd hcmd
  refine ⟨_, hrun.1.symm, ?_⟩
  rw [← hrun.2]
  exact execute_lockRequest hlock herror hconflict

/-- A request that was answered with success has swapped. -/
theorem Succeeded.swapped (hfresh : Fresh b₀) (hres : Bridge.Results ApiCommand.Execute b₀ b)
    {c : ℕ} {m' : Machine} (h : Succeeded a k b₀ b c cmd m) (hc : .executed c m m' ∈ b.log) :
    cell a k m = cmd.expected_data ∧ cell a k m' = cmd.data := by
  obtain ⟨hcmd, hlock, cmd', hcmd', hok⟩ := h
  obtain ⟨cmd'', hcmd'', hswaps⟩ := swaps_of_executed hfresh hres hc hcmd hlock
  rw [hcmd', ApiCommand.write.injEq] at hcmd''
  subst hcmd''
  rw [hok] at hswaps
  cases hswaps with
  | swapped hfound hwritten => exact ⟨hfound, hwritten⟩

/-- While a client holds the lock, its tag is in the cell. -/
theorem Holds.tag_eq {ι : Type} {free : List UInt8} {tag : ι → List UInt8} {owner : ℕ → ι} {i : ι}
    (hfresh : Fresh b₀) (hres : Bridge.Results ApiCommand.Execute b₀ b) (hshared : Shared a k b₀ b)
    (htraced : Bridge.Traced (cell a k) (cell a k b₀.world) b.log (cell a k b.world))
    (htag : Function.Injective tag) (hfree : ∀ i, tag i ≠ free)
    (htagged : Tagged a k b₀ b free tag owner) (h : Holds a k b₀ b free tag owner i) :
    cell a k b.world = tag i := by
  obtain ⟨l₁, c, cmd, m, m', l₂, hlog, -, -, hdata, hsucc, hno⟩ := h
  have hmem : ∀ {e}, e ∈ l₂ → e ∈ b.log := fun he => by
    rw [hlog]
    exact List.mem_append_right _ (List.mem_cons_of_mem _ he)
  have hc : .executed c m m' ∈ b.log := by
    rw [hlog]
    exact List.mem_append_right _ List.mem_cons_self
  have hstart : cell a k m' = tag i := by
    rw [(hsucc.swapped hfresh hres hc).2, hdata]
  rw [hlog] at htraced
  refine htraced.after.keep (P := fun v => v = tag i) hstart fun d m₂ m₂' hd hcell => ?_
  -- the tag stays: no request of another client expects it, and none of `i` gives it back
  rcases hshared d m₂ m₂' (hmem hd) with ⟨cmd₂, hcmd₂, hlock⟩ | hsame
  · obtain ⟨cmd', hcmd', hswaps⟩ := swaps_of_executed hfresh hres (hmem hd) hcmd₂ hlock
    generalize hanswer : cmd'.answer = answer at hswaps
    cases hswaps with
    | swapped hfound hwritten =>
      rcases htagged d cmd₂ m₂ m₂' (hmem hd) hcmd₂ hlock with ⟨hexp, -⟩ | ⟨hexp, -⟩
      · exact absurd (hcell.symm.trans (hfound.trans hexp)) (hfree i)
      · have howner : owner d = i := htag ((hexp.symm.trans hfound.symm).trans hcell)
        rw [howner] at hexp
        exact absurd ⟨hcmd₂, hlock, cmd', hcmd', hanswer⟩ (hno d cmd₂ m₂ m₂' hd howner hexp)
    | conflict _ hsame =>
      rw [hsame]
      exact hcell
    | outOfRange hsame =>
      rw [hsame]
      exact hcell
  · rw [hsame]
    exact hcell

/-- **Compare-and-swap.**  In every run in which the cell is accessed only by requests of
its length, it changes exactly at the requests that are answered with success, each of
which found what it expected; the others change nothing; and at most one client holds
the lock. -/
theorem reachable_compareAndSwap (hfresh : Fresh b₀)
    (hrun : Relation.ReflTransGen (ApiStep a k) b₀ b) (hshared : Shared a k b₀ b) :
    CompareAndSwap a k b₀ b := by
  have hrun' := Relation.ReflTransGen.mono (fun _ _ => ApiStep.step) _ _ hrun
  have honce : b.ExactlyOnce ApiCommand.Execute (fun m m' => cell a k m' = cell a k m) :=
    (Bridge.reachable_inv hfresh.initial hrun').exactlyOnce
  have hres := Bridge.reachable_results hfresh.initial hrun'
  have htraced : Bridge.Traced (cell a k) _ _ _ :=
    Bridge.reachable_traced hfresh.initial (fun _ _ h => h) hrun'
  refine ⟨htraced, fun c m m' hc hne => ⟨fun hout => ?_, ?_⟩,
    fun c cmd m m' hc => swaps_of_executed hfresh hres hc, fun c hc => (honce.returned c hc).1,
    fun c hc => List.count_eq_zero.1 (honce.timedOut c hc).1,
    fun htag hfree htagged i j hi hj => htag ?_⟩
  · exact List.count_eq_zero.1 (honce.timedOut c hout).1 (Bridge.mem_executed hc)
  · obtain ⟨cmd, hcmd, hlock⟩ := (hshared c m m' hc).resolve_right hne
    obtain ⟨cmd', hcmd', hswaps⟩ := swaps_of_executed hfresh hres hc hcmd hlock
    refine ⟨cmd, hcmd, hlock, cmd', hcmd', ?_⟩
    generalize cmd'.answer = answer at hswaps
    cases hswaps with
    | swapped => rfl
    | conflict _ hsame => exact absurd (by rw [hsame]) hne
    | outOfRange hsame => exact absurd (by rw [hsame]) hne
  · rw [← hi.tag_eq hfresh hres hshared htraced htag hfree htagged,
      hj.tag_eq hfresh hres hshared htraced htag hfree htagged]

/-- A free lock in the first byte of one page of memory, and a call that takes it. -/
def oneCell : Bridge Machine ApiCommand where
  world := {
    mem := { pages := 1, mhandles := fun _ => 0, bytes := fun _ => 0, pages_le := by decide }
    SegPhys := fun _ => 0 }
  queue := []
  cmd := fun _ => .write { base := .None, offset := 0, data := [1], expected_data := [0] }
  done := fun _ => false
  phase := fun _ => .idle
  log := []

theorem oneCell_fresh : Fresh oneCell := by
  refine ⟨⟨rfl, fun _ => rfl, rfl⟩, fun c cmd hcmd => ?_⟩
  obtain rfl := ApiCommand.write.inj hcmd
  exact ⟨rfl, rfl⟩

/-- The call finds the lock free and takes it. -/
theorem reachable_compareAndSwap_oneCell :
    ∃ b, oneCell.actAll ApiCommand.Execute [.enqueue 0, .processRequests, .wake 0] = some b ∧
      b.phase 0 = .returned ∧ cell 0 1 b.world = [1] ∧ CompareAndSwap 0 1 oneCell b := by
  refine ⟨_, rfl, rfl, rfl, reachable_compareAndSwap oneCell_fresh ?_ fun c m m' hc => Or.inl ?_⟩
  · refine .tail (.tail (.single ⟨.enqueue 0, ?_, rfl⟩) ⟨.processRequests, ?_, rfl⟩)
      ⟨.wake 0, ?_, rfl⟩ <;> exact fun m hm => by cases hm
  · refine ⟨_, rfl, ?_, rfl, rfl⟩
    rfl

end Webserver

end AugraDosbox
