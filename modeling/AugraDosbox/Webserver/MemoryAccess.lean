import AugraDosbox.Webserver.WriteMemory

/-!
# Requests that access memory

The handlers of `memory.cpp` and `freeze.cpp`, each from the parsed request to the answer.

* `Bus` — the machine, with a log of the calls of `MEM_BlockRead` and `MEM_BlockWrite`;
* `ReadMemoryCommand`, `WriteMemoryCommand.ExecuteOn`, `SearchMemoryCommand` — the commands;
* `FreezeRegistry`, `ApplyFreezes` — the frozen values, which are written again at every frame;
* `ApiAction`, `Api.step` — the requests, the frames and the guest, in any order.

The CPU registers that are returned with a read are left out.
-/

namespace AugraDosbox

namespace Webserver

open MemoryBlock

/-! ## The bus -/

/-- A call of `MEM_BlockRead` or `MEM_BlockWrite`. -/
structure Block where
  pt : UInt32
  size : ℕ
  deriving DecidableEq, Repr

/-- The linear addresses that a call touches: `pt++` in 32 bits. -/
def addresses (pt : UInt32) : ℕ → List ℕ
  | 0 => []
  | size + 1 => pt.toNat :: addresses (pt + 1) size

/-- The machine and the calls so far. -/
structure Bus where
  machine : Machine
  blocks : List Block

namespace Bus

def MEM_BlockRead (b : Bus) (pt : UInt32) (size : ℕ) : List UInt8 × Bus :=
  (Machine.MEM_BlockRead b.machine.mem.bytes pt size, { b with blocks := b.blocks ++ [⟨pt, size⟩] })

def MEM_BlockWrite (b : Bus) (pt : UInt32) (data : List UInt8) : Bus :=
  { machine := { b.machine with mem := { b.machine.mem with
      bytes := Machine.MEM_BlockWrite b.machine.mem.bytes pt data } }
    blocks := b.blocks ++ [⟨pt, data.length⟩] }

end Bus

/-! ## Answers -/

/-- The errors, with the status or the exception they are answered through. -/
inductive ApiError where
  | invalidArgument (text : String)
  | outOfRange (text : String)
  | malformedBody
  | put (error : WriteMemoryCommand.PutError)
  | preconditionFailed (addr : UInt32) (data : List UInt8)
  | status (code : ℕ) (text : String)
  deriving DecidableEq, Repr

/-- The answers with success. -/
inductive ApiAnswer where
  | memory (addr : UInt32) (data : List UInt8)
  | written (addr : UInt32)
  | hits (addresses : List UInt32)
  | frozen (address value : UInt32) (width : ℤ)
  | cleared
  | removed (address : UInt32)
  deriving DecidableEq, Repr

/-- A field of a JSON body. -/
inductive Field (α : Type) where
  | absent
  | wrongType
  | value (a : α)

namespace Field

variable {α : Type}

/-- `j.at(name).get`. -/
def get : Field α → Except ApiError α
  | value a => .ok a
  | _ => .error .malformedBody

/-- `j.value(name, default)`. -/
def valueOr (fallback : α) : Field α → Except ApiError α
  | absent => .ok fallback
  | wrongType => .error .malformedBody
  | value a => .ok a

end Field

def widthError : String := "width must be 1, 2, or 4"

/-- `width == 1 || width == 2 || width == 4`. -/
def IsWidth (width : ℤ) : Prop := width = 1 ∨ width = 2 ∨ width = 4

instance (width : ℤ) : Decidable (IsWidth width) := inferInstanceAs (Decidable (_ ∨ _ ∨ _))

/-! ## Reading -/

structure ReadMemoryCommand where
  base : Segment
  offset : UInt32
  len : UInt32
  memory : List UInt8 := []
  effective_addr : UInt32 := 0
  error : String := ""

namespace ReadMemoryCommand

/-- `ReadMemoryCommand::Execute`. -/
def Execute (cmd : ReadMemoryCommand) (b : Bus) : ReadMemoryCommand × Bus :=
  let effective_addr := b.machine.base_segment_to_offset cmd.base + cmd.offset
  let cmd := { cmd with effective_addr := effective_addr }
  if b.machine.mem_total < effective_addr.toNat + cmd.len.toNat then
    let error := WriteMemoryCommand.rangeError effective_addr cmd.len.toNat b.machine.mem_total
    ({ cmd with error := error }, b)
  else
    let (memory, b) := b.MEM_BlockRead effective_addr cmd.len.toNat
    ({ cmd with memory := memory }, b)

/-- The largest `len`. -/
def maxBytes : ℕ := 128 * 1024 * 1024

/-- A GET request. -/
structure GetRequest where
  segment : Option WriteMemoryCommand.SegmentParam
  offset : UInt32
  len : UInt32

/-- `ReadMemoryCommand::Get` up to the call of `WaitForCompletion`. -/
def Get (req : GetRequest) : Except ApiError ReadMemoryCommand :=
  if req.len.toNat < 1 ∨ maxBytes < req.len.toNat then
    .error (.invalidArgument ("Invalid argument for len: " ++ toString req.len ++
      " (out of range)"))
  else
    -- the path is the one of a PUT request
    let (segment, offset) := WriteMemoryCommand.parse_mem_addr
      ⟨req.segment, req.offset, .other, none⟩
    .ok { base := segment, offset := offset, len := req.len }

/-- `ReadMemoryCommand::Get` after the call of `WaitForCompletion`. -/
def answer (cmd : ReadMemoryCommand) : Except ApiError ApiAnswer :=
  if cmd.error ≠ "" then .error (.outOfRange cmd.error)
  else .ok (.memory cmd.effective_addr cmd.memory)

end ReadMemoryCommand

/-! ## Writing -/

namespace WriteMemoryCommand

/-- `WriteMemoryCommand::Execute`, on the bus. -/
def ExecuteOn (cmd : WriteMemoryCommand) (b : Bus) : WriteMemoryCommand × Bus :=
  let addr := b.machine.base_segment_to_offset cmd.base + cmd.offset
  if b.machine.mem_total < addr.toNat + cmd.data.length then
    ({ cmd with
      effective_addr := addr
      error := rangeError addr cmd.data.length b.machine.mem_total }, b)
  else if cmd.expected_data ≠ [] then
    let read := b.MEM_BlockRead addr cmd.expected_data.length
    if cmd.expected_data ≠ read.1 then
      ({ cmd with effective_addr := addr, conflict_data := read.1 }, read.2)
    else
      ({ cmd with effective_addr := addr, conflict_data := [] },
        read.2.MEM_BlockWrite addr cmd.data)
  else ({ cmd with effective_addr := addr }, b.MEM_BlockWrite addr cmd.data)

/-- The answer of `Put`. -/
def apiAnswer (cmd : WriteMemoryCommand) : Except ApiError ApiAnswer :=
  match cmd.answer with
  | .ok addr => .ok (.written addr)
  | .preconditionFailed addr data => .error (.preconditionFailed addr data)
  | .outOfRange => .error (.outOfRange cmd.error)

end WriteMemoryCommand

/-! ## Searching -/

/-- The little-endian value of `width` bytes from offset `i` on. -/
def valueAt (buf : List UInt8) (i width : ℕ) : UInt32 :=
  (List.range width).foldl (fun v b => v ||| (buf.getD (i + b) 0).toUInt32 <<< (8 * b).toUInt32) 0

def ScanBufferForValue (buf : List UInt8) (value : UInt32) (width : ℤ) :
    Except ApiError (List UInt32) :=
  if ¬ IsWidth width then .error (.invalidArgument widthError)
  else if buf.length < width.toNat then .ok []
  else
    .ok (((List.range (buf.length + 1 - width.toNat)).filter fun i =>
      valueAt buf i width.toNat = value).map UInt32.ofNat)

structure SearchMemoryCommand where
  start : UInt32
  «end» : UInt32
  value : UInt32
  width : ℤ
  hits : List UInt32 := []
  error : String := ""

namespace SearchMemoryCommand

/-- `SearchMemoryCommand::Execute`. -/
def Execute (cmd : SearchMemoryCommand) (b : Bus) : Except ApiError SearchMemoryCommand × Bus :=
  if b.machine.mem_total < cmd.end.toNat ∨ cmd.end ≤ cmd.start then
    (.ok { cmd with error := "Invalid search range" }, b)
  else
    let (buf, b) := b.MEM_BlockRead cmd.start (cmd.end - cmd.start).toNat
    ((ScanBufferForValue buf cmd.value cmd.width).map fun hits =>
      { cmd with hits := hits.map (· + cmd.start) }, b)

def MaxSpan : ℕ := 16 * 1024 * 1024

/-- A POST request. -/
structure PostRequest where
  value : Field UInt32
  width : Field ℤ
  start : Field UInt32
  «end» : Field UInt32

/-- `SearchMemoryCommand::Post` up to the call of `WaitForCompletion`. -/
def Post (req : PostRequest) : Except ApiError SearchMemoryCommand := do
  let value ← req.value.get
  let width ← req.width.valueOr 1
  let start ← req.start.get
  let «end» ← req.end.get
  if ¬ IsWidth width then .error (.invalidArgument widthError)
  else if «end» ≤ start ∨ MaxSpan < («end» - start).toNat then
    .error (.invalidArgument ("search span must be 1.." ++ toString MaxSpan ++ " bytes"))
  else .ok { start := start, «end» := «end», value := value, width := width }

/-- `SearchMemoryCommand::Post` after the call of `WaitForCompletion`. -/
def answer (cmd : SearchMemoryCommand) : Except ApiError ApiAnswer :=
  if cmd.error ≠ "" then .error (.outOfRange cmd.error) else .ok (.hits cmd.hits)

end SearchMemoryCommand

/-! ## Freezing -/

structure FreezeEntry where
  address : UInt32
  value : UInt32
  width : ℤ
  deriving DecidableEq, Repr

namespace FreezeRegistry

/-- `FreezeRegistry::MaxEntries`. -/
def MaxEntries : ℕ := 256

/-- The loop of `Add`: the first entry for the address gets the new value. -/
def update (address value : UInt32) (width : ℤ) : List FreezeEntry → Option (List FreezeEntry)
  | [] => none
  | e :: entries =>
      if e.address = address then some ({ e with value := value, width := width } :: entries)
      else (update address value width entries).map (e :: ·)

/-- `FreezeRegistry::Add`; `none` where it returns `false`. -/
def Add (entries : List FreezeEntry) (address value : UInt32) (width : ℤ) :
    Option (List FreezeEntry) :=
  if ¬ IsWidth width then none
  else match update address value width entries with
    | some entries => some entries
    | none =>
        if MaxEntries ≤ entries.length then none else some (entries ++ [⟨address, value, width⟩])

/-- `FreezeRegistry::Remove`; `none` where it returns `false`. -/
def Remove (address : UInt32) : List FreezeEntry → Option (List FreezeEntry)
  | [] => none
  | e :: entries =>
      if e.address = address then some entries else (Remove address entries).map (e :: ·)

end FreezeRegistry

/-- The bytes of a frozen value. -/
def FreezeEntry.buf (e : FreezeEntry) : List UInt8 :=
  (List.range e.width.toNat).map fun i => (e.value >>> (8 * i).toUInt32).toUInt8

/-- `ApplyFreezes`, on a copy of the entries. -/
def ApplyFreezes (entries : List FreezeEntry) (b : Bus) : Bus :=
  entries.foldl (fun b e => b.MEM_BlockWrite e.address e.buf) b

namespace FreezeHandlers

/-- A POST request. -/
structure PostRequest where
  address : Field UInt32
  value : Field UInt32
  width : Field ℤ

/-- `FreezeHandlers::Post`: the answer, and the entries after it. -/
def Post (req : PostRequest) (mem_total : ℕ) (entries : List FreezeEntry) :
    Except ApiError (ApiAnswer × List FreezeEntry) := do
  let address ← req.address.get
  let value ← req.value.get
  let width ← req.width.valueOr 1
  if ¬ IsWidth width then .error (.status 400 widthError)
  -- `address + width` is a sum of 32 bits
  else if mem_total < (address + UInt32.ofNat width.toNat).toNat then
    .error (.status 400 "address out of range")
  else match FreezeRegistry.Add entries address value width with
    | none =>
        .error (.status 409 ("freeze limit reached (" ++ toString FreezeRegistry.MaxEntries ++ ")"))
    | some entries => .ok (.frozen address value width, entries)

/-- `FreezeHandlers::Delete`; the address is absent when there is no body. -/
def Delete (address : Field UInt32) (entries : List FreezeEntry) :
    Except ApiError (ApiAnswer × List FreezeEntry) :=
  match address with
  | .absent => .ok (.cleared, [])
  | .wrongType => .error .malformedBody
  | .value address =>
      match FreezeRegistry.Remove address entries with
      | none => .error (.status 404 "no freeze at that address")
      | some entries => .ok (.removed address, entries)

end FreezeHandlers

/-! ## Requests, frames and the guest -/

/-- The emulated machine and the freeze list. -/
structure Api where
  machine : Machine
  entries : List FreezeEntry

inductive ApiRequest where
  | read (req : ReadMemoryCommand.GetRequest)
  | write (req : WriteMemoryCommand.Request)
  | search (req : SearchMemoryCommand.PostRequest)
  | freeze (req : FreezeHandlers.PostRequest)
  | unfreeze (address : Field UInt32)

inductive ApiAction where
  | request (req : ApiRequest)
  /-- The pass over the freeze list at the end of a frame. -/
  | applyFreezes
  /-- The guest runs. -/
  | guest (machine : Machine)

/-- What an action does: the answer to a request, the blocks of memory it accesses, and the
state after it. -/
structure ApiOutcome where
  answer : Option (Except ApiError ApiAnswer)
  blocks : List Block
  api : Api

namespace Api

variable (from_base64 : List Char → Option (List UInt8))

/-- The bus before a command. -/
def bus (a : Api) : Bus := ⟨a.machine, []⟩

/-- The end of a request that was answered without a command. -/
def done (a : Api) (r : Except ApiError (ApiAnswer × List FreezeEntry)) : ApiOutcome :=
  match r with
  | .error error => ⟨some (.error error), [], a⟩
  | .ok (answer, entries) => ⟨some (.ok answer), [], { a with entries := entries }⟩

/-- The end of a request whose command was executed. -/
def executed (a : Api) (b : Bus) (answer : Except ApiError ApiAnswer) : ApiOutcome :=
  ⟨some answer, b.blocks, { a with machine := b.machine }⟩

/-- A request from its parsed form to its answer. -/
def serve (a : Api) : ApiRequest → ApiOutcome
  | .read req =>
      match ReadMemoryCommand.Get req with
      | .error error => a.done (.error error)
      | .ok cmd => a.executed (cmd.Execute a.bus).2 (cmd.Execute a.bus).1.answer
  | .write req =>
      match WriteMemoryCommand.Put from_base64 req with
      | .error error => a.done (.error (.put error))
      | .ok cmd => a.executed (cmd.ExecuteOn a.bus).2 (cmd.ExecuteOn a.bus).1.apiAnswer
  | .search req =>
      match SearchMemoryCommand.Post req with
      | .error error => a.done (.error error)
      | .ok cmd =>
          a.executed (cmd.Execute a.bus).2 ((cmd.Execute a.bus).1.bind SearchMemoryCommand.answer)
  | .freeze req => a.done (FreezeHandlers.Post req a.machine.mem_total a.entries)
  | .unfreeze address => a.done (FreezeHandlers.Delete address a.entries)

def step (a : Api) : ApiAction → ApiOutcome
  | .request req => a.serve from_base64 req
  | .applyFreezes =>
      let b := ApplyFreezes a.entries a.bus
      ⟨none, b.blocks, { a with machine := b.machine }⟩
  | .guest machine => ⟨none, [], { a with machine := machine }⟩

end Api

end Webserver

end AugraDosbox
