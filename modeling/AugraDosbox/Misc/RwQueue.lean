import Mathlib.Algebra.GroupWithZero.Nat
import Mathlib.Data.List.Basic
import Mathlib.Logic.Function.Basic
import Mathlib.Logic.Relation

/-!
# The read/write queue

`RWQueue`: a bounded queue with a mutex and two condition variables.  A section under
the mutex is one step here; a wait gives the mutex up; a notification is sent after
the mutex is released, as a step of its own.

* `RWQueue.numItems`, `RWQueue.ready`, `RWQueue.body` — a section: the size of a batch,
  the condition it waits for, and what it then does.
* `RWQueue.attempt` — entering a section, or going on with it after a wake-up.
* `RWQueue.Step` — the steps of any number of threads, in any order.
-/

namespace AugraDosbox

/-- The condition variables. -/
inductive Cv where
  | has_room
  | has_items
  deriving DecidableEq, Repr

/-- The calls, with the state of their loops. -/
inductive RWCall (α : Type) where
  | Enqueue (item : α)
  | NonblockingEnqueue (item : α)
  /-- `source` is what is left from `source_start` on. -/
  | BulkEnqueue (source : List α) (num_requested num_remaining : ℕ)
  | NonblockingBulkEnqueue (source : List α) (num_requested : ℕ)
  | Dequeue
  /-- `target` is what was moved into `into_target`. -/
  | BulkDequeue (target : List α) (num_requested num_remaining : ℕ)
  | Start
  | Stop

namespace RWCall

variable {α : Type}

/-- The calls that put items in. -/
def Produces : RWCall α → Prop
  | Enqueue _ | NonblockingEnqueue _ | BulkEnqueue _ _ _ | NonblockingBulkEnqueue _ _ => True
  | _ => False

/-- The calls that take items out. -/
def Consumes : RWCall α → Prop
  | Dequeue | BulkDequeue _ _ _ => True
  | _ => False

/-- What a call waits for. -/
def waitsOn : RWCall α → Cv
  | Dequeue | BulkDequeue _ _ _ => .has_items
  | _ => .has_room

/-- A call as it is made, with the assertions of the bulk calls. -/
def Begins : RWCall α → Prop
  | BulkEnqueue source num_requested num_remaining =>
      1 ≤ num_requested ∧ num_requested ≤ source.length ∧ num_remaining = num_requested
  | NonblockingBulkEnqueue source num_requested =>
      0 < num_requested ∧ num_requested ≤ source.length
  | BulkDequeue target num_requested num_remaining =>
      target = [] ∧ num_remaining = num_requested
  | _ => True

end RWCall

/-- What a call returns. -/
inductive RWResult (α : Type) where
  | done
  | ok (success : Bool)
  | count (n : ℕ)
  | item (o : Option α)

/-- How many items the caller is told of. -/
def RWResult.items {α : Type} : RWResult α → ℕ
  | done => 0
  | ok success => if success then 1 else 0
  | count n => n
  | item o => if o.isSome then 1 else 0

/-- What has happened.  Calls are numbered. -/
inductive RWEvent (α : Type) where
  | called (t id : ℕ) (call : RWCall α)
  | accepted (id : ℕ) (items : List α)
  | handed (id : ℕ) (items : List α)
  | returned (id : ℕ) (result : RWResult α)

/-- How a call goes on after a section. -/
inductive RWNext (α : Type) where
  | again (call : RWCall α)
  | return (result : RWResult α)

/-- Where a thread is. -/
inductive RWThread (α : Type) where
  | idle
  /-- Before a section. -/
  | entering (id : ℕ) (call : RWCall α)
  /-- In the wait of a section; `notified` after a notification has reached it. -/
  | waiting (id : ℕ) (call : RWCall α) (num_items : ℕ) (notified : Bool)
  /-- After a section, with notifications to send: `true` is `notify_all`. -/
  | notifying (pending : List (Cv × Bool)) (id : ℕ) (next : RWNext α)

/-- The queue and the threads that use it. -/
structure RWQueue (α : Type) where
  capacity : ℕ
  is_running : Bool
  queue : List α
  thread : ℕ → RWThread α
  /-- The number of calls so far. -/
  calls : ℕ
  log : List (RWEvent α)

namespace RWQueue

variable {α : Type}

/-! ## The sections -/

/-- What a section does when it does not wait. -/
structure Effect (α : Type) where
  queue : List α
  is_running : Bool
  events : List (RWEvent α)
  pending : List (Cv × Bool)
  next : RWNext α

/-- Reading past the end of the queue. -/
inductive QueueFault where
  | pastEnd
  deriving DecidableEq, Repr

/-- `capacity - queue.size()`, a difference of `size_t`. -/
def room (s : RWQueue α) : ℕ :=
  if s.queue.length ≤ s.capacity then s.capacity - s.queue.length
  else s.capacity + 2 ^ 64 - s.queue.length

/-- `num_items`, computed when a section is entered. -/
def numItems (s : RWQueue α) : RWCall α → ℕ
  | .BulkEnqueue _ _ num_remaining => max 1 (min s.room num_remaining)
  | .BulkDequeue _ _ num_remaining => max 1 (min s.queue.length num_remaining)
  | _ => 1

/-- The condition that a section waits for. -/
def ready (s : RWQueue α) (num_items : ℕ) : RWCall α → Bool
  | .Enqueue _ => !s.is_running || decide (s.queue.length < s.capacity)
  | .BulkEnqueue _ _ _ => !s.is_running || decide (num_items ≤ s.room)
  | .Dequeue => !s.is_running || !s.queue.isEmpty
  | .BulkDequeue _ _ _ => !s.is_running || decide (num_items ≤ s.queue.length)
  | _ => true

/-- A section that changes nothing. -/
def unchanged (s : RWQueue α) (next : RWNext α) : Effect α := ⟨s.queue, s.is_running, [], [], next⟩

/-- A section that puts items in. -/
def accept (s : RWQueue α) (id : ℕ) (items : List α) (next : RWNext α) : Effect α :=
  ⟨s.queue ++ items, s.is_running, [.accepted id items], [(.has_items, false)], next⟩

/-- A section that takes items out. -/
def hand (s : RWQueue α) (id n : ℕ) (next : RWNext α) : Effect α :=
  ⟨s.queue.drop n, s.is_running, [.handed id (s.queue.take n)], [(.has_room, false)], next⟩

/-- The head of the loop of `BulkEnqueue`. -/
def loopEnqueue (source : List α) (num_requested num_remaining : ℕ) : RWNext α :=
  if 0 < num_remaining then .again (.BulkEnqueue source num_requested num_remaining)
  else .return (.count (num_requested - num_remaining))

/-- The head of the loop of `BulkDequeue`. -/
def loopDequeue (target : List α) (num_requested num_remaining : ℕ) : RWNext α :=
  if 0 < num_remaining then .again (.BulkDequeue target num_requested num_remaining)
  else .return (.count (num_requested - num_remaining))

/-- The part of a section after its wait. -/
def body (s : RWQueue α) (id num_items : ℕ) : RWCall α → Except QueueFault (Effect α)
  | .Enqueue item =>
      if s.is_running then .ok (s.accept id [item] (.return (.ok true)))
      else .ok (s.unchanged (.return (.ok false)))
  | .NonblockingEnqueue item =>
      if s.is_running = false ∨ s.capacity ≤ s.queue.length then
        .ok (s.unchanged (.return (.ok false)))
      else .ok (s.accept id [item] (.return (.ok true)))
  | .BulkEnqueue source num_requested num_remaining =>
      if s.is_running then
        .ok (s.accept id (source.take num_items)
          (loopEnqueue (source.drop num_items) num_requested (num_remaining - num_items)))
      else .ok (s.unchanged (.return (.count (num_requested - num_remaining))))
  | .NonblockingBulkEnqueue source num_requested =>
      if s.is_running = false ∨ s.capacity ≤ s.queue.length then
        .ok (s.unchanged (.return (.count 0)))
      else
        let num_items := min s.room num_requested
        .ok (s.accept id (source.take num_items) (.return (.count num_items)))
  | .Dequeue =>
      if s.is_running ∨ s.queue ≠ [] then
        match s.queue with
        | [] => .error .pastEnd
        | item :: _ => .ok (s.hand id 1 (.return (.item (some item))))
      else
        .ok { s.unchanged (.return (.item none)) with pending := [(.has_room, false)] }
  | .BulkDequeue target num_requested num_remaining =>
      if s.is_running ∨ s.queue ≠ [] then
        if s.queue.length < num_items then .error .pastEnd
        else
          .ok (s.hand id num_items (loopDequeue (target ++ s.queue.take num_items) num_requested
            (num_remaining - num_items)))
      else .ok (s.unchanged (.return (.count (num_requested - num_remaining))))
  | .Start => .ok { s.unchanged (.return .done) with is_running := true }
  | .Stop =>
      if s.is_running = false then .ok (s.unchanged (.return .done))
      else
        .ok { s.unchanged (.return .done) with
          is_running := false
          pending := [(.has_items, true), (.has_room, true)] }

/-! ## Threads -/

def setThread (s : RWQueue α) (t : ℕ) (pc : RWThread α) : RWQueue α :=
  { s with thread := Function.update s.thread t pc }

/-- Going on after the notifications. -/
def goOn (s : RWQueue α) (t id : ℕ) : RWNext α → RWQueue α
  | .again call => s.setThread t (.entering id call)
  | .return result => { s.setThread t .idle with log := s.log ++ [.returned id result] }

/-- Sending what is left to send, or going on. -/
def settle (s : RWQueue α) (t : ℕ) (pending : List (Cv × Bool)) (id : ℕ) (next : RWNext α) :
    RWQueue α :=
  match pending with
  | [] => s.goOn t id next
  | _ :: _ => s.setThread t (.notifying pending id next)

/-- The end of a section. -/
def leave (s : RWQueue α) (t id : ℕ) (e : Effect α) : RWQueue α :=
  { s with queue := e.queue, is_running := e.is_running, log := s.log ++ e.events }.settle t
    e.pending id e.next

/-- A section from its wait on. -/
def attempt (s : RWQueue α) (t id num_items : ℕ) (call : RWCall α) : Except QueueFault (RWQueue α) :=
  if s.ready num_items call then
    match s.body id num_items call with
    | .error fault => .error fault
    | .ok e => .ok (s.leave t id e)
  else .ok (s.setThread t (.waiting id call num_items false))

/-- Where a call begins: `BulkDequeue` of nothing does not enter its loop. -/
def first : RWCall α → RWNext α
  | .BulkDequeue target num_requested num_remaining =>
      loopDequeue target num_requested num_remaining
  | call => .again call

/-- A call is made. -/
def begin (s : RWQueue α) (t : ℕ) (call : RWCall α) : RWQueue α :=
  { s with calls := s.calls + 1, log := s.log ++ [.called t s.calls call] : RWQueue α }.goOn t
    s.calls (first call)

/-- The thread waits on `cv` and no notification has reached it. -/
def Waits (s : RWQueue α) (cv : Cv) (w : ℕ) : Prop :=
  ∃ id call n, s.thread w = .waiting id call n false ∧ call.waitsOn = cv

/-- A waiting thread after a notification on `cv`. -/
def wakeOn (cv : Cv) : RWThread α → RWThread α
  | .waiting id call n notified => .waiting id call n (notified || decide (call.waitsOn = cv))
  | pc => pc

/-- The steps of the threads. -/
inductive Step : RWQueue α → RWQueue α → Prop where
  | call {s : RWQueue α} {t : ℕ} {call : RWCall α} (hidle : s.thread t = .idle)
      (hbegins : call.Begins) : Step s (s.begin t call)
  | enter {s s' : RWQueue α} {t id : ℕ} {call : RWCall α} (ht : s.thread t = .entering id call)
      (hs : s.attempt t id (s.numItems call) call = .ok s') : Step s s'
  | wake {s s' : RWQueue α} {t id n : ℕ} {call : RWCall α} {notified : Bool}
      (ht : s.thread t = .waiting id call n notified) (hs : s.attempt t id n call = .ok s') :
      Step s s'
  | notifyOne {s : RWQueue α} {t id w : ℕ} {cv : Cv} {rest : List (Cv × Bool)} {next : RWNext α}
      (ht : s.thread t = .notifying ((cv, false) :: rest) id next) (hw : s.Waits cv w) :
      Step s ((s.setThread w (wakeOn cv (s.thread w))).settle t rest id next)
  | notifyNone {s : RWQueue α} {t id : ℕ} {cv : Cv} {rest : List (Cv × Bool)} {next : RWNext α}
      (ht : s.thread t = .notifying ((cv, false) :: rest) id next) (hw : ∀ w, ¬ s.Waits cv w) :
      Step s (s.settle t rest id next)
  | notifyAll {s : RWQueue α} {t id : ℕ} {cv : Cv} {rest : List (Cv × Bool)} {next : RWNext α}
      (ht : s.thread t = .notifying ((cv, true) :: rest) id next) :
      Step s ({ s with thread := fun w => wakeOn cv (s.thread w) }.settle t rest id next)

/-- A queue before its first call. -/
structure Initial (s : RWQueue α) : Prop where
  capacity : 0 < s.capacity
  queue : s.queue = []
  idle : ∀ t, s.thread t = .idle
  calls : s.calls = 0
  log : s.log = []

end RWQueue

end AugraDosbox
