import AugraDosbox.Lib.LinkedList
import Mathlib.Data.Rat.Defs
import Mathlib.Data.Rat.Cast.Order

/-!
# The queue of emulated events

`pic_queue` of `src/hardware/pic.cpp`: an array of entries on two lists that share
the `next` pointers, the pending events and the free entries.

* `EventQueue` — the array, the two list heads, the service flag and the cycle
  counters the code reads; event indices are exact numbers;
* `PIC_AddEvent`, `PIC_RemoveSpecificEvents`, `PIC_RemoveEvents` — the calls that
  devices and event handlers make;
* `PIC_RunQueue` is cut at the calls of the handlers, which may make those calls
  themselves: `enterService`, `takeEntry`, `giveBack`, `leaveService`;
* `TIMER_AddTick` — the start of a new millisecond.

A loop over a list takes at most `PIC_QUEUESIZE` rounds here and answers `none`
when that is not enough, as on a list with a cycle.
-/

namespace AugraDosbox

open LinkedList

def PIC_QUEUESIZE : ℕ := 512

/-- `struct PICEntry`; entries are named by their position in the array, and `H` is the
type of the handlers. -/
structure PICEntry (H : Type*) where
  index : ℚ
  value : ℕ
  pic_event : H
  next : Option ℕ

/-- `pic_queue` and the variables its functions use. -/
structure EventQueue (H : Type*) where
  entries : ℕ → PICEntry H
  free_entry : Option ℕ
  next_entry : Option ℕ
  InEventService : Bool
  srv_lag : ℚ
  CPU_CycleMax : ℤ
  CPU_CycleLeft : ℤ
  CPU_Cycles : ℤ

namespace EventQueue

variable {H : Type*} (q : EventQueue H)

/-! ## Time -/

/-- `PIC_TickIndexND()`: the cycles of this millisecond that are done. -/
def PIC_TickIndexND : ℤ := q.CPU_CycleMax - q.CPU_CycleLeft - q.CPU_Cycles

/-- `PIC_TickIndex()`: the part of this millisecond that is done. -/
def PIC_TickIndex : ℚ := (q.PIC_TickIndexND : ℚ) / q.CPU_CycleMax

/-- The conversion of a `double` to `int32_t`: toward zero. -/
def toInt32 (x : ℚ) : ℤ := x.num.tdiv x.den

/-- `PIC_MakeCycles(amount)`. -/
def PIC_MakeCycles (amount : ℚ) : ℤ := toInt32 (q.CPU_CycleMax * amount)

/-! ## Pointers -/

/-- The `next` pointers. -/
def next (x : ℕ) : Option ℕ := (q.entries x).next

/-- One entry of the array written. -/
def setEntry (x : ℕ) (entry : PICEntry H) : EventQueue H :=
  { q with entries := Function.update q.entries x entry }

/-- `entries[x].next = v`. -/
def setNext (x : ℕ) (v : Option ℕ) : EventQueue H :=
  q.setEntry x { q.entries x with next := v }

/-- The entries on the pending list. -/
def pending : List ℕ := follow q.next PIC_QUEUESIZE q.next_entry

/-! ## Adding -/

/-- The `while (find_entry)` loop of `AddEntry`: past every entry whose index is not
greater. -/
def insertLoop (entry : ℕ) : ℕ → ℕ → Option (EventQueue H)
  | 0, _ => none
  | fuel + 1, find_entry =>
    match q.next find_entry with
    | some after =>
      if (q.entries after).index > (q.entries entry).index then
        some ((q.setNext entry (some after)).setNext find_entry (some entry))
      else insertLoop entry fuel after
    | none => some ((q.setNext entry none).setNext find_entry (some entry))

/-- The end of `AddEntry`: the CPU stops early when the first event comes sooner. -/
def shortenCycles : EventQueue H :=
  match q.next_entry with
  | some first =>
    if q.PIC_MakeCycles ((q.entries first).index - q.PIC_TickIndex) < q.CPU_Cycles then
      { q with CPU_CycleLeft := q.CPU_CycleLeft + q.CPU_Cycles, CPU_Cycles := 0 }
    else q
  | none => q

def AddEntry (entry : ℕ) : Option (EventQueue H) :=
  match q.next_entry with
  | none => some (shortenCycles { q.setNext entry none with next_entry := some entry })
  | some find_entry =>
    if (q.entries find_entry).index > (q.entries entry).index then
      some (shortenCycles { q.setNext entry (some find_entry) with next_entry := some entry })
    else (q.insertLoop entry PIC_QUEUESIZE find_entry).map shortenCycles

/-- What `PIC_AddEvent` puts into the entry it takes. -/
def fill (entry : ℕ) (handler : H) (delay : ℚ) (val : ℕ) : EventQueue H :=
  let index := if q.InEventService then delay + q.srv_lag else delay + q.PIC_TickIndex
  q.setEntry entry { q.entries entry with index := index, pic_event := handler, value := val }

def PIC_AddEvent (handler : H) (delay : ℚ) (val : ℕ) : Option (EventQueue H) :=
  match q.free_entry with
  | none => some q
  | some entry =>
    let q := q.fill entry handler delay val
    AddEntry { q with free_entry := q.next entry } entry

/-! ## Removing -/

/-- An entry put on the free list. -/
def release (entry : ℕ) : EventQueue H :=
  { q.setNext entry q.free_entry with free_entry := some entry }

/-- The loop of both removals, over the entries that `hit` picks by handler and value. -/
def removeLoop (hit : H → ℕ → Bool) :
    ℕ → EventQueue H → Option ℕ → Option ℕ → Option (EventQueue H)
  | 0, _, _, _ => none
  | _ + 1, q, _, none => some q
  | fuel + 1, q, prev_entry, some entry =>
    if hit (q.entries entry).pic_event (q.entries entry).value then
      match prev_entry with
      | some prev =>
        let q := (q.setNext prev (q.next entry)).release entry
        removeLoop hit fuel q (some prev) (q.next prev)
      | none =>
        let q := release { q with next_entry := q.next entry } entry
        removeLoop hit fuel q none q.next_entry
    else removeLoop hit fuel q (some entry) (q.next entry)

def PIC_RemoveSpecificEvents [DecidableEq H] (handler : H) (val : ℕ) :
    Option (EventQueue H) :=
  removeLoop (fun h v => decide (h = handler) && decide (v = val)) (PIC_QUEUESIZE + 1) q none
    q.next_entry

def PIC_RemoveEvents [DecidableEq H] (handler : H) : Option (EventQueue H) :=
  removeLoop (fun h _ => decide (h = handler)) (PIC_QUEUESIZE + 1) q none q.next_entry

/-! ## Running -/

/-- The test of the loop of `PIC_RunQueue`. -/
def Due (index_nd : ℤ) (entry : ℕ) : Prop :=
  (q.entries entry).index * q.CPU_CycleMax ≤ index_nd

instance (index_nd : ℤ) (entry : ℕ) : Decidable (q.Due index_nd entry) :=
  inferInstanceAs (Decidable (_ ≤ _))

/-- `PIC_RunQueue` up to its loop: `none` when a new millisecond is to be started first. -/
def enterService : EventQueue H × Option ℤ :=
  let q := { q with CPU_CycleLeft := q.CPU_CycleLeft + q.CPU_Cycles, CPU_Cycles := 0 }
  if q.CPU_CycleLeft ≤ 0 then (q, none)
  else ({ q with InEventService := true }, some q.PIC_TickIndexND)

/-- A round of the loop up to the call of the handler: the first entry, taken off the
list, when it is due. -/
def takeEntry (index_nd : ℤ) : Option (EventQueue H × ℕ) :=
  match q.next_entry with
  | some entry =>
    if q.Due index_nd entry then
      some ({ q with next_entry := q.next entry, srv_lag := (q.entries entry).index }, entry)
    else none
  | none => none

/-- The rest of `PIC_RunQueue` after its loop. -/
def leaveService (index_nd : ℤ) : EventQueue H :=
  let cycles := match q.next_entry with
    | some first =>
      let cycles := toInt32 ((q.entries first).index * q.CPU_CycleMax - index_nd)
      let cycles := if cycles = 0 then 1 else cycles
      if cycles < q.CPU_CycleLeft then cycles else q.CPU_CycleLeft
    | none => q.CPU_CycleLeft
  { q with
    InEventService := false, CPU_Cycles := cycles, CPU_CycleLeft := q.CPU_CycleLeft - cycles }

/-! ## A new millisecond -/

/-- The loop of `TIMER_AddTick` over the pending list. -/
def tickLoop : ℕ → EventQueue H → Option ℕ → Option (EventQueue H)
  | 0, _, _ => none
  | _ + 1, q, none => some q
  | fuel + 1, q, some entry =>
    let q := q.setEntry entry { q.entries entry with index := (q.entries entry).index - 1 }
    tickLoop fuel q (q.next entry)

/-- `TIMER_AddTick` up to the calls of the ticker handlers. -/
def TIMER_AddTick : Option (EventQueue H) :=
  tickLoop (PIC_QUEUESIZE + 1) { q with CPU_CycleLeft := q.CPU_CycleMax, CPU_Cycles := 0 }
    q.next_entry

/-- The queue as the constructor of `PIC_8259A` leaves it, at any setting of the cycle
counters; `blank` stands for the handler of an entry never used. -/
def fresh (blank : H) (cycleMax cycleLeft cycles : ℤ) : EventQueue H :=
  { entries := fun i => ⟨0, 0, blank, if i + 1 < PIC_QUEUESIZE then some (i + 1) else none⟩
    free_entry := some 0, next_entry := none, InEventService := false, srv_lag := 0
    CPU_CycleMax := cycleMax, CPU_CycleLeft := cycleLeft, CPU_Cycles := cycles }

end EventQueue

end AugraDosbox
