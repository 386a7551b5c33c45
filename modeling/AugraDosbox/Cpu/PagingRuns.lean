import AugraDosbox.Cpu.PagingAccess

/-!
# Paging: runs of the guest

A run is made of `Event`s: accesses, changes of the privilege level, changes of physical memory,
and the calls that change the TLB.  The guest's page-fault handler runs in the middle of an
access; what it does is again a run (`Run`), so a run is a tree.

What the guest keeps to is a `Discipline`: a condition on each event and the machine before it,
and which stores leave something that a flush of the TLB has to follow before the next access.

* `Run.preserves`: an invariant that every event keeps, given that the handlers inside it keep
  it, is kept by runs.
* `Reachable.invariant`: it holds in every state that a run reaches, also inside the handlers.
-/

namespace AugraDosbox.Paging

/-! ## Events -/

/-- What the guest and the core do with paging. -/
inductive Event
  | read (lin_addr : BitVec 32) (checked : Bool) (guest : Guest)
  | write (lin_addr : BitVec 32) (values : List (BitVec 8)) (checked : Bool) (guest : Guest)
  | codePage (lin_addr : BitVec 32) (big reuse : Bool) (victim : Option (BitVec 20))
      (guest : Guest)
  | forcePageInit (lin_addr : BitVec 32) (guest : Guest)
  | privilege (cpl mpl : Nat)
  | poke (addr : Nat) (value : BitVec 32)
  | clearTLB
  | setDirBase (cr3 : BitVec 32)
  | linkPage (lin_page phys_page : BitVec 20)
  | unlinkPages (lin_page : BitVec 20) (pages : Nat)
  | release (phys_page : BitVec 20)

namespace Event

/-- The guest's page-fault handler during the event. -/
def guest : Event → Guest
  | read _ _ guest | write _ _ _ guest | codePage _ _ _ _ guest | forcePageInit _ guest => guest
  | _ => fun _ _ => none

/-- Events that go through the TLB. -/
def accesses : Event → Bool
  | read .. | write .. | codePage .. | forcePageInit .. => true
  | _ => false

/-- Events that may release a page with translated code. -/
def setsCode : Event → Bool
  | codePage .. | release _ => true
  | _ => false

/-- Events that flush the TLB. -/
def flushes : Event → Bool
  | clearTLB | setDirBase _ => true
  | _ => false

/-- An event up to the store of its bytes. -/
def exec (arch : ArchitectureType) (m : Machine) : Event → Except Stop Access
  | read lin_addr checked guest =>
    if checked then memReadChecked arch guest lin_addr m else memRead arch guest lin_addr m
  | write lin_addr _ checked guest =>
    if checked then memWriteChecked arch guest lin_addr m else memWrite arch guest lin_addr m
  | codePage lin_addr big reuse victim guest => do
    let (m, raised) ← makeCodePage guest big reuse victim lin_addr m
    .ok { touched := none, m, raised }
  | forcePageInit lin_addr guest => do
    let (_, l) ← Paging.forcePageInit guest lin_addr m
    .ok { touched := none, m := l.m, raised := l.raised }
  | privilege cpl mpl => .ok { touched := none, m := { m with cpl, mpl }, raised := [] }
  | poke _ _ => .ok { touched := none, m, raised := [] }
  | clearTLB => .ok { touched := none, m := m.clearTLB, raised := [] }
  | setDirBase cr3 => .ok { touched := none, m := m.setDirBase cr3, raised := [] }
  | linkPage lin_page phys_page =>
    .ok { touched := none, m := m.linkPage lin_page phys_page, raised := [] }
  | unlinkPages lin_page pages =>
    .ok { touched := none, m := m.unlinkPages lin_page pages, raised := [] }
  | release phys_page => .ok { touched := none, m := m.release phys_page, raised := [] }

/-- The machine after the event: the bytes of a write are stored, and a dword is poked. -/
def settle (ev : Event) (a : Access) : Machine :=
  match ev with
  | write lin_addr values _ _ => a.m.deliver a.touched (lin_addr.toNat % 4096) values
  | poke addr value => a.m.physWrited addr value
  | _ => a.m

end Event

/-! ## Runs -/

/-- What a guest keeps to. -/
structure Discipline where
  /-- The condition on an event in the machine it meets. -/
  meets : Event → Machine → Prop
  /-- A store that a flush has to follow, from the machine before it and the machine after. -/
  stale : Machine → Machine → Prop

/-- Whether a flush is pending after an event, when one was (or was not) before it. -/
def Discipline.Pending (D : Discipline) (ev : Event) (pending : Bool) (a : Access)
    (pending' : Bool) : Prop :=
  (D.stale a.m (ev.settle a) → pending' = true) ∧
    (pending = true → ev.flushes = false → pending' = true)

/-- A run from one machine to another, each with whether a flush is pending.  There is no access
while one is pending, and the guest's handlers come back with none. -/
inductive Run (arch : ArchitectureType) (D : Discipline) :
    Machine → Bool → Machine → Bool → Prop
  | refl (m : Machine) (b : Bool) : Run arch D m b m b
  | step {m : Machine} {b : Bool} {m₁ : Machine} {b₁ b₂ : Bool} {ev : Event} {a : Access}
      (run : Run arch D m b m₁ b₁) (clean : ev.accesses = true → b₁ = false)
      (meets : D.meets ev m₁)
      (handlers : ∀ fault before after, ev.guest fault before = some after →
        Run arch D before false after false)
      (done : ev.exec arch m₁ = .ok a) (pending : D.Pending ev b₁ a b₂) :
      Run arch D m b (ev.settle a) b₂

/-- A machine whose TLB was just initialised. -/
structure Machine.Booted (m : Machine) : Prop where
  unlinked : ∀ page, (m.tlb page).Unlinked
  links : m.links = []

/-- The machines that runs reach from a booted one, those inside the page-fault handlers
included. -/
inductive Reachable (arch : ArchitectureType) (D : Discipline) (boot : Machine → Prop) :
    Machine → Bool → Prop
  | boot {m : Machine} (booted : boot m) : Reachable arch D boot m false
  | run {m : Machine} {b : Bool} {m' : Machine} {b' : Bool} (reachable : Reachable arch D boot m b)
      (run : Run arch D m b m' b') : Reachable arch D boot m' b'
  | fault {m before : Machine} {ev : Event} {fault : Fault}
      (reachable : Reachable arch D boot m false) (meets : D.meets ev m)
      (handlers : ∀ fault before after, ev.guest fault before = some after →
        Run arch D before false after false)
      (entered : ev.exec arch m = .error (.inHandler fault before)) :
      Reachable arch D boot before false

variable {arch : ArchitectureType} {D : Discipline} {I : Machine → Bool → Prop}

/-- An event keeps `I` when the handlers inside it do. -/
def KeptByEvents (arch : ArchitectureType) (D : Discipline) (I : Machine → Bool → Prop) : Prop :=
  ∀ m b ev a b', I m b → (ev.accesses = true → b = false) → D.meets ev m →
    (∀ fault before after, ev.guest fault before = some after → I before false →
      I after false) →
    ev.exec arch m = .ok a → D.Pending ev b a b' → I (ev.settle a) b'

/-- `I` holds where an access enters a handler, when the handlers before keep it. -/
def KeptByFaults (arch : ArchitectureType) (D : Discipline) (I : Machine → Bool → Prop) : Prop :=
  ∀ m ev fault before, I m false → D.meets ev m →
    (∀ fault before after, ev.guest fault before = some after → I before false →
      I after false) →
    ev.exec arch m = .error (.inHandler fault before) → I before false

/-- **An invariant of the events is one of the runs.** -/
theorem Run.preserves (kept : KeptByEvents arch D I) {m m' : Machine} {b b' : Bool}
    (run : Run arch D m b m' b') : I m b → I m' b' := by
  induction run with
  | refl m b => exact id
  | step _ clean meets _ done pending ih ihHandlers =>
    intro hI
    exact kept _ _ _ _ _ (ih hI) clean meets ihHandlers done pending

/-- **It holds in every reachable state.** -/
theorem Reachable.invariant {boot : Machine → Prop} (init : ∀ m, boot m → I m false)
    (kept : KeptByEvents arch D I) (faults : KeptByFaults arch D I) {m : Machine} {b : Bool}
    (reachable : Reachable arch D boot m b) : I m b := by
  induction reachable with
  | boot booted => exact init _ booted
  | run _ run ih => exact run.preserves kept ih
  | fault _ meets handlers entered ih =>
    exact faults _ _ _ _ ih meets
      (fun fault before after h => (handlers fault before after h).preserves kept) entered

end AugraDosbox.Paging
