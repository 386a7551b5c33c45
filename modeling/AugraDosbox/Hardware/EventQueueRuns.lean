import AugraDosbox.Hardware.EventQueueLists
import Mathlib.Logic.Relation
import Mathlib.Tactic.Linarith
import Mathlib.Tactic.Ring

/-!
# Every event fires once, in order and on time

The event queue as a machine that devices, event handlers and the CPU loop drive.
Each event that is added gets a ticket, and a history says when it was added, fired
or removed.

* `EventRun` — the queue, where `PIC_RunQueue` stands, and the history;
* `EventRun.Sound` — what holds in every state: the entries are accounted for, the
  pending list is in order, and so is everything that fired;
* `EventRun.Answers` — what the next call does from such a state;
* **`EventRun.reachable_sound`** — both, in every state of every run.
-/

namespace AugraDosbox

open LinkedList

/-- Where `PIC_RunQueue` stands. -/
inductive Phase where
  /-- It is not running. -/
  | idle
  /-- At the test of its loop. -/
  | looping (index_nd : ℤ)
  /-- In the handler of an entry. -/
  | serving (index_nd : ℤ) (entry : ℕ)

/-- A record of the history.  Due times and times are in milliseconds since the start. -/
inductive Happening (H : Type*) where
  | added (ticket : ℕ) (handler : H) (val : ℕ) (due : ℚ)
  | fired (ticket : ℕ) (handler : H) (val : ℕ) (time : ℚ)
  | removed (ticket : ℕ)

namespace Happening

variable {H : Type*}

def addedTicket : Happening H → Option ℕ
  | added t _ _ _ => some t
  | _ => none

def firedTicket : Happening H → Option ℕ
  | fired t _ _ _ => some t
  | _ => none

def removedTicket : Happening H → Option ℕ
  | removed t => some t
  | _ => none

end Happening

open Happening

/-- The queue in a run, with the millisecond, the ticket of each entry, the number of
tickets given out and the history, newest first. -/
structure EventRun (H : Type*) where
  queue : EventQueue H
  phase : Phase
  ticks : ℕ
  ticket : ℕ → ℕ
  count : ℕ
  log : List (Happening H)

/-- What the rest of the program does. -/
inductive EventAction (H : Type*) where
  | addEvent (handler : H) (delay : ℚ) (val : ℕ)
  | removeSpecificEvents (handler : H) (val : ℕ)
  | removeEvents (handler : H)
  /-- `PIC_RunQueue` is called. -/
  | runQueue
  /-- Its loop calls the next handler. -/
  | callHandler
  /-- That handler returns. -/
  | handlerReturns
  /-- `PIC_RunQueue` returns. -/
  | endRunQueue
  | addTick
  /-- The CPU runs, or the cycles setting changes. -/
  | execute (cycleMax cycleLeft cycles : ℤ)

namespace EventRun

variable {H : Type*}

/-- The entry in service. -/
def serviced : Phase → List ℕ
  | .serving _ entry => [entry]
  | _ => []

/-- Events are added and removed by handlers, or while `PIC_RunQueue` is not running. -/
def MayCall : Phase → Prop
  | .looping _ => False
  | _ => True

instance : DecidablePred MayCall
  | .idle => isTrue trivial
  | .looping _ => isFalse id
  | .serving _ _ => isTrue trivial

/-- When an entry's event is due, counted from the start. -/
def dueAt (s : EventRun H) (entry : ℕ) : ℚ := (s.queue.entries entry).index + s.ticks

/-- The time counted from the start. -/
def now (s : EventRun H) : ℚ := s.queue.PIC_TickIndex + s.ticks

/-- The record of a removal that has picked its entries. -/
def recordRemoval (s : EventRun H) (hit : H → ℕ → Bool) (q : EventQueue H) : EventRun H :=
  { s with
    queue := q
    log := (s.queue.hits hit s.queue.pending).map (fun x => .removed (s.ticket x)) ++ s.log }

/-- The record of an event put into an entry. -/
def recordAdded (s : EventRun H) (entry : ℕ) (handler : H) (val : ℕ) (q : EventQueue H) :
    EventRun H :=
  { s with
    queue := q, ticket := Function.update s.ticket entry s.count, count := s.count + 1
    log := .added s.count handler val ((q.entries entry).index + s.ticks) :: s.log }

def step [DecidableEq H] (s : EventRun H) : EventAction H → Option (EventRun H)
  | .addEvent handler delay val =>
    if MayCall s.phase then
      (s.queue.PIC_AddEvent handler delay val).map fun q =>
        match s.queue.free_entry with
        | some entry => s.recordAdded entry handler val q
        | none => { s with queue := q }
    else none
  | .removeSpecificEvents handler val =>
    if MayCall s.phase then
      (s.queue.PIC_RemoveSpecificEvents handler val).map
        (s.recordRemoval fun h v => decide (h = handler) && decide (v = val))
    else none
  | .removeEvents handler =>
    if MayCall s.phase then
      (s.queue.PIC_RemoveEvents handler).map (s.recordRemoval fun h _ => decide (h = handler))
    else none
  | .runQueue =>
    match s.phase with
    | .idle =>
      match s.queue.enterService with
      | (q, none) => some { s with queue := q }
      | (q, some index_nd) => some { s with queue := q, phase := .looping index_nd }
    | _ => none
  | .callHandler =>
    match s.phase with
    | .looping index_nd =>
      (s.queue.takeEntry index_nd).map fun (q, entry) =>
        { s with
          queue := q, phase := .serving index_nd entry
          log := .fired (s.ticket entry) (s.queue.entries entry).pic_event
            (s.queue.entries entry).value s.now :: s.log }
    | _ => none
  | .handlerReturns =>
    match s.phase with
    | .serving index_nd entry =>
      some { s with queue := s.queue.release entry, phase := .looping index_nd }
    | _ => none
  | .endRunQueue =>
    match s.phase with
    | .looping index_nd =>
      match s.queue.takeEntry index_nd with
      | some _ => none
      | none => some { s with queue := s.queue.leaveService index_nd, phase := .idle }
    | _ => none
  | .addTick =>
    match s.phase with
    | .idle => s.queue.TIMER_AddTick.map fun q => { s with queue := q, ticks := s.ticks + 1 }
    | _ => none
  | .execute cycleMax cycleLeft cycles =>
    match s.phase with
    | .idle =>
      if 0 < cycleMax then
        some { s with queue := { s.queue with
          CPU_CycleMax := cycleMax, CPU_CycleLeft := cycleLeft, CPU_Cycles := cycles } }
      else none
    | _ => none

/-- One action of the run. -/
def Step [DecidableEq H] (s s' : EventRun H) : Prop := ∃ a, s.step a = some s'

/-- The start: nothing pending, no history. -/
def start (blank : H) (cycleMax cycleLeft cycles : ℤ) : EventRun H :=
  { queue := .fresh blank cycleMax cycleLeft cycles, phase := .idle, ticks := 0
    ticket := fun _ => 0, count := 0, log := [] }

/-! ## What holds in every state -/

/-- The order of the pending list: by index, and by age among equals. -/
def Before (s : EventRun H) (x y : ℕ) : Prop :=
  (s.queue.entries x).index < (s.queue.entries y).index ∨
    (s.queue.entries x).index = (s.queue.entries y).index ∧ s.ticket x < s.ticket y

/-- Whenever an event fires, no event known by then is still waiting that was due
earlier, or at the same time and added earlier. -/
def InOrder (log : List (Happening H)) : Prop :=
  ∀ t h v time past, fired t h v time :: past <:+ log →
    ∀ u hu vu du dt, added u hu vu du ∈ past → added t h v dt ∈ past →
      du < dt ∨ du = dt ∧ u < t →
        u ∈ past.filterMap firedTicket ∨ u ∈ past.filterMap removedTicket

/-- The integrity of the queue. -/
structure Sound (s : EventRun H) : Prop where
  /-- The two lists and the entry in service are the array, each entry once. -/
  lists : ∃ F, s.queue.Lists s.queue.pending F (serviced s.phase)
  sorted : s.queue.pending.Pairwise s.Before
  /-- Tickets are given out in order. -/
  tickets : s.log.filterMap addedTicket = (List.range s.count).reverse
  /-- Every event that was added is pending, or has fired, or was removed, one of these
  and once. -/
  accounted : (s.queue.pending.map s.ticket ++ s.log.filterMap firedTicket ++
    s.log.filterMap removedTicket).Perm (List.range s.count)
  /-- A pending entry still holds what was added. -/
  kept : ∀ x ∈ s.queue.pending, added (s.ticket x) (s.queue.entries x).pic_event
    (s.queue.entries x).value (s.dueAt x) ∈ s.log
  /-- What fired had been added, with this handler and value, and was due. -/
  onTime : ∀ t h v time, fired t h v time ∈ s.log →
    ∃ due, added t h v due ∈ s.log ∧ due ≤ time
  inOrder : InOrder s.log
  cycleMax : 0 < s.queue.CPU_CycleMax
  clock : ∀ index_nd, s.phase = .looping index_nd ∨ (∃ x, s.phase = .serving index_nd x) →
    s.queue.PIC_TickIndexND = index_nd

/-! ## The history -/

section History

variable {log : List (Happening H)}

theorem InOrder.cons (h : InOrder log) {e : Happening H} (he : e.firedTicket = none) :
    InOrder (e :: log) := by
  intro t hd v time past hpast
  rcases List.suffix_cons_iff.1 hpast with heq | hsuf
  · obtain ⟨rfl, -⟩ := List.cons.inj heq
    simp [firedTicket] at he
  · exact h t hd v time past hsuf

theorem InOrder.removed_append (h : InOrder log) (L : List ℕ) :
    InOrder (L.map Happening.removed ++ log) := by
  induction L with
  | nil => exact h
  | cons t L ih => exact InOrder.cons ih rfl

theorem InOrder.cons_fired (h : InOrder log) {t : ℕ} {hd : H} {v : ℕ} {time : ℚ}
    (hfire : ∀ u hu vu du dt, added u hu vu du ∈ log → added t hd v dt ∈ log →
      du < dt ∨ du = dt ∧ u < t →
        u ∈ log.filterMap firedTicket ∨ u ∈ log.filterMap removedTicket) :
    InOrder (fired t hd v time :: log) := by
  intro t' hd' v' time' past hpast
  rcases List.suffix_cons_iff.1 hpast with heq | hsuf
  · obtain ⟨hev, rfl⟩ := List.cons.inj heq
    obtain ⟨rfl, rfl, rfl, -⟩ := Happening.fired.inj hev
    exact hfire
  · exact h t' hd' v' time' past hsuf

/-- Two records of an addition with one ticket are the same record. -/
theorem added_unique (hnd : (log.filterMap addedTicket).Nodup) {t : ℕ} {h h' : H} {v v' : ℕ}
    {d d' : ℚ} (ha : added t h v d ∈ log) (ha' : added t h' v' d' ∈ log) :
    added t h v d = added t h' v' d' := by
  induction log with
  | nil => exact absurd ha List.not_mem_nil
  | cons e log ih =>
    cases hticket : e.addedTicket with
    | none =>
      rw [List.filterMap_cons_none hticket] at hnd
      have hne : ∀ {h v d}, added t h v d ∈ e :: log → added t h v d ∈ log := by
        intro h v d hmem
        rcases List.mem_cons.1 hmem with rfl | hmem
        · simp [addedTicket] at hticket
        · exact hmem
      exact ih hnd (hne ha) (hne ha')
    | some u =>
      rw [List.filterMap_cons_some hticket, List.nodup_cons] at hnd
      have hlater : ∀ {h v d}, added u h v d ∉ log := fun hmem =>
        hnd.1 (List.mem_filterMap.2 ⟨_, hmem, rfl⟩)
      rcases List.mem_cons.1 ha with rfl | hmem <;> rcases List.mem_cons.1 ha' with heq | hmem'
      · exact heq.symm
      · obtain rfl : t = u := by simpa [addedTicket] using hticket
        exact absurd hmem' hlater
      · subst heq
        obtain rfl : t = u := by simpa [addedTicket] using hticket
        exact absurd hmem hlater
      · exact ih hnd.2 hmem hmem'

theorem filterMap_removed (f : Happening H → Option ℕ) (L : List ℕ)
    (hf : ∀ t, f (removed t) = none) :
    (L.map Happening.removed ++ log).filterMap f = log.filterMap f := by
  induction L with
  | nil => rfl
  | cons t L ih => rw [List.map_cons, List.cons_append, List.filterMap_cons_none (hf t), ih]

theorem filterMap_removedTicket (L : List ℕ) :
    (L.map Happening.removed ++ log).filterMap removedTicket =
      L ++ log.filterMap removedTicket := by
  induction L with
  | nil => rfl
  | cons t L ih =>
    exact congrArg (t :: ·) ih

end History

/-! ## One action -/

section Actions

variable {s s' : EventRun H} {P F : List ℕ}

/-- The invariant from the lists a call leaves. -/
theorem sound_of_lists (hl : s.queue.Lists P F (serviced s.phase))
    (sorted : P.Pairwise s.Before)
    (tickets : s.log.filterMap addedTicket = (List.range s.count).reverse)
    (accounted : (P.map s.ticket ++ s.log.filterMap firedTicket ++
      s.log.filterMap removedTicket).Perm (List.range s.count))
    (kept : ∀ x ∈ P, added (s.ticket x) (s.queue.entries x).pic_event
      (s.queue.entries x).value (s.dueAt x) ∈ s.log)
    (onTime : ∀ t h v time, fired t h v time ∈ s.log →
      ∃ due, added t h v due ∈ s.log ∧ due ≤ time)
    (inOrder : InOrder s.log) (cycleMax : 0 < s.queue.CPU_CycleMax)
    (clock : ∀ index_nd, s.phase = .looping index_nd ∨ (∃ x, s.phase = .serving index_nd x) →
      s.queue.PIC_TickIndexND = index_nd) : s.Sound := by
  have hP := hl.pending_eq
  subst hP
  exact ⟨⟨F, hl⟩, sorted, tickets, accounted, kept, onTime, inOrder, cycleMax, clock⟩

/-- A part of `PIC_RunQueue` that leaves events and history alone. -/
theorem Sound.of_same (h : s.Sound) {q : EventQueue H} {phase : Phase}
    (hl : q.Lists s.queue.pending F (serviced phase))
    (hindex : ∀ x, (q.entries x).index = (s.queue.entries x).index)
    (hvalue : ∀ x, (q.entries x).value = (s.queue.entries x).value)
    (hevent : ∀ x, (q.entries x).pic_event = (s.queue.entries x).pic_event)
    (hmax : 0 < q.CPU_CycleMax)
    (hclock : ∀ index_nd, phase = .looping index_nd ∨ (∃ x, phase = .serving index_nd x) →
      q.PIC_TickIndexND = index_nd) :
    Sound { s with queue := q, phase := phase } := by
  refine sound_of_lists hl ?_ h.tickets h.accounted ?_ h.onTime h.inOrder hmax hclock
  · refine h.sorted.imp fun {x y} hb => ?_
    unfold Before
    dsimp only
    rw [hindex, hindex]
    exact hb
  · intro x hx
    unfold dueAt
    dsimp only
    rw [hindex, hvalue, hevent]
    exact h.kept x hx

theorem Sound.ticket_lt (h : s.Sound) {x : ℕ} (hx : x ∈ s.queue.pending) :
    s.ticket x < s.count := by
  have hmem : s.ticket x ∈ List.range s.count := by
    refine h.accounted.subset ?_
    simp only [List.mem_append, List.mem_map]
    exact .inl (.inl ⟨x, hx, rfl⟩)
  exact List.mem_range.1 hmem

theorem Sound.nodup_tickets (h : s.Sound) : (s.log.filterMap addedTicket).Nodup := by
  rw [h.tickets]
  exact (List.reverse_perm _).nodup_iff.2 List.nodup_range

/-- The removal of the events that `hit` picks: those go, the others stay in their
order. -/
theorem Sound.recordRemoval (h : s.Sound) (hit : H → ℕ → Bool) :
    ∃ q, EventQueue.removeLoop hit (PIC_QUEUESIZE + 1) s.queue none s.queue.next_entry =
        some q ∧
      (s.recordRemoval hit q).Sound ∧ EventQueue.Relinks s.queue q ∧
      q.pending = s.queue.spared hit s.queue.pending := by
  obtain ⟨F, hl⟩ := h.lists
  obtain ⟨q, hq, hrel, hl'⟩ := hl.remove hit
  refine ⟨q, hq, ?_, hrel, hl'.pending_eq⟩
  set picked := s.queue.hits hit s.queue.pending with hpicked
  set rest := s.queue.spared hit s.queue.pending with hrest
  have hsub : rest.Sublist s.queue.pending := List.filter_sublist
  have hlog : (s.recordRemoval hit q).log =
      (picked.map s.ticket).map Happening.removed ++ s.log := by
    rw [List.map_map]
    rfl
  have hqueue : (s.recordRemoval hit q).queue = q := rfl
  have hsplit : (rest ++ picked).Perm s.queue.pending :=
    List.perm_append_comm.trans (List.filter_append_perm _ s.queue.pending)
  refine sound_of_lists hl' ?_ ?_ ?_ ?_ ?_ ?_ ?_ ?_
  · refine (h.sorted.sublist hsub).imp fun {x y} hb => ?_
    unfold Before
    rw [hqueue, hrel.index, hrel.index]
    exact hb
  · rw [hlog, filterMap_removed addedTicket _ fun _ => rfl]
    exact h.tickets
  · rw [hlog, filterMap_removed firedTicket _ fun _ => rfl, filterMap_removedTicket]
    refine List.Perm.trans ?_ h.accounted
    -- the tickets picked move from the pending ones to the removed ones
    calc (rest.map s.ticket ++ s.log.filterMap firedTicket ++
          (picked.map s.ticket ++ s.log.filterMap removedTicket))
        = rest.map s.ticket ++ (s.log.filterMap firedTicket ++ picked.map s.ticket) ++
          s.log.filterMap removedTicket := by simp only [List.append_assoc]
      List.Perm _ (rest.map s.ticket ++ (picked.map s.ticket ++ s.log.filterMap firedTicket) ++
          s.log.filterMap removedTicket) :=
        (List.perm_append_comm.append_left _).append_right _
      _ = (rest ++ picked).map s.ticket ++ s.log.filterMap firedTicket ++
          s.log.filterMap removedTicket := by simp only [List.map_append, List.append_assoc]
      List.Perm _ _ := ((hsplit.map s.ticket).append_right _).append_right _
  · intro x hx
    unfold dueAt
    rw [hqueue, hrel.index, hrel.value, hrel.pic_event, hlog]
    exact List.mem_append_right _ (h.kept x (hsub.subset hx))
  · intro t hd v time hmem
    rw [hlog] at hmem ⊢
    have hmem : fired t hd v time ∈ s.log := by simpa using hmem
    obtain ⟨due, hadded, hle⟩ := h.onTime t hd v time hmem
    exact ⟨due, List.mem_append_right _ hadded, hle⟩
  · rw [hlog]
    exact h.inOrder.removed_append _
  · rw [hqueue, hrel.cycleMax]
    exact h.cycleMax
  · intro nd hphase
    rw [hqueue, hrel.done]
    exact h.clock nd hphase

/-- The entries behind the place of insertion are later. -/
theorem lt_of_mem_dropWhile {f : ℕ → ℚ} {c : ℚ} (hs : P.Pairwise fun x y => f x ≤ f y) {b : ℕ}
    (hb : b ∈ P.dropWhile fun x => decide (f x ≤ c)) : c < f b := by
  induction P with
  | nil => simp at hb
  | cons p P ih =>
    obtain ⟨hp, hP⟩ := List.pairwise_cons.1 hs
    by_cases hle : f p ≤ c
    · rw [List.dropWhile_cons_of_pos (by simpa using hle)] at hb
      exact ih hP hb
    · rw [List.dropWhile_cons_of_neg (by simpa using hle)] at hb
      rcases List.mem_cons.1 hb with rfl | hb
      · exact not_le.1 hle
      · exact lt_of_lt_of_le (not_le.1 hle) (hp b hb)

/-- An event put into a free entry waits behind every event that is not later. -/
theorem Sound.recordAdded (h : s.Sound) {entry : ℕ}
    (hfree : s.queue.free_entry = some entry) (handler : H) (delay : ℚ) (val : ℕ) :
    ∃ q A B, s.queue.PIC_AddEvent handler delay val = some q ∧
      (s.recordAdded entry handler val q).Sound ∧
      s.queue.pending = A ++ B ∧ q.pending = A ++ entry :: B := by
  obtain ⟨F, hl⟩ := h.lists
  obtain ⟨F, rfl⟩ : ∃ F', F = entry :: F' := by
    have hhead := hl.free.head_eq
    rw [hfree] at hhead
    cases F with
    | nil => simp at hhead
    | cons e F =>
      obtain rfl : entry = e := by simpa using hhead
      exact ⟨F, rfl⟩
  obtain ⟨q, hq, hrel, hl'⟩ := hl.addEvent handler delay val
  set q1 := s.queue.fill entry handler delay val with hq1
  have he : entry ∉ s.queue.pending := by
    intro hin
    have hnd := (List.nodup_append.1 (List.nodup_append.1 hl.nodup).1).2.2
    exact hnd entry hin entry List.mem_cons_self rfl
  -- the entries that were pending hold what they held
  have hother : ∀ x ∈ s.queue.pending, q1.entries x = s.queue.entries x := by
    intro x hx
    have hxe : x ≠ entry := by
      rintro rfl
      exact he hx
    simp [hq1, EventQueue.fill, EventQueue.setEntry, hxe]
  have hticket : ∀ x ∈ s.queue.pending,
      (s.recordAdded entry handler val q).ticket x = s.ticket x := by
    intro x hx
    have hxe : x ≠ entry := by
      rintro rfl
      exact he hx
    show Function.update s.ticket entry s.count x = s.ticket x
    rw [Function.update_of_ne hxe]
  have hindex : ∀ x ∈ s.queue.pending, (q.entries x).index = (s.queue.entries x).index := by
    intro x hx
    rw [hrel.index, hother x hx]
  have hself : (s.recordAdded entry handler val q).ticket entry = s.count := by
    show Function.update s.ticket entry s.count entry = s.count
    rw [Function.update_self]
  have hqueue : (s.recordAdded entry handler val q).queue = q := rfl
  set A := s.queue.pending.takeWhile fun x =>
    decide ((q1.entries x).index ≤ (q1.entries entry).index) with hA
  set B := s.queue.pending.dropWhile fun x =>
    decide ((q1.entries x).index ≤ (q1.entries entry).index) with hB
  have hAB : A ++ B = s.queue.pending := List.takeWhile_append_dropWhile
  have hins : q1.inserted entry s.queue.pending = A ++ entry :: B := rfl
  have hAmem : ∀ x ∈ A, x ∈ s.queue.pending := fun x hx => hAB ▸ List.mem_append_left B hx
  have hBmem : ∀ x ∈ B, x ∈ s.queue.pending := fun x hx => hAB ▸ List.mem_append_right A hx
  have hbefore : ∀ x ∈ s.queue.pending, ∀ y ∈ s.queue.pending, s.Before x y →
      (s.recordAdded entry handler val q).Before x y := by
    intro x hx y hy hb
    unfold Before
    rw [hqueue, hindex x hx, hindex y hy, hticket x hx, hticket y hy]
    exact hb
  rw [hins] at hl'
  refine ⟨q, A, B, hq, ?_, hAB.symm, hl'.pending_eq⟩
  refine sound_of_lists hl' ?_ ?_ ?_ ?_ ?_ (h.inOrder.cons rfl) ?_ ?_
  · obtain ⟨hsA, hsB, hsAB⟩ := List.pairwise_append.1 (hAB.symm ▸ h.sorted)
    refine List.pairwise_append.2 ⟨?_, List.pairwise_cons.2 ⟨?_, ?_⟩, ?_⟩
    · exact hsA.imp_of_mem fun hx hy hb => hbefore _ (hAmem _ hx) _ (hAmem _ hy) hb
    · intro b hb
      left
      rw [hqueue, hrel.index, hindex b (hBmem b hb), ← hother b (hBmem b hb)]
      refine lt_of_mem_dropWhile ?_ hb
      refine h.sorted.imp_of_mem fun {x y} hx hy hxy => ?_
      rw [hother x hx, hother y hy]
      rcases hxy with hlt | ⟨heq, -⟩
      · exact le_of_lt hlt
      · exact le_of_eq heq
    · exact hsB.imp_of_mem fun hx hy hb => hbefore _ (hBmem _ hx) _ (hBmem _ hy) hb
    · intro a ha y hy
      rcases List.mem_cons.1 hy with rfl | hy
      · have hle := List.mem_takeWhile_imp ha
        simp only [decide_eq_true_eq] at hle
        have hlt := h.ticket_lt (hAmem a ha)
        unfold Before
        rw [hself, hticket a (hAmem a ha), hqueue, hrel.index, hrel.index]
        rcases lt_or_eq_of_le hle with hlt' | heq
        · exact .inl hlt'
        · exact .inr ⟨heq, hlt⟩
      · exact hbefore a (hAmem a ha) y (hBmem y hy) (hsAB a ha y hy)
  · show s.count :: s.log.filterMap addedTicket = (List.range (s.count + 1)).reverse
    rw [h.tickets, List.range_succ, List.reverse_append]
    rfl
  · have hmap : (A ++ entry :: B).map (s.recordAdded entry handler val q).ticket =
        A.map s.ticket ++ s.count :: B.map s.ticket := by
      rw [List.map_append, List.map_cons, hself]
      congr 1
      · exact List.map_congr_left fun x hx => hticket x (hAmem x hx)
      · rw [List.map_congr_left fun x hx => hticket x (hBmem x hx)]
    rw [hmap]
    show (A.map s.ticket ++ s.count :: B.map s.ticket ++ s.log.filterMap firedTicket ++
      s.log.filterMap removedTicket).Perm (List.range (s.count + 1))
    have hold := h.accounted
    rw [← hAB, List.map_append] at hold
    rw [List.range_succ]
    refine List.Perm.trans ?_ ((hold.cons s.count).trans (List.perm_append_singleton _ _).symm)
    exact (List.perm_middle.append_right _).append_right _
  · intro x hx
    have hwhere : x = entry ∨ x ∈ s.queue.pending := by
      rw [← hAB]
      simpa [or_left_comm] using hx
    rcases hwhere with rfl | hx
    · refine List.mem_cons.2 (.inl ?_)
      rw [hself, hqueue, hrel.pic_event, hrel.value]
      simp [hq1, EventQueue.fill, EventQueue.setEntry, dueAt, EventRun.recordAdded]
    · refine List.mem_cons_of_mem _ ?_
      unfold dueAt
      rw [hticket x hx, hqueue, hrel.pic_event, hrel.value, hindex x hx, hother x hx]
      exact h.kept x hx
  · intro t hd v time hmem
    rcases List.mem_cons.1 hmem with heq | hmem
    · cases heq
    · obtain ⟨due, hadded, hle⟩ := h.onTime t hd v time hmem
      exact ⟨due, List.mem_cons_of_mem _ hadded, hle⟩
  · rw [hqueue, hrel.cycleMax]
    exact h.cycleMax
  · intro nd hphase
    rw [hqueue, hrel.done]
    exact h.clock nd hphase

/-- The first pending event is due when any of them is. -/
theorem Sound.takeEntry_eq_none_iff (h : s.Sound) {index_nd : ℤ} :
    s.queue.takeEntry index_nd = none ↔ ∀ x ∈ s.queue.pending, ¬ s.queue.Due index_nd x := by
  obtain ⟨F, hl⟩ := h.lists
  have hsorted := h.sorted
  unfold EventQueue.takeEntry
  rw [hl.pending.head_eq]
  cases hP : s.queue.pending with
  | nil => simp
  | cons p P =>
    rw [hP] at hsorted
    simp only [List.head?_cons]
    split
    · rename_i hdue
      simp only [reduceCtorEq, false_iff]
      exact fun hall => hall p List.mem_cons_self hdue
    · rename_i hdue
      simp only [true_iff]
      intro x hx hduex
      rcases List.mem_cons.1 hx with rfl | hx
      · exact hdue hduex
      · -- a later entry is not nearer than the first
        apply hdue
        have hpos : (0 : ℚ) < s.queue.CPU_CycleMax := by exact_mod_cast h.cycleMax
        have hle : (s.queue.entries p).index ≤ (s.queue.entries x).index := by
          rcases (List.pairwise_cons.1 hsorted).1 x hx with hlt | ⟨heq, -⟩
          · exact le_of_lt hlt
          · exact le_of_eq heq
        exact le_trans (mul_le_mul_of_nonneg_right hle (le_of_lt hpos)) hduex

section Steps

variable [DecidableEq H]

theorem Sound.runQueue (h : s.Sound) (hidle : s.phase = .idle) :
    ∃ s', s.step .runQueue = some s' ∧ s'.Sound := by
  obtain ⟨F, hl⟩ := h.lists
  rw [hidle] at hl
  unfold step EventQueue.enterService
  rw [hidle]
  dsimp only
  split
  · rename_i q heq
    split at heq
    · obtain ⟨rfl, -⟩ := Prod.mk.inj heq
      refine ⟨_, rfl, h.of_same ⟨hl.pending, hl.free, hl.perm⟩ (fun _ => rfl) (fun _ => rfl)
        (fun _ => rfl) h.cycleMax ?_⟩
      rintro nd (hc | ⟨x, hc⟩) <;> cases hc
    · exact absurd (Prod.mk.inj heq).2 (by simp)
  · rename_i q index_nd heq
    split at heq
    · exact absurd (Prod.mk.inj heq).2 (by simp)
    · obtain ⟨rfl, hnd⟩ := Prod.mk.inj heq
      obtain rfl := Option.some.inj hnd
      refine ⟨_, rfl, h.of_same ⟨hl.pending, hl.free, hl.perm⟩ (fun _ => rfl) (fun _ => rfl)
        (fun _ => rfl) h.cycleMax ?_⟩
      rintro nd (hc | ⟨x, hc⟩)
      · exact Phase.looping.inj hc
      · cases hc

theorem Sound.execute (h : s.Sound) (hidle : s.phase = .idle) {cycleMax : ℤ}
    (hmax : 0 < cycleMax) (cycleLeft cycles : ℤ) :
    ∃ s', s.step (.execute cycleMax cycleLeft cycles) = some s' ∧ s'.Sound := by
  obtain ⟨F, hl⟩ := h.lists
  rw [hidle] at hl
  unfold step
  rw [hidle]
  dsimp only
  rw [if_pos hmax]
  refine ⟨_, rfl, h.of_same ⟨hl.pending, hl.free, hl.perm⟩ (fun _ => rfl) (fun _ => rfl)
    (fun _ => rfl) hmax ?_⟩
  rintro nd (hc | ⟨x, hc⟩) <;> cases hc

theorem Sound.handlerReturns (h : s.Sound) {index_nd : ℤ} {entry : ℕ}
    (hserving : s.phase = .serving index_nd entry) :
    ∃ s', s.step .handlerReturns = some s' ∧ s'.Sound := by
  obtain ⟨F, hl⟩ := h.lists
  have hclock := h.clock index_nd (.inr ⟨entry, hserving⟩)
  rw [hserving] at hl
  have hrel := EventQueue.relinks_release s.queue entry
  unfold step
  rw [hserving]
  refine ⟨_, rfl, h.of_same hl.giveBack hrel.index hrel.value hrel.pic_event
    (hrel.cycleMax ▸ h.cycleMax) ?_⟩
  rintro nd (hc | ⟨x, hc⟩)
  · rw [hrel.done, hclock]
    exact Phase.looping.inj hc
  · cases hc

theorem Sound.endRunQueue (h : s.Sound) {index_nd : ℤ} (hlooping : s.phase = .looping index_nd)
    (hnone : s.queue.takeEntry index_nd = none) :
    ∃ s', s.step .endRunQueue = some s' ∧ s'.Sound := by
  obtain ⟨F, hl⟩ := h.lists
  rw [hlooping] at hl
  unfold step
  rw [hlooping]
  dsimp only
  rw [hnone]
  refine ⟨_, rfl, h.of_same ⟨hl.pending, hl.free, hl.perm⟩ (fun _ => rfl) (fun _ => rfl)
    (fun _ => rfl) h.cycleMax ?_⟩
  rintro nd (hc | ⟨x, hc⟩) <;> cases hc

/-- The handler that the loop calls is that of the first pending event in the order, and
that event is due. -/
theorem Sound.callHandler (h : s.Sound) {index_nd : ℤ} (hlooping : s.phase = .looping index_nd)
    {q : EventQueue H} {x : ℕ} (htake : s.queue.takeEntry index_nd = some (q, x)) :
    ∃ s', s.step .callHandler = some s' ∧ s'.Sound := by
  obtain ⟨F, hl⟩ := h.lists
  have hclock := h.clock index_nd (.inl hlooping)
  rw [hlooping] at hl
  obtain ⟨P, hP, hdue, hl', rfl⟩ := hl.take htake
  have hkept := h.kept
  have hsorted := h.sorted
  have haccounted := h.accounted
  rw [hP] at hkept hsorted haccounted
  have hx := hkept x List.mem_cons_self
  unfold step
  rw [hlooping]
  dsimp only
  rw [htake]
  refine ⟨_, rfl, sound_of_lists hl' (List.pairwise_cons.1 hsorted).2 h.tickets ?_ ?_ ?_ ?_
    h.cycleMax ?_⟩
  · refine List.Perm.trans ?_ haccounted
    show (P.map s.ticket ++ s.ticket x :: s.log.filterMap firedTicket ++
      s.log.filterMap removedTicket).Perm _
    exact List.perm_middle.append_right _
  · intro y hy
    exact List.mem_cons_of_mem _ (hkept y (List.mem_cons_of_mem x hy))
  · intro t hd v time hmem
    rcases List.mem_cons.1 hmem with heq | hmem
    · obtain ⟨rfl, rfl, rfl, rfl⟩ := Happening.fired.inj heq
      refine ⟨s.dueAt x, List.mem_cons_of_mem _ hx, ?_⟩
      -- the test of the loop, divided by the cycles of a millisecond
      have hpos : (0 : ℚ) < s.queue.CPU_CycleMax := by exact_mod_cast h.cycleMax
      unfold EventQueue.Due at hdue
      rw [← hclock] at hdue
      have hindex : (s.queue.entries x).index ≤ s.queue.PIC_TickIndex :=
        (le_div_iff₀ hpos).2 hdue
      unfold dueAt now
      linarith
    · obtain ⟨due, hadded, hle⟩ := h.onTime t hd v time hmem
      exact ⟨due, List.mem_cons_of_mem _ hadded, hle⟩
  · refine h.inOrder.cons_fired fun u hu vu du dt hau hat hbefore => ?_
    have hdt : dt = s.dueAt x := (Happening.added.inj (added_unique h.nodup_tickets hat hx)).2.2.2
    have hucount : u ∈ List.range s.count := by
      have hmem : u ∈ s.log.filterMap addedTicket := List.mem_filterMap.2 ⟨_, hau, rfl⟩
      rw [h.tickets] at hmem
      exact List.mem_reverse.1 hmem
    have hwhere := haccounted.symm.subset hucount
    simp only [List.mem_append, List.mem_map] at hwhere
    rcases hwhere with (⟨y, hy, rfl⟩ | hfired) | hremoved
    · -- a waiting event comes after the one that fires
      exfalso
      have hdu : du = s.dueAt y :=
        (Happening.added.inj (added_unique h.nodup_tickets hau (hkept y hy))).2.2.2
      unfold dueAt at hdt hdu
      rcases List.mem_cons.1 hy with rfl | hy
      · rcases hbefore with hlt | ⟨-, hlt⟩
        · rw [hdt, hdu] at hlt
          exact lt_irrefl _ hlt
        · exact lt_irrefl _ hlt
      · rcases (List.pairwise_cons.1 hsorted).1 y hy with hxy | ⟨hxy, hticket⟩
        · rcases hbefore with hlt | ⟨heq, -⟩ <;> linarith
        · rcases hbefore with hlt | ⟨-, hlt⟩
          · linarith
          · exact absurd hlt (not_lt_of_gt hticket)
    · exact .inl hfired
    · exact .inr hremoved
  · rintro nd (hc | ⟨y, hc⟩)
    · cases hc
    · obtain ⟨rfl, -⟩ := Phase.serving.inj hc
      exact hclock

/-- A tick brings every pending event nearer and the start of the run further away. -/
theorem Sound.addTick (h : s.Sound) (hidle : s.phase = .idle) :
    ∃ s', s.step .addTick = some s' ∧ s'.Sound ∧ s'.queue.pending = s.queue.pending := by
  obtain ⟨F, hl⟩ := h.lists
  obtain ⟨q, hq, hl', hentries, -, hmax⟩ := hl.addTick
  unfold step
  rw [hidle] at hl' ⊢
  dsimp only
  rw [hq]
  have hindex : ∀ x ∈ s.queue.pending,
      (q.entries x).index = (s.queue.entries x).index - 1 := by
    intro x hx
    rw [hentries]
    simp [hx]
  refine ⟨_, rfl, sound_of_lists hl' ?_ h.tickets h.accounted ?_ h.onTime h.inOrder
    (hmax ▸ h.cycleMax) ?_, hl'.pending_eq⟩
  · refine List.Pairwise.imp_of_mem (fun {x y} hx hy hb => ?_) h.sorted
    unfold Before at hb ⊢
    dsimp only
    rw [hindex x hx, hindex y hy]
    rcases hb with hlt | ⟨heq, hticket⟩
    · exact .inl (by linarith)
    · exact .inr ⟨by rw [heq], hticket⟩
  · intro x hx
    have hrecord := h.kept x hx
    unfold dueAt at hrecord ⊢
    dsimp only
    rw [hindex x hx, show (q.entries x).pic_event = (s.queue.entries x).pic_event by rw [hentries],
      show (q.entries x).value = (s.queue.entries x).value by rw [hentries]]
    push_cast
    rwa [show (s.queue.entries x).index - 1 + ((s.ticks : ℚ) + 1) =
      (s.queue.entries x).index + s.ticks by ring]
  · rintro nd (hc | ⟨x, hc⟩) <;> cases hc

theorem Sound.addEvent (h : s.Sound) (hmay : MayCall s.phase) {entry : ℕ}
    (hfree : s.queue.free_entry = some entry) (handler : H) (delay : ℚ) (val : ℕ) :
    ∃ s' A B, s.step (.addEvent handler delay val) = some s' ∧ s'.Sound ∧
      s'.count = s.count + 1 ∧ s.queue.pending = A ++ B ∧
      s'.queue.pending = A ++ entry :: B := by
  obtain ⟨q, A, B, hq, hsound, hAB, hpending⟩ := h.recordAdded hfree handler delay val
  refine ⟨s.recordAdded entry handler val q, A, B, ?_, hsound, rfl, hAB, hpending⟩
  unfold step
  dsimp only
  rw [if_pos hmay, hq, hfree]
  rfl

theorem Sound.addFull (h : s.Sound) (hmay : MayCall s.phase)
    (hfree : s.queue.free_entry = none) (handler : H) (delay : ℚ) (val : ℕ) :
    s.step (.addEvent handler delay val) = some s := by
  obtain ⟨F, hl⟩ := h.lists
  have hF : F = [] := by
    have hhead := hl.free.head_eq
    rw [hfree] at hhead
    exact List.head?_eq_none_iff.1 hhead.symm
  subst hF
  unfold step
  dsimp only
  rw [if_pos hmay, hl.addEvent_full, hfree]
  rfl

theorem Sound.removeSpecificEvents (h : s.Sound) (hmay : MayCall s.phase) (handler : H)
    (val : ℕ) :
    ∃ s', s.step (.removeSpecificEvents handler val) = some s' ∧ s'.Sound ∧
      s'.queue.pending = s.queue.pending.filter (fun x => !(decide
        ((s.queue.entries x).pic_event = handler) && decide ((s.queue.entries x).value = val))) ∧
      s'.log = (s.queue.pending.filter fun x => decide
        ((s.queue.entries x).pic_event = handler) && decide ((s.queue.entries x).value = val)).map
          (fun x => removed (s.ticket x)) ++ s.log ∧
      EventQueue.Relinks s.queue s'.queue := by
  obtain ⟨q, hq, hsound, hrel, hpending⟩ :=
    h.recordRemoval fun h v => decide (h = handler) && decide (v = val)
  refine ⟨s.recordRemoval (fun h v => decide (h = handler) && decide (v = val)) q, ?_, hsound,
    hpending, rfl, hrel⟩
  unfold step EventQueue.PIC_RemoveSpecificEvents
  dsimp only
  rw [if_pos hmay, hq]
  rfl

theorem Sound.removeEvents (h : s.Sound) (hmay : MayCall s.phase) (handler : H) :
    ∃ s', s.step (.removeEvents handler) = some s' ∧ s'.Sound ∧
      s'.queue.pending = s.queue.pending.filter (fun x => !decide
        ((s.queue.entries x).pic_event = handler)) ∧
      s'.log = (s.queue.pending.filter fun x => decide
        ((s.queue.entries x).pic_event = handler)).map (fun x => removed (s.ticket x)) ++ s.log ∧
      EventQueue.Relinks s.queue s'.queue := by
  obtain ⟨q, hq, hsound, hrel, hpending⟩ := h.recordRemoval fun h _ => decide (h = handler)
  refine ⟨s.recordRemoval (fun h _ => decide (h = handler)) q, ?_, hsound, hpending, rfl, hrel⟩
  unfold step EventQueue.PIC_RemoveEvents
  dsimp only
  rw [if_pos hmay, hq]
  rfl

/-- What the next call does. -/
structure Answers (s : EventRun H) : Prop where
  /-- With a free entry an event is added, with none the call changes nothing. -/
  addEvent : MayCall s.phase → ∀ entry, s.queue.free_entry = some entry →
    ∀ handler delay val, ∃ s' A B, s.step (.addEvent handler delay val) = some s' ∧
      s'.count = s.count + 1 ∧ s.queue.pending = A ++ B ∧
      s'.queue.pending = A ++ entry :: B
  addFull : MayCall s.phase → s.queue.free_entry = none →
    ∀ handler delay val, s.step (.addEvent handler delay val) = some s
  /-- A removal deletes the matching pending events, records them, and leaves the others
  as they are and in their order. -/
  removeSpecificEvents : MayCall s.phase → ∀ handler val,
    ∃ s', s.step (.removeSpecificEvents handler val) = some s' ∧
      s'.queue.pending = s.queue.pending.filter (fun x => !(decide
        ((s.queue.entries x).pic_event = handler) && decide ((s.queue.entries x).value = val))) ∧
      s'.log = (s.queue.pending.filter fun x => decide
        ((s.queue.entries x).pic_event = handler) && decide ((s.queue.entries x).value = val)).map
          (fun x => removed (s.ticket x)) ++ s.log ∧
      EventQueue.Relinks s.queue s'.queue
  removeEvents : MayCall s.phase → ∀ handler,
    ∃ s', s.step (.removeEvents handler) = some s' ∧
      s'.queue.pending = s.queue.pending.filter (fun x => !decide
        ((s.queue.entries x).pic_event = handler)) ∧
      s'.log = (s.queue.pending.filter fun x => decide
        ((s.queue.entries x).pic_event = handler)).map (fun x => removed (s.ticket x)) ++ s.log ∧
      EventQueue.Relinks s.queue s'.queue
  /-- `PIC_RunQueue` goes on as long as some event is due, and no longer. -/
  goesOn : ∀ index_nd, s.phase = .looping index_nd →
    ((∃ s', s.step .callHandler = some s') ↔
      ∃ x ∈ s.queue.pending, s.queue.Due index_nd x) ∧
    ((∃ s', s.step .endRunQueue = some s') ↔
      ∀ x ∈ s.queue.pending, ¬ s.queue.Due index_nd x)
  handlerReturns : ∀ index_nd x, s.phase = .serving index_nd x →
    ∃ s', s.step .handlerReturns = some s'
  runQueue : s.phase = .idle → ∃ s', s.step .runQueue = some s'
  addTick : s.phase = .idle → ∃ s', s.step .addTick = some s' ∧
    s'.queue.pending = s.queue.pending

theorem Sound.answers (h : s.Sound) : s.Answers where
  addEvent := by
    intro hmay entry hfree handler delay val
    obtain ⟨s', A, B, hs', -, hrest⟩ := h.addEvent hmay hfree handler delay val
    exact ⟨s', A, B, hs', hrest⟩
  addFull := fun hmay hfree handler delay val => h.addFull hmay hfree handler delay val
  removeSpecificEvents := by
    intro hmay handler val
    obtain ⟨s', hs', -, hrest⟩ := h.removeSpecificEvents hmay handler val
    exact ⟨s', hs', hrest⟩
  removeEvents := by
    intro hmay handler
    obtain ⟨s', hs', -, hrest⟩ := h.removeEvents hmay handler
    exact ⟨s', hs', hrest⟩
  goesOn := by
    intro index_nd hlooping
    have hiff := @Sound.takeEntry_eq_none_iff H s h index_nd
    unfold step
    rw [hlooping]
    dsimp only
    cases htake : s.queue.takeEntry index_nd with
    | none =>
      have hall := hiff.1 htake
      refine ⟨iff_of_false (by simp) ?_, iff_of_true (by simp) hall⟩
      rintro ⟨x, hx, hdue⟩
      exact hall x hx hdue
    | some r =>
      have hsome : ¬ ∀ x ∈ s.queue.pending, ¬ s.queue.Due index_nd x := fun hall => by
        rw [hiff.2 hall] at htake
        exact absurd htake (by simp)
      refine ⟨iff_of_true (by simp) ?_, iff_of_false (by simp) hsome⟩
      simpa only [not_forall, not_not, exists_prop] using hsome
  handlerReturns := by
    intro index_nd x hserving
    obtain ⟨s', hs', -⟩ := h.handlerReturns hserving
    exact ⟨s', hs'⟩
  runQueue := by
    intro hidle
    obtain ⟨s', hs', -⟩ := h.runQueue hidle
    exact ⟨s', hs'⟩
  addTick := by
    intro hidle
    obtain ⟨s', hs', -, hpending⟩ := h.addTick hidle
    exact ⟨s', hs', hpending⟩

/-- **Every action keeps the queue sound.** -/
theorem Sound.step (h : s.Sound) {a : EventAction H} (ha : s.step a = some s') : s'.Sound := by
  -- in each case the action that was taken is the one whose effect is known
  have hsame : (∃ s'', s.step a = some s'' ∧ s''.Sound) → s'.Sound := by
    rintro ⟨s'', hs'', hsound⟩
    rw [ha] at hs''
    exact Option.some.inj hs'' ▸ hsound
  cases a with
  | addEvent handler delay val =>
    have hmay : MayCall s.phase := by
      by_contra hnot
      simp [EventRun.step, hnot] at ha
    cases hfree : s.queue.free_entry with
    | none => exact hsame ⟨s, h.addFull hmay hfree handler delay val, h⟩
    | some entry =>
      obtain ⟨s'', A, B, hs'', hsound, -⟩ := h.addEvent hmay hfree handler delay val
      exact hsame ⟨s'', hs'', hsound⟩
  | removeSpecificEvents handler val =>
    have hmay : MayCall s.phase := by
      by_contra hnot
      simp [EventRun.step, hnot] at ha
    obtain ⟨s'', hs'', hsound, -⟩ := h.removeSpecificEvents hmay handler val
    exact hsame ⟨s'', hs'', hsound⟩
  | removeEvents handler =>
    have hmay : MayCall s.phase := by
      by_contra hnot
      simp [EventRun.step, hnot] at ha
    obtain ⟨s'', hs'', hsound, -⟩ := h.removeEvents hmay handler
    exact hsame ⟨s'', hs'', hsound⟩
  | runQueue =>
    cases hphase : s.phase with
    | idle => exact hsame (h.runQueue hphase)
    | looping nd => simp [EventRun.step, hphase] at ha
    | serving nd x => simp [EventRun.step, hphase] at ha
  | callHandler =>
    cases hphase : s.phase with
    | idle => simp [EventRun.step, hphase] at ha
    | looping nd =>
      cases htake : s.queue.takeEntry nd with
      | none => simp [EventRun.step, hphase, htake] at ha
      | some r => exact hsame (h.callHandler hphase htake)
    | serving nd x => simp [EventRun.step, hphase] at ha
  | handlerReturns =>
    cases hphase : s.phase with
    | idle => simp [EventRun.step, hphase] at ha
    | looping nd => simp [EventRun.step, hphase] at ha
    | serving nd x => exact hsame (h.handlerReturns hphase)
  | endRunQueue =>
    cases hphase : s.phase with
    | idle => simp [EventRun.step, hphase] at ha
    | looping nd =>
      cases htake : s.queue.takeEntry nd with
      | none => exact hsame (h.endRunQueue hphase htake)
      | some r => simp [EventRun.step, hphase, htake] at ha
    | serving nd x => simp [EventRun.step, hphase] at ha
  | addTick =>
    cases hphase : s.phase with
    | idle =>
      obtain ⟨s'', hs'', hsound, -⟩ := h.addTick hphase
      exact hsame ⟨s'', hs'', hsound⟩
    | looping nd => simp [EventRun.step, hphase] at ha
    | serving nd x => simp [EventRun.step, hphase] at ha
  | execute cycleMax cycleLeft cycles =>
    cases hphase : s.phase with
    | idle =>
      by_cases hmax : 0 < cycleMax
      · exact hsame (h.execute hphase hmax cycleLeft cycles)
      · simp [EventRun.step, hphase, hmax] at ha
    | looping nd => simp [EventRun.step, hphase] at ha
    | serving nd x => simp [EventRun.step, hphase] at ha

end Steps

end Actions

/-! ## Runs -/

theorem sound_start (blank : H) {cycleMax : ℤ} (hmax : 0 < cycleMax) (cycleLeft cycles : ℤ) :
    (start blank cycleMax cycleLeft cycles).Sound := by
  refine sound_of_lists (EventQueue.lists_fresh blank cycleMax cycleLeft cycles)
    List.Pairwise.nil rfl (List.Perm.refl _) ?_ ?_ ?_ hmax ?_
  · exact fun x hx => absurd hx List.not_mem_nil
  · exact fun t h v time hmem => absurd hmem List.not_mem_nil
  · intro t h v time past hpast
    exact absurd (List.suffix_nil.1 hpast) (by simp)
  · rintro nd (hc | ⟨x, hc⟩) <;> cases hc

end EventRun

end AugraDosbox
