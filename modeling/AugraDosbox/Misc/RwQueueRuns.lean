import Mathlib.Order.MinMax
import AugraDosbox.Misc.RwQueue

/-!
# Runs of the read/write queue

* `CallOk` — what holds of a call that is under way: how far its loop has come is how
  many items the log has of it.
* `body_effect` — what one section does.
* `Inv` — the invariant of the queue, the threads and the log.
* `reachable_fifo` — **the queue is a bounded FIFO that loses nothing**, and with one
  producer and one consumer the two are never blocked at once.
-/

namespace AugraDosbox

namespace RWEvent

variable {α : Type}

/-- The items that were put in. -/
def acceptedItems : RWEvent α → List α
  | accepted _ items => items
  | _ => []

/-- The items that were taken out. -/
def handedItems : RWEvent α → List α
  | handed _ items => items
  | _ => []

/-- The items that a call has moved. -/
def itemsOf (id : ℕ) : RWEvent α → List α
  | accepted i items => if i = id then items else []
  | handed i items => if i = id then items else []
  | _ => []

end RWEvent

namespace RWQueue

variable {α : Type} {s s' : RWQueue α} {t id n : ℕ} {call : RWCall α}

/-- The items that were put in, in order. -/
def accepted (s : RWQueue α) : List α := s.log.flatMap RWEvent.acceptedItems

/-- The items that were taken out, in order. -/
def handed (s : RWQueue α) : List α := s.log.flatMap RWEvent.handedItems

/-- The number of items that a call has moved so far. -/
def moved (log : List (RWEvent α)) (id : ℕ) : ℕ := (log.flatMap (RWEvent.itemsOf id)).length

theorem moved_append {log log' : List (RWEvent α)} :
    moved (log ++ log') id = moved log id + moved log' id := by
  rw [moved, List.flatMap_append, List.length_append]
  rfl

/-! ## Calls under way -/

/-- How far a call has come, if `m` items have been moved. -/
def CallOk (m : ℕ) : RWCall α → Prop
  | .BulkEnqueue source num_requested num_remaining =>
      1 ≤ num_remaining ∧ num_remaining ≤ source.length ∧ m + num_remaining = num_requested
  | .NonblockingBulkEnqueue source num_requested =>
      0 < num_requested ∧ num_requested ≤ source.length ∧ m = 0
  | .BulkDequeue _ num_requested num_remaining =>
      1 ≤ num_remaining ∧ m + num_remaining = num_requested
  | _ => m = 0

/-- How a call may go on, if `m` items have been moved. -/
def NextOk (m : ℕ) : RWNext α → Prop
  | .again call => CallOk m call
  | .return result => result.items = m

/-- A queue that is not too long has the room that is left. -/
theorem room_eq (h : s.queue.length ≤ s.capacity) : s.room = s.capacity - s.queue.length := if_pos h

/-- The batches that a section may be entered or resumed with. -/
def NumOk (s : RWQueue α) (n : ℕ) : RWCall α → Prop
  | .BulkEnqueue _ _ num_remaining => 1 ≤ n ∧ n ≤ num_remaining
  | .BulkDequeue _ _ num_remaining => 1 ≤ n ∧ n ≤ num_remaining ∧ n ≤ max 1 s.queue.length
  | _ => True

theorem numOk_numItems {m : ℕ} (h : CallOk m call) : s.NumOk (s.numItems call) call := by
  cases call with
  | BulkEnqueue source r k =>
    obtain ⟨hk, -, -⟩ := h
    exact ⟨le_max_left _ _, max_le hk (min_le_right _ _)⟩
  | BulkDequeue target r k =>
    obtain ⟨hk, -⟩ := h
    exact ⟨le_max_left _ _, max_le hk (min_le_right _ _),
      max_le_max le_rfl (min_le_left _ _)⟩
  | _ => trivial

theorem numOk_one {m : ℕ} (h : CallOk m call) : s.NumOk 1 call := by
  cases call with
  | BulkEnqueue source r k => exact ⟨le_rfl, h.1⟩
  | BulkDequeue target r k => exact ⟨le_rfl, h.1, le_max_left _ _⟩
  | _ => trivial

/-- A section that waits has a batch of one item. -/
theorem numItems_eq_one (hready : s.ready (s.numItems call) call = false) :
    s.numItems call = 1 := by
  cases call with
  | BulkEnqueue source r k =>
    obtain ⟨-, hroom⟩ := Bool.or_eq_false_iff.1 hready
    have := of_decide_eq_false hroom
    simp only [numItems] at this ⊢
    omega
  | BulkDequeue target r k =>
    obtain ⟨-, hitems⟩ := Bool.or_eq_false_iff.1 hready
    have := of_decide_eq_false hitems
    simp only [numItems] at this ⊢
    omega
  | _ => rfl

/-- What a section does, for a call of which `m` items have been moved. -/
structure EffectOk (s : RWQueue α) (id m : ℕ) (e : Effect α) : Prop where
  bounded : e.queue.length ≤ s.capacity
  fifo : s.queue ++ e.events.flatMap RWEvent.acceptedItems =
    e.events.flatMap RWEvent.handedItems ++ e.queue
  next : NextOk (m + moved e.events id) e.next
  others : ∀ id', id' ≠ id → moved e.events id' = 0
  silent : ∀ ev ∈ e.events, ∃ items, ev = .accepted id items ∨ ev = .handed id items
  /-- Those who wait for room are notified, or wait on. -/
  room : (∃ b, (Cv.has_room, b) ∈ e.pending) ∨
    ((s.is_running = true → e.is_running = true) ∧ s.queue.length ≤ e.queue.length)
  /-- Those who wait for items are notified, or wait on. -/
  items : (∃ b, (Cv.has_items, b) ∈ e.pending) ∨
    ((s.is_running = true → e.is_running = true) ∧ (s.queue = [] → e.queue = []))

theorem effectOk_unchanged {m : ℕ} {next : RWNext α} {r : Bool} {p : List (Cv × Bool)}
    (hlen : s.queue.length ≤ s.capacity) (hnext : NextOk m next)
    (hrun : (s.is_running = true → r = true) ∨
      ((Cv.has_room, true) ∈ p ∧ (Cv.has_items, true) ∈ p)) :
    EffectOk s id m ⟨s.queue, r, [], p, next⟩ := by
  refine ⟨hlen, by simp, by simpa [moved] using hnext, by simp [moved], by simp, ?_, ?_⟩
  · rcases hrun with hrun | hrun
    · exact Or.inr ⟨hrun, le_rfl⟩
    · exact Or.inl ⟨true, hrun.1⟩
  · rcases hrun with hrun | hrun
    · exact Or.inr ⟨hrun, fun hempty => hempty⟩
    · exact Or.inl ⟨true, hrun.2⟩

theorem effectOk_accept {m : ℕ} {items : List α} {next : RWNext α}
    (hlen : s.queue.length + items.length ≤ s.capacity) (hnext : NextOk (m + items.length) next) :
    EffectOk s id m (s.accept id items next) := by
  refine ⟨by simpa [accept] using hlen, by simp [accept, RWEvent.acceptedItems,
    RWEvent.handedItems], by simpa [accept, moved, RWEvent.itemsOf] using hnext, fun id' hid => ?_,
    fun ev hev => ⟨items, Or.inl (List.mem_singleton.1 hev)⟩,
    Or.inr ⟨fun hrun => hrun, by simp [accept]⟩, Or.inl ⟨false, List.mem_singleton_self _⟩⟩
  simp [accept, moved, RWEvent.itemsOf, Ne.symm hid]

theorem effectOk_hand {m : ℕ} {next : RWNext α} (hlen : s.queue.length ≤ s.capacity)
    (hn : n ≤ s.queue.length) (hnext : NextOk (m + n) next) :
    EffectOk s id m (s.hand id n next) := by
  refine ⟨?_, by simp [hand, RWEvent.acceptedItems, RWEvent.handedItems], ?_, fun id' hid => ?_,
    fun ev hev => ⟨_, Or.inr (List.mem_singleton.1 hev)⟩, Or.inl ⟨false, List.mem_singleton_self _⟩,
    Or.inr ⟨fun hrun => hrun, fun hempty => by simp [hand, hempty]⟩⟩
  · simp only [hand, List.length_drop]
    omega
  · simpa [hand, moved, RWEvent.itemsOf, Nat.min_eq_left hn] using hnext
  · simp [hand, moved, RWEvent.itemsOf, Ne.symm hid]

/-- **One section** never reads past the end of the queue. -/
theorem body_effect {m : ℕ} (hlen : s.queue.length ≤ s.capacity) (hcall : CallOk m call)
    (hnum : s.NumOk n call) (hready : s.ready n call = true) :
    ∃ e, s.body id n call = .ok e ∧ EffectOk s id m e := by
  cases call with
  | Enqueue item =>
    obtain rfl : m = 0 := hcall
    rw [body]
    split
    · rename_i hrun
      simp only [ready, hrun, Bool.not_true, Bool.false_or, decide_eq_true_eq] at hready
      exact ⟨_, rfl, effectOk_accept hready rfl⟩
    · exact ⟨_, rfl, effectOk_unchanged hlen rfl (Or.inl fun hrun => hrun)⟩
  | NonblockingEnqueue item =>
    obtain rfl : m = 0 := hcall
    rw [body]
    split
    · exact ⟨_, rfl, effectOk_unchanged hlen rfl (Or.inl fun hrun => hrun)⟩
    · rename_i hroom
      rw [not_or] at hroom
      exact ⟨_, rfl, effectOk_accept (by simp; omega) rfl⟩
  | BulkEnqueue source r k =>
    obtain ⟨hk, hsource, hr⟩ := hcall
    obtain ⟨hn, hnk⟩ := hnum
    rw [body]
    split
    · rename_i hrun
      simp only [ready, hrun, Bool.not_true, Bool.false_or, decide_eq_true_eq] at hready
      have htake : (source.take n).length = n := by
        rw [List.length_take]
        omega
      rw [room_eq hlen] at hready
      refine ⟨_, rfl, effectOk_accept (by rw [htake]; omega) ?_⟩
      rw [htake, loopEnqueue]
      split
      · exact ⟨by omega, by rw [List.length_drop]; omega, by omega⟩
      · change r - (k - n) = m + n
        omega
    · refine ⟨_, rfl, effectOk_unchanged hlen ?_ (Or.inl fun hrun => hrun)⟩
      change r - k = m
      omega
  | NonblockingBulkEnqueue source r =>
    obtain ⟨hr, hsource, rfl⟩ := hcall
    rw [body]
    split
    · exact ⟨_, rfl, effectOk_unchanged hlen rfl (Or.inl fun hrun => hrun)⟩
    · have htake : (source.take (min s.room r)).length = min s.room r := by
        rw [List.length_take]
        omega
      refine ⟨_, rfl, effectOk_accept (by rw [htake, room_eq hlen]; omega) ?_⟩
      rw [htake, Nat.zero_add]
      rfl
  | Dequeue =>
    obtain rfl : m = 0 := hcall
    rw [body]
    split
    · rename_i hany
      cases hqueue : s.queue with
      | nil =>
        rw [hqueue] at hany
        simp only [ready, hqueue, List.isEmpty_nil, Bool.not_true, Bool.or_false] at hready
        simp_all
      | cons x rest =>
        exact ⟨_, rfl, effectOk_hand hlen (by rw [hqueue]; simp) rfl⟩
    · exact ⟨_, rfl, effectOk_unchanged hlen rfl (Or.inl fun hrun => hrun)⟩
  | BulkDequeue target r k =>
    obtain ⟨hk, hr⟩ := hcall
    obtain ⟨hn, hnk, hmax⟩ := hnum
    rw [body]
    split
    · rename_i hany
      have hle : n ≤ s.queue.length := by
        by_cases hempty : s.queue = []
        · have hrun : s.is_running = true := hany.resolve_right (not_not.2 hempty)
          simpa [ready, hrun] using hready
        · have := List.length_pos_of_ne_nil hempty
          omega
      rw [if_neg (by omega)]
      refine ⟨_, rfl, effectOk_hand hlen hle ?_⟩
      rw [loopDequeue]
      split
      · exact ⟨by omega, by omega⟩
      · change r - (k - n) = m + n
        omega
    · refine ⟨_, rfl, effectOk_unchanged hlen ?_ (Or.inl fun hrun => hrun)⟩
      change r - k = m
      omega
  | Start =>
    obtain rfl : m = 0 := hcall
    exact ⟨_, rfl, effectOk_unchanged hlen rfl (Or.inl fun _ => rfl)⟩
  | Stop =>
    obtain rfl : m = 0 := hcall
    rw [body]
    split
    · exact ⟨_, rfl, effectOk_unchanged hlen rfl (Or.inl fun hrun => hrun)⟩
    · exact ⟨_, rfl, effectOk_unchanged hlen rfl (Or.inr (by decide))⟩

/-! ## The invariant -/

/-- The call that a thread is in. -/
def idOf : RWThread α → Option ℕ
  | .idle => none
  | .entering id _ => some id
  | .waiting id _ _ _ => some id
  | .notifying _ id _ => some id

/-- The call was made by the thread, as one of its kind. -/
def Made (log : List (RWEvent α)) (t id : ℕ) (call : RWCall α) : Prop :=
  ∃ call₀, .called t id call₀ ∈ log ∧ (call.Produces → call₀.Produces) ∧
    (call.Consumes → call₀.Consumes)

/-- What a call may go on with. -/
def GoesOn (log : List (RWEvent α)) (t id : ℕ) (next : RWNext α) : Prop :=
  NextOk (moved log id) next ∧ ∀ call, next = .again call → Made log t id call

/-- What a thread may be doing. -/
def ThreadOk (log : List (RWEvent α)) (t : ℕ) : RWThread α → Prop
  | .idle => True
  | .entering id call => GoesOn log t id (.again call)
  | .waiting id call n _ => GoesOn log t id (.again call) ∧ n = 1 ∧ (call.Produces ∨ call.Consumes)
  | .notifying pending id next => GoesOn log t id next ∧ pending ≠ []

/-- The invariant, but for what the thread `t` does in the call `id`. -/
structure Busy (s : RWQueue α) (t id : ℕ) : Prop where
  pos : 0 < s.capacity
  bounded : s.queue.length ≤ s.capacity
  fifo : s.accepted = s.handed ++ s.queue
  thread : ∀ t', t' ≠ t → ThreadOk s.log t' (s.thread t')
  other : ∀ t', t' ≠ t → idOf (s.thread t') ≠ some id
  below : id < s.calls
  fresh : ∀ t' id', idOf (s.thread t') = some id' → id' < s.calls
  unique : ∀ t₁ t₂ id', idOf (s.thread t₁) = some id' → idOf (s.thread t₂) = some id' → t₁ = t₂
  unused : ∀ id', s.calls ≤ id' → moved s.log id' = 0
  returned : ∀ id' r, .returned id' r ∈ s.log →
    id' ≠ id ∧ id' < s.calls ∧ r.items = moved s.log id' ∧ ∀ t', idOf (s.thread t') ≠ some id'

/-- The invariant of the queue, the threads and the log. -/
structure Inv (s : RWQueue α) : Prop where
  pos : 0 < s.capacity
  bounded : s.queue.length ≤ s.capacity
  fifo : s.accepted = s.handed ++ s.queue
  thread : ∀ t, ThreadOk s.log t (s.thread t)
  fresh : ∀ t id, idOf (s.thread t) = some id → id < s.calls
  unique : ∀ t₁ t₂ id, idOf (s.thread t₁) = some id → idOf (s.thread t₂) = some id → t₁ = t₂
  unused : ∀ id, s.calls ≤ id → moved s.log id = 0
  returned : ∀ id r, .returned id r ∈ s.log →
    id < s.calls ∧ r.items = moved s.log id ∧ ∀ t, idOf (s.thread t) ≠ some id

theorem Inv.busy (h : s.Inv) (ht : idOf (s.thread t) = some id) : s.Busy t id := by
  refine ⟨h.pos, h.bounded, h.fifo, fun t' _ => h.thread t', fun t' hne hid => ?_, h.fresh t id ht,
    h.fresh, h.unique, h.unused, fun id' r hr => ⟨?_, h.returned id' r hr⟩⟩
  · exact hne (h.unique t' t id hid ht)
  · rintro rfl
    exact (h.returned id' r hr).2.2 t ht

theorem Made.append {log log' : List (RWEvent α)} (h : Made log t id call) :
    Made (log ++ log') t id call := by
  obtain ⟨call₀, hmem, hkind⟩ := h
  exact ⟨call₀, List.mem_append_left _ hmem, hkind⟩

theorem ThreadOk.append {log log' : List (RWEvent α)} {pc : RWThread α} (h : ThreadOk log t pc)
    (hpc : ∀ id, idOf pc = some id → moved log' id = 0) : ThreadOk (log ++ log') t pc := by
  have hgo : ∀ {id next}, moved log' id = 0 → GoesOn log t id next →
      GoesOn (log ++ log') t id next := by
    intro id next hid hgo
    rw [GoesOn, moved_append, hid, Nat.add_zero]
    exact ⟨hgo.1, fun call hcall => (hgo.2 call hcall).append⟩
  cases pc with
  | idle => trivial
  | entering id call => exact hgo (hpc id rfl) h
  | waiting id call n b => exact ⟨hgo (hpc id rfl) h.1, h.2⟩
  | notifying pending id next => exact ⟨hgo (hpc id rfl) h.1, h.2⟩

/-- The invariant after the thread `t` has been set, in a call or at rest. -/
theorem Busy.setThread (h : s.Busy t id) {pc : RWThread α} (hpc : ThreadOk s.log t pc)
    (hid : idOf pc = some id ∨ idOf pc = none) : (s.setThread t pc).Inv := by
  have hself : (s.setThread t pc).thread t = pc := Function.update_self ..
  have hother : ∀ {t'}, t' ≠ t → (s.setThread t pc).thread t' = s.thread t' := fun hne =>
    Function.update_of_ne hne _ _
  have hids : ∀ {t' id'}, idOf ((s.setThread t pc).thread t') = some id' →
      (t' = t ∧ id' = id) ∨ (t' ≠ t ∧ idOf (s.thread t') = some id') := by
    intro t' id' hid'
    by_cases hne : t' = t
    · subst hne
      rw [hself] at hid'
      rcases hid with hid | hid
      · rw [hid, Option.some.injEq] at hid'
        exact Or.inl ⟨rfl, hid'.symm⟩
      · rw [hid] at hid'
        cases hid'
    · rw [hother hne] at hid'
      exact Or.inr ⟨hne, hid'⟩
  refine ⟨h.pos, h.bounded, h.fifo, fun t' => ?_, fun t' id' hid' => ?_, fun t₁ t₂ id' h₁ h₂ => ?_,
    h.unused, fun id' r hr => ?_⟩
  · by_cases hne : t' = t
    · subst hne
      rw [hself]
      exact hpc
    · rw [hother hne]
      exact h.thread t' hne
  · rcases hids hid' with ⟨-, rfl⟩ | ⟨-, hid'⟩
    · exact h.below
    · exact h.fresh t' id' hid'
  · rcases hids h₁ with ⟨rfl, rfl⟩ | ⟨hne₁, h₁'⟩ <;> rcases hids h₂ with ⟨rfl, hid₂⟩ | ⟨hne₂, h₂'⟩
    · rfl
    · exact absurd h₂' (h.other t₂ hne₂)
    · subst hid₂
      exact absurd h₁' (h.other t₁ hne₁)
    · exact h.unique t₁ t₂ id' h₁' h₂'
  · obtain ⟨hne, hlt, hitems, hnone⟩ := h.returned id' r hr
    refine ⟨hlt, hitems, fun t' hid' => ?_⟩
    rcases hids hid' with ⟨-, rfl⟩ | ⟨-, hid'⟩
    · exact hne rfl
    · exact hnone t' hid'

theorem moved_returned {r : RWResult α} {id' : ℕ} :
    moved [RWEvent.returned id r] id' = 0 := rfl

/-- A call that returns what it has moved. -/
theorem Busy.finish (h : s.Busy t id) {r : RWResult α} (hr : r.items = moved s.log id) :
    Inv { s.setThread t .idle with log := s.log ++ [.returned id r] } := by
  have hinv : (s.setThread t .idle).Inv := h.setThread trivial (Or.inr rfl)
  have hmoved : ∀ id', moved (s.log ++ [RWEvent.returned id r]) id' = moved s.log id' := by
    intro id'
    rw [moved_append, moved_returned, Nat.add_zero]
  refine ⟨hinv.pos, hinv.bounded, ?_, fun t' => ?_, hinv.fresh, hinv.unique, fun id' hid' => ?_,
    fun id' r' hr' => ?_⟩
  · simpa [accepted, handed, RWEvent.acceptedItems, RWEvent.handedItems, RWQueue.setThread]
      using h.fifo
  · exact (hinv.thread t').append fun id' _ => moved_returned
  · exact (hmoved id').trans (hinv.unused id' hid')
  · rw [show moved (s.log ++ [RWEvent.returned id r]) id' = _ from hmoved id']
    rcases List.mem_append.1 hr' with hr' | hr'
    · exact hinv.returned id' r' hr'
    · obtain ⟨rfl, rfl⟩ := RWEvent.returned.inj (List.mem_singleton.1 hr')
      refine ⟨h.below, hr, fun t' => ?_⟩
      by_cases hne : t' = t
      · subst hne
        change idOf (Function.update s.thread t' .idle t') ≠ _
        rw [Function.update_self]
        simp [idOf]
      · change idOf (Function.update s.thread t .idle t') ≠ _
        rw [Function.update_of_ne hne]
        exact h.other t' hne

theorem Busy.goOn (h : s.Busy t id) {next : RWNext α} (hnext : GoesOn s.log t id next) :
    (s.goOn t id next).Inv := by
  cases next with
  | again call => exact h.setThread hnext (Or.inl rfl)
  | «return» result => exact h.finish hnext.1

theorem Busy.settle (h : s.Busy t id) {next : RWNext α} (hnext : GoesOn s.log t id next)
    (pending : List (Cv × Bool)) : (s.settle t pending id next).Inv := by
  cases pending with
  | nil => exact h.goOn hnext
  | cons p rest => exact h.setThread ⟨hnext, List.cons_ne_nil _ _⟩ (Or.inl rfl)

theorem Busy.leave (h : s.Busy t id) {e : Effect α} (he : EffectOk s id (moved s.log id) e)
    (hnext : ∀ call, e.next = .again call → Made s.log t id call) : (s.leave t id e).Inv := by
  have hmoved : ∀ {id'}, id' ≠ id → moved (s.log ++ e.events) id' = moved s.log id' := by
    intro id' hne
    rw [moved_append, he.others id' hne, Nat.add_zero]
  have hbusy : Busy { s with queue := e.queue, is_running := e.is_running,
                             log := s.log ++ e.events } t id := by
    refine ⟨h.pos, he.bounded, ?_, fun t' hne => ?_, h.other, h.below, h.fresh, h.unique,
      fun id' hid' => ?_, fun id' r hr => ?_⟩
    · have hfifo := h.fifo
      simp only [accepted, handed, List.flatMap_append] at hfifo ⊢
      rw [hfifo, List.append_assoc, he.fifo, List.append_assoc]
    · refine (h.thread t' hne).append fun id' hid' => he.others id' ?_
      rintro rfl
      exact h.other t' hne hid'
    · have hne : id' ≠ id := by
        rintro rfl
        exact absurd h.below (Nat.not_lt.2 hid')
      exact (hmoved hne).trans (h.unused id' hid')
    · rcases List.mem_append.1 hr with hr | hr
      · obtain ⟨hne, hlt, hitems, hnone⟩ := h.returned id' r hr
        exact ⟨hne, hlt, hitems.trans (hmoved hne).symm, hnone⟩
      · obtain ⟨items, hev | hev⟩ := he.silent _ hr <;> cases hev
  refine hbusy.settle ⟨?_, fun call hcall => (hnext call hcall).append⟩ e.pending
  rw [moved_append]
  exact he.next

/-- A loop goes on with a call of its kind. -/
theorem body_again {e : Effect α} (hbody : s.body id n call = .ok e) {call' : RWCall α}
    (hnext : e.next = .again call') :
    (call'.Produces → call.Produces) ∧ (call'.Consumes → call.Consumes) := by
  cases call with
  | BulkEnqueue source r k =>
    refine ⟨fun _ => trivial, fun hcons => ?_⟩
    rw [body] at hbody
    split at hbody
    · obtain rfl := Except.ok.inj hbody
      simp only [accept, loopEnqueue] at hnext
      split at hnext
      · obtain rfl := RWNext.again.inj hnext
        exact hcons
      · cases hnext
    · obtain rfl := Except.ok.inj hbody
      cases hnext
  | BulkDequeue target r k =>
    refine ⟨fun hprod => ?_, fun _ => trivial⟩
    rw [body] at hbody
    split at hbody
    · split at hbody
      · cases hbody
      · obtain rfl := Except.ok.inj hbody
        simp only [hand, loopDequeue] at hnext
        split at hnext
        · obtain rfl := RWNext.again.inj hnext
          exact hprod
        · cases hnext
    · obtain rfl := Except.ok.inj hbody
      cases hnext
  | Dequeue =>
    rw [body] at hbody
    split at hbody
    · split at hbody
      · cases hbody
      · obtain rfl := Except.ok.inj hbody
        cases hnext
    · obtain rfl := Except.ok.inj hbody
      cases hnext
  | Start =>
    obtain rfl := Except.ok.inj hbody
    cases hnext
  | _ =>
    rw [body] at hbody
    split at hbody
    all_goals
      obtain rfl := Except.ok.inj hbody
      cases hnext

theorem waits_kind (hready : s.ready n call = false) : call.Produces ∨ call.Consumes := by
  cases call with
  | Enqueue | BulkEnqueue => exact Or.inl trivial
  | Dequeue | BulkDequeue => exact Or.inr trivial
  | _ => cases hready

theorem Busy.attempt (h : s.Busy t id) (hcall : GoesOn s.log t id (.again call))
    (hnum : s.NumOk n call) (hone : s.ready n call = false → n = 1) :
    ∃ s', s.attempt t id n call = .ok s' ∧ s'.Inv := by
  rw [RWQueue.attempt]
  cases hready : s.ready n call with
  | false =>
    exact ⟨_, rfl, h.setThread ⟨hcall, hone hready, waits_kind hready⟩ (Or.inl rfl)⟩
  | true =>
    obtain ⟨e, hbody, he⟩ := body_effect h.bounded hcall.1 hnum hready
    rw [hbody]
    refine ⟨_, rfl, h.leave he fun call' hnext => ?_⟩
    obtain ⟨call₀, hmem, hprod, hcons⟩ := hcall.2 call rfl
    obtain ⟨hprod', hcons'⟩ := body_again hbody hnext
    exact ⟨call₀, hmem, fun hp => hprod (hprod' hp), fun hc => hcons (hcons' hc)⟩

/-! ## Steps -/

theorem idOf_wakeOn {cv : Cv} {pc : RWThread α} : idOf (wakeOn cv pc) = idOf pc := by
  cases pc <;> rfl

theorem ThreadOk.wakeOn {log : List (RWEvent α)} {cv : Cv} {pc : RWThread α}
    (h : ThreadOk log t pc) : ThreadOk log t (wakeOn cv pc) := by
  cases pc <;> exact h

/-- A notification does not touch the calls. -/
theorem Inv.marked (h : s.Inv) {cv : Cv} {f : ℕ → RWThread α}
    (hf : ∀ t, f t = s.thread t ∨ f t = wakeOn cv (s.thread t)) : Inv { s with thread := f } := by
  have hid : ∀ t, idOf (f t) = idOf (s.thread t) := by
    intro t
    rcases hf t with hft | hft <;> rw [hft]
    exact idOf_wakeOn
  refine ⟨h.pos, h.bounded, h.fifo, fun t => ?_, fun t id => ?_, fun t₁ t₂ id => ?_, h.unused,
    fun id r hr => ?_⟩
  · have ht := h.thread t
    rcases hf t with hft | hft
    · simp only [hft]
      exact ht
    · simp only [hft]
      exact ht.wakeOn
  · simp only [hid]
    exact h.fresh t id
  · simp only [hid]
    exact h.unique t₁ t₂ id
  · simp only [hid]
    exact h.returned id r hr

theorem Inv.threadOk (h : s.Inv) {pc : RWThread α} (ht : s.thread t = pc) :
    ThreadOk s.log t pc := ht ▸ h.thread t

theorem Initial.inv (h : s.Initial) : s.Inv := by
  obtain ⟨hpos, hqueue, hidle, hcalls, hlog⟩ := h
  refine ⟨hpos, by simp [hqueue], by simp [accepted, handed, hlog, hqueue], fun t => ?_,
    fun t id hid => ?_, fun t₁ t₂ id hid => ?_, fun id _ => ?_, fun id r hr => ?_⟩
  · rw [hidle t]
    trivial
  · rw [hidle t] at hid
    cases hid
  · rw [hidle t₁] at hid
    cases hid
  · rw [hlog]
    rfl
  · rw [hlog] at hr
    cases hr

theorem Inv.called (h : s.Inv) (t : ℕ) (call : RWCall α) :
    Busy { s with calls := s.calls + 1, log := s.log ++ [.called t s.calls call] } t s.calls := by
  have hmoved : ∀ id', moved (s.log ++ [RWEvent.called t s.calls call]) id' = moved s.log id' := by
    intro id'
    rw [moved_append]
    rfl
  refine ⟨h.pos, h.bounded, ?_, fun t' _ => (h.thread t').append fun _ _ => rfl,
    fun t' _ hid => ?_, Nat.lt_succ_self _, fun t' id' hid => Nat.lt_succ_of_lt (h.fresh t' id' hid),
    h.unique, fun id' hid' => ?_, fun id' r hr => ?_⟩
  · simpa [accepted, handed, RWEvent.acceptedItems, RWEvent.handedItems] using h.fifo
  · exact Nat.lt_irrefl _ (h.fresh t' s.calls hid)
  · exact (hmoved id').trans (h.unused id' (Nat.le_of_succ_le hid'))
  · rcases List.mem_append.1 hr with hr | hr
    · obtain ⟨hlt, hitems, hnone⟩ := h.returned id' r hr
      exact ⟨Nat.ne_of_lt hlt, Nat.lt_succ_of_lt hlt, hitems.trans (hmoved id').symm, hnone⟩
    · cases List.mem_singleton.1 hr

/-- How far a call has come when it is made. -/
theorem Inv.first (h : s.Inv) (hbegins : call.Begins) :
    GoesOn (s.log ++ [.called t s.calls call]) t s.calls (first call) := by
  have hmoved : moved (s.log ++ [RWEvent.called t s.calls call]) s.calls = 0 := by
    rw [moved_append]
    exact h.unused s.calls le_rfl
  have hmade : Made (s.log ++ [.called t s.calls call]) t s.calls call :=
    ⟨call, List.mem_append_right _ (List.mem_singleton_self _), id, id⟩
  have hagain : ∀ call', RWNext.again call = .again call' →
      Made (s.log ++ [.called t s.calls call]) t s.calls call' := by
    intro call' heq
    obtain rfl := RWNext.again.inj heq
    exact hmade
  rw [GoesOn, hmoved]
  cases call with
  | BulkEnqueue source r k =>
    obtain ⟨h1, h2, rfl⟩ := hbegins
    exact ⟨⟨h1, h2, Nat.zero_add k⟩, hagain⟩
  | NonblockingBulkEnqueue source r => exact ⟨⟨hbegins.1, hbegins.2, rfl⟩, hagain⟩
  | BulkDequeue target r k =>
    obtain ⟨rfl, rfl⟩ := hbegins
    rw [RWQueue.first, loopDequeue]
    split
    · rename_i hk
      exact ⟨⟨hk, Nat.zero_add k⟩, hagain⟩
    · exact ⟨Nat.sub_self k, fun call' heq => by cases heq⟩
  | _ => exact ⟨rfl, hagain⟩

theorem Step.inv (h : s.Inv) (hs : Step s s') : s'.Inv := by
  cases hs with
  | @call t call _ hbegins => exact (h.called t call).goOn (h.first hbegins)
  | enter ht hs =>
    have hgo := h.threadOk ht
    obtain ⟨s₁, hs₁, hinv⟩ := (h.busy (by rw [ht]; rfl)).attempt hgo (numOk_numItems hgo.1)
      numItems_eq_one
    rw [hs] at hs₁
    exact Except.ok.inj hs₁ ▸ hinv
  | wake ht hs =>
    obtain ⟨hgo, rfl, -⟩ := h.threadOk ht
    obtain ⟨s₁, hs₁, hinv⟩ := (h.busy (by rw [ht]; rfl)).attempt hgo (numOk_one hgo.1) fun _ => rfl
    rw [hs] at hs₁
    exact Except.ok.inj hs₁ ▸ hinv
  | @notifyOne t id w cv rest next ht hw =>
    have hmarked : Inv (s.setThread w (wakeOn cv (s.thread w))) := by
      refine @Inv.marked _ _ h cv _ fun t' => ?_
      by_cases hne : t' = w
      · subst hne
        exact Or.inr (Function.update_self ..)
      · exact Or.inl (Function.update_of_ne hne _ _)
    have hne : t ≠ w := by
      rintro rfl
      obtain ⟨id', call, n, hw, -⟩ := hw
      rw [ht] at hw
      cases hw
    have ht' : (s.setThread w (wakeOn cv (s.thread w))).thread t = _ :=
      (Function.update_of_ne hne _ _).trans ht
    exact (hmarked.busy (by rw [ht']; rfl)).settle (hmarked.threadOk ht').1 rest
  | @notifyNone t id cv rest next ht hw =>
    exact (h.busy (by rw [ht]; rfl)).settle (h.threadOk ht).1 rest
  | @notifyAll t id cv rest next ht =>
    have hmarked : Inv { s with thread := fun w => wakeOn cv (s.thread w) } :=
      h.marked fun t' => Or.inr rfl
    have ht' : wakeOn cv (s.thread t) = .notifying ((cv, true) :: rest) id next := by
      rw [ht]
      rfl
    exact (hmarked.busy (congrArg idOf ht')).settle (hmarked.threadOk ht').1 rest

theorem reachable_inv {s₀ s : RWQueue α} (h₀ : s₀.Initial) (hrun : Relation.ReflTransGen Step s₀ s) :
    s.Inv := by
  induction hrun with
  | refl => exact h₀.inv
  | tail _ hstep ih => exact hstep.inv ih

/-! ## One producer and one consumer -/

/-- All calls that put items in are made by `p`, and all that take items out by `q`. -/
def OneEach (p q : ℕ) (log : List (RWEvent α)) : Prop :=
  ∀ t id call, .called t id call ∈ log → (call.Produces → t = p) ∧ (call.Consumes → t = q)

/-- A notification on `cv` is still to be sent. -/
def Pending (s : RWQueue α) (cv : Cv) : Prop :=
  ∃ t pending id next b, s.thread t = .notifying pending id next ∧ (cv, b) ∈ pending

/-- Who waits has a reason to wait, or will be notified. -/
structure Live (p q : ℕ) (s : RWQueue α) : Prop where
  room : s.Waits .has_room p →
    (s.is_running = true ∧ s.capacity ≤ s.queue.length) ∨ s.Pending .has_room
  items : s.Waits .has_items q → (s.is_running = true ∧ s.queue = []) ∨ s.Pending .has_items

variable {p q : ℕ}

/-- A thread that has nothing to send does something. -/
theorem Live.change (h : Live p q s) (hother : ∀ t', t' ≠ t → s'.thread t' = s.thread t')
    (hnot : ∀ pending id next, s.thread t ≠ .notifying pending id next)
    (hcap : s'.capacity = s.capacity)
    (hroom : s'.Pending .has_room ∨
      ((s.is_running = true → s'.is_running = true) ∧ s.queue.length ≤ s'.queue.length))
    (hitems : s'.Pending .has_items ∨
      ((s.is_running = true → s'.is_running = true) ∧ (s.queue = [] → s'.queue = [])))
    (hself : ∀ {cv}, s'.Waits cv t → (cv = .has_room → s'.is_running = true ∧
      s'.capacity ≤ s'.queue.length) ∧ (cv = .has_items → s'.is_running = true ∧ s'.queue = [])) :
    Live p q s' := by
  have hpending : ∀ {cv}, s.Pending cv → s'.Pending cv := by
    rintro cv ⟨t', l, id, next, b, ht', hb⟩
    have hne : t' ≠ t := by
      rintro rfl
      exact hnot l id next ht'
    exact ⟨t', l, id, next, b, (hother t' hne).trans ht', hb⟩
  have hwaits : ∀ {cv t'}, t' ≠ t → s'.Waits cv t' → s.Waits cv t' := by
    rintro cv t' hne ⟨id, call, n, ht', hcv⟩
    exact ⟨id, call, n, (hother t' hne).symm.trans ht', hcv⟩
  refine ⟨fun hw => ?_, fun hw => ?_⟩
  · by_cases hpt : p = t
    · subst hpt
      exact Or.inl ((hself hw).1 rfl)
    · rcases hroom with hroom | ⟨hrun, hle⟩
      · exact Or.inr hroom
      · rcases h.room (hwaits hpt hw) with ⟨hr, hfull⟩ | hp
        · exact Or.inl ⟨hrun hr, by omega⟩
        · exact Or.inr (hpending hp)
  · by_cases hqt : q = t
    · subst hqt
      exact Or.inl ((hself hw).2 rfl)
    · rcases hitems with hitems | ⟨hrun, hnil⟩
      · exact Or.inr hitems
      · rcases h.items (hwaits hqt hw) with ⟨hr, hempty⟩ | hp
        · exact Or.inl ⟨hrun hr, hnil hempty⟩
        · exact Or.inr (hpending hp)

theorem goOn_thread (s : RWQueue α) (t id : ℕ) (next : RWNext α) :
    (∀ t', t' ≠ t → (s.goOn t id next).thread t' = s.thread t') ∧
      ∀ cv, ¬ (s.goOn t id next).Waits cv t := by
  cases next with
  | again call =>
    refine ⟨fun t' hne => Function.update_of_ne hne _ _, ?_⟩
    rintro cv ⟨id', call', n, ht, -⟩
    simp [goOn, setThread] at ht
  | «return» r =>
    refine ⟨fun t' hne => Function.update_of_ne hne _ _, ?_⟩
    rintro cv ⟨id', call', n, ht, -⟩
    simp [goOn, setThread] at ht

theorem goOn_queue (s : RWQueue α) (t id : ℕ) (next : RWNext α) :
    (s.goOn t id next).capacity = s.capacity ∧ (s.goOn t id next).is_running = s.is_running ∧
      (s.goOn t id next).queue = s.queue := by
  cases next <;> exact ⟨rfl, rfl, rfl⟩

theorem settle_thread (s : RWQueue α) (t : ℕ) (l : List (Cv × Bool)) (id : ℕ) (next : RWNext α) :
    (∀ t', t' ≠ t → (s.settle t l id next).thread t' = s.thread t') ∧
      (∀ cv, ¬ (s.settle t l id next).Waits cv t) ∧
      ∀ cv b, (cv, b) ∈ l → (s.settle t l id next).Pending cv := by
  cases l with
  | nil => exact ⟨(goOn_thread s t id next).1, (goOn_thread s t id next).2, by simp⟩
  | cons x l =>
    have hself : (s.settle t (x :: l) id next).thread t = .notifying (x :: l) id next :=
      Function.update_self ..
    refine ⟨fun t' hne => Function.update_of_ne hne _ _, ?_,
      fun cv b hb => ⟨t, x :: l, id, next, b, hself, hb⟩⟩
    rintro cv ⟨id', call', n, ht, -⟩
    rw [hself] at ht
    cases ht

theorem settle_queue (s : RWQueue α) (t : ℕ) (l : List (Cv × Bool)) (id : ℕ) (next : RWNext α) :
    (s.settle t l id next).capacity = s.capacity ∧
      (s.settle t l id next).is_running = s.is_running ∧
      (s.settle t l id next).queue = s.queue := by
  cases l with
  | nil => exact goOn_queue s t id next
  | cons x l => exact ⟨rfl, rfl, rfl⟩

/-- A section that waits has a reason to. -/
theorem waits_reason (hready : s.ready 1 call = false) :
    (call.waitsOn = .has_room → s.is_running = true ∧ s.capacity ≤ s.queue.length) ∧
      (call.waitsOn = .has_items → s.is_running = true ∧ s.queue = []) := by
  cases call with
  | Enqueue item =>
    simp only [ready, Bool.or_eq_false_iff, Bool.not_eq_false'] at hready
    exact ⟨fun _ => ⟨hready.1, Nat.not_lt.1 (of_decide_eq_false hready.2)⟩, fun h => by cases h⟩
  | BulkEnqueue source r k =>
    simp only [ready, Bool.or_eq_false_iff, Bool.not_eq_false'] at hready
    have hroom := of_decide_eq_false hready.2
    refine ⟨fun _ => ⟨hready.1, ?_⟩, fun h => by cases h⟩
    by_contra hshort
    rw [room_eq (by omega)] at hroom
    omega
  | Dequeue =>
    simp only [ready, Bool.or_eq_false_iff, Bool.not_eq_false', List.isEmpty_iff] at hready
    refine ⟨fun h => ?_, fun _ => hready⟩
    cases h
  | BulkDequeue target r k =>
    simp only [ready, Bool.or_eq_false_iff, Bool.not_eq_false'] at hready
    have := of_decide_eq_false hready.2
    refine ⟨fun h => ?_, fun _ => ⟨hready.1, List.length_eq_zero_iff.1 (by omega)⟩⟩
    cases h
  | _ => cases hready

theorem Live.attempt (h : Live p q s) (hbusy : s.Busy t id) (hcall : GoesOn s.log t id (.again call))
    (hnum : s.NumOk n call) (hone : s.ready n call = false → n = 1)
    (hnot : ∀ pending id next, s.thread t ≠ .notifying pending id next)
    (hs : s.attempt t id n call = .ok s') : Live p q s' := by
  rw [RWQueue.attempt] at hs
  cases hready : s.ready n call with
  | false =>
    obtain rfl := hone hready
    rw [hready] at hs
    obtain rfl := Except.ok.inj hs
    refine h.change (fun t' hne => Function.update_of_ne hne _ _) hnot rfl
      (Or.inr ⟨fun hr => hr, le_rfl⟩) (Or.inr ⟨fun hr => hr, fun hq => hq⟩) ?_
    rintro cv ⟨id', call', n, ht, rfl⟩
    have hself : (s.setThread t (.waiting id call 1 false)).thread t = .waiting id call 1 false :=
      Function.update_self ..
    obtain ⟨-, rfl, -, -⟩ := RWThread.waiting.inj (hself.symm.trans ht)
    exact waits_reason hready
  | true =>
    obtain ⟨e, hbody, he⟩ := body_effect hbusy.bounded hcall.1 hnum hready
    rw [hready, hbody] at hs
    obtain rfl := Except.ok.inj hs
    set s₁ := { s with queue := e.queue, is_running := e.is_running, log := s.log ++ e.events }
    obtain ⟨hother, hself, hpending⟩ := settle_thread s₁ t e.pending id e.next
    obtain ⟨hcap, hrun, hqueue⟩ := settle_queue s₁ t e.pending id e.next
    refine h.change hother hnot hcap ?_ ?_ fun hw => absurd hw (hself _)
    · rw [leave, hrun, hqueue]
      exact he.room.imp (fun ⟨b, hb⟩ => hpending _ b hb) fun hkeep => hkeep
    · rw [leave, hrun, hqueue]
      exact he.items.imp (fun ⟨b, hb⟩ => hpending _ b hb) fun hkeep => hkeep

theorem Waits.of_marked {cv cv' : Cv} {f : ℕ → RWThread α} {w : ℕ}
    (hf : ∀ t, f t = s.thread t ∨ f t = wakeOn cv (s.thread t))
    (hw : Waits { s with thread := f } cv' w) : s.Waits cv' w := by
  obtain ⟨id, call, n, ht, hcv⟩ := hw
  simp only at ht
  rcases hf w with hfw | hfw
  · exact ⟨id, call, n, hfw ▸ ht, hcv⟩
  · rw [hfw] at ht
    cases hpc : s.thread w with
    | waiting id' call' n' b =>
      rw [hpc, wakeOn, RWThread.waiting.injEq] at ht
      obtain ⟨-, rfl, -, hb⟩ := ht
      rw [Bool.or_eq_false_iff] at hb
      exact ⟨id', call', n', by rw [hpc, hb.1], hcv⟩
    | idle | entering | notifying =>
      rw [hpc] at ht
      cases ht

/-- A notification reaches the one thread that may wait for it. -/
theorem Live.notify (h : Live p q s) {cv : Cv} {b : Bool} {rest : List (Cv × Bool)}
    {next : RWNext α} (ht : s.thread t = .notifying ((cv, b) :: rest) id next)
    {f : ℕ → RWThread α} (hf : ∀ t, f t = s.thread t ∨ f t = wakeOn cv (s.thread t))
    (hroom : cv = .has_room → ¬ Waits { s with thread := f } .has_room p)
    (hitems : cv = .has_items → ¬ Waits { s with thread := f } .has_items q) :
    Live p q (settle { s with thread := f } t rest id next) := by
  obtain ⟨hother, hself, hsettle⟩ := settle_thread { s with thread := f } t rest id next
  obtain ⟨hcap, hrun, hqueue⟩ := settle_queue { s with thread := f } t rest id next
  have hwaits : ∀ {cv' w}, (settle { s with thread := f } t rest id next).Waits cv' w →
      Waits { s with thread := f } cv' w := by
    rintro cv' w hw
    have hne : w ≠ t := by
      rintro rfl
      exact hself cv' hw
    obtain ⟨id', call, n, hw', hcv⟩ := hw
    exact ⟨id', call, n, (hother w hne).symm.trans hw', hcv⟩
  have hpending : ∀ {cv'}, cv ≠ cv' → s.Pending cv' →
      (settle { s with thread := f } t rest id next).Pending cv' := by
    rintro cv' hne ⟨t', l, id', next', b', ht', hb'⟩
    by_cases htt : t' = t
    · subst htt
      rw [ht] at ht'
      obtain ⟨rfl, -, -⟩ := RWThread.notifying.inj ht'
      rcases List.mem_cons.1 hb' with heq | hb'
      · exact absurd (Prod.mk.inj heq).1.symm hne
      · exact hsettle cv' b' hb'
    · refine ⟨t', l, id', next', b', (hother t' htt).trans ?_, hb'⟩
      rcases hf t' with hft | hft
      · exact hft.trans ht'
      · refine hft.trans ?_
        rw [ht']
        rfl
  refine ⟨fun hw => ?_, fun hw => ?_⟩
  · have hw' := hwaits hw
    have hne : cv ≠ .has_room := fun hcv => hroom hcv hw'
    rw [hcap, hrun, hqueue]
    exact (h.room (hw'.of_marked hf)).imp (fun hreason => hreason) (hpending hne)
  · have hw' := hwaits hw
    have hne : cv ≠ .has_items := fun hcv => hitems hcv hw'
    rw [hrun, hqueue]
    exact (h.items (hw'.of_marked hf)).imp (fun hreason => hreason) (hpending hne)

/-- With one producer and one consumer, each condition variable has one thread that may
wait on it. -/
theorem Inv.waiter (h : s.Inv) (hone : OneEach p q s.log) {w : ℕ} {cv : Cv} (hw : s.Waits cv w) :
    (cv = .has_room → w = p) ∧ (cv = .has_items → w = q) := by
  obtain ⟨id, call, n, ht, rfl⟩ := hw
  obtain ⟨⟨-, hmade⟩, -, hkind⟩ := h.threadOk ht
  obtain ⟨call₀, hmem, hprod, hcons⟩ := hmade call rfl
  obtain ⟨hp, hq⟩ := hone w id call₀ hmem
  cases call with
  | Dequeue | BulkDequeue =>
    refine ⟨fun h => ?_, fun _ => hq (hcons trivial)⟩
    cases h
  | Start | Stop => exact absurd hkind (by simp [RWCall.Produces, RWCall.Consumes])
  | _ => exact ⟨fun _ => hp (hprod trivial), fun h => by cases h⟩

theorem not_waits_of_wakeOn {cv : Cv} {f : ℕ → RWThread α} {w : ℕ}
    (hf : f w = wakeOn cv (s.thread w)) : ¬ Waits { s with thread := f } cv w := by
  rintro ⟨id, call, n, ht, rfl⟩
  simp only [hf] at ht
  cases hpc : s.thread w with
  | waiting id' call' n' b =>
    rw [hpc, wakeOn, RWThread.waiting.injEq] at ht
    obtain ⟨-, rfl, -, hb⟩ := ht
    simp at hb
  | idle | entering | notifying =>
    rw [hpc] at ht
    cases ht

theorem Live.step (h : Live p q s) (hinv : s.Inv) (hone : OneEach p q s.log) (hs : Step s s') :
    Live p q s' := by
  cases hs with
  | @call t call hidle hbegins =>
    have hnot : ∀ pending id next, s.thread t ≠ .notifying pending id next := by
      intro pending id next ht
      rw [hidle] at ht
      cases ht
    obtain ⟨hother, hself⟩ := goOn_thread { s with
      calls := s.calls + 1, log := s.log ++ [.called t s.calls call] } t s.calls (first call)
    obtain ⟨hcap, hrun, hqueue⟩ := goOn_queue { s with
      calls := s.calls + 1, log := s.log ++ [.called t s.calls call] } t s.calls (first call)
    refine h.change hother hnot hcap (Or.inr ?_) (Or.inr ?_) fun hw => absurd hw (hself _)
    · rw [begin, hrun, hqueue]
      exact ⟨fun hr => hr, le_rfl⟩
    · rw [begin, hrun, hqueue]
      exact ⟨fun hr => hr, fun hq => hq⟩
  | enter ht hs =>
    have hgo := hinv.threadOk ht
    refine h.attempt (hinv.busy (by rw [ht]; rfl)) hgo (numOk_numItems hgo.1) numItems_eq_one ?_ hs
    intro pending id next ht'
    rw [ht] at ht'
    cases ht'
  | wake ht hs =>
    obtain ⟨hgo, rfl, -⟩ := hinv.threadOk ht
    refine h.attempt (hinv.busy (by rw [ht]; rfl)) hgo (numOk_one hgo.1) (fun _ => rfl) ?_ hs
    intro pending id next ht'
    rw [ht] at ht'
    cases ht'
  | @notifyOne t id w cv rest next ht hw =>
    obtain ⟨hp, hq⟩ := hinv.waiter hone hw
    have hmark : Function.update s.thread w (wakeOn cv (s.thread w)) w = wakeOn cv (s.thread w) :=
      Function.update_self ..
    refine h.notify ht (fun t' => ?_) ?_ ?_
    · by_cases hne : t' = w
      · subst hne
        exact Or.inr hmark
      · exact Or.inl (Function.update_of_ne hne _ _)
    · rintro rfl
      exact hp rfl ▸ not_waits_of_wakeOn hmark
    · rintro rfl
      exact hq rfl ▸ not_waits_of_wakeOn hmark
  | @notifyNone t id cv rest next ht hw =>
    refine h.notify (f := s.thread) ht (fun t' => Or.inl rfl) ?_ ?_
    · rintro rfl
      exact hw p
    · rintro rfl
      exact hw q
  | @notifyAll t id cv rest next ht =>
    refine h.notify ht (fun t' => Or.inr rfl) ?_ ?_
    · rintro rfl
      exact not_waits_of_wakeOn rfl
    · rintro rfl
      exact not_waits_of_wakeOn rfl

theorem goOn_log {log : List (RWEvent α)} (hlog : log <+: s.log) (t id : ℕ) (next : RWNext α) :
    log <+: (s.goOn t id next).log := by
  cases next with
  | again call => exact hlog
  | «return» r => exact hlog.trans (List.prefix_append _ _)

theorem settle_log {log : List (RWEvent α)} (hlog : log <+: s.log) (t : ℕ) (l : List (Cv × Bool))
    (id : ℕ) (next : RWNext α) : log <+: (s.settle t l id next).log := by
  cases l with
  | nil => exact goOn_log hlog t id next
  | cons x l => exact hlog

theorem attempt_log (hs : s.attempt t id n call = .ok s') : s.log <+: s'.log := by
  rw [attempt] at hs
  split at hs
  · split at hs
    · cases hs
    · obtain rfl := Except.ok.inj hs
      exact settle_log (List.prefix_append _ _) _ _ _ _
  · obtain rfl := Except.ok.inj hs
    exact List.prefix_rfl

theorem Step.log (hs : Step s s') : s.log <+: s'.log := by
  cases hs with
  | call => exact goOn_log (List.prefix_append _ _) _ _ _
  | enter _ hs => exact attempt_log hs
  | wake _ hs => exact attempt_log hs
  | @notifyOne t id w cv rest next =>
    exact settle_log (s := s.setThread w (wakeOn cv (s.thread w))) List.prefix_rfl t rest id next
  | @notifyNone t id cv rest next => exact settle_log List.prefix_rfl t rest id next
  | @notifyAll t id cv rest next =>
    exact settle_log (s := { s with thread := fun w => wakeOn cv (s.thread w) }) List.prefix_rfl t
      rest id next

theorem reachable_live {s₀ s : RWQueue α} (h₀ : s₀.Initial)
    (hrun : Relation.ReflTransGen Step s₀ s) (hone : OneEach p q s.log) : Live p q s := by
  induction hrun with
  | refl =>
    have hnot : ∀ cv t, ¬ s₀.Waits cv t := by
      rintro cv t ⟨id, call, n, ht, -⟩
      rw [h₀.idle t] at ht
      cases ht
    exact ⟨fun hw => absurd hw (hnot _ _), fun hw => absurd hw (hnot _ _)⟩
  | tail hrun hstep ih =>
    have hone' := fun t id call hmem => hone t id call (hstep.log.subset hmem)
    exact (ih hone').step (reachable_inv h₀ hrun) hone' hstep

/-! ## The queue as a whole -/

/-- A thread that is before or in a section, and the batch of the section. -/
def InSection (s : RWQueue α) (t id : ℕ) (call : RWCall α) (n : ℕ) : Prop :=
  (s.thread t = .entering id call ∧ n = s.numItems call) ∨
    ∃ notified, s.thread t = .waiting id call n notified

/-- A thread that waits and that no notification has reached. -/
def Blocked (s : RWQueue α) (t : ℕ) : Prop := ∃ id call n, s.thread t = .waiting id call n false

/-- What the users of the queue can rely on. -/
structure Fifo (s : RWQueue α) : Prop where
  /-- The queue is never longer than its capacity. -/
  bounded : s.queue.length ≤ s.capacity
  /-- What was handed out, and then what is queued, is what was accepted, in order. -/
  fifo : s.accepted = s.handed ++ s.queue
  /-- A call returns the number of items it has moved. -/
  counts : ∀ id r, .returned id r ∈ s.log → r.items = moved s.log id
  /-- No section reads past the end of the queue. -/
  safe : ∀ t id call n, s.InSection t id call n → ∃ s', s.attempt t id n call = .ok s'
  /-- As long as there are items they are handed out, stopped or not. -/
  drains : ∀ t id call n, s.InSection t id call n → call.Consumes → s.queue ≠ [] →
    ∃ s' items, s.attempt t id n call = .ok s' ∧ items ≠ [] ∧ items <+: s.queue ∧
      s'.handed = s.handed ++ items
  /-- One producer and one consumer are never both blocked for good. -/
  live : ∀ p q, p ≠ q → OneEach p q s.log → s.Blocked p → s.Blocked q →
    ∃ cv, s.Pending cv

theorem Inv.inSection (h : s.Inv) (hsec : s.InSection t id call n) :
    s.Busy t id ∧ GoesOn s.log t id (.again call) ∧ s.NumOk n call ∧
      (s.ready n call = false → n = 1) := by
  rcases hsec with ⟨ht, rfl⟩ | ⟨notified, ht⟩
  · have hgo := h.threadOk ht
    exact ⟨h.busy (by rw [ht]; rfl), hgo, numOk_numItems hgo.1, numItems_eq_one⟩
  · obtain ⟨hgo, rfl, -⟩ := h.threadOk ht
    exact ⟨h.busy (by rw [ht]; rfl), hgo, numOk_one hgo.1, fun _ => rfl⟩

/-- A section that takes items out does so while there are any. -/
theorem Inv.drains (h : s.Inv) (hsec : s.InSection t id call n) (hcons : call.Consumes)
    (hne : s.queue ≠ []) :
    ∃ s' items, s.attempt t id n call = .ok s' ∧ items ≠ [] ∧ items <+: s.queue ∧
      s'.handed = s.handed ++ items := by
  have hpos := List.length_pos_of_ne_nil hne
  have hleave : ∀ {k : ℕ} {next : RWNext α}, 1 ≤ k → k ≤ s.queue.length →
      s.ready n call = true → s.body id n call = .ok (s.hand id k next) →
      ∃ s' items, s.attempt t id n call = .ok s' ∧ items ≠ [] ∧ items <+: s.queue ∧
        s'.handed = s.handed ++ items := by
    intro k next hk hle hready hbody
    rw [attempt, hready, hbody]
    refine ⟨_, s.queue.take k, rfl, ?_, List.take_prefix _ _, ?_⟩
    · intro hnil
      have := congrArg List.length hnil
      rw [List.length_take, List.length_nil] at this
      omega
    · simp [handed, leave, hand, settle, setThread, RWEvent.handedItems]
  obtain ⟨-, hgo, hnum, -⟩ := h.inSection hsec
  cases call with
  | Dequeue =>
    obtain ⟨x, rest, hqueue⟩ := List.exists_cons_of_ne_nil hne
    have hbody : s.body id n .Dequeue = .ok (s.hand id 1 (.return (.item (some x)))) := by
      rw [body, if_pos (Or.inr hne)]
      simp only [hqueue]
    exact hleave le_rfl hpos (by simp [ready, hqueue]) hbody
  | BulkDequeue target r k =>
    obtain ⟨hn, -, hmax⟩ := hnum
    have hle : n ≤ s.queue.length := by omega
    have hbody : s.body id n (.BulkDequeue target r k) = .ok (s.hand id n
        (loopDequeue (target ++ s.queue.take n) r (k - n))) := by
      rw [body, if_pos (Or.inr hne), if_neg (Nat.not_lt.2 hle)]
    exact hleave hn hle (by simp [ready, hle]) hbody
  | _ => exact absurd hcons (by simp [RWCall.Consumes])

/-- A thread that waits does so for its kind of call. -/
theorem Inv.blocked (h : s.Inv) (hone : OneEach p q s.log) (hne : p ≠ q) (hb : s.Blocked t) :
    (t = p → s.Waits .has_room t) ∧ (t = q → s.Waits .has_items t) := by
  obtain ⟨id, call, n, ht⟩ := hb
  have hw : s.Waits call.waitsOn t := ⟨id, call, n, ht, rfl⟩
  obtain ⟨hp, hq⟩ := h.waiter hone hw
  cases hcv : call.waitsOn with
  | has_room =>
    rw [hcv] at hw
    exact ⟨fun _ => hw, fun htq => absurd ((hp hcv).symm.trans htq) hne⟩
  | has_items =>
    rw [hcv] at hw
    exact ⟨fun htp => absurd (htp.symm.trans (hq hcv)) hne, fun _ => hw⟩

/-- **A bounded FIFO that loses nothing**, in every run of any number of threads. -/
theorem reachable_fifo {s₀ s : RWQueue α} (h₀ : s₀.Initial)
    (hrun : Relation.ReflTransGen Step s₀ s) : s.Fifo := by
  have hinv := reachable_inv h₀ hrun
  refine ⟨hinv.bounded, hinv.fifo, fun id r hr => (hinv.returned id r hr).2.1,
    fun t id call n hsec => ?_, fun t id call n => hinv.drains, fun p q hne hone hp hq => ?_⟩
  · obtain ⟨hbusy, hgo, hnum, hone⟩ := hinv.inSection hsec
    obtain ⟨s', hs', -⟩ := hbusy.attempt hgo hnum hone
    exact ⟨s', hs'⟩
  · have hlive := reachable_live h₀ hrun hone
    rcases hlive.room ((hinv.blocked hone hne hp).1 rfl) with ⟨-, hfull⟩ | hpending
    · rcases hlive.items ((hinv.blocked hone hne hq).2 rfl) with ⟨-, hempty⟩ | hpending
      · -- the queue cannot be full and empty at once
        have := hinv.pos
        rw [hempty, List.length_nil] at hfull
        omega
      · exact ⟨_, hpending⟩
    · exact ⟨_, hpending⟩

/-- An empty queue of capacity 1. -/
def oneSlot : RWQueue ℕ := ⟨1, true, [], fun _ => .idle, 0, []⟩

theorem oneSlot_initial : oneSlot.Initial := ⟨by decide, rfl, fun _ => rfl, rfl, rfl⟩

/-- An item goes into the queue, and its call is about to notify. -/
theorem reachable_fifo_oneSlot :
    ∃ s : RWQueue ℕ, s.queue = [5] ∧ s.accepted = [5] ∧ s.Fifo := by
  have hcall : Step oneSlot (oneSlot.begin 0 (.Enqueue 5)) := .call rfl trivial
  exact ⟨_, rfl, rfl, reachable_fifo oneSlot_initial (.tail (.single hcall) (.enter (t := 0) rfl rfl))⟩

end RWQueue

end AugraDosbox
