import AugraDosbox.Misc.RwQueueRuns

/-!
# Resizing the queue

`Resize` sets the capacity under the mutex, at any moment and also below the length, and tells
nobody.

* `ResizeStep` — the steps of the threads with `Resize`s between them;
* `AddsWithinBound` — every item is added to a queue that is shorter than its capacity;
* `Overfills` — a `BulkEnqueue` goes through its wait while the queue is too long;
* **`resize_bounded_iff`** — the bound holds in a run exactly when no step of it is such a one.
-/

namespace AugraDosbox

namespace RWQueue

variable {α : Type} {s s' : RWQueue α} {t id n : ℕ} {call : RWCall α}

def Resize (s : RWQueue α) (queue_capacity : ℕ) : RWQueue α := { s with capacity := queue_capacity }

/-- The steps of the threads and the calls of `Resize`, with the capacities that it asserts. -/
inductive ResizeStep : RWQueue α → RWQueue α → Prop where
  | thread {s s' : RWQueue α} (h : Step s s') : ResizeStep s s'
  | resize {s : RWQueue α} {queue_capacity : ℕ} (h : 0 < queue_capacity) :
      ResizeStep s (s.Resize queue_capacity)

/-- The item at position `k` is added while the queue holds `k` items: that is less than its
capacity. -/
def AddsWithinBound (s s' : RWQueue α) : Prop :=
  ∀ k, s.queue.length ≤ k → k < s'.queue.length → k < s.capacity

/-- The queue runs and is longer than its capacity, and a `BulkEnqueue` finds room in it. -/
def Overfills (s s' : RWQueue α) : Prop :=
  s.is_running = true ∧ s.capacity < s.queue.length ∧
    ∃ t id n source r k, s.InSection t id (.BulkEnqueue source r k) n ∧
      s.ready n (.BulkEnqueue source r k) = true ∧
      s.attempt t id n (.BulkEnqueue source r k) = .ok s'

/-! ## The calls that are under way -/

/-- A bulk call has items left to put in. -/
def HasItems : RWCall α → Prop
  | .BulkEnqueue source _ k => 1 ≤ k ∧ k ≤ source.length
  | _ => True

/-- The call of a thread has items left, and the batch it waits with is not empty. -/
def ThreadHasItems : RWThread α → Prop
  | .idle => True
  | .entering _ call => HasItems call
  | .waiting _ call n _ => HasItems call ∧ 1 ≤ n
  | .notifying _ _ next => ∀ call, next = .again call → HasItems call

theorem one_le_numItems (call : RWCall α) : 1 ≤ s.numItems call := by
  cases call with
  | BulkEnqueue | BulkDequeue => exact le_max_left _ _
  | _ => exact le_rfl

variable {pc : RWThread α}

theorem threadHasItems_setThread (h : ∀ t, ThreadHasItems (s.thread t)) (hpc : ThreadHasItems pc) :
    ∀ t', ThreadHasItems ((s.setThread t pc).thread t') := by
  intro t'
  change ThreadHasItems (Function.update s.thread t pc t')
  by_cases ht : t' = t
  · subst ht
    rwa [Function.update_self]
  · rw [Function.update_of_ne ht]
    exact h t'

theorem threadHasItems_settle (h : ∀ t, ThreadHasItems (s.thread t)) {l : List (Cv × Bool)}
    {next : RWNext α} (hnext : ∀ call, next = .again call → HasItems call) :
    ∀ t', ThreadHasItems ((s.settle t l id next).thread t') := by
  cases l with
  | nil =>
    cases next with
    | again call => exact threadHasItems_setThread h (hnext call rfl)
    | «return» result => exact threadHasItems_setThread h trivial
  | cons x l => exact threadHasItems_setThread h hnext

theorem hasItems_loopEnqueue {source : List α} {r k : ℕ} (hk : k ≤ source.length) :
    ∀ call, loopEnqueue (source.drop n) r (k - n) = .again call → HasItems call := by
  intro call hcall
  rw [loopEnqueue] at hcall
  split at hcall
  · obtain rfl := RWNext.again.inj hcall
    refine ⟨by omega, ?_⟩
    rw [List.length_drop]
    omega
  · cases hcall

theorem hasItems_loopDequeue {target : List α} {r k : ℕ} :
    ∀ call, loopDequeue target r k = .again call → HasItems call := by
  intro call hcall
  rw [loopDequeue] at hcall
  split at hcall
  · obtain rfl := RWNext.again.inj hcall
    trivial
  · cases hcall

/-- What a section goes on with has items left. -/
theorem hasItems_body {e : Effect α} (hcall : HasItems call) (hbody : s.body id n call = .ok e) :
    ∀ call', e.next = .again call' → HasItems call' := by
  intro call' hnext
  cases call with
  | BulkEnqueue source r k =>
    rw [body] at hbody
    split at hbody
    · obtain rfl := Except.ok.inj hbody
      exact hasItems_loopEnqueue hcall.2 call' hnext
    · obtain rfl := Except.ok.inj hbody
      cases hnext
  | BulkDequeue target r k =>
    cases call' with
    | BulkEnqueue => exact ((body_again hbody hnext).1 trivial).elim
    | _ => trivial
  | Dequeue =>
    cases call' with
    | BulkEnqueue => exact ((body_again hbody hnext).1 trivial).elim
    | _ => trivial
  | Start =>
    obtain rfl := Except.ok.inj hbody
    cases hnext
  | _ =>
    rw [body] at hbody
    split at hbody
    all_goals
      obtain rfl := Except.ok.inj hbody
      cases hnext

theorem threadHasItems_attempt (h : ∀ t, ThreadHasItems (s.thread t)) (hcall : HasItems call)
    (hn : 1 ≤ n) (hs : s.attempt t id n call = .ok s') : ∀ t', ThreadHasItems (s'.thread t') := by
  rw [attempt] at hs
  split at hs
  · cases hbody : s.body id n call with
    | error fault =>
      rw [hbody] at hs
      cases hs
    | ok e =>
      rw [hbody] at hs
      obtain rfl := Except.ok.inj hs
      exact threadHasItems_settle (s := { s with queue := e.queue, is_running := _, log := _ }) h
        (hasItems_body hcall hbody)
  · obtain rfl := Except.ok.inj hs
    exact threadHasItems_setThread h ⟨hcall, hn⟩

theorem threadHasItems_wakeOn {cv : Cv} (h : ThreadHasItems pc) :
    ThreadHasItems (wakeOn cv pc) := by
  cases pc with
  | waiting => exact h
  | _ => exact h

theorem hasItems_first (hbegins : call.Begins) :
    ∀ call', first call = .again call' → HasItems call' := by
  intro call' hfirst
  cases call with
  | BulkEnqueue source r k =>
    obtain rfl := RWNext.again.inj hfirst
    obtain ⟨hr, hsource, rfl⟩ := hbegins
    exact ⟨hr, hsource⟩
  | BulkDequeue target r k => exact hasItems_loopDequeue call' hfirst
  | _ =>
    obtain rfl := RWNext.again.inj hfirst
    trivial

theorem threadHasItems_of (h : ∀ t, ThreadHasItems (s.thread t)) (ht : s.thread t = pc) :
    ThreadHasItems pc := ht ▸ h t

theorem Step.threadHasItems (h : ∀ t, ThreadHasItems (s.thread t)) (hs : Step s s') :
    ∀ t, ThreadHasItems (s'.thread t) := by
  cases hs with
  | @call t call hidle hbegins =>
    exact threadHasItems_settle (l := [])
      (s := { s with calls := s.calls + 1, log := s.log ++ [.called t s.calls call] }) h
      (hasItems_first hbegins)
  | enter ht hs => exact threadHasItems_attempt h (threadHasItems_of h ht) (one_le_numItems _) hs
  | wake ht hs =>
    obtain ⟨hcall, hn⟩ := threadHasItems_of h ht
    exact threadHasItems_attempt h hcall hn hs
  | notifyOne ht hw =>
    exact threadHasItems_settle (threadHasItems_setThread h (threadHasItems_wakeOn (h _)))
      (threadHasItems_of h ht)
  | notifyNone ht hw => exact threadHasItems_settle h (threadHasItems_of h ht)
  | notifyAll ht =>
    exact threadHasItems_settle (s := { s with thread := _ })
      (fun w => threadHasItems_wakeOn (h w)) (threadHasItems_of h ht)

/-! ## The bound -/

/-- A section that goes on enlarges the queue up to its capacity, unless it is a `BulkEnqueue`
that finds a running queue too long. -/
theorem body_length {e : Effect α} (hready : s.ready n call = true)
    (hbody : s.body id n call = .ok e) (hfit : ∀ source r k, call = .BulkEnqueue source r k →
      s.is_running = true → s.queue.length ≤ s.capacity) :
    e.queue.length ≤ s.queue.length ∨ e.queue.length ≤ s.capacity := by
  have hsame : ∀ {r p next}, (.ok ⟨s.queue, r, [], p, next⟩ : Except QueueFault (Effect α)) = .ok e →
      e.queue.length ≤ s.queue.length ∨ e.queue.length ≤ s.capacity := by
    intro r p next heq
    obtain rfl := Except.ok.inj heq
    exact .inl le_rfl
  have haccept : ∀ {items next}, (.ok (s.accept id items next) : Except QueueFault _) = .ok e →
      s.queue.length + items.length ≤ s.capacity →
      e.queue.length ≤ s.queue.length ∨ e.queue.length ≤ s.capacity := by
    intro items next heq hlen
    obtain rfl := Except.ok.inj heq
    exact .inr (by rwa [accept, List.length_append])
  have hhand : ∀ {m next}, (.ok (s.hand id m next) : Except QueueFault _) = .ok e →
      e.queue.length ≤ s.queue.length ∨ e.queue.length ≤ s.capacity := by
    intro m next heq
    obtain rfl := Except.ok.inj heq
    exact .inl (by rw [hand, List.length_drop]; omega)
  cases call with
  | Enqueue item =>
    rw [body] at hbody
    split at hbody
    · rename_i hrun
      simp only [ready, hrun, Bool.not_true, Bool.false_or, decide_eq_true_eq] at hready
      exact haccept hbody hready
    · exact hsame hbody
  | NonblockingEnqueue item =>
    rw [body] at hbody
    split at hbody
    · exact hsame hbody
    · rename_i hroom
      rw [not_or] at hroom
      exact haccept hbody (by rw [List.length_singleton]; omega)
  | BulkEnqueue source r k =>
    rw [body] at hbody
    split at hbody
    · rename_i hrun
      have hlen := hfit source r k rfl hrun
      simp only [ready, hrun, Bool.not_true, Bool.false_or, decide_eq_true_eq, room_eq hlen]
        at hready
      exact haccept hbody (by rw [List.length_take]; omega)
    · exact hsame hbody
  | NonblockingBulkEnqueue source r =>
    rw [body] at hbody
    split at hbody
    · exact hsame hbody
    · rename_i hroom
      rw [not_or] at hroom
      exact haccept hbody (by rw [List.length_take, room_eq (by omega)]; omega)
  | Dequeue =>
    rw [body] at hbody
    split at hbody
    · split at hbody
      · cases hbody
      · exact hhand hbody
    · exact hsame hbody
  | BulkDequeue target r k =>
    rw [body] at hbody
    split at hbody
    · split at hbody
      · cases hbody
      · exact hhand hbody
    · exact hsame hbody
  | Start => exact hsame hbody
  | Stop =>
    rw [body] at hbody
    split at hbody
    · exact hsame hbody
    · exact hsame hbody

theorem leave_queue (s : RWQueue α) (t id : ℕ) (e : Effect α) :
    (s.leave t id e).queue = e.queue := (settle_queue _ t e.pending id e.next).2.2

theorem AddsWithinBound.of_length
    (h : s'.queue.length ≤ s.queue.length ∨ s'.queue.length ≤ s.capacity) :
    s.AddsWithinBound s' := by
  intro k hk hk'
  omega

theorem attempt_withinBound (hsec : s.InSection t id call n) (hs : s.attempt t id n call = .ok s')
    (hnot : ¬ s.Overfills s') : s.AddsWithinBound s' := by
  have hs' := hs
  rw [attempt] at hs
  cases hready : s.ready n call with
  | false =>
    rw [if_neg (by simp [hready])] at hs
    obtain rfl := Except.ok.inj hs
    exact .of_length (.inl le_rfl)
  | true =>
    rw [if_pos hready] at hs
    cases hbody : s.body id n call with
    | error fault =>
      rw [hbody] at hs
      cases hs
    | ok e =>
      rw [hbody] at hs
      obtain rfl := Except.ok.inj hs
      apply AddsWithinBound.of_length
      rw [leave_queue]
      apply body_length hready hbody
      rintro source r k rfl hrun
      by_contra hlong
      exact hnot ⟨hrun, by omega, t, id, n, source, r, k, hsec, hready, hs'⟩

theorem Step.withinBound (hs : Step s s') (hnot : ¬ s.Overfills s') : s.AddsWithinBound s' := by
  cases hs with
  | @call t call hidle hbegins =>
    exact .of_length (.inl (congrArg List.length (goOn_queue _ t _ _).2.2).le)
  | enter ht hs => exact attempt_withinBound (.inl ⟨ht, rfl⟩) hs hnot
  | wake ht hs => exact attempt_withinBound (.inr ⟨_, ht⟩) hs hnot
  | @notifyOne t id w cv rest next ht hw =>
    exact .of_length (.inl (congrArg List.length (settle_queue _ t rest id next).2.2).le)
  | @notifyNone t id cv rest next ht hw =>
    exact .of_length (.inl (congrArg List.length (settle_queue _ t rest id next).2.2).le)
  | @notifyAll t id cv rest next ht =>
    exact .of_length (.inl (congrArg List.length (settle_queue _ t rest id next).2.2).le)

/-- A `BulkEnqueue` that goes through in a queue that is too long adds at least one item. -/
theorem Overfills.not_withinBound (h : ∀ t, ThreadHasItems (s.thread t)) (hover : s.Overfills s') :
    ¬ s.AddsWithinBound s' := by
  obtain ⟨hrun, hlong, t, id, n, source, r, k, hsec, hready, hs⟩ := hover
  have hcall : (1 ≤ k ∧ k ≤ source.length) ∧ 1 ≤ n := by
    rcases hsec with ⟨ht, rfl⟩ | ⟨notified, ht⟩
    · exact ⟨threadHasItems_of h ht, one_le_numItems _⟩
    · exact threadHasItems_of h ht
  rw [attempt, if_pos hready, body, if_pos hrun] at hs
  obtain rfl := Except.ok.inj hs
  intro hbound
  have hadded : s.queue.length < (s.leave t id (s.accept id (source.take n)
      (loopEnqueue (source.drop n) r (k - n)))).queue.length := by
    rw [leave_queue, accept, List.length_append, List.length_take]
    omega
  have := hbound s.queue.length le_rfl hadded
  omega

theorem ResizeStep.withinBound_iff (h : ∀ t, ThreadHasItems (s.thread t)) (hs : ResizeStep s s') :
    s.AddsWithinBound s' ↔ ¬ s.Overfills s' := by
  refine ⟨fun hbound hover => hover.not_withinBound h hbound, fun hnot => ?_⟩
  cases hs with
  | thread hs => exact hs.withinBound hnot
  | resize hpos => exact .of_length (.inl le_rfl)

theorem ResizeStep.threadHasItems (h : ∀ t, ThreadHasItems (s.thread t)) (hs : ResizeStep s s') :
    ∀ t, ThreadHasItems (s'.thread t) := by
  cases hs with
  | thread hs => exact hs.threadHasItems h
  | resize hpos => exact h

/-- **When the bound holds in spite of `Resize`.**  In a run of any threads with `Resize`s at any
moments, every item is added to a queue that is shorter than its capacity, exactly when no
`BulkEnqueue` goes through its wait while the queue runs and is longer than its capacity. -/
theorem resize_bounded_iff {run : ℕ → RWQueue α} {m : ℕ} (h₀ : (run 0).Initial)
    (hrun : ∀ i < m, ResizeStep (run i) (run (i + 1))) :
    (∀ i < m, (run i).AddsWithinBound (run (i + 1))) ↔
      ∀ i < m, ¬ (run i).Overfills (run (i + 1)) := by
  have hitems : ∀ i ≤ m, ∀ t, ThreadHasItems ((run i).thread t) := by
    intro i
    induction i with
    | zero =>
      intro _ t
      rw [h₀.idle t]
      trivial
    | succ i ih => exact fun hi => (hrun i hi).threadHasItems (ih (Nat.le_of_succ_le hi))
  exact forall₂_congr fun i hi => (hrun i hi).withinBound_iff (hitems i hi.le)

/-- A queue that is filled, made smaller, and then given one more item. -/
def shrunk (i : ℕ) : RWQueue ℕ :=
  let empty : RWQueue ℕ := ⟨2, true, [], fun _ => .idle, 0, []⟩
  let filling := empty.begin 0 (.BulkEnqueue [1, 2] 2 2)
  let filled := filling.leave 0 0 (filling.accept 0 [1, 2] (.return (.count 2)))
  let full := filled.settle 0 [] 0 (.return (.count 2))
  let smaller := full.Resize 1
  let adding := smaller.begin 0 (.BulkEnqueue [3] 1 1)
  match i with
  | 0 => empty
  | 1 => filling
  | 2 => filled
  | 3 => full
  | 4 => smaller
  | 5 => adding
  | _ => adding.leave 0 1 (adding.accept 1 [3] (.return (.count 1)))

theorem shrunk_initial : (shrunk 0).Initial := ⟨by decide, rfl, fun _ => rfl, rfl, rfl⟩

theorem shrunk_step : ∀ i < 6, ResizeStep (shrunk i) (shrunk (i + 1)) := by
  intro i hi
  match i, hi with
  | 0, _ =>
    exact .thread (@Step.call _ _ 0 (.BulkEnqueue [1, 2] 2 2) rfl ⟨by decide, by decide, rfl⟩)
  | 1, _ => exact .thread (.enter (t := 0) rfl rfl)
  | 2, _ =>
    refine .thread (@Step.notifyNone _ _ 0 0 .has_items [] (.return (.count 2)) rfl ?_)
    -- nobody waits for items: the only thread that is not idle has just put some in
    rintro w ⟨id, call, n, hw, -⟩
    by_cases hw0 : w = 0
    · subst hw0
      cases hw
    · have hidle : (shrunk 2).thread w = .idle :=
        (Function.update_of_ne hw0 _ _).trans (Function.update_of_ne hw0 _ _)
      rw [hidle] at hw
      cases hw
  | 3, _ => exact .resize (by decide)
  | 4, _ =>
    exact .thread (@Step.call _ _ 0 (.BulkEnqueue [3] 1 1) rfl ⟨by decide, by decide, rfl⟩)
  | 5, _ => exact .thread (.enter (t := 0) rfl rfl)

/-- Filling the queue and making it smaller breaks nothing yet. -/
theorem resize_bounded_shrunk :
    (shrunk 0).AddsWithinBound (shrunk 1) ∧ (shrunk 3).AddsWithinBound (shrunk 4) := by
  have hfits : ∀ i < 4, ¬ (shrunk i).capacity < (shrunk i).queue.length := by decide
  have hbounded := (resize_bounded_iff shrunk_initial fun i hi => shrunk_step i (by omega)).2
    fun i (hi : i < 4) hslip => hfits i hi hslip.2.1
  exact ⟨hbounded 0 (by decide), hbounded 3 (by decide)⟩

/-- The item that comes then is added to two items, with a capacity of one. -/
theorem bulkEnqueue_overfills : (shrunk 0).Initial ∧
    (∀ i < 6, ResizeStep (shrunk i) (shrunk (i + 1))) ∧
    ¬ (shrunk 5).AddsWithinBound (shrunk 6) := by
  refine ⟨shrunk_initial, shrunk_step, fun h => ?_⟩
  have := h 2 (by decide) (by decide)
  exact absurd this (by decide)

end RWQueue

end AugraDosbox
