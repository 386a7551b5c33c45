import Mathlib.Algebra.GroupWithZero.Nat
import Mathlib.Data.List.Pairwise
import Mathlib.Order.Lattice
import Mathlib.Order.Nat
import Mathlib.Tactic.Common

/-!
# Replaying recorded input frame by frame

`InputSequenceCommand::ExecuteFrameBased` puts recorded events into a queue, and
`ReplayDispatchFrame`, called after every rendered frame, takes out of it what is due.

* `frameBase`, `normalize` — the offset that is taken from all events;
* `FrameReplay.ReplayDispatchFrame` — one frame, with the keyboard's free slots as its input;
* `Timed` — what one frame has to do: events in order and once, none before its time, none later
  than it has to be, and an end exactly after the last one;
* **`replay_keeps_timing_iff`** — which recordings are replayed with their timing.

Times are of any linear order with a zero and a difference.  Messages to the log and to the
screen are left out.
-/

namespace AugraDosbox

namespace Webserver

/-- `InputEvent::Type`. -/
inductive EventType where
  | Key
  | MouseMove
  | MouseButton
  | MouseWheel
  deriving DecidableEq, Repr

/-- `InputEvent`; `data` is what `dispatch_input_event` hands on to the device. -/
structure InputEvent (T δ : Type) where
  t_ms : T
  frame : UInt64
  type : EventType
  data : δ
  deriving DecidableEq, Repr

variable {T δ : Type} [Zero T] [Sub T] [LinearOrder T]

/-- `frame_base` and `t_base`: those of the first event with a frame or a time. -/
def frameBase : List (InputEvent T δ) → UInt64 × T
  | [] => (0, 0)
  | ev :: events => if 0 < ev.frame ∨ 0 < ev.t_ms then (ev.frame, ev.t_ms) else frameBase events

/-- An event without the offset. -/
def normalize (base : UInt64 × T) (ev : InputEvent T δ) : InputEvent T δ :=
  { ev with
    frame := if base.1 ≤ ev.frame then ev.frame - base.1 else 0
    t_ms := if base.2 ≤ ev.t_ms then ev.t_ms - base.2 else 0 }

/-- The state of a replay. -/
structure FrameReplay (T δ : Type) where
  frame_pending_events : List (InputEvent T δ)
  frame_replay_active : Bool
  frame_replay_start : UInt64
  frame_pending_total : ℕ
  frame_pending_dispatched : ℕ

/-- The most events of one frame. -/
def frameCap : ℕ := 500

/-- The loop of `ReplayDispatchFrame` after `n` events: what is dispatched and what stays.
`slots` are the free slots of the keyboard when the loop asks for them. -/
def dispatchLoop (relative_frame : UInt64) (slots : ℕ → ℕ) :
    ℕ → List (InputEvent T δ) → List (InputEvent T δ) × List (InputEvent T δ)
  | _, [] => ([], [])
  | n, ev :: events =>
      if ev.frame ≤ relative_frame ∧ n < frameCap then
        if ev.type = .Key ∧ slots n < 2 then ([], ev :: events)
        else
          let r := dispatchLoop relative_frame slots (n + 1) events
          (ev :: r.1, r.2)
      else ([], ev :: events)

namespace FrameReplay

/-- `ExecuteFrameBased`, with the number of the last rendered frame. -/
def ExecuteFrameBased (s : FrameReplay T δ) (events : List (InputEvent T δ)) (count : UInt64) :
    Except String (FrameReplay T δ) :=
  if s.frame_replay_active then .error "Replay already in progress"
  else
    let pending := s.frame_pending_events ++ events.map (normalize (frameBase events))
    let s := { s with
      frame_pending_events := pending
      frame_pending_total := pending.length
      frame_pending_dispatched := 0 }
    if pending ≠ [] then .ok { s with frame_replay_start := count, frame_replay_active := true }
    else .ok s

/-- `ReplayDispatchFrame`, with the events that it dispatches. -/
def ReplayDispatchFrame (s : FrameReplay T δ) (current_frame : UInt64) (slots : ℕ → ℕ) :
    FrameReplay T δ × List (InputEvent T δ) :=
  if s.frame_replay_active = false then (s, [])
  else
    let r := dispatchLoop (current_frame - s.frame_replay_start) slots 0 s.frame_pending_events
    ({ s with
      frame_pending_events := r.2
      frame_pending_dispatched := s.frame_pending_dispatched + r.1.length
      frame_replay_active := !r.2.isEmpty }, r.1)

/-- Nothing is being replayed. -/
structure Idle (s : FrameReplay T δ) : Prop where
  pending : s.frame_pending_events = []
  inactive : s.frame_replay_active = false

end FrameReplay

/-! ## What a replay has to do -/

/-- The frame of the first event. -/
def firstFrame (events : List (InputEvent T δ)) : ℕ := (events.head?.map (·.frame.toNat)).getD 0

/-- The frame of an event from the first event on. -/
def offset (events : List (InputEvent T δ)) (e : InputEvent T δ) : ℕ :=
  e.frame.toNat - firstFrame events

/-- A frame at the distance `dist` from the start, found with `k` events dispatched, which
dispatches `d` and leaves the replay active or not. -/
structure Timed (events : List (InputEvent T δ)) (dist : ℕ) (slots : ℕ → ℕ) (k : ℕ)
    (dispatched : List (InputEvent T δ)) (active : Bool) : Prop where
  /-- The next events, in order. -/
  order : dispatched.map (fun e => (e.type, e.data)) =
    ((events.drop k).take dispatched.length).map fun e => (e.type, e.data)
  /-- None before its time. -/
  notEarly : ∀ i e, k ≤ i → i < k + dispatched.length → events[i]? = some e →
    offset events e ≤ dist
  /-- What is due is dispatched, unless the cap or a key holds it or an earlier event back. -/
  prompt : ∀ i e, k + dispatched.length ≤ i → events[i]? = some e → offset events e ≤ dist →
    dispatched.length = frameCap ∨
      ∃ e', events[k + dispatched.length]? = some e' ∧ e'.type = .Key ∧ slots dispatched.length < 2
  /-- The replay ends with the last event. -/
  ends : active = true ↔ k + dispatched.length < events.length

/-- Every frame of a run is as it has to be. -/
def AllTimed (events : List (InputEvent T δ)) (start : UInt64) :
    FrameReplay T δ → List (UInt64 × (ℕ → ℕ)) → Prop
  | _, [] => True
  | s, (frame, slots) :: calls =>
      Timed events (frame.toNat - start.toNat) slots s.frame_pending_dispatched
        (s.ReplayDispatchFrame frame slots).2 (s.ReplayDispatchFrame frame slots).1.frame_replay_active ∧
      (s.ReplayDispatchFrame frame slots).1.frame_pending_dispatched =
        s.frame_pending_dispatched + (s.ReplayDispatchFrame frame slots).2.length ∧
      AllTimed events start (s.ReplayDispatchFrame frame slots).1 calls

/-- Increasing frame numbers from the start on. -/
structure Increasing (start : UInt64) (calls : List (UInt64 × (ℕ → ℕ))) : Prop where
  sorted : (calls.map Prod.fst).Pairwise (· < ·)
  from_start : ∀ c ∈ calls, start ≤ c.1

/-! ## One frame -/

variable {events pending : List (InputEvent T δ)} {relative : UInt64} {slots : ℕ → ℕ} {n : ℕ}

/-- What the loop takes, and why it stops. -/
structure Dispatches (relative : UInt64) (slots : ℕ → ℕ) (n : ℕ)
    (pending : List (InputEvent T δ)) (m : ℕ) : Prop where
  le : m ≤ pending.length
  cap : m ≠ 0 → n + m ≤ frameCap
  due : ∀ i e, i < m → pending[i]? = some e → e.frame ≤ relative
  stop : ∀ e, pending[m]? = some e →
    relative < e.frame ∨ frameCap ≤ n + m ∨ (e.type = .Key ∧ slots (n + m) < 2)

omit [Zero T] [Sub T] [LinearOrder T] in
theorem dispatchLoop_spec : ∃ m, Dispatches relative slots n pending m ∧
    dispatchLoop relative slots n pending = (pending.take m, pending.drop m) := by
  induction pending generalizing n with
  | nil => exact ⟨0, ⟨le_rfl, by simp, by simp, by simp⟩, rfl⟩
  | cons ev pending ih =>
    have hstop : (relative < ev.frame ∨ frameCap ≤ n ∨ (ev.type = .Key ∧ slots n < 2)) →
        Dispatches relative slots n (ev :: pending) 0 := by
      refine fun hwhy => ⟨Nat.zero_le _, by simp, by simp, fun e he => ?_⟩
      obtain rfl := Option.some.inj he
      exact hwhy
    rw [dispatchLoop]
    split
    · rename_i hdue
      split
      · rename_i hkey
        exact ⟨0, hstop (.inr (.inr hkey)), rfl⟩
      · obtain ⟨m, hm, hloop⟩ := ih (n := n + 1)
        refine ⟨m + 1, ⟨Nat.succ_le_succ hm.le, fun _ => ?_, fun i e hi he => ?_, fun e he => ?_⟩,
          by rw [hloop]; rfl⟩
        · by_cases hzero : m = 0
          · subst hzero
            exact hdue.2
          · have := hm.cap hzero
            omega
        · cases i with
          | zero =>
            obtain rfl := Option.some.inj he
            exact hdue.1
          | succ i => exact hm.due i e (Nat.lt_of_succ_lt_succ hi) he
        · rw [show n + (m + 1) = n + 1 + m by omega]
          exact hm.stop e he
    · rename_i hnot
      refine ⟨0, hstop ?_, rfl⟩
      rcases not_and_or.1 hnot with hlate | hcap
      · exact .inl (UInt64.not_le.1 hlate)
      · exact .inr (.inl (not_lt.1 hcap))

/-- The frame of an event as the replay has it. -/
def due (events : List (InputEvent T δ)) (e : InputEvent T δ) : ℕ :=
  (normalize (frameBase events) e).frame.toNat

namespace FrameReplay

variable {s : FrameReplay T δ} {start frame : UInt64} {k : ℕ}

/-- A replay of `events` of which `k` have been dispatched. -/
structure Running (events : List (InputEvent T δ)) (start : UInt64) (s : FrameReplay T δ)
    (k : ℕ) : Prop where
  le : k ≤ events.length
  pending : s.frame_pending_events = (events.map (normalize (frameBase events))).drop k
  dispatched : s.frame_pending_dispatched = k
  active : s.frame_replay_active = true ↔ k < events.length
  started : k < events.length → s.frame_replay_start = start

/-- What one frame does: it dispatches `d` events. -/
structure Took (events : List (InputEvent T δ)) (dist : ℕ) (slots : ℕ → ℕ) (k d : ℕ) : Prop where
  le : k + d ≤ events.length
  cap : d ≤ frameCap
  onTime : ∀ i e, k ≤ i → i < k + d → events[i]? = some e → due events e ≤ dist
  stop : ∀ e, events[k + d]? = some e →
    dist < due events e ∨ d = frameCap ∨ (e.type = .Key ∧ slots d < 2)

theorem Running.dispatch (h : Running events start s k) (hstart : start ≤ frame) (slots : ℕ → ℕ) :
    ∃ d, Took events (frame.toNat - start.toNat) slots k d ∧
      Running events start (s.ReplayDispatchFrame frame slots).1 (k + d) ∧
      (s.ReplayDispatchFrame frame slots).2 =
        ((events.map (normalize (frameBase events))).drop k).take d ∧
      (s.ReplayDispatchFrame frame slots).2.length = d := by
  by_cases hk : k < events.length
  · have hactive : s.frame_replay_active ≠ false := by
      rw [(h.active.2 hk)]
      decide
    obtain ⟨d, hd, hloop⟩ := @dispatchLoop_spec T δ s.frame_pending_events
      (frame - s.frame_replay_start) slots 0
    have hdist : (frame - s.frame_replay_start).toNat = frame.toNat - start.toNat := by
      rw [h.started hk]
      exact UInt64.toNat_sub_of_le _ _ hstart
    have hlen : s.frame_pending_events.length = events.length - k := by
      rw [h.pending, List.length_drop, List.length_map]
    have hdk : k + d ≤ events.length := by
      have := hd.le
      omega
    have hget : ∀ {i e}, events[k + i]? = some e →
        s.frame_pending_events[i]? = some (normalize (frameBase events) e) := by
      intro i e he
      rw [h.pending, List.getElem?_drop, List.getElem?_map, he]
      rfl
    have hrun : s.ReplayDispatchFrame frame slots =
        ({ s with
          frame_pending_events := s.frame_pending_events.drop d
          frame_pending_dispatched := s.frame_pending_dispatched +
            (s.frame_pending_events.take d).length
          frame_replay_active := !(s.frame_pending_events.drop d).isEmpty },
          s.frame_pending_events.take d) := by
      rw [ReplayDispatchFrame, if_neg hactive, hloop]
    have hlength : (s.frame_pending_events.take d).length = d := by
      rw [List.length_take]
      exact min_eq_left hd.le
    refine ⟨d, ⟨hdk, ?_, fun i e hlo hhi he => ?_, fun e he => ?_⟩, ?_, ?_, ?_⟩
    · by_cases hzero : d = 0
      · omega
      · have := hd.cap hzero
        omega
    · obtain ⟨j, rfl⟩ := Nat.exists_eq_add_of_le hlo
      have hle := hd.due j _ (by omega) (hget he)
      rw [UInt64.le_iff_toNat_le, hdist] at hle
      exact hle
    · rcases hd.stop _ (hget he) with hlate | hcap | hkey
      · rw [UInt64.lt_iff_toNat_lt, hdist] at hlate
        exact .inl hlate
      · refine .inr (.inl ?_)
        by_cases hzero : d = 0
        · subst hzero
          exact absurd hcap (by decide)
        · have := hd.cap hzero
          omega
      · rw [Nat.zero_add] at hkey
        exact .inr (.inr hkey)
    · rw [hrun]
      refine ⟨hdk, ?_, ?_, ?_, fun hlt => h.started hk⟩
      · rw [h.pending, List.drop_drop]
      · rw [hlength, h.dispatched]
      · rw [Bool.not_eq_true', ← Bool.not_eq_true, List.isEmpty_iff, ← List.length_eq_zero_iff,
          List.length_drop, hlen]
        omega
    · rw [hrun, h.pending]
    · rw [hrun]
      exact hlength
  · have hactive : s.frame_replay_active = false := by
      rw [← Bool.not_eq_true, h.active]
      exact hk
    have hsame : s.ReplayDispatchFrame frame slots = (s, []) := by
      rw [ReplayDispatchFrame, if_pos hactive]
    rw [hsame]
    have hend : k = events.length := le_antisymm h.le (not_lt.1 hk)
    refine ⟨0, ⟨h.le, Nat.zero_le _, fun i e hlo hhi => by omega, fun e he => ?_⟩, h, rfl, rfl⟩
    rw [List.getElem?_eq_none (by omega)] at he
    cases he

theorem Idle.running {s₀ : FrameReplay T δ} (h : s₀.Idle)
    (hok : s₀.ExecuteFrameBased events start = .ok s) : Running events start s 0 := by
  rw [ExecuteFrameBased, if_neg (by rw [h.inactive]; decide), h.pending, List.nil_append] at hok
  dsimp only at hok
  split at hok
  · rename_i hne
    obtain rfl := Except.ok.inj hok
    have hlen : 0 < events.length :=
      List.length_pos_iff.2 fun hnil => hne (by rw [hnil]; rfl)
    exact ⟨Nat.zero_le _, rfl, rfl, iff_of_true rfl hlen, fun _ => rfl⟩
  · rename_i hnil
    obtain rfl := Except.ok.inj hok
    obtain rfl := List.map_eq_nil_iff.1 (not_not.1 hnil)
    refine ⟨Nat.zero_le _, rfl, rfl, iff_of_false ?_ (lt_irrefl 0), fun hlt => absurd hlt ?_⟩
    · exact h.inactive ▸ Bool.false_ne_true
    · exact lt_irrefl 0

/-- The calls of `ReplayDispatchFrame`, one after the other. -/
def run (s : FrameReplay T δ) (calls : List (UInt64 × (ℕ → ℕ))) : FrameReplay T δ :=
  calls.foldl (fun s c => (s.ReplayDispatchFrame c.1 c.2).1) s

/-- Who is timed by `t` at the latest in every call has dispatched no later event by then. -/
theorem Running.offset_le {calls : List (UInt64 × (ℕ → ℕ))} {t : ℕ} (h : Running events start s k)
    (hfrom : ∀ c ∈ calls, start ≤ c.1) (ht : ∀ c ∈ calls, c.1.toNat - start.toNat ≤ t)
    (htimed : AllTimed events start s calls) :
    ∃ k', Running events start (s.run calls) k' ∧
      ∀ i e, k ≤ i → i < k' → events[i]? = some e → offset events e ≤ t := by
  induction calls generalizing s k with
  | nil => exact ⟨k, h, fun i e hlo hhi => absurd hhi (not_lt.2 hlo)⟩
  | cons c calls ih =>
    obtain ⟨hfirst, -, hrest⟩ := htimed
    obtain ⟨d, -, hnext, -, hlen⟩ := h.dispatch (hfrom c List.mem_cons_self) c.2
    obtain ⟨k', hrun, hoff⟩ := ih hnext (fun c' hc' => hfrom c' (List.mem_cons_of_mem _ hc'))
      (fun c' hc' => ht c' (List.mem_cons_of_mem _ hc')) hrest
    refine ⟨k', hrun, fun i e hlo hhi he => ?_⟩
    rcases lt_or_ge i (k + d) with hnow | hlater
    · refine (hfirst.notEarly i e ?_ ?_ he).trans (ht c List.mem_cons_self)
      · rw [h.dispatched]
        exact hlo
      · rw [h.dispatched, hlen]
        exact hnow
    · exact hoff i e hlater hhi he

end FrameReplay

/-! ## The two offsets -/

omit [Sub T] in
/-- `frame_base` is no less than any frame that none of the events is before. -/
theorem le_frameBase {m : ℕ} (hm : ∀ e ∈ events, m ≤ e.frame.toNat) (hne : events ≠ []) :
    m ≤ (frameBase events).1.toNat := by
  induction events with
  | nil => exact absurd rfl hne
  | cons ev events ih =>
    have hev := hm ev List.mem_cons_self
    rw [frameBase]
    split
    · exact hev
    · rename_i hzero
      have hframe : ev.frame = 0 := by
        have := (not_or.1 hzero).1
        exact UInt64.toNat.inj (by simpa [UInt64.lt_iff_toNat_lt] using this)
      rw [hframe] at hev
      exact hev.trans (Nat.zero_le _)

variable {e : InputEvent T δ}

omit [LinearOrder T] [Zero T] [Sub T] in
theorem firstFrame_le (hsorted : events.Pairwise (fun e f => e.frame ≤ f.frame)) (he : e ∈ events) :
    firstFrame events ≤ e.frame.toNat := by
  cases events with
  | nil => cases he
  | cons ev events =>
    rcases List.mem_cons.1 he with rfl | hmem
    · exact le_rfl
    · exact UInt64.le_iff_toNat_le.1 (List.rel_of_pairwise_cons hsorted hmem)

theorem due_eq (e : InputEvent T δ) :
    due events e = e.frame.toNat - (frameBase events).1.toNat := by
  by_cases hle : (frameBase events).1 ≤ e.frame
  · rw [due, normalize, if_pos hle]
    exact UInt64.toNat_sub_of_le _ _ hle
  · have hlt := UInt64.lt_iff_toNat_lt.1 (UInt64.not_le.1 hle)
    rw [due, normalize, if_neg hle, Nat.sub_eq_zero_of_le hlt.le]
    rfl

theorem due_le_offset (hsorted : events.Pairwise (fun e f => e.frame ≤ f.frame)) (he : e ∈ events) :
    due events e ≤ offset events e := by
  have hbase : firstFrame events ≤ (frameBase events).1.toNat :=
    le_frameBase (fun f hf => firstFrame_le hsorted hf) (List.ne_nil_of_mem he)
  rw [due_eq, offset]
  exact Nat.sub_le_sub_left hbase _

theorem due_mono (hsorted : events.Pairwise (fun e f => e.frame ≤ f.frame)) {i j : ℕ}
    {f : InputEvent T δ} (hij : i ≤ j) (he : events[i]? = some e) (hf : events[j]? = some f) :
    due events e ≤ due events f := by
  have hframe : e.frame.toNat ≤ f.frame.toNat := by
    rcases hij.eq_or_lt with rfl | hlt
    · obtain rfl := Option.some.inj (he.symm.trans hf)
      exact le_rfl
    · obtain ⟨hi, rfl⟩ := List.getElem?_eq_some_iff.1 he
      obtain ⟨hj, rfl⟩ := List.getElem?_eq_some_iff.1 hf
      exact UInt64.le_iff_toNat_le.1 (List.pairwise_iff_getElem.1 hsorted i j hi hj hlt)
  rw [due_eq, due_eq]
  exact Nat.sub_le_sub_right hframe _

/-! ## Runs -/

/-- The cap alone keeps event `i` back by a frame for each 500 events since one that is due no
earlier than the difference. -/
def HeldBack (events : List (InputEvent T δ)) (i : ℕ) (e : InputEvent T δ) : Prop :=
  ∃ j f, j ≤ i ∧ events[j]? = some f ∧ offset events e ≤ due events f + (i - j) / frameCap

/-- Of the `k` events dispatched before the distance `t` each has come no earlier than it was
due, and 500 at a time. -/
def Paced (events : List (InputEvent T δ)) (k t : ℕ) : Prop :=
  ∀ j f, j < k → events[j]? = some f → due events f + (k - 1 - j) / frameCap < t

/-- A recording whose first event moves the frame or the time is never early. -/
theorem heldBack_of_frameBase (hbase : (frameBase events).1.toNat = firstFrame events) {i : ℕ}
    (he : events[i]? = some e) : HeldBack events i e := by
  refine ⟨i, e, le_rfl, he, ?_⟩
  rw [due_eq, offset, hbase]
  exact Nat.le_add_right _ _

namespace FrameReplay

variable {s : FrameReplay T δ} {start frame : UInt64} {k d dist t : ℕ}

theorem Took.paced (h : Took events dist slots k d) (hpaced : Paced events k t) (ht : t ≤ dist) :
    Paced events (k + d) (dist + 1) := by
  intro j f hj hf
  have hcap : d ≤ 500 := h.cap
  rw [frameCap]
  rcases lt_or_ge j k with hold | hnew
  · have hlt : due events f + (k - 1 - j) / 500 < t := hpaced j f hold hf
    rcases Nat.eq_zero_or_pos d with rfl | hpos
    · rw [Nat.add_zero]
      omega
    · omega
  · have hdue := h.onTime j f hnew hj hf
    omega

theorem Took.timed (h : Took events dist slots k d)
    (hsorted : events.Pairwise (fun e f => e.frame ≤ f.frame))
    (hheld : ∀ i e, events[i]? = some e → HeldBack events i e)
    (hpaced : Paced events k t) (ht : t ≤ dist) {active : Bool}
    (hactive : active = true ↔ k + d < events.length) :
    Timed events dist slots k (((events.map (normalize (frameBase events))).drop k).take d)
      active := by
  have hlen : (((events.map (normalize (frameBase events))).drop k).take d).length = d := by
    have := h.le
    rw [List.length_take, List.length_drop, List.length_map]
    omega
  refine ⟨?_, fun i e hlo hhi he => ?_, fun i e hi he hoff => ?_, ?_⟩
  · rw [hlen, ← List.map_drop, ← List.map_take, List.map_map]
    rfl
  · rw [hlen] at hhi
    obtain ⟨j, f, hji, hf, hle⟩ := hheld i e he
    have hcap : d ≤ 500 := h.cap
    rw [frameCap] at hle
    rcases lt_or_ge j k with hold | hnew
    · have hlt : due events f + (k - 1 - j) / 500 < t := hpaced j f hold hf
      omega
    · have hdue := h.onTime j f hnew (by omega) hf
      omega
  · rw [hlen] at hi ⊢
    have hstopped : k + d < events.length :=
      lt_of_le_of_lt hi (List.getElem?_eq_some_iff.1 he).1
    obtain ⟨e', he'⟩ : ∃ e', events[k + d]? = some e' :=
      ⟨_, List.getElem?_eq_getElem hstopped⟩
    have hdue : due events e' ≤ dist :=
      ((due_mono hsorted hi he' he).trans
        (due_le_offset hsorted (List.mem_of_getElem? he))).trans hoff
    rcases h.stop e' he' with hlate | hcap | hkey
    · omega
    · exact .inl hcap
    · exact .inr ⟨e', he', hkey⟩
  · rw [hlen]
    exact hactive

/-- A run keeps the timing of a recording whose events are held back for long enough. -/
theorem Running.allTimed {calls : List (UInt64 × (ℕ → ℕ))}
    (hsorted : events.Pairwise (fun e f => e.frame ≤ f.frame))
    (hheld : ∀ i e, events[i]? = some e → HeldBack events i e)
    (h : Running events start s k) (hpaced : Paced events k t)
    (hcalls : Increasing start calls) (ht : ∀ c ∈ calls, t ≤ c.1.toNat - start.toNat) :
    AllTimed events start s calls := by
  induction calls generalizing s k t with
  | nil => trivial
  | cons c calls ih =>
    have hstart := hcalls.from_start c List.mem_cons_self
    obtain ⟨d, htook, hnext, hevents, hlen⟩ := h.dispatch hstart c.2
    have hnow := ht c List.mem_cons_self
    refine ⟨?_, ?_, ih hnext (htook.paced hpaced hnow) ⟨?_, ?_⟩ fun c' hc' => ?_⟩
    · rw [h.dispatched, hevents]
      exact htook.timed hsorted hheld hpaced hnow hnext.active
    · rw [hnext.dispatched, hlen, h.dispatched]
    · exact (List.pairwise_cons.1 hcalls.sorted).2
    · exact fun c' hc' => hcalls.from_start c' (List.mem_cons_of_mem _ hc')
    · have hlt := UInt64.lt_iff_toNat_lt.1
        (List.rel_of_pairwise_cons hcalls.sorted (List.mem_map_of_mem hc'))
      have := UInt64.le_iff_toNat_le.1 hstart
      omega

/-! ## The quickest replay -/

/-- The first `n` frames from frame 0 on, with a keyboard that never fills up. -/
def quickest (n : ℕ) : List (UInt64 × (ℕ → ℕ)) :=
  (List.range n).map fun i => (UInt64.ofNat i, fun _ => 2)

theorem quickest_increasing (hn : n ≤ 2 ^ 64) : Increasing 0 (quickest n) := by
  refine ⟨?_, fun c _ => UInt64.le_iff_toNat_le.2 (Nat.zero_le _)⟩
  rw [quickest, List.map_map, List.pairwise_map]
  refine List.pairwise_lt_range.imp_of_mem fun {i j} hi hj hlt => ?_
  rw [List.mem_range] at hi hj
  rw [UInt64.lt_iff_toNat_lt]
  simp only [Function.comp_apply, UInt64.toNat_ofNat']
  omega

/-- In its first `n` frames an event is dispatched whose predecessors allow it. -/
theorem Running.quickest (h : Running events 0 s 0) (hn : n ≤ 2 ^ 64) :
    ∃ k, Running events 0 (s.run (quickest n)) k ∧
      ∀ i, i < events.length →
        (∀ j f, j ≤ i → events[j]? = some f → due events f + (i - j) / frameCap < n) → i < k := by
  induction n with
  | zero =>
    refine ⟨0, h, fun i hi hdue => ?_⟩
    exact absurd (hdue i _ le_rfl (List.getElem?_eq_getElem hi)) (Nat.not_lt_zero _)
  | succ n ih =>
    obtain ⟨k, hk, hbefore⟩ := ih (by omega)
    have hsplit : s.run (FrameReplay.quickest (n + 1)) =
        ((s.run (FrameReplay.quickest n)).ReplayDispatchFrame (UInt64.ofNat n) fun _ => 2).1 := by
      rw [run, FrameReplay.quickest, List.range_succ, List.map_append, List.foldl_append]
      rfl
    have hdist : (UInt64.ofNat n).toNat - (0 : UInt64).toNat = n := by
      rw [UInt64.toNat_ofNat', UInt64.toNat_zero]
      omega
    obtain ⟨d, htook, hnext, -⟩ :=
      hk.dispatch (UInt64.le_iff_toNat_le.2 (Nat.zero_le (UInt64.ofNat n).toNat)) fun _ => 2
    rw [hdist] at htook
    rw [hsplit]
    refine ⟨k + d, hnext, fun i hi hdue => ?_⟩
    by_contra hlate
    have hstopped : k + d < events.length := by omega
    have hnow := hdue (k + d) _ (not_lt.1 hlate) (List.getElem?_eq_getElem hstopped)
    rcases htook.stop _ (List.getElem?_eq_getElem hstopped) with hlater | hcap | hkey
    · rw [frameCap] at hnow
      omega
    · -- a full frame: the event 500 places earlier was through before it
      rw [frameCap] at hcap
      have hprev : i - 500 < k := by
        refine hbefore (i - 500) (by omega) fun j f hj hf => ?_
        have := hdue j f (by omega) hf
        rw [frameCap] at this ⊢
        omega
      omega
    · exact absurd hkey.2 (lt_irrefl 2)

end FrameReplay

/-- **Replay and timing.** The replays of a recording with non-decreasing frames, started while
nothing else is replayed, keep its timing exactly when no event is due too early.  The base is
taken from the first event with a frame or a time: where the recording begins with events at frame
0 and time 0 and goes on at a later frame, all later events are due too early by that frame, and
only a full frame of 500 events can make up for one. -/
theorem replay_keeps_timing_iff (hsorted : events.Pairwise (fun e f => e.frame ≤ f.frame)) :
    (∀ (s₀ : FrameReplay T δ) (start : UInt64) (s : FrameReplay T δ), s₀.Idle →
      s₀.ExecuteFrameBased events start = .ok s →
      ∀ calls, Increasing start calls → AllTimed events start s calls) ↔
    ∀ i e, events[i]? = some e → HeldBack events i e := by
  constructor
  · intro htimed i e he
    by_contra hearly
    let idle : FrameReplay T δ := ⟨[], false, 0, 0, 0⟩
    have hidle : idle.Idle := ⟨rfl, rfl⟩
    obtain ⟨s, hs⟩ : ∃ s, idle.ExecuteFrameBased events 0 = .ok s := by
      simp only [FrameReplay.ExecuteFrameBased, idle]
      split
      · exact absurd ‹_› Bool.false_ne_true
      · split
        · exact ⟨_, rfl⟩
        · exact ⟨_, rfl⟩
    have hrunning := hidle.running hs
    have hdue : ∀ j f, j ≤ i → events[j]? = some f →
        due events f + (i - j) / frameCap < offset events e := by
      intro j f hj hf
      exact not_le.1 fun hle => hearly ⟨j, f, hj, hf, hle⟩
    have hlt : offset events e < 2 ^ 64 :=
      lt_of_le_of_lt (Nat.sub_le _ _) e.frame.toNat_lt
    have hpos := hdue i e le_rfl he
    obtain ⟨k, hk, hthrough⟩ := hrunning.quickest hlt.le
    have hi := hthrough i (List.getElem?_eq_some_iff.1 he).1 hdue
    have hdist : ∀ c ∈ FrameReplay.quickest (offset events e),
        c.1.toNat - (0 : UInt64).toNat ≤ offset events e - 1 := by
      intro c hc
      obtain ⟨n, hn, rfl⟩ := List.mem_map.1 hc
      rw [List.mem_range] at hn
      rw [UInt64.toNat_ofNat', UInt64.toNat_zero]
      omega
    have hall := htimed idle 0 s hidle hs _ (FrameReplay.quickest_increasing hlt.le)
    obtain ⟨k', hk', hoff⟩ := hrunning.offset_le
      (fun c _ => UInt64.le_iff_toNat_le.2 (Nat.zero_le _)) hdist hall
    rw [hk.dispatched.symm.trans hk'.dispatched] at hi
    have hle := hoff i e (Nat.zero_le _) hi he
    rw [frameCap] at hpos
    omega
  · intro hheld s₀ start s hidle hs calls hcalls
    exact (hidle.running hs).allTimed hsorted hheld (fun j f hj => absurd hj (Nat.not_lt_zero _))
      hcalls fun c _ => Nat.zero_le _

/-- Two events five frames apart, the first of them before the recording's clock has moved. -/
def lateBase : List (InputEvent ℕ ℕ) := [⟨0, 0, .MouseMove, 1⟩, ⟨100, 5, .MouseMove, 2⟩]

theorem replay_keeps_timing_shifted : ∃ s,
    (⟨[], false, 0, 0, 0⟩ : FrameReplay ℕ ℕ).ExecuteFrameBased
      [⟨20, 3, .Key, 1⟩, ⟨100, 8, .MouseMove, 2⟩] 3 = .ok s ∧
    AllTimed [⟨20, 3, .Key, 1⟩, ⟨100, 8, .MouseMove, 2⟩] 3 s [(5, fun _ => 8)] := by
  have hheld := (@replay_keeps_timing_iff ℕ ℕ _ _ _
    [⟨20, 3, .Key, 1⟩, ⟨100, 8, .MouseMove, 2⟩] (by decide)).2
    fun i e he => heldBack_of_frameBase rfl he
  refine ⟨_, rfl, hheld ⟨[], false, 0, 0, 0⟩ 3 _ ⟨rfl, rfl⟩ rfl _ ⟨?_, ?_⟩⟩
  · exact List.pairwise_singleton _ _
  · intro c hc
    obtain rfl := List.mem_singleton.1 hc
    decide

/-- Both events go out with the first frame. -/
theorem lateBase_early :
    ∃ s₀ s : FrameReplay ℕ ℕ, s₀.Idle ∧ s₀.ExecuteFrameBased lateBase 0 = .ok s ∧
      (s.ReplayDispatchFrame 0 fun _ => 8).2.map (·.data) = [1, 2] ∧
      Increasing 0 [(0, fun _ => 8)] ∧ ¬AllTimed lateBase 0 s [(0, fun _ => 8)] := by
  refine ⟨⟨[], false, 0, 0, 0⟩, _, ⟨rfl, rfl⟩, rfl, rfl, ⟨?_, ?_⟩, ?_⟩
  · exact List.pairwise_singleton _ _
  · exact fun c _ => UInt64.le_iff_toNat_le.2 (Nat.zero_le _)
  · rintro ⟨hfirst, -⟩
    exact absurd (hfirst.notEarly 1 _ (by decide) (by decide) rfl) (by decide)

end Webserver

end AugraDosbox
