import Mathlib.Algebra.GroupWithZero.Nat
import Mathlib.Data.List.Nodup
import Mathlib.Data.List.Sublists
import Mathlib.Logic.Function.Basic
import Mathlib.Logic.Relation

/-!
# The command bridge between the web server and the emulation

`Bridge::ExecuteCommand` and `Bridge::ProcessRequests`.  A call puts a pointer to a
command object on its own stack into the queue and waits; the emulation thread
executes what is queued.  Every critical section is one action here, and between
two of them any other action may happen.

* `Bridge.act` — the critical sections, over commands and an emulated machine of any
  kind.
* `Bridge.Inv` — what is queued has not been executed, and what is done is no longer
  queued.
* `reachable_exactlyOnce` — **in every run in which no command throws, a call that
  returns had its command executed exactly once.**
* `thrown_pass_runs_twice` — after a command has thrown, an earlier one of the same
  pass is executed again.
-/

namespace AugraDosbox

namespace Webserver

/-- How far a call of `ExecuteCommand` has come. -/
inductive Phase where
  | idle
  | waiting
  | returned
  | timedOut
  deriving DecidableEq, Repr

/-- A call that has returned or thrown. -/
def Phase.Ended (p : Phase) : Prop := p = .returned ∨ p = .timedOut

/-- What a call of the virtual `Execute` does to the command object and to the
machine. -/
inductive Outcome (γ ω : Type) where
  | returns (cmd : γ) (world : ω)
  | throws (cmd : γ) (world : ω)

/-- What has happened, with the machine before and after a command. -/
inductive Event (ω : Type) where
  | enqueued (c : ℕ)
  | executed (c : ℕ) (before after : ω)
  | returned (c : ℕ)
  | timedOut (c : ℕ)

/-- The bridge, the command objects of all calls, and the emulated machine.  A call
is named by a number, and so is the pointer to its command. -/
structure Bridge (ω γ : Type) where
  world : ω
  queue : List ℕ
  cmd : ℕ → γ
  done : ℕ → Bool
  phase : ℕ → Phase
  log : List (Event ω)

namespace Bridge

variable {ω γ : Type}

/-! ## The critical sections -/

/-- `ExecuteCommand` up to its wait. -/
def enqueue (b : Bridge ω γ) (c : ℕ) : Bridge ω γ :=
  { b with
    done := Function.update b.done c false
    queue := b.queue ++ [c]
    phase := Function.update b.phase c .waiting
    log := b.log ++ [.enqueued c] }

/-- The normal end of `ExecuteCommand`. -/
def finish (b : Bridge ω γ) (c : ℕ) : Bridge ω γ :=
  { b with
    phase := Function.update b.phase c .returned
    log := b.log ++ [.returned c] }

/-- The end of `ExecuteCommand` when the wait has failed: the first pointer to the
command is erased. -/
def giveUp (b : Bridge ω γ) (c : ℕ) : Bridge ω γ :=
  { b with
    queue := b.queue.erase c
    phase := Function.update b.phase c .timedOut
    log := b.log ++ [.timedOut c] }

/-- `wait_for` after a wake-up. -/
def wake (b : Bridge ω γ) (c : ℕ) : Bridge ω γ := if b.done c then b.finish c else b

/-- `wait_for` at its timeout. -/
def timeout (b : Bridge ω γ) (c : ℕ) : Bridge ω γ := if b.done c then b.finish c else b.giveUp c

variable (Execute : γ → ω → Outcome γ ω)

/-- One round of the loop of `ProcessRequests`: `false` where `Execute` throws. -/
def executeOne (b : Bridge ω γ) (c : ℕ) : Bool × Bridge ω γ :=
  match Execute (b.cmd c) b.world with
  | .returns cmd world =>
      (true, { b with
        world := world
        cmd := Function.update b.cmd c cmd
        done := Function.update b.done c true
        log := b.log ++ [.executed c b.world world] })
  | .throws cmd world =>
      (false, { b with
        world := world
        cmd := Function.update b.cmd c cmd
        log := b.log ++ [.executed c b.world world] })

/-- The loop of `ProcessRequests`, left where a command throws. -/
def executeAll (b : Bridge ω γ) : List ℕ → Bool × Bridge ω γ
  | [] => (true, b)
  | c :: rest =>
      match b.executeOne Execute c with
      | (true, b) => executeAll b rest
      | (false, b) => (false, b)

def ProcessRequests (b : Bridge ω γ) : Bridge ω γ :=
  if b.queue = [] then b
  else
    match b.executeAll Execute b.queue with
    | (true, b) => { b with queue := [] }
    | (false, b) => b

/-- What can happen next.  `guest` is the emulated machine running on. -/
inductive Action (ω : Type) where
  | enqueue (c : ℕ)
  | wake (c : ℕ)
  | timeout (c : ℕ)
  | processRequests
  | guest (world : ω)

/-- One action, where it is possible. -/
def act (b : Bridge ω γ) : Action ω → Option (Bridge ω γ)
  | .enqueue c => if b.phase c = .idle then some (b.enqueue c) else none
  | .wake c => if b.phase c = .waiting then some (b.wake c) else none
  | .timeout c => if b.phase c = .waiting then some (b.timeout c) else none
  | .processRequests => some (b.ProcessRequests Execute)
  | .guest world => some { b with world := world }

/-- No call has been made. -/
structure Initial (b : Bridge ω γ) : Prop where
  queue : b.queue = []
  phase : ∀ c, b.phase c = .idle
  log : b.log = []

/-! ## What the log says -/

end Bridge

namespace Event

variable {ω : Type}

/-- The command that was executed. -/
def executes : Event ω → Option ℕ
  | executed c _ _ => some c
  | _ => none

/-- The command that was put into the queue. -/
def enqueues : Event ω → Option ℕ
  | enqueued c => some c
  | _ => none

/-- The call that came to its end. -/
def ends : Event ω → Option ℕ
  | returned c => some c
  | timedOut c => some c
  | _ => none

end Event

namespace Bridge

variable {ω γ : Type} {Execute : γ → ω → Outcome γ ω} {b b' : Bridge ω γ} {c : ℕ}

/-- The commands that were executed, in order. -/
def executed (b : Bridge ω γ) : List ℕ := b.log.filterMap Event.executes

/-- The commands that were put into the queue, in order. -/
def enqueued (b : Bridge ω γ) : List ℕ := b.log.filterMap Event.enqueues

/-- The calls that came to their end, in order. -/
def ended (b : Bridge ω γ) : List ℕ := b.log.filterMap Event.ends

/-- The machine goes from `w` to `w'` through the logged commands; `view` is the part of
it that nothing else changes. -/
inductive Traced {κ : Type} (view : ω → κ) : κ → List (Event ω) → κ → Prop where
  | nil (v : κ) : Traced view v [] v
  | skip {v v' : κ} {e : Event ω} {l : List (Event ω)} (he : e.executes = none)
      (h : Traced view v l v') : Traced view v (e :: l) v'
  | command {v' : κ} {c : ℕ} {before after : ω} {l : List (Event ω)}
      (h : Traced view (view after) l v') :
      Traced view (view before) (.executed c before after :: l) v'

variable {κ : Type} {l : List (Event ω)} {e : Event ω} {b₀ : Bridge ω γ}

theorem Traced.append {view : ω → κ} {v v₁ v' : κ} {l' : List (Event ω)} (h : Traced view v l v₁)
    (h' : Traced view v₁ l' v') : Traced view v (l ++ l') v' := by
  induction h with
  | nil v => exact h'
  | skip he _ ih => exact .skip he (ih h')
  | command _ ih => exact .command (ih h')

/-- What no logged command changes holds at the end. -/
theorem Traced.keep {view : ω → κ} {v v' : κ} {P : κ → Prop} (h : Traced view v l v') (hv : P v)
    (hP : ∀ c w w', .executed c w w' ∈ l → P (view w) → P (view w')) : P v' := by
  induction h with
  | nil v => exact hv
  | skip _ _ ih => exact ih hv fun c w w' hc => hP c w w' (List.mem_cons_of_mem _ hc)
  | command _ ih =>
    exact ih (hP _ _ _ List.mem_cons_self hv) fun c w w' hc => hP c w w' (List.mem_cons_of_mem _ hc)

theorem Traced.after {view : ω → κ} {v v' : κ} {l₁ l₂ : List (Event ω)} {before after : ω}
    (h : Traced view v (l₁ ++ .executed c before after :: l₂) v') :
    Traced view (view after) l₂ v' := by
  induction l₁ generalizing v with
  | nil =>
    cases h with
    | skip he _ => cases he
    | command h => exact h
  | cons e l₁ ih =>
    cases h with
    | skip _ h => exact ih h
    | command h => exact ih h

/-- What a pass over `l` does in which no command throws. -/
structure Pass (Execute : γ → ω → Outcome γ ω) (b : Bridge ω γ) (l : List ℕ) (b' : Bridge ω γ) :
    Prop where
  queue : b'.queue = b.queue
  phase : b'.phase = b.phase
  done : ∀ c, b'.done c = if c ∈ l then true else b.done c
  cmd : ∀ c, c ∉ l → b'.cmd c = b.cmd c
  log : ∃ new, b'.log = b.log ++ new ∧ new.filterMap Event.executes = l ∧
    new.filterMap Event.enqueues = [] ∧ new.filterMap Event.ends = [] ∧
    Traced id b.world new b'.world ∧ (l.Nodup → ∀ c w w', .executed c w w' ∈ new →
      Execute (b.cmd c) w = .returns (b'.cmd c) w')

theorem executeAll_pass {l : List ℕ} : ∀ {b : Bridge ω γ}, (b.executeAll Execute l).1 = true →
    Pass Execute b l (b.executeAll Execute l).2 := by
  induction l with
  | nil =>
    exact fun {b} _ => ⟨rfl, rfl, fun c => rfl, fun c _ => rfl, [], by simp [executeAll], rfl, rfl,
      rfl, .nil _, by simp⟩
  | cons c rest ih =>
    intro b hok
    rw [executeAll] at hok ⊢
    unfold executeOne at hok ⊢
    cases hrun : Execute (b.cmd c) b.world with
    | throws cmd world =>
      rw [hrun] at hok
      exact absurd hok (by simp)
    | returns cmd world =>
      rw [hrun] at hok
      obtain ⟨hqueue, hphase, hdone, hcmd, new, hlog, hexec, henq, hend, htraced, hresult⟩ := ih hok
      refine ⟨hqueue, hphase, fun d => ?_, fun d hd => ?_, .executed c b.world world :: new, ?_, ?_,
        ?_, ?_, .command htraced, fun hnodup d w w' hd => ?_⟩
      · rw [hdone]
        by_cases hdc : d = c
        · subst hdc
          simp
        · simp [hdc]
      · rw [List.mem_cons, not_or] at hd
        exact (hcmd d hd.2).trans (Function.update_of_ne hd.1 _ _)
      · exact hlog.trans (by simp)
      · rw [List.filterMap_cons_some (by rfl), hexec]
      · rw [List.filterMap_cons_none (by rfl), henq]
      · rw [List.filterMap_cons_none (by rfl), hend]
      · obtain ⟨hnot, hnodup⟩ := List.nodup_cons.1 hnodup
        rcases List.mem_cons.1 hd with heq | hd'
        · obtain ⟨rfl, rfl, rfl⟩ := Event.executed.inj heq
          rw [hcmd d hnot, hrun]
          simp
        · have hdc : d ≠ c := by
            rintro rfl
            rw [← hexec] at hnot
            exact hnot (List.mem_filterMap.2 ⟨.executed d w w', hd', rfl⟩)
          have hupdate : Function.update b.cmd c cmd d = b.cmd d := Function.update_of_ne hdc _ _
          exact hupdate ▸ hresult hnodup d w w' hd'

/-! ## The invariant -/

/-- What is queued has not been executed, what is done is no longer queued, and
nothing is executed after the end of its call. -/
structure Inv (b : Bridge ω γ) : Prop where
  nodup : b.queue.Nodup
  queued : ∀ c ∈ b.queue, b.phase c = .waiting ∧ b.done c = false
  served : ∀ c, b.phase c = .waiting → c ∉ b.queue → b.done c = true ∧ c ∈ b.executed
  idle : ∀ c, b.phase c = .idle → c ∉ b.enqueued
  returned : ∀ c, b.phase c = .returned → c ∈ b.executed ∧ .returned c ∈ b.log
  timedOut : ∀ c, b.phase c = .timedOut → c ∉ b.executed
  unique : b.enqueued.Nodup
  order : (b.executed ++ b.queue).Sublist b.enqueued
  ended : ∀ c ∈ b.ended, (b.phase c).Ended
  quiet : b.log.Pairwise fun e e' => ∀ c, e.ends = some c → e'.executes ≠ some c

theorem Initial.inv (h : b.Initial) : b.Inv := by
  obtain ⟨hqueue, hphase, hlog⟩ := h
  constructor <;> simp [hqueue, hphase, hlog, executed, enqueued, ended]

theorem Inv.nodup_executed (h : b.Inv) : (b.executed ++ b.queue).Nodup :=
  h.unique.sublist h.order

theorem Inv.not_executed (h : b.Inv) (hc : c ∈ b.queue) : c ∉ b.executed := fun hex =>
  List.disjoint_of_nodup_append h.nodup_executed hex hc

theorem Inv.not_queued (h : b.Inv) (hc : b.phase c ≠ .waiting) : c ∉ b.queue := fun hmem =>
  hc (h.queued c hmem).1

/-- The invariant after an event of the call `c` that executes nothing. -/
theorem Inv.move (h : b.Inv) (hc : ¬ (b.phase c).Ended) {p : Phase} {q : List ℕ} {v : ℕ → Bool}
    (hp : p ≠ .idle) (he : e.executes = none) (hnodup : q.Nodup)
    (hq : ∀ d, d ≠ c → (d ∈ q ↔ d ∈ b.queue)) (hqueued : c ∈ q ↔ p = .waiting)
    (hdone : ∀ d, d ≠ c → v d = b.done d) (hv : c ∈ q → v c = false)
    (hreturned : p = .returned → c ∈ b.executed ∧ e = .returned c)
    (htimedOut : p = .timedOut → c ∉ b.executed) (henq : ∀ d, e.enqueues = some d → d = c)
    (hunique : (b.enqueued ++ e.enqueues.toList).Nodup)
    (horder : (b.executed ++ q).Sublist (b.enqueued ++ e.enqueues.toList))
    (hends : ∀ d, e.ends = some d → d = c ∧ p.Ended) :
    { b with queue := q, done := v, phase := Function.update b.phase c p,
             log := b.log ++ [e] : Bridge ω γ }.Inv := by
  set b' := { b with queue := q, done := v, phase := Function.update b.phase c p,
                     log := b.log ++ [e] : Bridge ω γ }
  have hexec' : b'.executed = b.executed := by
    simp only [executed, b', List.filterMap_append, List.filterMap_cons_none he,
      List.filterMap_nil, List.append_nil]
  have hlog : ∀ f : Event ω → Option ℕ, b'.log.filterMap f = b.log.filterMap f ++ (f e).toList := by
    intro f
    cases hf : f e <;> simp [b', hf]
  have henq' : b'.enqueued = b.enqueued ++ e.enqueues.toList := hlog _
  have hend' : b'.ended = b.ended ++ e.ends.toList := hlog _
  have hself : b'.phase c = p := Function.update_self ..
  have hphase : ∀ {d}, d ≠ c → b'.phase d = b.phase d := fun hd => Function.update_of_ne hd _ _
  constructor
  · exact hnodup
  · intro d hd
    by_cases hdc : d = c
    · subst hdc
      exact ⟨hself.trans (hqueued.1 hd), hv hd⟩
    · rw [hphase hdc, show b'.done d = b.done d from hdone d hdc]
      exact h.queued d ((hq d hdc).1 hd)
  · intro d hd hnot
    by_cases hdc : d = c
    · subst hdc
      exact absurd (hqueued.2 (hself.symm.trans hd)) hnot
    · rw [hphase hdc] at hd
      rw [show b'.done d = b.done d from hdone d hdc, hexec']
      exact h.served d hd fun hmem => hnot ((hq d hdc).2 hmem)
  · intro d hd
    by_cases hdc : d = c
    · subst hdc
      exact absurd (hself.symm.trans hd) hp
    · rw [hphase hdc] at hd
      rw [henq', List.mem_append, Option.mem_toList]
      exact fun hmem => hmem.elim (h.idle d hd) fun hde => hdc (henq d hde)
  · intro d hd
    rw [hexec']
    by_cases hdc : d = c
    · subst hdc
      obtain ⟨hex, rfl⟩ := hreturned (hself.symm.trans hd)
      exact ⟨hex, List.mem_append_right _ (List.mem_singleton_self _)⟩
    · obtain ⟨hex, hin⟩ := h.returned d ((hphase hdc).symm.trans hd)
      exact ⟨hex, List.mem_append_left _ hin⟩
  · intro d hd
    rw [hexec']
    by_cases hdc : d = c
    · subst hdc
      exact htimedOut (hself.symm.trans hd)
    · exact h.timedOut d ((hphase hdc).symm.trans hd)
  · rw [henq']
    exact hunique
  · rw [hexec', henq']
    exact horder
  · intro d hd
    rw [hend', List.mem_append, Option.mem_toList] at hd
    rcases hd with hd | hd
    · have hdc : d ≠ c := by
        rintro rfl
        exact hc (h.ended d hd)
      rw [hphase hdc]
      exact h.ended d hd
    · obtain ⟨rfl, hp'⟩ := hends d hd
      rw [hself]
      exact hp'
  · refine List.pairwise_append.2 ⟨h.quiet, List.pairwise_singleton _ _, fun _ _ e' he' d _ => ?_⟩
    rw [List.mem_singleton.1 he', he]
    simp

theorem Inv.enqueue (h : b.Inv) (hc : b.phase c = .idle) : (b.enqueue c).Inv := by
  have hnot : c ∉ b.queue := h.not_queued (by rw [hc]; decide)
  have hfresh : ∀ {l : List ℕ}, l.Nodup → c ∉ l → (l ++ [c]).Nodup := fun hl hcl =>
    List.nodup_append.2 ⟨hl, List.nodup_singleton c, fun x hx y hy hxy =>
      hcl (by rw [← List.mem_singleton.1 hy, ← hxy]; exact hx)⟩
  refine h.move (by rw [hc]; simp [Phase.Ended]) (by decide) rfl (hfresh h.nodup hnot)
    (fun d hd => by simp [hd]) (by simp) (fun d hd => Function.update_of_ne hd _ _)
    (fun _ => Function.update_self ..) (by simp) (by simp)
    (fun d hd => (Option.some.inj hd).symm) (hfresh h.unique (h.idle c hc)) ?_
    (fun d hd => by simp [Event.ends] at hd)
  rw [← List.append_assoc]
  exact h.order.append (List.Sublist.refl _)

theorem Inv.finish (h : b.Inv) (hc : b.phase c = .waiting) (hdone : b.done c = true) :
    (b.finish c).Inv := by
  have hnot : c ∉ b.queue := by
    intro hmem
    rw [(h.queued c hmem).2] at hdone
    cases hdone
  exact h.move (by rw [hc]; simp [Phase.Ended]) (by decide) rfl h.nodup (fun _ _ => Iff.rfl)
    (by simp [hnot]) (fun _ _ => rfl) (fun hmem => absurd hmem hnot)
    (fun _ => ⟨(h.served c hc hnot).2, rfl⟩)
    (by simp)
    (by simp [Event.enqueues]) (by simpa [Event.enqueues] using h.unique)
    (by simpa [Event.enqueues] using h.order)
    (fun d hd => ⟨(Option.some.inj hd).symm, Or.inl rfl⟩)

theorem Inv.giveUp (h : b.Inv) (hc : b.phase c = .waiting) (hdone : b.done c = false) :
    (b.giveUp c).Inv := by
  have hmem : c ∈ b.queue := by
    by_contra hnot
    rw [(h.served c hc hnot).1] at hdone
    cases hdone
  have hgone : c ∉ b.queue.erase c := fun hin => (h.nodup.mem_erase_iff.1 hin).1 rfl
  refine h.move (by rw [hc]; simp [Phase.Ended]) (by decide) rfl (h.nodup.erase c)
    (fun d hd => List.mem_erase_of_ne hd) (by simp [hgone]) (fun _ _ => rfl)
    (fun hin => absurd hin hgone) (by simp) (fun _ => h.not_executed hmem) (by simp [Event.enqueues])
    (by simpa [Event.enqueues] using h.unique) ?_
    (fun d hd => ⟨(Option.some.inj hd).symm, Or.inr rfl⟩)
  change (b.executed ++ b.queue.erase c).Sublist (b.enqueued ++ [])
  rw [List.append_nil]
  exact ((List.Sublist.refl _).append List.erase_sublist).trans h.order

theorem Inv.pass (h : b.Inv) (hp : Pass Execute b b.queue b') : { b' with queue := [] }.Inv := by
  obtain ⟨-, hphase, hdone, -, new, hlog, hexec, henq, hend, -, -⟩ := hp
  have hexec' : { b' with queue := [] }.executed = b.executed ++ b.queue := by
    simp only [executed, hlog, List.filterMap_append, hexec]
  have henq' : { b' with queue := [] }.enqueued = b.enqueued := by
    simp only [enqueued, hlog, List.filterMap_append, henq, List.append_nil]
  have hend' : Bridge.ended { b' with queue := [] } = b.ended := by
    simp only [Bridge.ended, hlog, List.filterMap_append, hend, List.append_nil]
  have hends : ∀ e ∈ new, e.ends = none := List.filterMap_eq_nil_iff.1 hend
  constructor
  · exact List.nodup_nil
  · intro d hd
    cases hd
  · intro d hd _
    simp only [hphase] at hd
    rw [hexec', List.mem_append]
    simp only [hdone]
    by_cases hq : d ∈ b.queue
    · exact ⟨if_pos hq, Or.inr hq⟩
    · rw [if_neg hq]
      exact ⟨(h.served d hd hq).1, Or.inl (h.served d hd hq).2⟩
  · intro d hd
    simp only [hphase] at hd
    rw [henq']
    exact h.idle d hd
  · intro d hd
    simp only [hphase] at hd
    rw [hexec']
    simp only [hlog]
    exact ⟨List.mem_append_left _ (h.returned d hd).1, List.mem_append_left _ (h.returned d hd).2⟩
  · intro d hd
    simp only [hphase] at hd
    rw [hexec', List.mem_append]
    rintro (hex | hq)
    · exact h.timedOut d hd hex
    · rw [(h.queued d hq).1] at hd
      cases hd
  · rw [henq']
    exact h.unique
  · rw [hexec', henq', List.append_nil]
    exact h.order
  · intro d hd
    simp only [hphase]
    exact h.ended d (hend' ▸ hd)
  · simp only [hlog]
    refine List.pairwise_append.2 ⟨h.quiet, ?_, fun e he e' he' d hd hex => ?_⟩
    · refine List.pairwise_of_forall_mem_list fun e he e' _ d hd => ?_
      rw [hends e he] at hd
      cases hd
    · -- the call has ended, and so it is not queued
      have hq : d ∈ b.queue := by
        rw [← hexec]
        exact List.mem_filterMap.2 ⟨e', he', hex⟩
      have hended := h.ended d (List.mem_filterMap.2 ⟨e, he, hd⟩)
      rw [(h.queued d hq).1] at hended
      rcases hended with hended | hended <;> cases hended

/-! ## Runs -/

/-- No command that the action executes throws, and the machine by itself only does
what `R` allows. -/
def Quiet (Execute : γ → ω → Outcome γ ω) (R : ω → ω → Prop) (b : Bridge ω γ) (a : Action ω) :
    Prop :=
  match a with
  | .processRequests => (b.executeAll Execute b.queue).1 = true
  | .guest world => R b.world world
  | _ => True

/-- One action in which no command throws. -/
def Step (Execute : γ → ω → Outcome γ ω) (R : ω → ω → Prop) (b b' : Bridge ω γ) : Prop :=
  ∃ a, b.Quiet Execute R a ∧ b.act Execute a = some b'

/-- Everything that can happen in a step. -/
inductive Happens (Execute : γ → ω → Outcome γ ω) (R : ω → ω → Prop) (b : Bridge ω γ) :
    Bridge ω γ → Prop where
  | nothing : Happens Execute R b b
  | enqueue {c : ℕ} (hc : b.phase c = .idle) : Happens Execute R b (b.enqueue c)
  | finish {c : ℕ} (hc : b.phase c = .waiting) (hdone : b.done c = true) :
      Happens Execute R b (b.finish c)
  | giveUp {c : ℕ} (hc : b.phase c = .waiting) (hdone : b.done c = false) :
      Happens Execute R b (b.giveUp c)
  | pass {b' : Bridge ω γ} (hpass : Pass Execute b b.queue b') :
      Happens Execute R b { b' with queue := [] }
  | guest {world : ω} (hworld : R b.world world) : Happens Execute R b { b with world := world }

variable {R : ω → ω → Prop}

theorem Step.happens (hs : Step Execute R b b') : Happens Execute R b b' := by
  obtain ⟨a, hquiet, hact⟩ := hs
  cases a with
  | enqueue c =>
    obtain ⟨hc, hb⟩ := Option.ite_none_right_eq_some.1 hact
    obtain rfl := Option.some.inj hb
    exact .enqueue hc
  | wake c =>
    obtain ⟨hc, hb⟩ := Option.ite_none_right_eq_some.1 hact
    obtain rfl := Option.some.inj hb
    rw [wake]
    split
    · exact .finish hc ‹_›
    · exact .nothing
  | timeout c =>
    obtain ⟨hc, hb⟩ := Option.ite_none_right_eq_some.1 hact
    obtain rfl := Option.some.inj hb
    rw [timeout]
    split
    · exact .finish hc ‹_›
    · exact .giveUp hc (by simpa using ‹¬ b.done c = true›)
  | processRequests =>
    obtain rfl := Option.some.inj hact
    have hpass := executeAll_pass hquiet
    rw [ProcessRequests]
    split
    · exact .nothing
    · rw [show b.executeAll Execute b.queue = (true, (b.executeAll Execute b.queue).2) from
        Prod.ext hquiet rfl]
      exact .pass hpass
  | guest world =>
    obtain rfl := Option.some.inj hact
    exact .guest hquiet

theorem Step.inv (h : b.Inv) (hs : Step Execute R b b') : b'.Inv := by
  cases hs.happens with
  | nothing => exact h
  | enqueue hc => exact h.enqueue hc
  | finish hc hdone => exact h.finish hc hdone
  | giveUp hc hdone => exact h.giveUp hc hdone
  | pass hpass => exact h.pass hpass
  | guest =>
    exact ⟨h.nodup, h.queued, h.served, h.idle, h.returned, h.timedOut, h.unique, h.order, h.ended,
      h.quiet⟩

theorem reachable_inv (h₀ : b₀.Initial) (hrun : Relation.ReflTransGen (Step Execute R) b₀ b) :
    b.Inv := by
  induction hrun with
  | refl => exact h₀.inv
  | tail _ hstep ih => exact hstep.inv ih

/-- The objects of calls that have ended are neither executed nor written. -/
theorem Step.frozen (h : b.Inv) (hs : Step Execute R b b') (hc : (b.phase c).Ended) :
    b'.cmd c = b.cmd c ∧ b'.done c = b.done c := by
  have hnot : c ∉ b.queue := by
    refine h.not_queued fun hw => ?_
    rw [hw] at hc
    rcases hc with hc | hc <;> cases hc
  cases hs.happens with
  | nothing => exact ⟨rfl, rfl⟩
  | enqueue hd =>
    refine ⟨rfl, Function.update_of_ne ?_ _ _⟩
    rintro rfl
    rw [hd] at hc
    rcases hc with hc | hc <;> cases hc
  | finish => exact ⟨rfl, rfl⟩
  | giveUp => exact ⟨rfl, rfl⟩
  | pass hpass => exact ⟨hpass.cmd c hnot, (hpass.done c).trans (if_neg hnot)⟩
  | guest => exact ⟨rfl, rfl⟩

/-- What the commands have become: each is as it was, or what its execution made of
it. -/
structure Results (Execute : γ → ω → Outcome γ ω) (b₀ b : Bridge ω γ) : Prop where
  unchanged : ∀ c, c ∉ b.executed → b.cmd c = b₀.cmd c
  result : ∀ c w w', .executed c w w' ∈ b.log → Execute (b₀.cmd c) w = .returns (b.cmd c) w'

theorem mem_executed {w w' : ω} (h : .executed c w w' ∈ b.log) : c ∈ b.executed :=
  List.mem_filterMap.2 ⟨.executed c w w', h, rfl⟩

theorem Results.log (h : Results Execute b₀ b) (he : e.executes = none) (hcmd : b'.cmd = b.cmd)
    (hlog : b'.log = b.log ++ [e]) :
    Results Execute b₀ b' := by
  have hexec : b'.executed = b.executed := by
    simp only [executed, hlog, List.filterMap_append, List.filterMap_cons_none he,
      List.filterMap_nil, List.append_nil]
  refine ⟨fun c hc => ?_, fun c w w' hc => ?_⟩
  · rw [hcmd]
    exact h.unchanged c (hexec ▸ hc)
  · rw [hlog, List.mem_append, List.mem_singleton] at hc
    rcases hc with hc | rfl
    · rw [hcmd]
      exact h.result c w w' hc
    · cases he

theorem Results.pass (h : Results Execute b₀ b) (hinv : b.Inv) (hp : Pass Execute b b.queue b') :
    Results Execute b₀ { b' with queue := [] } := by
  obtain ⟨-, -, -, hcmd, new, hlog, hexec, -, -, -, hresult⟩ := hp
  refine ⟨fun c hc => ?_, fun c w w' hc => ?_⟩
  · simp only [executed, hlog, List.filterMap_append, hexec, List.mem_append, not_or] at hc
    exact (hcmd c hc.2).trans (h.unchanged c hc.1)
  · simp only [hlog, List.mem_append] at hc
    rcases hc with hc | hc
    · have hnot : c ∉ b.queue := fun hq => hinv.not_executed hq (mem_executed hc)
      rw [show Bridge.cmd { b' with queue := [] } c = b.cmd c from hcmd c hnot]
      exact h.result c w w' hc
    · have hq : c ∈ b.queue := by
        rw [← hexec]
        exact List.mem_filterMap.2 ⟨.executed c w w', hc, rfl⟩
      rw [← h.unchanged c (hinv.not_executed hq)]
      exact hresult hinv.nodup c w w' hc

theorem reachable_results (h₀ : b₀.Initial) (hrun : Relation.ReflTransGen (Step Execute R) b₀ b) :
    Results Execute b₀ b := by
  induction hrun with
  | refl => exact ⟨fun c _ => rfl, fun c w w' hc => by simp [h₀.log] at hc⟩
  | tail hrun hstep ih =>
    cases hstep.happens with
    | nothing => exact ih
    | enqueue => exact ih.log (e := .enqueued _) rfl rfl rfl
    | finish => exact ih.log (e := .returned _) rfl rfl rfl
    | giveUp => exact ih.log (e := .timedOut _) rfl rfl rfl
    | pass hpass => exact ih.pass (reachable_inv h₀ hrun) hpass
    | guest => exact ⟨ih.unchanged, ih.result⟩

theorem Traced.map {view : ω → κ} {w w' : ω} (h : Traced id w l w') :
    Traced view (view w) l (view w') := by
  generalize hv : (w : ω) = v at h
  induction h generalizing w with
  | nil v => exact hv ▸ .nil _
  | skip he _ ih => exact .skip he (ih hv)
  | command _ ih =>
    subst hv
    exact .command (ih rfl)

/-- What nothing but commands changes goes through the log. -/
theorem reachable_traced {view : ω → κ} (h₀ : b₀.Initial)
    (hview : ∀ w w', R w w' → view w' = view w) (hrun : Relation.ReflTransGen (Step Execute R) b₀ b)
    :
    Traced view (view b₀.world) b.log (view b.world) := by
  induction hrun with
  | refl =>
    rw [h₀.log]
    exact .nil _
  | tail hrun hstep ih =>
    cases hstep.happens with
    | nothing => exact ih
    | enqueue => exact ih.append (.skip rfl (.nil _))
    | finish => exact ih.append (.skip rfl (.nil _))
    | giveUp => exact ih.append (.skip rfl (.nil _))
    | pass hpass =>
      obtain ⟨-, -, -, -, new, hlog, -, -, -, htraced, -⟩ := hpass
      simp only [hlog]
      exact ih.append htraced.map
    | guest hworld =>
      simp only
      rw [hview _ _ hworld]
      exact ih

/-- What the calls can rely on. -/
structure ExactlyOnce (Execute : γ → ω → Outcome γ ω) (R : ω → ω → Prop) (b : Bridge ω γ) :
    Prop where
  /-- A call that returned had its command executed once, and before it returned. -/
  returned : ∀ c, b.phase c = .returned → b.executed.count c = 1 ∧
    ∃ l₁ l₂, b.log = l₁ ++ .returned c :: l₂ ∧ c ∈ l₁.filterMap Event.executes
  /-- A call that threw had its command not executed, and it is not queued any more. -/
  timedOut : ∀ c, b.phase c = .timedOut → b.executed.count c = 0 ∧ c ∉ b.queue
  /-- Commands are executed in the order in which they were enqueued. -/
  order : b.executed.Sublist b.enqueued
  /-- After the end of a call its command was not executed, … -/
  quiet : ∀ l₁ e l₂ c, b.log = l₁ ++ e :: l₂ → e.ends = some c → c ∉ l₂.filterMap Event.executes
  /-- … and the next action does not write its object. -/
  frozen : ∀ b' c, Step Execute R b b' → (b.phase c).Ended →
    b'.cmd c = b.cmd c ∧ b'.done c = b.done c

theorem Inv.not_executed_after (h : b.Inv) {l₁ l₂ : List (Event ω)} (hlog : b.log = l₁ ++ e :: l₂)
    (he : e.ends = some c) : c ∉ l₂.filterMap Event.executes := by
  have hquiet := h.quiet
  rw [hlog] at hquiet
  intro hmem
  obtain ⟨e', he', hex⟩ := List.mem_filterMap.1 hmem
  exact List.rel_of_pairwise_cons (List.pairwise_append.1 hquiet).2.1 he' c he hex

theorem Inv.exactlyOnce (h : b.Inv) : b.ExactlyOnce Execute R := by
  have hnodup : b.executed.Nodup := (List.nodup_append.1 h.nodup_executed).1
  refine ⟨fun c hc => ?_, fun c hc => ?_, (List.sublist_append_left _ _).trans h.order,
    fun l₁ e l₂ c => h.not_executed_after, fun b' c hs => hs.frozen h⟩
  · obtain ⟨hex, hin⟩ := h.returned c hc
    refine ⟨List.count_eq_one_of_mem hnodup hex, ?_⟩
    obtain ⟨l₁, l₂, hlog⟩ := List.append_of_mem hin
    refine ⟨l₁, l₂, hlog, ?_⟩
    have hnot := h.not_executed_after hlog rfl
    rw [executed, hlog, List.filterMap_append, List.mem_append] at hex
    rcases hex with hex | hex
    · exact hex
    · rw [List.filterMap_cons_none rfl] at hex
      exact absurd hex hnot
  · refine ⟨List.count_eq_zero.2 (h.timedOut c hc), h.not_queued ?_⟩
    rw [hc]
    decide

/-- **Exactly once.**  In every run in which no command throws, a call that returns had
its command executed once, one that throws had it not executed, commands are executed
in order, and no command is touched after the end of its call. -/
theorem reachable_exactlyOnce {b₀ b : Bridge ω γ} (h₀ : b₀.Initial)
    (hrun : Relation.ReflTransGen (Step Execute R) b₀ b) : b.ExactlyOnce Execute R :=
  (reachable_inv h₀ hrun).exactlyOnce

/-- Several actions in a row. -/
def actAll (Execute : γ → ω → Outcome γ ω) (b : Bridge ω γ) (l : List (Action ω)) :
    Option (Bridge ω γ) :=
  l.foldlM (act Execute) b

/-- Commands of which some throw. -/
def mayThrow (cmd : Bool) (world : Unit) : Outcome Bool Unit :=
  if cmd then .throws cmd world else .returns cmd world

/-- No call has been made; the command of call 1 throws. -/
def oneThrows : Bridge Unit Bool where
  world := ()
  queue := []
  cmd := fun c => decide (c = 1)
  done := fun _ => false
  phase := fun _ => .idle
  log := []

theorem oneThrows_initial : oneThrows.Initial := ⟨rfl, fun _ => rfl, rfl⟩

/-- A call that returns, in a run without a throw. -/
theorem reachable_exactlyOnce_oneThrows :
    ∃ b, oneThrows.actAll mayThrow [.enqueue 0, .processRequests, .wake 0] = some b ∧
      b.phase 0 = .returned ∧ b.ExactlyOnce mayThrow fun _ _ => True := by
  refine ⟨_, rfl, rfl, reachable_exactlyOnce oneThrows_initial ?_⟩
  refine .tail (.tail (.single ⟨.enqueue 0, trivial, rfl⟩) ⟨.processRequests, ?_, rfl⟩)
    ⟨.wake 0, trivial, rfl⟩
  exact rfl

/-- Call 1 throws in the pass that executes call 0.  The queue is not cleared, call 0
returns with its pointer still queued, and the next pass executes it again. -/
theorem thrown_pass_runs_twice :
    ∃ b, oneThrows.actAll mayThrow
        [.enqueue 0, .enqueue 1, .processRequests, .timeout 0, .processRequests] = some b ∧
      b.phase 0 = .returned ∧ b.executed = [0, 1, 0, 1] ∧
      ¬ b.ExactlyOnce mayThrow fun _ _ => True := by
  refine ⟨_, rfl, rfl, rfl, fun h => ?_⟩
  have hcount := (h.returned 0 rfl).1
  exact absurd hcount (by decide)

end Bridge

end Webserver

end AugraDosbox
