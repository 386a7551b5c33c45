import AugraDosbox.Hardware.PicRuns

/-!
# Automatic EOI and special mask mode

In these modes an IRQ that is started does not keep the others back, so more than one IRQ can
be deliverable at once.

* `Ready.start_irq`, `Ready.of_start_irq` — which IRQs stay ready when one is started;
* `Pics.NothingLost` — `PIC_IRQCheck` and request bit 2 of the primary for every ready IRQ;
* **`Pics.run_nothingLost_iff`** — the runs in which no call loses an IRQ.
-/

namespace AugraDosbox

open BitRegister

/-! ## One controller -/

namespace Controller

variable {c c' : Controller} {i j val : Nat}

/-! ## Starting an IRQ -/

theorem start_irq_irr (i j : Nat) :
    (c.start_irq i).irr.getLsbD j = (c.irr.getLsbD j && decide (i ≠ j)) := by
  have hirr : (c.start_irq i).irr = c.irr &&& ~~~bit 8 i := by
    unfold start_irq
    dsimp only
    split <;> rfl
  rw [hirr, BitVec.getLsbD_and, BitVec.getLsbD_not, getLsbD_bit]
  cases hreq : c.irr.getLsbD j with
  | false => rfl
  | true =>
    have hj : j < 8 := BitVec.lt_of_getLsbD hreq
    by_cases hij : i = j
    · subst hij
      simp [hj]
    · simp [hij, hj]

theorem Coherent.start_irq (h : c.Coherent) (hi : i < 8) : (c.start_irq i).Coherent := by
  cases hauto : c.auto_eoi with
  | true =>
    rw [start_irq_eq_of_auto hauto]
    exact h.withIrr _
  | false =>
    rw [start_irq_eq_of_not_auto hauto]
    refine ⟨rfl, h.imrr_eq, .inr ?_⟩
    simp [hi]

/-- In automatic EOI and in special mask mode every other ready IRQ stays ready. -/
theorem Ready.start_irq (h : c.Ready j) (hmode : c.auto_eoi = true ∨ c.special = true)
    (hne : j ≠ i) : (c.start_irq i).Ready j := by
  have hirr : (c.start_irq i).irr.getLsbD j = true := by
    rw [start_irq_irr, h.irr]
    simpa using hne.symm
  cases hauto : c.auto_eoi with
  | true =>
    rw [start_irq_eq_of_auto hauto] at hirr ⊢
    exact ⟨hirr, h.imr, h.isr, h.above⟩
  | false =>
    have hspecial := hmode.resolve_left (by simp [hauto])
    rw [start_irq_eq_of_not_auto hauto] at hirr ⊢
    refine ⟨hirr, h.imr, ?_, fun hoff => absurd hoff (by simp [hspecial])⟩
    simp [h.isr, hne.symm]

/-- Nothing else becomes ready by the start of an IRQ, and outside these modes nothing stays
ready. -/
theorem Ready.of_start_irq (hc : c.Coherent) (hi : c.First i) (h : (c.start_irq i).Ready j) :
    c.Ready j ∧ j ≠ i ∧ (c.auto_eoi = true ∨ c.special = true) := by
  have hirr := h.irr
  rw [start_irq_irr, Bool.and_eq_true, decide_eq_true_eq] at hirr
  cases hauto : c.auto_eoi with
  | true =>
    rw [start_irq_eq_of_auto hauto] at h
    exact ⟨⟨hirr.1, h.imr, h.isr, h.above⟩, hirr.2.symm, .inl rfl⟩
  | false =>
    rw [start_irq_eq_of_not_auto hauto] at h
    have hi8 : i < 8 := BitVec.lt_of_getLsbD hi.1.2
    have hclear : ∀ k, (c.isr ||| bit 8 i).getLsbD k = false →
        c.isr.getLsbD k = false ∧ i ≠ k := by
      intro k hk
      rw [BitVec.getLsbD_or, getLsbD_bit, Bool.or_eq_false_iff] at hk
      exact ⟨hk.1, by simpa [hi8] using hk.2⟩
    have hready : c.Ready j :=
      ⟨hirr.1, h.imr, (hclear j h.isr).1, fun hoff k hk => (hclear k (h.above hoff k hk)).1⟩
    refine ⟨hready, hirr.2.symm, .inr ?_⟩
    by_contra hoff
    rw [Bool.not_eq_true] at hoff
    -- the scan took the lowest one, and what is above it is held back by it
    have hle : i ≤ j := not_lt.1 fun hlt => hi.2 j hlt (hc.scans hready)
    exact (hclear i (h.above hoff i (lt_of_le_of_ne hle hirr.2))).2 rfl

theorem start_irq_isr_of_set (h : c.isr.getLsbD j = true) :
    (c.start_irq i).isr.getLsbD j = true := by
  unfold start_irq
  dsimp only
  split
  · exact h
  · rw [BitVec.getLsbD_or, h, Bool.true_or]

/-! ## What the methods leave alone -/

theorem Coherent.warns_same (h : c.Coherent) (hirr : c'.irr = c.irr) (himr : c'.imr = c.imr)
    (himrr : c'.imrr = c.imrr) (hisr : c'.isr = c.isr) (hisrr : c'.isrr = c.isrr)
    (hactive : c'.active_irq = c.active_irq) (hspecial : c'.special = c.special) :
    c.Warns (c', none) := by
  have hc : c'.Coherent :=
    ⟨by rw [hisrr, hisr, h.isrr_eq], by rw [himrr, himr, h.imrr_eq], by
      rw [hactive, hisr]
      exact h.active⟩
  refine hc.warns_quiet ?_ ?_
  · rintro ⟨i, hi⟩
    exact ⟨i, hirr ▸ hi.irr, himr ▸ hi.imr, hisr ▸ hi.isr, hisr ▸ hspecial ▸ hi.above⟩
  · rintro ⟨i, hlt, hbit⟩
    refine ⟨i, ?_, ?_⟩
    · rw [a_irq, hspecial, hactive]
      exact hlt
    · rw [possible_irq, hirr, himrr, hisrr]
      exact hbit

@[simp] theorem raise_irq_isr : (c.raise_irq val).1.isr = c.isr := by
  unfold raise_irq
  split
  · dsimp only
    split <;> rfl
  · rfl

@[simp] theorem lower_irq_isr : (c.lower_irq val).1.isr = c.isr := by
  unfold lower_irq
  split
  · dsimp only
    split <;> rfl
  · rfl

@[simp] theorem set_imr_isr (mask : Reg) : (c.set_imr mask).1.isr = c.isr := by
  unfold set_imr
  dsimp only
  split <;> rfl

theorem specificEoi_isr (irq : Nat) : (c.specificEoi irq).1.isr = c.isr &&& ~~~bit 8 irq := by
  unfold specificEoi check_after_EOI
  obtain ⟨n, -, heq⟩ := update_active_irq_eq
    { c with isr := c.isr &&& ~~~bit 8 irq, isrr := ~~~(c.isr &&& ~~~bit 8 irq) }
  dsimp only
  rw [heq]
  split <;> rfl

theorem specificEoi_isr_self (hirq : val < 8) :
    (c.specificEoi val).1.isr.getLsbD val = false := by
  rw [specificEoi_isr, BitVec.getLsbD_and, BitVec.getLsbD_not, getLsbD_bit]
  simp [hirq]

/-- The IRQ that a command takes out of service, when it is an EOI. -/
def eoiIrq (c : Controller) (val : Reg) : Option Nat :=
  if val &&& 0x10#8 ≠ 0 ∨ val &&& 0x08#8 ≠ 0 ∨ val &&& 0x20#8 = 0 then none
  else if val &&& 0x40#8 ≠ 0 then some (val.toNat - 0x60)
  else if c.active_irq ≠ 8 then some c.active_irq
  else none

end Controller

/-! ## The pair -/

namespace Pics

variable {s : Pics} {r : Controller × Option Signal} {w : Which} {val : Reg} {irq i : Nat}

/-- Every ready IRQ of the primary has its `PIC_IRQCheck`, and every one of the secondary has the
request of IRQ 2 or waits for the end of one. -/
structure NothingLost (s : Pics) : Prop where
  check : (∃ i, s.primary.Ready i) → s.PIC_IRQCheck ≠ 0
  cascade : (∃ i, s.secondary.Ready i) →
    s.primary.irr.getLsbD 2 = true ∨ s.primary.isr.getLsbD 2 = true

/-- Nothing is lost, and IRQ 2 is only requested for an IRQ that `secondary_startIRQ` finds. -/
structure ModesInv (s : Pics) : Prop extends NothingLost s where
  coherent : ∀ w, (s.ctrl w).Coherent
  found : s.primary.irr.getLsbD 2 = true → ∃ i, s.secondary.Scans i

theorem checkAfter_of_ready (h : (∃ i, s.primary.Ready i) → s.PIC_IRQCheck ≠ 0)
    (hr : s.primary.Warns r) (hready : ∃ i, (s.putPrimary r).primary.Ready i) :
    (s.putPrimary r).PIC_IRQCheck ≠ 0 := by
  obtain ⟨i, hi⟩ := hready
  unfold putPrimary checkAfter
  dsimp only
  match hsig : r.2 with
  | none => exact h (hr.ready hsig ⟨i, hi⟩)
  | some .activate => exact Nat.one_ne_zero
  | some .deactivate => exact absurd ⟨i, hr.coherent.scans hi⟩ (hr.deactivate hsig)

theorem ModesInv.put_primary (h : s.ModesInv) (hr : s.primary.Warns r)
    (hirr : r.1.irr.getLsbD 2 = s.primary.irr.getLsbD 2)
    (hcascade : (∃ i, s.secondary.Ready i) →
      r.1.irr.getLsbD 2 = true ∨ r.1.isr.getLsbD 2 = true) : (s.put .primary r).ModesInv := by
  refine ⟨⟨checkAfter_of_ready h.check hr, hcascade⟩, fun w => ?_, ?_⟩
  · cases w with
    | primary => exact hr.coherent
    | secondary => exact h.coherent .secondary
  · intro hset
    exact h.found (hirr ▸ hset)

/-- A method of the secondary, followed by what its signal does to the primary. -/
theorem ModesInv.put_secondary (h : s.ModesInv) (hr : s.secondary.Warns r) :
    (s.put .secondary r).ModesInv := by
  unfold put
  dsimp only
  match hsig : r.2 with
  | none =>
    refine ⟨⟨h.check, fun hready => h.cascade (hr.ready hsig hready)⟩, fun w => ?_,
      fun hset => hr.scans hsig (h.found hset)⟩
    cases w with
    | primary => exact h.coherent .primary
    | secondary => exact hr.coherent
  | some .activate =>
    have hraise := (h.coherent .primary).warns_raise_irq (show 2 < 8 by decide)
    have hset : (s.primary.raise_irq 2).1.irr.getLsbD 2 = true :=
      (Controller.raise_irq_irr (by decide) 2).trans (by simp)
    refine ⟨⟨checkAfter_of_ready (s := { s with secondary := r.1 }) h.check hraise,
      fun _ => .inl hset⟩, fun w => ?_, fun _ => hr.activate hsig⟩
    cases w with
    | primary => exact hraise.coherent
    | secondary => exact hr.coherent
  | some .deactivate =>
    have hlower := (h.coherent .primary).warns_lower_irq (show 2 < 8 by decide)
    have hclear : (s.primary.lower_irq 2).1.irr.getLsbD 2 = false :=
      (Controller.lower_irq_irr (by decide) 2).trans (by simp)
    refine ⟨⟨checkAfter_of_ready (s := { s with secondary := r.1 }) h.check hlower,
      fun ⟨i, hi⟩ => absurd ⟨i, hr.coherent.scans hi⟩ (hr.deactivate hsig)⟩, fun w => ?_,
      fun hset => absurd (hclear.symm.trans hset) Bool.false_ne_true⟩
    cases w with
    | primary => exact hlower.coherent
    | secondary => exact hr.coherent

/-- A method that leaves the request and the in-service register alone loses nothing on either
controller. -/
theorem ModesInv.put (h : s.ModesInv) (hr : (s.ctrl w).Warns r) (hirr : r.1.irr = (s.ctrl w).irr)
    (hisr : r.1.isr = (s.ctrl w).isr) : (s.put w r).ModesInv := by
  cases w with
  | primary =>
    refine h.put_primary hr (by rw [hirr]; rfl) fun hready => ?_
    rw [hirr, hisr]
    exact h.cascade hready
  | secondary => exact h.put_secondary hr

/-! ## Devices, masks and commands -/

theorem ModesInv.set_imr (h : s.ModesInv) (w : Which) (val : Reg) : (s.set_imr w val).ModesInv :=
  h.put ((h.coherent w).warns_set_imr _) (by simp) (by simp)

/-- A method called for one line of the controller that serves it. -/
theorem ModesInv.put_line (h : s.ModesInv) {f : Controller → Controller × Option Signal}
    (hr : (s.ctrl (serving irq)).Warns (f (s.ctrl (serving irq))))
    (hirr : line irq ≠ 2 → (f s.primary).1.irr.getLsbD 2 = s.primary.irr.getLsbD 2)
    (hisr : (f s.primary).1.isr = s.primary.isr) (hne : irq ≠ 2) :
    (s.put (serving irq) (f (s.ctrl (serving irq)))).ModesInv := by
  by_cases hhigh : irq > 7
  · rw [show serving irq = .secondary by simp [serving, hhigh]] at hr ⊢
    exact h.put_secondary hr
  · have hbit := hirr (by simpa [line, hhigh] using hne)
    rw [show serving irq = .primary by simp [serving, hhigh]] at hr ⊢
    refine h.put_primary hr hbit fun hready => ?_
    rw [show s.ctrl .primary = s.primary from rfl, hbit, hisr]
    exact h.cascade hready

theorem ModesInv.activateIRQ (h : s.ModesInv) (hirq : irq < 16) (hne : irq ≠ 2) :
    (s.PIC_ActivateIRQ irq).ModesInv := by
  refine h.put_line (f := fun c => c.raise_irq (line irq))
    ((h.coherent _).warns_raise_irq (line_lt hirq)) (fun hline => ?_) Controller.raise_irq_isr hne
  rw [Controller.raise_irq_irr (line_lt hirq), decide_eq_false hline, Bool.or_false]

theorem ModesInv.deActivateIRQ (h : s.ModesInv) (hirq : irq < 16) (hne : irq ≠ 2) :
    (s.PIC_DeActivateIRQ irq).ModesInv := by
  refine h.put_line (f := fun c => c.lower_irq (line irq))
    ((h.coherent _).warns_lower_irq (line_lt hirq)) (fun hline => ?_) Controller.lower_irq_isr hne
  rw [Controller.lower_irq_irr (line_lt hirq), decide_eq_true hline, Bool.and_true]

theorem ModesInv.write_data (h : s.ModesInv) (w : Which) (val : Reg) :
    (s.write_data w val).ModesInv := by
  have hc := h.coherent w
  unfold Pics.write_data nextIcw icw2
  dsimp only
  split
  · exact h.set_imr w val
  · split
    · exact h.put (hc.warns_same rfl rfl rfl rfl rfl rfl rfl) rfl rfl
    · split
      · exact h.put (hc.warns_same rfl rfl rfl rfl rfl rfl rfl) rfl rfl
      · exact h.put (hc.warns_same rfl rfl rfl rfl rfl rfl rfl) rfl rfl
  · split
    · exact h.put (hc.warns_same rfl rfl rfl rfl rfl rfl rfl) rfl rfl
    · exact h.put (hc.warns_same rfl rfl rfl rfl rfl rfl rfl) rfl rfl
  · split
    · exact h.put (hc.warns_same rfl rfl rfl rfl rfl rfl rfl) rfl rfl
    · exact h.put (hc.warns_same rfl rfl rfl rfl rfl rfl rfl) rfl rfl
  · exact h

/-- An EOI command ends the service of its IRQ and does nothing else. -/
theorem write_command_of_eoi (heoi : (s.ctrl w).eoiIrq val = some irq) :
    s.write_command w val = s.put w ((s.ctrl w).specificEoi irq) := by
  unfold Controller.eoiIrq at heoi
  split at heoi
  · cases heoi
  · rename_i hcmd
    simp only [not_or, not_not] at hcmd
    unfold write_command
    rw [if_neg (not_not.2 hcmd.1), if_neg (not_not.2 hcmd.2.1), if_pos hcmd.2.2]
    split at heoi
    · rename_i hspecific
      rw [if_pos hspecific, Option.some.inj heoi]
    · rename_i hspecific
      rw [if_neg hspecific, Controller.nonspecificEoi]
      split at heoi
      · rename_i hactive
        rw [if_pos hactive, Option.some.inj heoi]
      · cases heoi

/-- A command that ends no service loses nothing. -/
theorem ModesInv.write_command (h : s.ModesInv) (heoi : (s.ctrl w).eoiIrq val = none) :
    (s.write_command w val).ModesInv := by
  unfold Controller.eoiIrq at heoi
  unfold Pics.write_command
  split
  · have hmask := h.set_imr w 0
    exact hmask.put ((hmask.coherent w).warns_same rfl rfl rfl rfl rfl rfl rfl) rfl rfl
  · rename_i hicw
    have hc := h.coherent w
    split
    · dsimp only
      split
      · split
        · exact h.put (Controller.Coherent.warns_check ⟨hc.isrr_eq, hc.imrr_eq, hc.active⟩) rfl rfl
        · exact h.put (Controller.Coherent.warns_check ⟨hc.isrr_eq, hc.imrr_eq, hc.active⟩) rfl rfl
      · split
        · exact h.put (hc.warns_same rfl rfl rfl rfl rfl rfl rfl) rfl rfl
        · exact h.put (hc.warns_same rfl rfl rfl rfl rfl rfl rfl) rfl rfl
    · rename_i hocw3
      split
      · rename_i hend
        rw [if_neg (by simp only [not_or, not_not]; exact ⟨not_not.1 hicw, not_not.1 hocw3, hend⟩)]
          at heoi
        split
        · rename_i hspecific
          rw [if_pos hspecific] at heoi
          cases heoi
        · rename_i hspecific
          rw [if_neg hspecific] at heoi
          rw [Controller.nonspecificEoi]
          split at heoi
          · cases heoi
          · rename_i hactive
            rw [if_neg hactive]
            exact h.put (hc.warns_quiet id id) rfl rfl
      · split
        · exact h.put (hc.warns_same rfl rfl rfl rfl rfl rfl rfl) rfl rfl
        · exact h

/-! ## Starting an interrupt -/

/-- What `PIC_runIRQs` has to find: the IRQ it starts keeps the other ready ones back, or there
are none, on the primary and, when it starts one of the secondary without IRQ 2 in service, there
too. -/
structure StartsSafely (s : Pics) : Prop where
  primary : ∀ i, s.primary.First i → s.primary.auto_eoi = true ∨ s.primary.special = true →
    ∀ j, s.primary.Ready j → j = i
  secondary : s.primary.First 2 → s.primary.auto_eoi = true → ∀ k, s.secondary.First k →
    s.secondary.auto_eoi = true ∨ s.secondary.special = true → ∀ j, s.secondary.Ready j → j = k

/-- `PIC_runIRQs` when the CPU takes the interrupt. -/
theorem runIRQs_eq (hcheck : s.PIC_IRQCheck ≠ 0) :
    (s.PIC_runIRQs true false).1 = { (match firstSet s.primary.possible_irq s.primary.a_irq with
      | none => (s, Started.nothing)
      | some i => if i = 2 then s.secondary_startIRQ else s.primary_startIRQ i).1 with
        PIC_IRQCheck := 0 } := by
  unfold PIC_runIRQs
  rw [if_neg (by decide), if_neg hcheck]
  exact congrArg Prod.fst (if_neg (by decide))

theorem secondary_startIRQ_eq (hfirst : s.secondary.First i) :
    s.secondary_startIRQ.1 =
      { s with secondary := s.secondary.start_irq i, primary := s.primary.start_irq 2 } := by
  have hi : i < 8 := BitVec.lt_of_getLsbD hfirst.1.2
  unfold secondary_startIRQ
  rw [Controller.firstSet_eq_some_iff_first.2 hfirst]
  dsimp only
  rw [if_neg hi.ne]

theorem ModesInv.start_primary (h : s.ModesInv) (hsafe : s.StartsSafely)
    (hfirst : s.primary.First i) (h2 : i ≠ 2) :
    ModesInv { (s.primary_startIRQ i).1 with PIC_IRQCheck := 0 } := by
  have hi : i < 8 := BitVec.lt_of_getLsbD hfirst.1.2
  have hirr : (s.primary.start_irq i).irr.getLsbD 2 = s.primary.irr.getLsbD 2 := by
    rw [Controller.start_irq_irr, decide_eq_true h2, Bool.and_true]
  refine ⟨⟨?_, fun hready => ?_⟩, fun w => ?_, fun hset => ?_⟩
  · rintro ⟨j, hj⟩
    obtain ⟨hready, hne, hmode⟩ := hj.of_start_irq (h.coherent .primary) hfirst
    exact absurd (hsafe.primary i hfirst hmode j hready) hne
  · refine (h.cascade hready).imp (fun hset => hirr.trans hset) fun hset => ?_
    exact Controller.start_irq_isr_of_set hset
  · cases w with
    | primary => exact (h.coherent .primary).start_irq hi
    | secondary => exact h.coherent .secondary
  · exact h.found (hirr.symm.trans hset)

theorem ModesInv.start_secondary (h : s.ModesInv) (hsafe : s.StartsSafely)
    (hfirst2 : s.primary.First 2) :
    ModesInv { s.secondary_startIRQ.1 with PIC_IRQCheck := 0 } := by
  have hpossible := ((h.coherent .primary).possible_iff).1 hfirst2.1.2
  obtain ⟨i, hfirst⟩ := Controller.exists_first (h.found hpossible.1)
  have hi : i < 8 := BitVec.lt_of_getLsbD hfirst.1.2
  rw [secondary_startIRQ_eq hfirst]
  refine ⟨⟨?_, ?_⟩, fun w => ?_, fun hset => ?_⟩
  · rintro ⟨j, hj⟩
    obtain ⟨hready, hne, hmode⟩ := hj.of_start_irq (h.coherent .primary) hfirst2
    exact absurd (hsafe.primary 2 hfirst2 hmode j hready) hne
  · rintro ⟨j, hj⟩
    obtain ⟨hready, hne, hmode⟩ := hj.of_start_irq (h.coherent .secondary) hfirst
    cases hauto : s.primary.auto_eoi with
    | true => exact absurd (hsafe.secondary hfirst2 hauto i hfirst hmode j hready) hne
    | false =>
      refine .inr ?_
      dsimp only
      rw [Controller.start_irq_eq_of_not_auto hauto]
      simp
  · cases w with
    | primary => exact (h.coherent .primary).start_irq (by decide)
    | secondary => exact (h.coherent .secondary).start_irq hi
  · dsimp only at hset
    rw [Controller.start_irq_irr] at hset
    simp at hset

theorem ModesInv.runIRQs (h : s.ModesInv) {IF trap : Bool}
    (hsafe : IF = true → s.PIC_IRQCheck ≠ 0 → trap = false → s.StartsSafely) :
    (s.PIC_runIRQs IF trap).1.ModesInv := by
  by_cases htaken : IF = true ∧ s.PIC_IRQCheck ≠ 0 ∧ trap = false
  · obtain ⟨rfl, hcheck, rfl⟩ := htaken
    have hsafe := hsafe rfl hcheck rfl
    rw [runIRQs_eq hcheck]
    cases hscan : firstSet s.primary.possible_irq s.primary.a_irq with
    | none =>
      have hnone := Controller.firstSet_eq_none_iff_scans.1 hscan
      refine ⟨⟨?_, h.cascade⟩, h.coherent, h.found⟩
      rintro ⟨j, hj⟩
      exact absurd ⟨j, (h.coherent .primary).scans hj⟩ hnone
    | some i =>
      have hfirst := Controller.firstSet_eq_some_iff_first.1 hscan
      dsimp only
      by_cases h2 : i = 2
      · subst h2
        rw [if_pos rfl]
        exact h.start_secondary hsafe hfirst
      · rw [if_neg h2]
        exact h.start_primary hsafe hfirst h2
  · have hsame : (s.PIC_runIRQs IF trap).1 = s := by
      unfold PIC_runIRQs
      split
      · rfl
      · split
        · rfl
        · split
          · rfl
          · exact absurd ⟨by simpa using ‹¬IF = false›, ‹_›, by simpa using ‹¬trap = true›⟩ htaken
    rw [hsame]
    exact h

/-- A start that is not safe loses an IRQ. -/
theorem runIRQs_loses (hcoherent : s.primary.Coherent) (hcheck : s.PIC_IRQCheck ≠ 0)
    (hslip : ¬s.StartsSafely) : ¬(s.PIC_runIRQs true false).1.NothingLost := by
  intro hlost
  refine hslip ⟨fun i hfirst hmode j hready => ?_,
    fun hfirst2 hauto k hfirst hmode j hready => ?_⟩
  · by_contra hne
    refine hlost.check ⟨j, ?_⟩ (by rw [runIRQs_eq hcheck])
    have hstay := hready.start_irq hmode hne
    rw [runIRQs_eq hcheck, Controller.firstSet_eq_some_iff_first.2 hfirst]
    dsimp only
    split
    · subst i
      unfold secondary_startIRQ
      split
      · exact hready
      · split
        · exact hready
        · exact hstay
    · exact hstay
  · by_contra hne
    rw [runIRQs_eq hcheck, Controller.firstSet_eq_some_iff_first.2 hfirst2] at hlost
    dsimp only at hlost
    rw [if_pos rfl, secondary_startIRQ_eq hfirst] at hlost
    have hclear := (hcoherent.possible_iff.1 hfirst2.1.2).2.2
    rcases hlost.cascade ⟨j, hready.start_irq hmode hne⟩ with hset | hset
    · dsimp only at hset
      rw [Controller.start_irq_irr] at hset
      simp at hset
    · dsimp only at hset
      rw [Controller.start_irq_eq_of_auto hauto] at hset
      exact absurd (hclear.symm.trans hset) Bool.false_ne_true

/-! ## Runs -/

/-- A call at the end of which the guest or the CPU core looks: `PIC_runIRQs` and the port
writes. -/
def Call.Observed : Call → Prop
  | .writeMask _ _ | .writeCommand _ _ | .runIRQs _ _ => True
  | _ => False

/-- IRQs are those of the pair, devices leave the cascade line alone, and no EOI names its IRQ
and rotates, which shifts out of the register. -/
def Call.Regular : Call → Prop
  | .activateIRQ irq | .deActivateIRQ irq => irq < 16 ∧ irq ≠ 2
  | .setIRQMask irq _ => irq < 16
  | .writeCommand _ val => val &&& 0xf8#8 ≠ 0xe0#8
  | .writeMask _ _ | .runIRQs _ _ => True

/-- A call that loses no IRQ in this state: `PIC_runIRQs` starts safely, and no EOI to the primary
ends IRQ 2 while an IRQ of the secondary is ready and not requested. -/
def Call.Safe (s : Pics) : Call → Prop
  | .runIRQs IF trap => IF = true → s.PIC_IRQCheck ≠ 0 → trap = false → s.StartsSafely
  | .writeCommand .primary val => s.primary.eoiIrq val = some 2 →
      s.primary.irr.getLsbD 2 = false → ¬∃ i, s.secondary.Ready i
  | _ => True

theorem ModesInv.eoi (h : s.ModesInv) (heoi : (s.ctrl w).eoiIrq val = some irq)
    (hsafe : (Call.writeCommand w val).Safe s) : (s.write_command w val).ModesInv := by
  rw [write_command_of_eoi heoi]
  have hr := (h.coherent w).warns_specificEoi irq
  cases w with
  | secondary => exact h.put_secondary hr
  | primary =>
    refine h.put_primary hr (by rw [Controller.specificEoi_irr]; rfl) fun hready => ?_
    rw [Controller.specificEoi_irr]
    rcases h.cascade hready with hset | hset
    · exact .inl hset
    · by_cases h2 : irq = 2
      · subst h2
        refine .inl ?_
        by_contra hclear
        exact hsafe heoi (Bool.eq_false_iff.2 hclear) hready
      · refine .inr ?_
        have hset : (s.ctrl .primary).isr.getLsbD 2 = true := hset
        rw [Controller.specificEoi_isr, BitVec.getLsbD_and, hset, BitVec.getLsbD_not, getLsbD_bit]
        simp [h2]

/-- **One step.** -/
theorem ModesInv.step (h : s.ModesInv) {call : Call} (hcall : call.Regular)
    (hsafe : call.Safe s) : (s.step call).ModesInv := by
  cases call with
  | activateIRQ irq => exact h.activateIRQ hcall.1 hcall.2
  | deActivateIRQ irq => exact h.deActivateIRQ hcall.1 hcall.2
  | writeMask w val => exact h.write_data w val
  | setIRQMask irq masked => exact h.set_imr _ _
  | writeCommand w val =>
    cases heoi : (s.ctrl w).eoiIrq val with
    | none => exact h.write_command heoi
    | some irq => exact h.eoi heoi hsafe
  | runIRQs IF trap => exact h.runIRQs hsafe

/-- A call that is not safe is one after which it shows. -/
theorem ModesInv.step_loses (h : s.ModesInv) {call : Call} (hslip : ¬call.Safe s) :
    call.Observed ∧ ¬(s.step call).NothingLost := by
  cases call with
  | activateIRQ | deActivateIRQ | writeMask | setIRQMask => exact absurd trivial hslip
  | writeCommand w val =>
    cases w with
    | secondary => exact absurd trivial hslip
    | primary =>
      refine ⟨trivial, fun hlost => hslip fun heoi hclear hready => ?_⟩
      have hstep : s.step (.writeCommand .primary val) =
          s.put .primary (s.primary.specificEoi 2) :=
        write_command_of_eoi (w := .primary) heoi
      rw [hstep] at hlost
      rcases hlost.cascade hready with hset | hset
      · have hset : (s.primary.specificEoi 2).1.irr.getLsbD 2 = true := hset
        rw [Controller.specificEoi_irr, hclear] at hset
        exact Bool.false_ne_true hset
      · have hset : (s.primary.specificEoi 2).1.isr.getLsbD 2 = true := hset
        rw [Controller.specificEoi_isr_self (by decide)] at hset
        exact Bool.false_ne_true hset
  | runIRQs IF trap =>
    refine ⟨trivial, fun hlost => hslip fun hIF hcheck htrap => ?_⟩
    subst hIF htrap
    by_contra hstart
    exact runIRQs_loses (h.coherent .primary) hcheck hstart hlost

theorem run_append_singleton (s : Pics) (calls : List Call) (call : Call) :
    s.run (calls ++ [call]) = (s.run calls).step call := List.foldl_append

theorem modesInv_PIC_8259A (pcjr egaOrBetter : Bool) : (PIC_8259A pcjr egaOrBetter).ModesInv := by
  have hfresh : (fresh pcjr).ModesInv := by
    refine ⟨⟨?_, ?_⟩, fun w => ?_, ?_⟩
    · rintro ⟨i, hi⟩
      exact absurd hi.irr (by simp [fresh, freshController])
    · rintro ⟨i, hi⟩
      exact absurd hi.irr (by simp [fresh, freshController])
    · cases w with
      | primary =>
        have hs := settled_freshController 0x08
        exact ⟨hs.isrr_eq, hs.imrr_eq, .inl ⟨rfl, rfl⟩⟩
      | secondary =>
        have hs := settled_freshController 0x70
        exact ⟨hs.isrr_eq, hs.imrr_eq, .inl ⟨rfl, rfl⟩⟩
    · exact fun hset => absurd hset (show ¬(0 : Reg).getLsbD 2 = true by decide)
  have h (s : Pics) (hs : s.ModesInv) (irq : Nat) (masked : Bool) :
      (s.PIC_SetIRQMask irq masked).ModesInv := hs.set_imr _ _
  have h8 := h _ (h _ (h _ (h _ hfresh 0 false) 1 false) 2 false) 8 false
  have h9 := (h _ h8 9 false).deActivateIRQ (show 9 < 16 by decide) (by decide)
  unfold PIC_8259A
  dsimp only
  cases pcjr <;> cases egaOrBetter
  · exact h8
  · exact h9
  · exact h _ h8 6 false
  · exact h _ h9 6 false

/-- **A run** of regular calls, each of them safe where it is made. -/
theorem ModesInv.run {s₀ : Pics} {calls before : List Call} (h : s₀.ModesInv)
    (hregular : ∀ before call, before ++ [call] <+: calls → call.Regular)
    (hsafe : ∀ before call, before ++ [call] <+: calls → (s₀.run before).ModesInv →
      call.Safe (s₀.run before)) (hbefore : before <+: calls) : (s₀.run before).ModesInv := by
  induction before using List.reverseRecOn with
  | nil => exact h
  | append_singleton before call ih =>
    have hinv := ih ((List.prefix_append _ _).trans hbefore)
    rw [run_append_singleton]
    exact hinv.step (hregular before call hbefore) (hsafe before call hbefore hinv)

/-- **The runs that lose no IRQ**, with any commands and in all modes: nothing is lost after any
`PIC_runIRQs` or port write exactly when every call is safe in the state it meets. -/
theorem run_nothingLost_iff (pcjr egaOrBetter : Bool) (calls : List Call)
    (hcalls : ∀ call ∈ calls, call.Regular) :
    (∀ before call, before ++ [call] <+: calls → call.Observed →
      ((PIC_8259A pcjr egaOrBetter).run (before ++ [call])).NothingLost) ↔
    ∀ before call, before ++ [call] <+: calls →
      call.Safe ((PIC_8259A pcjr egaOrBetter).run before) := by
  have hregular : ∀ before call, before ++ [call] <+: calls → call.Regular :=
    fun before call hpre => hcalls call (hpre.subset (List.mem_append_right _ (by simp)))
  have hstart := modesInv_PIC_8259A pcjr egaOrBetter
  generalize PIC_8259A pcjr egaOrBetter = s₀ at hstart
  constructor
  · intro hnone
    have hsafe : ∀ before call, before ++ [call] <+: calls → (s₀.run before).ModesInv →
        call.Safe (s₀.run before) := by
      intro before call hpre hinv
      by_contra hslip
      obtain ⟨hobserved, hlost⟩ := hinv.step_loses hslip
      exact hlost (run_append_singleton s₀ before call ▸ hnone before call hpre hobserved)
    exact fun before call hpre =>
      hsafe before call hpre (hstart.run hregular hsafe ((List.prefix_append _ _).trans hpre))
  · intro hsafe before call hpre _
    exact (hstart.run hregular (fun before call hpre _ => hsafe before call hpre)
      hpre).toNothingLost

/-- The clock and the keyboard ask at once; the CPU takes the clock's IRQ. -/
def clockAndKeyboard : List Call :=
  [.writeCommand .primary 0x11#8, .writeMask .primary 0x08#8, .writeMask .primary 0x04#8,
    .writeMask .primary 0x03#8, .activateIRQ 0, .activateIRQ 1, .runIRQs true false]

/-- In automatic EOI mode nothing is in service then, and the keyboard's IRQ waits without a
signal. -/
theorem clockAndKeyboard_loses :
    (∀ call ∈ clockAndKeyboard, call.Regular) ∧
      ((PIC_8259A false true).run clockAndKeyboard).primary.auto_eoi = true ∧
      ((PIC_8259A false true).run clockAndKeyboard).primary.Ready 1 ∧
      ((PIC_8259A false true).run clockAndKeyboard).PIC_IRQCheck = 0 ∧
      ¬∀ before call, before ++ [call] <+: clockAndKeyboard → call.Observed →
        ((PIC_8259A false true).run (before ++ [call])).NothingLost := by
  have hready : ((PIC_8259A false true).run clockAndKeyboard).primary.Ready 1 :=
    ⟨by decide, by decide, by decide, fun _ => by decide⟩
  have hcheck : ((PIC_8259A false true).run clockAndKeyboard).PIC_IRQCheck = 0 := by decide
  refine ⟨?_, by decide, hready, hcheck, fun hnone => ?_⟩
  · intro call hcall
    simp only [clockAndKeyboard, List.mem_cons, List.not_mem_nil, or_false] at hcall
    rcases hcall with rfl | rfl | rfl | rfl | rfl | rfl | rfl <;> simp [Call.Regular]
  · exact (hnone (clockAndKeyboard.take 6) (.runIRQs true false) (List.prefix_refl _)
      trivial).check ⟨1, hready⟩ hcheck

/-- With the clock alone asking nothing is lost. -/
theorem run_nothingLost_clock : ((PIC_8259A false true).run
    [.writeMask .primary 0#8, .activateIRQ 0, .runIRQs true false]).NothingLost := by
  refine (run_nothingLost_iff false true
    [.writeMask .primary 0#8, .activateIRQ 0, .runIRQs true false] ?_).2 ?_
    [.writeMask .primary 0#8, .activateIRQ 0] (.runIRQs true false) (List.prefix_refl _) trivial
  · intro call hcall
    simp only [List.mem_cons, List.not_mem_nil, or_false] at hcall
    rcases hcall with rfl | rfl | rfl <;> simp [Call.Regular]
  · rintro before call ⟨rest, hrest⟩
    match before with
    | [] =>
      obtain ⟨rfl, -⟩ := List.cons.inj hrest
      trivial
    | [_] =>
      obtain ⟨-, hrest⟩ := List.cons.inj hrest
      obtain ⟨rfl, -⟩ := List.cons.inj hrest
      trivial
    | [first, second] =>
      obtain ⟨hfirst, hrest⟩ := List.cons.inj hrest
      obtain ⟨hsecond, hrest⟩ := List.cons.inj hrest
      obtain ⟨rfl, -⟩ := List.cons.inj hrest
      rw [hfirst, hsecond]
      refine fun _ _ _ => ⟨fun i _ hmode => ?_, fun _ hauto => ?_⟩
      · exact absurd hmode (by decide)
      · exact absurd hauto (by decide)
    | _ :: _ :: _ :: _ :: _ => simp at hrest
    | [_, _, _] => simp at hrest

end Pics

end AugraDosbox
