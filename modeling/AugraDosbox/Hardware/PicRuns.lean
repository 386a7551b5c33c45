import AugraDosbox.Hardware.PicSignals

/-!
# No interrupt is lost

The signal that an IRQ is ready is cached in two places, request bit 2 of the
primary and `PIC_IRQCheck`, and every method of a controller updates it by itself.

* `Controller.Deliverable` — an IRQ that is requested, not masked, not in service
  and above what is in service;
* `Controller.Follows` — what each method owes its wire: afterwards the signal it
  ended with, or the old one when it ended with none, says whether some IRQ is
  deliverable;
* `Pics.Inv` — both caches are right;
* **`Pics.run_loses_no_irq`** — they stay right in every run, and `PIC_runIRQs`
  always starts the most urgent deliverable IRQ.
-/

namespace AugraDosbox

open BitRegister

/-! ## One controller -/

namespace Controller

variable {c : Controller} {r : Controller × Option Signal} {i val : Nat}

/-- The IRQ is not masked, and neither it nor a more urgent one is in service. -/
def Open (c : Controller) (i : Nat) : Prop :=
  c.imr.getLsbD i = false ∧ ∀ j ≤ i, c.isr.getLsbD j = false

/-- A requested IRQ that nothing keeps back. -/
def Deliverable (c : Controller) (i : Nat) : Prop := c.irr.getLsbD i = true ∧ c.Open i

/-- Normal EOI mode, special mask off, not waiting for an initialisation word, and
the redundant registers in agreement. -/
structure Settled (c : Controller) : Prop where
  isrr_eq : c.isrr = ~~~c.isr
  imrr_eq : c.imrr = ~~~c.imr
  active : LowestSet c.isr c.active_irq
  special : c.special = false
  auto_eoi : c.auto_eoi = false
  icw_index : c.icw_index = 0

theorem Deliverable.lt (h : c.Deliverable i) : i < 8 := BitVec.lt_of_getLsbD h.1

theorem Settled.coherent (h : c.Settled) : c.Coherent :=
  ⟨h.isrr_eq, h.imrr_eq, active_of_lowestSet h.active⟩

theorem Settled.ready_iff (h : c.Settled) : c.Ready i ↔ c.Deliverable i := by
  constructor
  · intro hi
    refine ⟨hi.irr, hi.imr, fun j hj => ?_⟩
    rcases hj.eq_or_lt with rfl | hlt
    · exact hi.isr
    · exact hi.above h.special j hlt
  · exact fun ⟨hirr, himr, hisr⟩ => ⟨hirr, himr, hisr i le_rfl, fun _ j hj => hisr j hj.le⟩

/-- The scan looks at the deliverable IRQs. -/
theorem Settled.scans_iff (h : c.Settled) : c.Scans i ↔ c.Deliverable i := by
  refine ⟨fun ⟨hlt, hbit⟩ => ?_, fun hd => h.coherent.scans (h.ready_iff.2 hd)⟩
  obtain ⟨hirr, himr, -⟩ := h.coherent.possible_iff.1 hbit
  have hactive : i < c.active_irq := by simpa [a_irq, h.special] using hlt
  exact ⟨hirr, himr, fun j hj => h.active.2.2 j (hj.trans_lt hactive)⟩

/-- The scan for a ready IRQ finds the most urgent deliverable one. -/
theorem Settled.firstSet_eq_some_iff (h : c.Settled) :
    firstSet c.possible_irq c.a_irq = some i ↔
      c.Deliverable i ∧ ∀ j < i, ¬ c.Deliverable j := by
  simp only [firstSet_eq_some_iff_first, First, h.scans_iff]

theorem Settled.firstSet_eq_none_iff (h : c.Settled) :
    firstSet c.possible_irq c.a_irq = none ↔ ¬ ∃ i, c.Deliverable i := by
  simp only [firstSet_eq_none_iff_scans, h.scans_iff]

/-! ## What a method owes its wire -/

/-- After the method the signal it ended with, or the standing one when it ended with
none, says whether some IRQ is deliverable. -/
structure Follows (c : Controller) (r : Controller × Option Signal) : Prop where
  settled : r.1.Settled
  activate : r.2 = some .activate → ∃ i, r.1.Deliverable i
  deactivate : r.2 = some .deactivate → ¬ ∃ i, r.1.Deliverable i
  quiet : r.2 = none → ((∃ i, r.1.Deliverable i) ↔ ∃ i, c.Deliverable i)

theorem Settled.follows (h : c.Settled) (hr : c.Warns r) (hs : r.1.Settled) : c.Follows r where
  settled := hs
  activate hsig := (hr.activate hsig).imp fun _ => hs.scans_iff.1
  deactivate hsig hd := hr.deactivate hsig (hd.imp fun _ => hs.scans_iff.2)
  quiet hsig :=
    ⟨fun hd => (hr.ready hsig (hd.imp fun _ => hs.ready_iff.2)).imp fun _ => h.ready_iff.1,
      fun hd => (hr.scans hsig (hd.imp fun _ => h.scans_iff.2)).imp fun _ => hs.scans_iff.1⟩

theorem Settled.withIrr (h : c.Settled) (irr : Reg) : Settled { c with irr := irr } :=
  ⟨h.isrr_eq, h.imrr_eq, h.active, h.special, h.auto_eoi, h.icw_index⟩

theorem Settled.raise_irq (h : c.Settled) (hv : val < 8) : c.Follows (c.raise_irq val) := by
  refine h.follows (h.coherent.warns_raise_irq hv) ?_
  unfold Controller.raise_irq
  split
  · dsimp only
    split <;> exact h.withIrr _
  · exact h

theorem Settled.lower_irq (h : c.Settled) (hv : val < 8) : c.Follows (c.lower_irq val) := by
  refine h.follows (h.coherent.warns_lower_irq hv) ?_
  unfold Controller.lower_irq
  split
  · dsimp only
    split <;> exact h.withIrr _
  · exact h

theorem Settled.set_imr (h : c.Settled) (mask : Reg) : c.Follows (c.set_imr mask) := by
  refine h.follows (h.coherent.warns_set_imr mask) ?_
  unfold Controller.set_imr
  dsimp only
  split <;> exact ⟨h.isrr_eq, rfl, h.active, h.special, h.auto_eoi, h.icw_index⟩

theorem Settled.specificEoi (h : c.Settled) (irq : Nat) : c.Follows (c.specificEoi irq) := by
  refine h.follows (h.coherent.warns_specificEoi irq) ?_
  unfold Controller.specificEoi check_after_EOI
  dsimp only
  obtain ⟨n, hn, heq⟩ := update_active_irq_eq
    { c with isr := c.isr &&& ~~~bit 8 irq, isrr := ~~~(c.isr &&& ~~~bit 8 irq) }
  rw [heq]
  split <;> exact ⟨rfl, h.imrr_eq, hn, h.special, h.auto_eoi, h.icw_index⟩

theorem Settled.nonspecificEoi (h : c.Settled) : c.Follows c.nonspecificEoi := by
  unfold Controller.nonspecificEoi
  split
  · exact h.specificEoi _
  · exact ⟨h, fun hc => by simp at hc, fun hc => by simp at hc, fun _ => Iff.rfl⟩

/-- Starting the most urgent deliverable IRQ leaves none deliverable. -/
theorem Settled.start_irq (h : c.Settled) (hd : c.Deliverable i)
    (hfirst : ∀ j < i, ¬ c.Deliverable j) :
    (c.start_irq i).Settled ∧ ¬ ∃ j, (c.start_irq i).Deliverable j := by
  have hi := hd.lt
  rw [start_irq_eq_of_not_auto h.auto_eoi]
  have hisr' : ∀ j, (c.isr ||| bit 8 i).getLsbD j = (c.isr.getLsbD j || decide (i = j)) := by
    intro j
    rw [BitVec.getLsbD_or, getLsbD_bit]
    simp [hi]
  constructor
  · refine ⟨rfl, h.imrr_eq, ⟨Nat.le_of_lt hi, fun _ => by simp [hisr'], ?_⟩, h.special,
      h.auto_eoi, h.icw_index⟩
    intro j hj
    rw [hisr', hd.2.2 j (Nat.le_of_lt hj)]
    simpa using (Nat.ne_of_lt hj).symm
  · rintro ⟨j, hirr, himr, hisr⟩
    have hbelow : j < i := by
      by_contra hle
      have hset := hisr i (not_lt.1 hle)
      simp [hisr'] at hset
    refine hfirst j hbelow ⟨?_, himr, fun k hk => ?_⟩
    · rw [BitVec.getLsbD_and, Bool.and_eq_true] at hirr
      exact hirr.1
    · have hclear := hisr k hk
      rw [hisr', Bool.or_eq_false_iff] at hclear
      exact hclear.1

/-! ## What the methods leave in the request register -/

theorem raise_irq_irr (hv : val < 8) (j : Nat) :
    (c.raise_irq val).1.irr.getLsbD j = (c.irr.getLsbD j || decide (val = j)) := by
  have hbit : (c.irr ||| bit 8 val).getLsbD j = (c.irr.getLsbD j || decide (val = j)) := by
    rw [BitVec.getLsbD_or, getLsbD_bit]
    simp [hv]
  unfold raise_irq
  split
  · dsimp only
    split <;> exact hbit
  · rename_i hset
    have hval := (and_bit_ne_zero c.irr val).1 hset
    by_cases hj : val = j
    · subst hj
      simp [hval]
    · simp [hj]

theorem lower_irq_irr (hv : val < 8) (j : Nat) :
    (c.lower_irq val).1.irr.getLsbD j = (c.irr.getLsbD j && decide (val ≠ j)) := by
  have hbit : (c.irr &&& ~~~bit 8 val).getLsbD j =
      (c.irr.getLsbD j && decide (val ≠ j)) := by
    rw [BitVec.getLsbD_and, BitVec.getLsbD_not, getLsbD_bit]
    cases hirr : c.irr.getLsbD j with
    | false => simp
    | true =>
      have hj : j < 8 := BitVec.lt_of_getLsbD hirr
      simp [hv, hj]
  unfold lower_irq
  split
  · dsimp only
    split <;> exact hbit
  · rename_i hclear
    have hval := mt (and_bit_ne_zero c.irr val).2 hclear
    by_cases hj : val = j
    · subst hj
      simp [hval]
    · simp [hj]

@[simp] theorem set_imr_irr (mask : Reg) : (c.set_imr mask).1.irr = c.irr := by
  unfold set_imr
  dsimp only
  split <;> rfl

@[simp] theorem specificEoi_irr (irq : Nat) : (c.specificEoi irq).1.irr = c.irr := by
  unfold specificEoi check_after_EOI
  obtain ⟨n, -, heq⟩ := update_active_irq_eq
    { c with isr := c.isr &&& ~~~bit 8 irq, isrr := ~~~(c.isr &&& ~~~bit 8 irq) }
  dsimp only
  rw [heq]
  split <;> rfl

@[simp] theorem nonspecificEoi_irr : c.nonspecificEoi.1.irr = c.irr := by
  unfold nonspecificEoi
  split
  · exact specificEoi_irr _
  · rfl

end Controller

/-! ## The pair -/

namespace Pics

variable {s : Pics} {r : Controller × Option Signal} {irq : Nat}

/-- Both controllers are settled and both caches of "an IRQ is ready" are right. -/
structure Inv (s : Pics) : Prop where
  primary : s.primary.Settled
  secondary : s.secondary.Settled
  cascade : s.primary.irr.getLsbD 2 = true ↔ ∃ i, s.secondary.Deliverable i
  check : s.PIC_IRQCheck ≠ 0 ↔ ∃ i, s.primary.Deliverable i

/-- A method of the primary leaves `PIC_IRQCheck` right. -/
theorem checkAfter_ne_zero (hcheck : s.PIC_IRQCheck ≠ 0 ↔ ∃ i, s.primary.Deliverable i)
    (hr : s.primary.Follows r) :
    (s.putPrimary r).PIC_IRQCheck ≠ 0 ↔ ∃ i, (s.putPrimary r).primary.Deliverable i := by
  unfold putPrimary checkAfter
  dsimp only
  match hsig : r.2 with
  | none => exact hcheck.trans (hr.quiet hsig).symm
  | some .activate => exact iff_of_true Nat.one_ne_zero (hr.activate hsig)
  | some .deactivate => exact iff_of_false (fun hc => hc rfl) (hr.deactivate hsig)

theorem Inv.put_primary (h : s.Inv) (hr : s.primary.Follows r)
    (hirr : r.1.irr.getLsbD 2 = s.primary.irr.getLsbD 2) : (s.put .primary r).Inv :=
  ⟨hr.settled, h.secondary, hirr ▸ h.cascade, checkAfter_ne_zero h.check hr⟩

/-- A method of the secondary, followed by what its signal does to the primary. -/
theorem Inv.put_secondary (h : s.Inv) (hr : s.secondary.Follows r) :
    (s.put .secondary r).Inv := by
  unfold put
  dsimp only
  match hsig : r.2 with
  | none =>
    exact ⟨h.primary, hr.settled, h.cascade.trans (hr.quiet hsig).symm, h.check⟩
  | some .activate =>
    have hraise := h.primary.raise_irq (show 2 < 8 by decide)
    refine ⟨hraise.settled, hr.settled, ?_,
      checkAfter_ne_zero (s := { s with secondary := r.1 }) h.check hraise⟩
    refine iff_of_true ?_ (hr.activate hsig)
    exact (Controller.raise_irq_irr (by decide) 2).trans (by simp)
  | some .deactivate =>
    have hlower := h.primary.lower_irq (show 2 < 8 by decide)
    refine ⟨hlower.settled, hr.settled, ?_,
      checkAfter_ne_zero (s := { s with secondary := r.1 }) h.check hlower⟩
    refine iff_of_false ?_ (hr.deactivate hsig)
    rw [Bool.not_eq_true]
    exact (Controller.lower_irq_irr (by decide) 2).trans (by simp)

/-- A method that leaves the request register alone keeps the invariant on either
controller. -/
theorem Inv.put (h : s.Inv) {w : Which} (hr : (s.ctrl w).Follows r)
    (hirr : r.1.irr = (s.ctrl w).irr) : (s.put w r).Inv := by
  cases w with
  | primary => exact h.put_primary hr (by rw [hirr]; rfl)
  | secondary => exact h.put_secondary hr

theorem Inv.settled (h : s.Inv) (w : Which) : (s.ctrl w).Settled := by
  cases w with
  | primary => exact h.primary
  | secondary => exact h.secondary

/-! ## One call -/

theorem line_lt (h : irq < 16) : line irq < 8 := by
  unfold line
  split <;> omega

theorem Inv.set_imr (h : s.Inv) (w : Which) (val : Reg) : (s.set_imr w val).Inv :=
  h.put ((h.settled w).set_imr _) (by simp)

theorem Inv.setIRQMask (h : s.Inv) (irq : Nat) (masked : Bool) :
    (s.PIC_SetIRQMask irq masked).Inv := h.set_imr _ _

/-- Outside an initialisation sequence a write to the data port is a mask write. -/
theorem Inv.write_data (h : s.Inv) (w : Which) (val : Reg) : (s.write_data w val).Inv := by
  unfold Pics.write_data
  dsimp only
  rw [(h.settled w).icw_index]
  exact h.set_imr w val

theorem Inv.activateIRQ (h : s.Inv) (hirq : irq < 16) (hne : irq ≠ 2) :
    (s.PIC_ActivateIRQ irq).Inv := by
  have hr := (h.settled (serving irq)).raise_irq (line_lt hirq)
  unfold PIC_ActivateIRQ
  by_cases hhigh : irq > 7
  · rw [show serving irq = .secondary by simp [serving, hhigh]] at hr ⊢
    exact h.put_secondary hr
  · rw [show serving irq = .primary by simp [serving, hhigh]] at hr ⊢
    refine h.put_primary hr ?_
    rw [Controller.raise_irq_irr (line_lt hirq)]
    simp [line, hhigh, hne, ctrl]

theorem Inv.deActivateIRQ (h : s.Inv) (hirq : irq < 16) (hne : irq ≠ 2) :
    (s.PIC_DeActivateIRQ irq).Inv := by
  have hr := (h.settled (serving irq)).lower_irq (line_lt hirq)
  unfold PIC_DeActivateIRQ
  by_cases hhigh : irq > 7
  · rw [show serving irq = .secondary by simp [serving, hhigh]] at hr ⊢
    exact h.put_secondary hr
  · rw [show serving irq = .primary by simp [serving, hhigh]] at hr ⊢
    refine h.put_primary hr ?_
    rw [Controller.lower_irq_irr (line_lt hirq)]
    simp [line, hhigh, hne, ctrl]

/-- An EOI command without rotation: bits 7, 4 and 3 clear, bit 5 set; bit 6 makes it a
specific one. -/
def IsEoi (val : Reg) : Prop := val &&& 0xb8#8 = 0x20#8

instance (val : Reg) : Decidable (IsEoi val) := inferInstanceAs (Decidable (_ = _))

theorem IsEoi.and_eq {val : Reg} (h : IsEoi val) {m : Reg} (hm : 0xb8#8 &&& m = m) :
    val &&& m = 0x20#8 &&& m := by
  calc val &&& m = val &&& (0xb8#8 &&& m) := by rw [hm]
    _ = 0x20#8 &&& m := by rw [← BitVec.and_assoc, h]

theorem Inv.eoi (h : s.Inv) (w : Which) {val : Reg} (hval : IsEoi val) :
    (s.write_command w val).Inv := by
  have h10 : val &&& 0x10#8 = 0 := hval.and_eq (by decide)
  have h08 : val &&& 0x08#8 = 0 := hval.and_eq (by decide)
  have h20 : val &&& 0x20#8 ≠ 0 := by
    rw [hval.and_eq (by decide)]
    decide
  unfold write_command
  rw [if_neg (not_not.2 h10), if_neg (not_not.2 h08), if_pos h20]
  split
  · exact h.put ((h.settled w).specificEoi _) (by simp)
  · exact h.put (h.settled w).nonspecificEoi (by simp)

/-! ## Starting an interrupt -/

/-- An IRQ of the pair that nothing keeps back; one of the secondary also needs the
cascade input of the primary open. -/
def Deliverable (s : Pics) (irq : Nat) : Prop :=
  (irq ≤ 7 ∧ irq ≠ 2 ∧ s.primary.Deliverable irq) ∨
    (7 < irq ∧ s.secondary.Deliverable (irq - 8) ∧ s.primary.Open 2)

/-- Urgency, most urgent first: the secondary's IRQs stand in the place of IRQ 2. -/
def rank (irq : Nat) : Nat := if irq > 7 then 16 + (irq - 8) else 8 * irq

/-- The most urgent deliverable IRQ. -/
def MostUrgent (s : Pics) (irq : Nat) : Prop :=
  s.Deliverable irq ∧ ∀ other, s.Deliverable other → rank irq ≤ rank other

/-- A deliverable IRQ of the pair is one of the primary, IRQ 2 for the secondary's. -/
theorem Inv.deliverable_primary (h : s.Inv) (hd : s.Deliverable irq) :
    s.primary.Deliverable (if irq > 7 then 2 else irq) := by
  obtain ⟨hle, -, hd⟩ | ⟨hgt, hd, hopen⟩ := hd
  · rw [if_neg (by omega)]
    exact hd
  · rw [if_pos hgt]
    exact ⟨h.cascade.2 ⟨_, hd⟩, hopen⟩

theorem Inv.mostUrgent_primary (h : s.Inv) {i : Nat} (hi : s.primary.Deliverable i)
    (hfirst : ∀ j < i, ¬ s.primary.Deliverable j) (h2 : i ≠ 2) : s.MostUrgent i := by
  have h7 : i ≤ 7 := Nat.le_of_lt_succ hi.lt
  refine ⟨.inl ⟨h7, h2, hi⟩, fun other hother => ?_⟩
  have hle : i ≤ if other > 7 then 2 else other := by
    by_contra hlt
    exact hfirst _ (not_le.1 hlt) (h.deliverable_primary hother)
  unfold rank
  rw [if_neg (by omega)]
  split at hle <;> rename_i hgt
  · rw [if_pos hgt]
    omega
  · rw [if_neg hgt]
    omega

theorem Inv.mostUrgent_secondary (h : s.Inv) {i : Nat} (h2 : s.primary.Deliverable 2)
    (hfirst2 : ∀ j < 2, ¬ s.primary.Deliverable j) (hi : s.secondary.Deliverable i)
    (hfirst : ∀ j < i, ¬ s.secondary.Deliverable j) : s.MostUrgent (8 + i) := by
  refine ⟨.inr ⟨by omega, by rwa [Nat.add_sub_cancel_left], h2.2⟩, fun other hother => ?_⟩
  have hprimary := h.deliverable_primary hother
  have hi8 := hi.lt
  unfold rank
  rw [if_pos (by omega)]
  obtain ⟨hle, hne, -⟩ | ⟨hgt, hd, -⟩ := hother
  · rw [if_neg (by omega)] at hprimary ⊢
    have hge : ¬ other < 2 := fun hlt => hfirst2 other hlt hprimary
    omega
  · rw [if_pos hgt]
    have hge : ¬ other - 8 < i := fun hlt => hfirst _ hlt hd
    omega

/-- What `PIC_runIRQs` does from a state where both caches are right. -/
theorem Inv.runIRQs (h : s.Inv) (IF trap : Bool) :
    (s.PIC_runIRQs IF trap).1.Inv ∧
      (((s.PIC_runIRQs IF trap).2 = .nothing ∧
          (IF = true → trap = false → ¬ ∃ irq, s.Deliverable irq)) ∨
        ∃ irq vector, (s.PIC_runIRQs IF trap).2 = .irq irq vector ∧ s.MostUrgent irq) := by
  unfold PIC_runIRQs
  cases IF with
  | false => exact ⟨h, .inl ⟨rfl, fun hc => absurd hc (by decide)⟩⟩
  | true =>
    rw [if_neg (by decide)]
    by_cases hcheck : s.PIC_IRQCheck = 0
    · rw [if_pos hcheck]
      refine ⟨h, .inl ⟨rfl, fun _ _ ⟨irq, hd⟩ => ?_⟩⟩
      exact h.check.2 ⟨_, h.deliverable_primary hd⟩ hcheck
    rw [if_neg hcheck]
    cases trap with
    | true => exact ⟨h, .inl ⟨rfl, fun _ hc => absurd hc (by decide)⟩⟩
    | false =>
      rw [if_neg (by decide)]
      cases hscan : firstSet s.primary.possible_irq s.primary.a_irq with
      | none => exact absurd (h.check.1 hcheck) (h.primary.firstSet_eq_none_iff.1 hscan)
      | some i =>
        obtain ⟨hi, hfirst⟩ := h.primary.firstSet_eq_some_iff.1 hscan
        obtain ⟨hprimary, hdone⟩ := h.primary.start_irq hi hfirst
        by_cases h2 : i = 2
        · -- the cascade bit is up, so the secondary has an IRQ to start
          subst h2
          dsimp only
          rw [if_pos rfl]
          unfold secondary_startIRQ
          cases hscan2 : firstSet s.secondary.possible_irq s.secondary.a_irq with
          | none =>
            exact absurd (h.cascade.1 hi.1) (h.secondary.firstSet_eq_none_iff.1 hscan2)
          | some k =>
            obtain ⟨hk, hkfirst⟩ := h.secondary.firstSet_eq_some_iff.1 hscan2
            obtain ⟨hsecondary, hkdone⟩ := h.secondary.start_irq hk hkfirst
            dsimp only
            rw [if_neg (Nat.ne_of_lt hk.lt)]
            refine ⟨⟨hprimary, hsecondary, iff_of_false ?_ hkdone,
              iff_of_false (fun hc => hc rfl) hdone⟩, .inr ⟨8 + k, _, rfl,
                h.mostUrgent_secondary hi hfirst hk hkfirst⟩⟩
            rw [Controller.start_irq_eq_of_not_auto h.primary.auto_eoi]
            simp
        · dsimp only
          rw [if_neg h2]
          refine ⟨⟨hprimary, h.secondary, ?_, iff_of_false (fun hc => hc rfl) hdone⟩,
            .inr ⟨i, _, rfl, h.mostUrgent_primary hi hfirst h2⟩⟩
          refine Iff.trans ?_ h.cascade
          dsimp only [primary_startIRQ]
          rw [Controller.start_irq_eq_of_not_auto h.primary.auto_eoi]
          dsimp only
          rw [BitVec.getLsbD_and, BitVec.getLsbD_not, getLsbD_bit]
          simp only [decide_eq_false h2, Bool.and_false, Bool.not_false, Bool.and_true,
            Nat.reduceLT, decide_true]

/-! ## Runs -/

/-- A call from a device, from the guest's code or from the CPU core. -/
inductive Call where
  | activateIRQ (irq : Nat)
  | deActivateIRQ (irq : Nat)
  /-- A write to port 21h or A1h. -/
  | writeMask (w : Which) (val : Reg)
  | setIRQMask (irq : Nat) (masked : Bool)
  /-- A write to port 20h or A0h. -/
  | writeCommand (w : Which) (val : Reg)
  | runIRQs (IF trap : Bool)

/-- IRQs are those of the pair, devices leave the cascade line alone, and the commands
are EOIs without rotation. -/
def Call.Normal : Call → Prop
  | .activateIRQ irq => irq < 16 ∧ irq ≠ 2
  | .deActivateIRQ irq => irq < 16 ∧ irq ≠ 2
  | .writeMask _ _ => True
  | .setIRQMask irq _ => irq < 16
  | .writeCommand _ val => IsEoi val
  | .runIRQs _ _ => True

def step (s : Pics) : Call → Pics
  | .activateIRQ irq => s.PIC_ActivateIRQ irq
  | .deActivateIRQ irq => s.PIC_DeActivateIRQ irq
  | .writeMask w val => s.write_data w val
  | .setIRQMask irq masked => s.PIC_SetIRQMask irq masked
  | .writeCommand w val => s.write_command w val
  | .runIRQs IF trap => (s.PIC_runIRQs IF trap).1

/-- The pair after a sequence of calls. -/
def run (s : Pics) (calls : List Call) : Pics := calls.foldl step s

theorem Inv.step (h : s.Inv) {call : Call} (hcall : call.Normal) : (s.step call).Inv := by
  cases call with
  | activateIRQ irq => exact h.activateIRQ hcall.1 hcall.2
  | deActivateIRQ irq => exact h.deActivateIRQ hcall.1 hcall.2
  | writeMask w val => exact h.write_data w val
  | setIRQMask irq masked => exact h.setIRQMask irq masked
  | writeCommand w val => exact h.eoi w hcall
  | runIRQs IF trap => exact (h.runIRQs IF trap).1

theorem Inv.run (h : s.Inv) {calls : List Call} (hcalls : ∀ call ∈ calls, call.Normal) :
    (s.run calls).Inv := by
  induction calls generalizing s with
  | nil => exact h
  | cons call calls ih =>
    have hstep := h.step (hcalls call List.mem_cons_self)
    exact ih hstep fun c hc => hcalls c (List.mem_cons_of_mem call hc)

theorem settled_freshController (base : Reg) : (freshController base).Settled :=
  ⟨show (0xff : Reg) = ~~~0 by decide, show (0 : Reg) = ~~~0xff by decide, lowestSet_zero,
    rfl, rfl, rfl⟩

theorem not_deliverable_freshController (base : Reg) :
    ¬ ∃ i, (freshController base).Deliverable i := by
  rintro ⟨i, hirr, -⟩
  simp [freshController] at hirr

theorem inv_fresh (pcjr : Bool) : (fresh pcjr).Inv :=
  ⟨settled_freshController _, settled_freshController _,
    iff_of_false (show ¬ (0 : Reg).getLsbD 2 = true by decide) (not_deliverable_freshController _),
    iff_of_false (fun hc => hc rfl) (not_deliverable_freshController _)⟩

theorem inv_PIC_8259A (pcjr egaOrBetter : Bool) : (PIC_8259A pcjr egaOrBetter).Inv := by
  have h := ((((inv_fresh pcjr).setIRQMask 0 false).setIRQMask 1 false).setIRQMask 2
    false).setIRQMask 8 false
  have h9 := (h.setIRQMask 9 false).deActivateIRQ (show 9 < 16 by decide) (by decide)
  unfold PIC_8259A
  dsimp only
  cases pcjr <;> cases egaOrBetter
  · exact h
  · exact h9
  · exact h.setIRQMask 6 false
  · exact h9.setIRQMask 6 false

/-- **No interrupt is lost by the pair.**  After every sequence of requests, mask writes,
EOIs and `PIC_runIRQs` calls on either machine type the redundant registers agree, both
caches say whether an IRQ is deliverable, and the next `PIC_runIRQs` starts the most
urgent deliverable IRQ whenever there is one and the CPU takes interrupts; it never
finds the secondary without an IRQ to start. -/
theorem run_loses_no_irq (pcjr egaOrBetter : Bool) (calls : List Call)
    (hcalls : ∀ call ∈ calls, call.Normal) :
    let s := (PIC_8259A pcjr egaOrBetter).run calls
    (∀ w, (s.ctrl w).isrr = ~~~(s.ctrl w).isr ∧ (s.ctrl w).imrr = ~~~(s.ctrl w).imr ∧
      LowestSet (s.ctrl w).isr (s.ctrl w).active_irq) ∧
    (s.primary.irr.getLsbD 2 = true ↔ ∃ i, s.secondary.Deliverable i) ∧
    (s.PIC_IRQCheck ≠ 0 ↔ ∃ i, s.primary.Deliverable i) ∧
    ∀ IF trap, (s.PIC_runIRQs IF trap).2 ≠ .notActive ∧
      (∀ irq vector, (s.PIC_runIRQs IF trap).2 = .irq irq vector → s.MostUrgent irq) ∧
      (IF = true → trap = false → (∃ irq, s.Deliverable irq) →
        ∃ irq vector, (s.PIC_runIRQs IF trap).2 = .irq irq vector) := by
  intro s
  have h : s.Inv := (inv_PIC_8259A pcjr egaOrBetter).run hcalls
  refine ⟨fun w => ⟨(h.settled w).isrr_eq, (h.settled w).imrr_eq, (h.settled w).active⟩,
    h.cascade, h.check, fun IF trap => ?_⟩
  obtain ⟨-, ⟨hnothing, hnone⟩ | ⟨irq, vector, hstarted, hurgent⟩⟩ := h.runIRQs IF trap
  · rw [hnothing]
    refine ⟨by simp, fun irq vector hc => by simp at hc, fun hIF htrap hd => ?_⟩
    exact absurd hd (hnone hIF htrap)
  · rw [hstarted]
    refine ⟨by simp, fun irq' vector' hc => ?_, fun _ _ _ => ⟨irq, vector, rfl⟩⟩
    obtain ⟨rfl, rfl⟩ : irq = irq' ∧ vector = vector' := by simpa using hc
    exact hurgent

/-- The RTC asks first, then the keyboard, then the clock.  With the clock served and
ended the keyboard is next: IRQ 1 stands before the RTC on the secondary. -/
theorem run_loses_no_irq_twoControllers :
    let s := (PIC_8259A false true).run [.activateIRQ 8, .activateIRQ 1, .activateIRQ 0,
      .runIRQs true false, .writeCommand .primary 0x20#8]
    (s.primary.irr.getLsbD 2 = true ↔ ∃ i, s.secondary.Deliverable i) ∧
      (s.PIC_runIRQs true false).2 = .irq 1 9 ∧ s.MostUrgent 1 := by
  intro s
  have h := run_loses_no_irq false true [.activateIRQ 8, .activateIRQ 1, .activateIRQ 0,
    .runIRQs true false, .writeCommand .primary 0x20#8] (by
      intro call hcall
      simp only [List.mem_cons, List.not_mem_nil, or_false] at hcall
      rcases hcall with rfl | rfl | rfl | rfl | rfl <;> simp [Call.Normal, IsEoi])
  have hstarted : (s.PIC_runIRQs true false).2 = .irq 1 9 := by decide
  exact ⟨h.2.1, hstarted, (h.2.2.2 true false).2.1 1 9 hstarted⟩

end Pics

end AugraDosbox
