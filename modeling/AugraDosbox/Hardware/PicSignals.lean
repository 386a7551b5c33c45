import AugraDosbox.Hardware.Pic

/-!
# What a controller signals

In every mode, what the methods of a controller tell about the IRQs that are ready.

* `Controller.Ready` — deliverable in the controller's own mode;
* `Controller.Scans` — what the scanning loops look at, which may be more: `active_irq` is the
  last IRQ started, not the most urgent one in service;
* `Controller.Warns` — what a method owes its wire: it never keeps quiet about a ready IRQ.
-/

namespace AugraDosbox

open BitRegister

/-! ## One controller -/

namespace Controller

variable {c : Controller} {r : Controller × Option Signal} {i j val : Nat}

/-- Requested, not masked, not in service, and outside special mask mode above what is in
service. -/
structure Ready (c : Controller) (i : Nat) : Prop where
  irr : c.irr.getLsbD i = true
  imr : c.imr.getLsbD i = false
  isr : c.isr.getLsbD i = false
  above : c.special = false → ∀ j < i, c.isr.getLsbD j = false

/-- An IRQ that stops the scan for one. -/
def Scans (c : Controller) (i : Nat) : Prop := i < c.a_irq ∧ c.possible_irq.getLsbD i = true

/-- The IRQ that the scan for one finds. -/
def First (c : Controller) (i : Nat) : Prop := c.Scans i ∧ ∀ j < i, ¬c.Scans j

/-- The reversed registers agree with theirs, and `active_irq` is an IRQ in service when there is
one. -/
structure Coherent (c : Controller) : Prop where
  isrr_eq : c.isrr = ~~~c.isr
  imrr_eq : c.imrr = ~~~c.imr
  active : (c.active_irq = 8 ∧ c.isr = 0) ∨ c.isr.getLsbD c.active_irq = true

theorem Ready.lt (h : c.Ready i) : i < 8 := BitVec.lt_of_getLsbD h.irr

theorem firstSet_eq_some_iff_first : firstSet c.possible_irq c.a_irq = some i ↔ c.First i := by
  rw [BitRegister.firstSet_eq_some_iff, ← and_assoc]
  refine and_congr_right fun hi => forall₂_congr fun j hj => ?_
  have hja : j < c.a_irq := lt_trans hj hi.1
  simp only [Scans, hja, true_and, Bool.not_eq_true]

theorem firstSet_eq_none_iff_scans :
    firstSet c.possible_irq c.a_irq = none ↔ ¬∃ i, c.Scans i := by
  rw [BitRegister.firstSet_eq_none_iff]
  simp only [Scans, not_exists, not_and, Bool.not_eq_true]

theorem exists_first (h : ∃ i, c.Scans i) : ∃ i, c.First i := by
  cases hscan : firstSet c.possible_irq c.a_irq with
  | none => exact absurd h (firstSet_eq_none_iff_scans.1 hscan)
  | some i => exact ⟨i, firstSet_eq_some_iff_first.1 hscan⟩

theorem Coherent.possible_iff (h : c.Coherent) :
    c.possible_irq.getLsbD i = true ↔
      c.irr.getLsbD i = true ∧ c.imr.getLsbD i = false ∧ c.isr.getLsbD i = false := by
  unfold possible_irq
  rw [BitVec.getLsbD_and, BitVec.getLsbD_and, h.imrr_eq, h.isrr_eq, BitVec.getLsbD_not,
    BitVec.getLsbD_not]
  cases hirr : c.irr.getLsbD i with
  | false => simp
  | true =>
    have hi : i < 8 := BitVec.lt_of_getLsbD hirr
    simp [hi]

theorem Coherent.scans (h : c.Coherent) (hi : c.Ready i) : c.Scans i := by
  refine ⟨?_, h.possible_iff.2 ⟨hi.irr, hi.imr, hi.isr⟩⟩
  unfold a_irq
  split
  · exact hi.lt
  · rename_i hspecial
    rw [Bool.not_eq_true] at hspecial
    rcases h.active with ⟨h8, -⟩ | hset
    · rw [h8]
      exact hi.lt
    · by_contra hle
      rcases (not_lt.1 hle).eq_or_lt with heq | hlt
      · rw [heq, hi.isr] at hset
        exact absurd hset Bool.false_ne_true
      · rw [hi.above hspecial _ hlt] at hset
        exact absurd hset Bool.false_ne_true

/-- The test a method makes before it signals. -/
theorem signal_iff_scans (hi : i < 8) (hirr : c.irr.getLsbD i = true) :
    bit 8 i &&& c.imrr &&& c.isrr ≠ 0 ∧ (c.special = true ∨ i < c.active_irq) ↔ c.Scans i := by
  have hmask : bit 8 i &&& c.imrr &&& c.isrr ≠ 0 ↔ c.possible_irq.getLsbD i = true := by
    rw [BitVec.and_assoc, BitVec.and_comm, and_bit_ne_zero]
    unfold possible_irq
    simp only [BitVec.getLsbD_and, hirr, Bool.true_and]
  rw [hmask, Scans, and_comm]
  refine and_congr_left fun _ => ?_
  unfold a_irq
  split
  · rename_i hspecial
    exact iff_of_true (.inl hspecial) hi
  · rename_i hspecial
    exact or_iff_right hspecial

/-- `check_for_irq` signals exactly whether the scan finds an IRQ. -/
theorem check_for_irq_eq_scans :
    (c.check_for_irq = .activate ∧ ∃ i, c.Scans i) ∨
      (c.check_for_irq = .deactivate ∧ ¬∃ i, c.Scans i) := by
  unfold check_for_irq
  by_cases hzero : c.possible_irq = 0
  · refine .inr ⟨if_neg (not_not.2 hzero), ?_⟩
    rintro ⟨i, -, hbit⟩
    rw [hzero] at hbit
    simp at hbit
  · rw [if_pos hzero]
    cases hscan : firstSet c.possible_irq c.a_irq with
    | some i => exact .inl ⟨rfl, i, (firstSet_eq_some_iff_first.1 hscan).1⟩
    | none => exact .inr ⟨rfl, firstSet_eq_none_iff_scans.1 hscan⟩

/-! ## What a method owes its wire -/

/-- After the method the signal says whether the scan finds an IRQ; one that ends with none has
neither made an IRQ ready nor taken the last one from the scan. -/
structure Warns (c : Controller) (r : Controller × Option Signal) : Prop where
  coherent : r.1.Coherent
  activate : r.2 = some .activate → ∃ i, r.1.Scans i
  deactivate : r.2 = some .deactivate → ¬∃ i, r.1.Scans i
  ready : r.2 = none → (∃ i, r.1.Ready i) → ∃ i, c.Ready i
  scans : r.2 = none → (∃ i, c.Scans i) → ∃ i, r.1.Scans i

variable {c' : Controller}

theorem Coherent.warns_check (h : c'.Coherent) :
    c.Warns (c', some c'.check_for_irq) := by
  obtain ⟨hsig, hs⟩ | ⟨hsig, hs⟩ := check_for_irq_eq_scans (c := c')
  · exact ⟨h, fun _ => hs, fun hc => by simp [hsig] at hc, fun hc => by simp at hc,
      fun hc => by simp at hc⟩
  · exact ⟨h, fun hc => by simp [hsig] at hc, fun _ => hs, fun hc => by simp at hc,
      fun hc => by simp at hc⟩

theorem Coherent.warns_quiet (h : c'.Coherent) (hready : (∃ i, c'.Ready i) → ∃ i, c.Ready i)
    (hscans : (∃ i, c.Scans i) → ∃ i, c'.Scans i) :
    c.Warns (c', none) :=
  ⟨h, fun hc => by simp at hc, fun hc => by simp at hc, fun _ => hready, fun _ => hscans⟩

theorem Coherent.withIrr (h : c.Coherent) (irr : Reg) : Coherent { c with irr := irr } :=
  ⟨h.isrr_eq, h.imrr_eq, h.active⟩

theorem Coherent.warns_raise_irq (h : c.Coherent) (hv : val < 8) : c.Warns (c.raise_irq val) := by
  have hs := h.withIrr (c.irr ||| bit 8 val)
  have hirr : ∀ j, (c.irr ||| bit 8 val).getLsbD j = (c.irr.getLsbD j || decide (val = j)) := by
    intro j
    rw [BitVec.getLsbD_or, getLsbD_bit]
    simp [hv]
  have hsignal := signal_iff_scans (c := { c with irr := c.irr ||| bit 8 val }) hv (by simp [hirr])
  unfold raise_irq
  split
  · dsimp only
    split
    · rename_i hopen
      exact ⟨hs, fun _ => ⟨val, hsignal.1 hopen⟩, fun hc => by simp at hc, fun hc => by simp at hc,
        fun hc => by simp at hc⟩
    · rename_i hclosed
      refine hs.warns_quiet ?_ ?_
      · rintro ⟨i, hi⟩
        have hne : val ≠ i := fun hval => hclosed (hsignal.2 (hval ▸ hs.scans hi))
        refine ⟨i, ?_, hi.imr, hi.isr, hi.above⟩
        have := hi.irr
        simpa [hirr, hne] using this
      · rintro ⟨i, hlt, hbit⟩
        refine ⟨i, hlt, ?_⟩
        rw [h.possible_iff] at hbit
        exact hs.possible_iff.2 ⟨by simp [hbit.1], hbit.2⟩
  · exact h.warns_quiet id id

theorem Coherent.warns_lower_irq (h : c.Coherent) (hv : val < 8) : c.Warns (c.lower_irq val) := by
  have hs := h.withIrr (c.irr &&& ~~~bit 8 val)
  unfold lower_irq
  split
  · rename_i hreq
    have hsignal := signal_iff_scans hv ((and_bit_ne_zero c.irr val).1 hreq)
    dsimp only
    split
    · exact hs.warns_check
    · rename_i hclosed
      refine hs.warns_quiet ?_ ?_
      · rintro ⟨i, hi⟩
        refine ⟨i, ?_, hi.imr, hi.isr, hi.above⟩
        have hirr : (c.irr &&& ~~~bit 8 val).getLsbD i = true := hi.irr
        rw [BitVec.getLsbD_and, Bool.and_eq_true] at hirr
        exact hirr.1
      · rintro ⟨i, hi⟩
        have hne : val ≠ i := fun hval => hclosed (hsignal.2 (hval ▸ hi))
        have hpossible := h.possible_iff.1 hi.2
        have h8 : i < 8 := BitVec.lt_of_getLsbD hpossible.1
        refine ⟨i, hi.1, hs.possible_iff.2 ⟨?_, hpossible.2⟩⟩
        rw [BitVec.getLsbD_and, BitVec.getLsbD_not, getLsbD_bit, hpossible.1]
        simp [h8, hne]
  · exact h.warns_quiet id id

/-- A mask write rechecks whenever a bit it changed is requested and not in service. -/
theorem Coherent.warns_set_imr (h : c.Coherent) (mask : Reg) : c.Warns (c.set_imr mask) := by
  have hs : Coherent { c with imr := mask, imrr := ~~~mask } := ⟨h.isrr_eq, rfl, h.active⟩
  unfold set_imr
  dsimp only
  split
  · exact hs.warns_check
  · rename_i hsame
    have hbit : ∀ i, c.irr.getLsbD i = true → c.isr.getLsbD i = false →
        mask.getLsbD i = c.imr.getLsbD i := by
      intro i hirr hisr
      have hi : i < 8 := BitVec.lt_of_getLsbD hirr
      have hz := congrArg (fun r : Reg => r.getLsbD i) (not_not.1 hsame)
      simp only [h.isrr_eq, BitVec.getLsbD_and, BitVec.getLsbD_xor, BitVec.getLsbD_not, hirr,
        hisr, hi, decide_true, Bool.true_and, Bool.not_false, Bool.and_true] at hz
      cases hm : mask.getLsbD i <;> cases hc : c.imr.getLsbD i <;> simp_all
    refine hs.warns_quiet ?_ ?_
    · rintro ⟨i, hi⟩
      exact ⟨i, hi.irr, (hbit i hi.irr hi.isr).symm.trans hi.imr, hi.isr, hi.above⟩
    · rintro ⟨i, hlt, hpossible⟩
      have hp := h.possible_iff.1 hpossible
      exact ⟨i, hlt, hs.possible_iff.2 ⟨hp.1, (hbit i hp.1 hp.2.2).trans hp.2.1, hp.2.2⟩⟩

/-- `update_active_irq` finds the lowest IRQ in service. -/
theorem update_active_irq_eq (c : Controller) :
    ∃ n, LowestSet c.isr n ∧ c.update_active_irq = { c with active_irq := n } := by
  unfold update_active_irq
  by_cases hzero : c.isr = 0
  · exact ⟨8, hzero ▸ lowestSet_zero, by rw [if_pos hzero]⟩
  · rw [if_neg hzero]
    cases hfirst : firstSet c.isr 8 with
    | none => exact absurd hfirst (firstSet_width_ne_none hzero)
    | some i => exact ⟨i, lowestSet_of_firstSet hfirst, rfl⟩

/-- The lowest IRQ in service is one that `active_irq` may be. -/
theorem active_of_lowestSet {isr : Reg} {n : Nat} (hn : LowestSet isr n) :
    (n = 8 ∧ isr = 0) ∨ isr.getLsbD n = true := by
  rcases hn.1.eq_or_lt with h8 | hlt
  · refine .inl ⟨h8, BitVec.eq_of_getLsbD_eq fun i hi => ?_⟩
    rw [hn.2.2 i (h8 ▸ hi)]
    exact BitVec.getLsbD_zero.symm
  · exact .inr (hn.2.1 hlt)

/-- An EOI only adds to what is possible, so a quiet one leaves nothing to scan. -/
theorem Coherent.warns_specificEoi (h : c.Coherent) (irq : Nat) : c.Warns (c.specificEoi irq) := by
  unfold specificEoi check_after_EOI
  dsimp only
  obtain ⟨n, hn, heq⟩ := update_active_irq_eq
    { c with isr := c.isr &&& ~~~bit 8 irq, isrr := ~~~(c.isr &&& ~~~bit 8 irq) }
  rw [heq]
  have hs : Coherent { c with
      isr := c.isr &&& ~~~bit 8 irq, isrr := ~~~(c.isr &&& ~~~bit 8 irq), active_irq := n } :=
    ⟨rfl, h.imrr_eq, active_of_lowestSet hn⟩
  split
  · exact hs.warns_check
  · rename_i hnone
    have hafter : ∀ i, ¬(c.irr.getLsbD i = true ∧ c.imr.getLsbD i = false ∧
        (c.isr &&& ~~~bit 8 irq).getLsbD i = false) := by
      intro i hi
      have hbit := hs.possible_iff.2 hi
      rw [not_not.1 hnone] at hbit
      simp at hbit
    refine hs.warns_quiet ?_ ?_
    · rintro ⟨i, hi⟩
      exact absurd ⟨hi.irr, hi.imr, hi.isr⟩ (hafter i)
    · rintro ⟨i, -, hpossible⟩
      have hp := h.possible_iff.1 hpossible
      refine absurd ⟨hp.1, hp.2.1, ?_⟩ (hafter i)
      rw [BitVec.getLsbD_and, hp.2.2, Bool.false_and]

theorem start_irq_eq_of_auto (h : c.auto_eoi = true) (i : Nat) :
    c.start_irq i = { c with irr := c.irr &&& ~~~bit 8 i } := by
  unfold start_irq
  rw [if_pos (show c.auto_eoi = true from h)]

theorem start_irq_eq_of_not_auto (h : c.auto_eoi = false) (i : Nat) :
    c.start_irq i = { c with
      irr := c.irr &&& ~~~bit 8 i, active_irq := i, isr := c.isr ||| bit 8 i
      isrr := ~~~(c.isr ||| bit 8 i) } := by
  unfold start_irq
  rw [if_neg (by simp [h])]

end Controller

end AugraDosbox
