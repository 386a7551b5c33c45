import AugraDosbox.Hardware.EventQueue
import Mathlib.Data.List.Perm.Basic
import Mathlib.Data.List.TakeWhile

/-!
# What the calls do to the two lists

Each function of the event queue as an operation on the list of pending entries and
the list of free ones.

* `Relinks` — only pointers and the split of the remaining cycles changed;
* `Lists` — the pending list, the free list and the entry being serviced are the
  whole array, each entry once;
* `addEntry_spec`, `removeLoop_spec`, `tickLoop_spec` — the three loops;
* `Lists.addEvent`, `Lists.remove`, `Lists.take`, `Lists.giveBack`, `Lists.addTick` —
  what the calls do.
-/

namespace AugraDosbox

open LinkedList

namespace EventQueue

variable {H : Type*} {q q' q'' : EventQueue H} {P F S A B : List ℕ} {x entry : ℕ}

/-! ## Pointers -/

@[simp] theorem next_setNext (x : ℕ) (v : Option ℕ) :
    (q.setNext x v).next = Function.update q.next x v := by
  funext y
  by_cases hy : y = x
  · subst hy
    simp [setNext, setEntry, next]
  · simp [setNext, setEntry, next, hy]

/-- Only pointers changed, and the cycles left may be split otherwise: events and time
are as they were. -/
structure Relinks (q q' : EventQueue H) : Prop where
  index : ∀ x, (q'.entries x).index = (q.entries x).index
  value : ∀ x, (q'.entries x).value = (q.entries x).value
  pic_event : ∀ x, (q'.entries x).pic_event = (q.entries x).pic_event
  service : q'.InEventService = q.InEventService
  lag : q'.srv_lag = q.srv_lag
  cycleMax : q'.CPU_CycleMax = q.CPU_CycleMax
  done : q'.PIC_TickIndexND = q.PIC_TickIndexND

theorem Relinks.refl (q : EventQueue H) : Relinks q q :=
  ⟨fun _ => rfl, fun _ => rfl, fun _ => rfl, rfl, rfl, rfl, rfl⟩

theorem Relinks.trans (h : Relinks q q') (h' : Relinks q' q'') : Relinks q q'' :=
  ⟨fun x => (h'.index x).trans (h.index x), fun x => (h'.value x).trans (h.value x),
    fun x => (h'.pic_event x).trans (h.pic_event x), h'.service.trans h.service,
    h'.lag.trans h.lag, h'.cycleMax.trans h.cycleMax, h'.done.trans h.done⟩

theorem relinks_setNext (q : EventQueue H) (x : ℕ) (v : Option ℕ) : Relinks q (q.setNext x v) := by
  have hentry : ∀ y, (q.setNext x v).entries y = { q.entries y with
      next := if y = x then v else (q.entries y).next } := by
    intro y
    by_cases hy : y = x
    · subst hy
      simp [setNext, setEntry]
    · simp [setNext, setEntry, hy]
  exact ⟨fun y => by rw [hentry], fun y => by rw [hentry], fun y => by rw [hentry],
    rfl, rfl, rfl, rfl⟩

theorem relinks_heads (q : EventQueue H) (a b : Option ℕ) :
    Relinks q { q with next_entry := a, free_entry := b } :=
  ⟨fun _ => rfl, fun _ => rfl, fun _ => rfl, rfl, rfl, rfl, rfl⟩

theorem relinks_release (q : EventQueue H) (x : ℕ) : Relinks q (q.release x) :=
  (relinks_setNext q x q.free_entry).trans (relinks_heads _ q.next_entry (some x))

/-- `shortenCycles` moves cycles between the two counters and nothing else. -/
theorem shortenCycles_spec (q : EventQueue H) :
    Relinks q q.shortenCycles ∧ q.shortenCycles.next = q.next ∧
      q.shortenCycles.next_entry = q.next_entry ∧
      q.shortenCycles.free_entry = q.free_entry := by
  have hmoved : Relinks q
      { q with CPU_CycleLeft := q.CPU_CycleLeft + q.CPU_Cycles, CPU_Cycles := 0 } := by
    refine ⟨fun _ => rfl, fun _ => rfl, fun _ => rfl, rfl, rfl, rfl, ?_⟩
    unfold PIC_TickIndexND
    dsimp only
    omega
  unfold shortenCycles
  split
  · split
    · exact ⟨hmoved, rfl, rfl, rfl⟩
    · exact ⟨Relinks.refl q, rfl, rfl, rfl⟩
  · exact ⟨Relinks.refl q, rfl, rfl, rfl⟩

/-! ## The insertion -/

/-- The entry put behind every entry whose index is not greater. -/
def inserted (q : EventQueue H) (entry : ℕ) (P : List ℕ) : List ℕ :=
  let before := fun x => decide ((q.entries x).index ≤ (q.entries entry).index)
  P.takeWhile before ++ entry :: P.dropWhile before

/-- The entry hooked in behind `x`, as both exits of the loop do it. -/
theorem hook_spec (h : Seg q.next q.next_entry (A ++ x :: B) none)
    (hnd : (A ++ x :: B).Nodup) (he : entry ∉ A ++ x :: B) :
    let q' := (q.setNext entry (q.next x)).setNext x (some entry)
    Relinks q q' ∧ Seg q'.next q'.next_entry (A ++ x :: entry :: B) none ∧
      q'.free_entry = q.free_entry ∧
      ∀ y, y ∉ A ++ x :: B → y ≠ entry → q'.next y = q.next y := by
  refine ⟨(relinks_setNext q _ _).trans (relinks_setNext _ _ _), ?_, rfl, ?_⟩
  · rw [next_setNext, next_setNext]
    exact h.link_after hnd he
  · intro y hy hye
    have hyx : y ≠ x := fun heq => hy (by simp [heq])
    rw [next_setNext, next_setNext, Function.update_of_ne hyx, Function.update_of_ne hye]

theorem insertLoop_spec (h : Seg q.next q.next_entry (A ++ x :: B) none)
    (hnd : (A ++ x :: B).Nodup) (he : entry ∉ A ++ x :: B) {fuel : ℕ}
    (hfuel : B.length < fuel) :
    ∃ q', q.insertLoop entry fuel x = some q' ∧ Relinks q q' ∧
      Seg q'.next q'.next_entry (A ++ x :: q.inserted entry B) none ∧
      q'.free_entry = q.free_entry ∧
      ∀ y, y ∉ A ++ x :: B → y ≠ entry → q'.next y = q.next y := by
  induction B generalizing A x fuel with
  | nil =>
    obtain ⟨fuel, rfl⟩ := Nat.exists_eq_add_of_lt hfuel
    have hnext : q.next x = none := h.next_eq
    refine ⟨_, ?_, hook_spec h hnd he⟩
    simp only [insertLoop, hnext]
  | cons b B ih =>
    obtain ⟨fuel, rfl⟩ : ∃ n, fuel = n + 1 := ⟨fuel - 1, by omega⟩
    have hnext : q.next x = some b := h.next_eq
    rw [insertLoop, hnext]
    dsimp only
    by_cases hlater : (q.entries b).index > (q.entries entry).index
    · have hins : q.inserted entry (b :: B) = entry :: b :: B := by
        simp [inserted, not_le.2 hlater]
      rw [if_pos hlater, hins, ← hnext]
      exact ⟨_, rfl, hook_spec h hnd he⟩
    · rw [if_neg hlater]
      have hins : q.inserted entry (b :: B) = b :: q.inserted entry B := by
        simp [inserted, not_lt.1 hlater]
      have hassoc : ∀ L, (A ++ [x]) ++ b :: L = A ++ x :: b :: L := by simp
      obtain ⟨q', hq', hrel, hseg, hfree, hframe⟩ := ih (A := A ++ [x]) (x := b)
        (by rw [hassoc]; exact h) (by rw [hassoc]; exact hnd) (by rw [hassoc]; exact he)
        (by simpa using hfuel)
      rw [hassoc] at hseg
      rw [hassoc] at hframe
      exact ⟨q', hq', hrel, by rw [hins]; exact hseg, hfree, hframe⟩

/-- `AddEntry` puts the entry behind every pending one that is not later. -/
theorem addEntry_spec (h : Seg q.next q.next_entry P none) (hnd : P.Nodup)
    (he : entry ∉ P) (hlen : P.length ≤ PIC_QUEUESIZE) :
    ∃ q', q.AddEntry entry = some q' ∧ Relinks q q' ∧
      Seg q'.next q'.next_entry (q.inserted entry P) none ∧
      q'.free_entry = q.free_entry ∧
      ∀ y, y ∉ P → y ≠ entry → q'.next y = q.next y := by
  -- every way out of `AddEntry` ends with `shortenCycles`
  have hshort : ∀ {q' : EventQueue H} {L : List ℕ}, Relinks q q' →
      Seg q'.next q'.next_entry L none → q'.free_entry = q.free_entry →
      (∀ y, y ∉ P → y ≠ entry → q'.next y = q.next y) →
      Relinks q q'.shortenCycles ∧
        Seg q'.shortenCycles.next q'.shortenCycles.next_entry L none ∧
        q'.shortenCycles.free_entry = q.free_entry ∧
        ∀ y, y ∉ P → y ≠ entry → q'.shortenCycles.next y = q.next y := by
    intro q' L hrel hseg hfree hframe
    obtain ⟨hrel', hnext, hhead, hfree'⟩ := shortenCycles_spec q'
    rw [hnext, hhead, hfree']
    exact ⟨hrel.trans hrel', hseg, hfree, hframe⟩
  unfold AddEntry
  cases P with
  | nil =>
    have hhead : q.next_entry = none := h
    rw [hhead]
    refine ⟨_, rfl, hshort ((relinks_setNext q entry none).trans (relinks_heads _ (some entry) _))
      ⟨rfl, ?_⟩ rfl ?_⟩
    · show (q.setNext entry none).next entry = none
      simp
    · intro y _ hye
      show (q.setNext entry none).next y = q.next y
      rw [next_setNext, Function.update_of_ne hye]
  | cons p P =>
    have hhead : q.next_entry = some p := h.1
    rw [hhead]
    dsimp only
    by_cases hfirst : (q.entries p).index > (q.entries entry).index
    · have hins : q.inserted entry (p :: P) = entry :: p :: P := by
        simp [inserted, not_le.2 hfirst]
      rw [if_pos hfirst, hins]
      refine ⟨_, rfl, hshort
        ((relinks_setNext q entry (some p)).trans (relinks_heads _ (some entry) _)) ?_ rfl ?_⟩
      · show Seg (q.setNext entry (some p)).next (some entry) (entry :: p :: P) none
        rw [next_setNext, ← hhead]
        exact h.push he
      · intro y _ hye
        show (q.setNext entry (some p)).next y = q.next y
        rw [next_setNext, Function.update_of_ne hye]
    · rw [if_neg hfirst]
      have hins : q.inserted entry (p :: P) = p :: q.inserted entry P := by
        simp [inserted, not_lt.1 hfirst]
      obtain ⟨q', hq', hrel, hseg, hfree, hframe⟩ :=
        insertLoop_spec (A := []) (x := p) (B := P) h hnd he hlen
      rw [hq', hins]
      exact ⟨_, rfl, hshort hrel hseg hfree hframe⟩

/-! ## The removal -/

/-- The entries of a list that a removal picks. -/
def hits (q : EventQueue H) (hit : H → ℕ → Bool) (L : List ℕ) : List ℕ :=
  L.filter fun x => hit (q.entries x).pic_event (q.entries x).value

/-- The entries of a list that a removal leaves. -/
def spared (q : EventQueue H) (hit : H → ℕ → Bool) (L : List ℕ) : List ℕ :=
  L.filter fun x => !hit (q.entries x).pic_event (q.entries x).value

theorem Relinks.hits_eq (h : Relinks q q') (hit : H → ℕ → Bool) (L : List ℕ) :
    q'.hits hit L = q.hits hit L := by
  unfold hits
  simp only [h.pic_event, h.value]

theorem Relinks.spared_eq (h : Relinks q q') (hit : H → ℕ → Bool) (L : List ℕ) :
    q'.spared hit L = q.spared hit L := by
  unfold spared
  simp only [h.pic_event, h.value]

/-- The loop over the rest `B` of the pending list, with `A` passed and spared. -/
theorem removeLoop_spec (hit : H → ℕ → Bool)
    (h : Seg q.next q.next_entry (A ++ B) none) (hF : Seg q.next q.free_entry F none)
    (hnd : (A ++ B ++ F).Nodup) {fuel : ℕ} (hfuel : B.length < fuel) :
    ∃ q', removeLoop hit fuel q A.getLast? B.head? = some q' ∧ Relinks q q' ∧
      Seg q'.next q'.next_entry (A ++ q.spared hit B) none ∧
      Seg q'.next q'.free_entry ((q.hits hit B).reverse ++ F) none := by
  induction B generalizing q A F fuel with
  | nil =>
    obtain ⟨fuel, rfl⟩ := Nat.exists_eq_add_of_lt hfuel
    exact ⟨q, rfl, Relinks.refl q, h, hF⟩
  | cons b B ih =>
    obtain ⟨fuel, rfl⟩ : ∃ n, fuel = n + 1 := ⟨fuel - 1, by omega⟩
    have hfuel' : B.length < fuel := by simpa using hfuel
    have hnd' : (A ++ b :: B).Nodup := (List.nodup_append.1 hnd).1
    have hbF : b ∉ F := fun hin =>
      (List.nodup_append.1 hnd).2.2 b (by simp) b hin rfl
    have hbA : b ∉ A := fun hin =>
      (List.nodup_append.1 hnd').2.2 b hin b List.mem_cons_self rfl
    have hbB : b ∉ B := (List.nodup_cons.1 (List.nodup_append.1 hnd').2.1).1
    rw [List.head?_cons, removeLoop.eq_def]
    dsimp only
    by_cases hhit : hit (q.entries b).pic_event (q.entries b).value = true
    · rw [if_pos hhit]
      have hhits : q.hits hit (b :: B) = b :: q.hits hit B := by simp [hits, hhit]
      have hspared : q.spared hit (b :: B) = q.spared hit B := by simp [spared, hhit]
      have hperm : (A ++ b :: B ++ F).Perm (A ++ B ++ b :: F) := by
        have hfront : (A ++ b :: B ++ F).Perm (b :: (A ++ B ++ F)) :=
          List.perm_middle.append_right F
        exact hfront.trans List.perm_middle.symm
      have hndF : (A ++ B ++ b :: F).Nodup := hperm.nodup_iff.1 hnd
      rw [hhits, hspared, List.reverse_cons, List.append_assoc, List.singleton_append]
      rcases List.eq_nil_or_concat A with rfl | ⟨A, a, rfl⟩
      · -- the head of the list goes
        have hnext : q.next b = B.head? := h.next_eq (A := [])
        have hrel := (relinks_heads q (q.next b) q.free_entry).trans (relinks_release _ b)
        have hsegB : Seg (Function.update q.next b q.free_entry) (q.next b) B none :=
          h.2.update hbB _
        obtain ⟨q', hq', hrel', hseg, hfree⟩ := ih
          (q := release { q with next_entry := q.next b } b) (A := []) (F := b :: F)
          (by
            show Seg (setNext _ b _).next (q.next b) B none
            rw [next_setNext]
            exact hsegB)
          (by
            show Seg (setNext _ b _).next (some b) (b :: F) none
            rw [next_setNext]
            exact hF.push hbF)
          hndF hfuel'
        rw [hrel.spared_eq] at hseg
        rw [hrel.hits_eq] at hfree
        refine ⟨q', ?_, hrel.trans hrel', hseg, hfree⟩
        rw [← hq', ← hnext]
        rfl
      · -- the entry before it is linked past it
        rw [List.concat_eq_append] at h hnd hnd' hbA hndF ⊢
        have hassoc : ∀ L, A ++ [a] ++ L = A ++ a :: L := by simp
        have hseg' : Seg q.next q.next_entry (A ++ a :: b :: B) none := by
          rw [← hassoc]
          exact h
        have hrel := (relinks_setNext q a (q.next b)).trans (relinks_release _ b)
        have haF : a ∉ F := fun hin =>
          (List.nodup_append.1 hnd).2.2 a (by simp) a hin rfl
        have hab : a ≠ b := fun heq => hbA (by simp [heq])
        have hbAB : b ∉ A ++ a :: B := by
          have hbA' : b ∉ A := fun hin => hbA (by simp [hin])
          simp [hbA', hab.symm, hbB]
        have hunlink : Seg (Function.update q.next a (q.next b)) q.next_entry
            (A ++ a :: B) none := by
          refine hseg'.unlink_after ?_
          rw [← hassoc]
          exact hnd'
        have hpending : Seg ((q.setNext a (q.next b)).release b).next q.next_entry
            (A ++ a :: B) none := by
          show Seg (setNext _ b _).next q.next_entry (A ++ a :: B) none
          rw [next_setNext, next_setNext]
          exact hunlink.update hbAB _
        obtain ⟨q', hq', hrel', hseg, hfree⟩ := ih
          (q := (q.setNext a (q.next b)).release b) (A := A ++ [a]) (F := b :: F)
          (by
            rw [hassoc]
            exact hpending)
          (by
            show Seg (setNext _ b _).next (some b) (b :: F) none
            rw [next_setNext, next_setNext]
            exact (hF.update haF _).push hbF)
          hndF hfuel'
        rw [hrel.spared_eq] at hseg
        rw [hrel.hits_eq] at hfree
        refine ⟨q', ?_, hrel.trans hrel', hseg, hfree⟩
        rw [← hq', List.getLast?_concat]
        dsimp only
        rw [hpending.next_eq]
    · -- the entry stays and becomes the one before
      rw [if_neg hhit]
      have hhits : q.hits hit (b :: B) = q.hits hit B := by simp [hits, hhit]
      have hspared : q.spared hit (b :: B) = b :: q.spared hit B := by simp [spared, hhit]
      have hassoc : ∀ L, A ++ [b] ++ L = A ++ b :: L := by simp
      obtain ⟨q', hq', hrel', hseg, hfree⟩ := ih (A := A ++ [b])
        (by rw [hassoc]; exact h) hF (by rw [hassoc]; exact hnd) hfuel'
      rw [hassoc] at hseg
      rw [hhits, hspared]
      refine ⟨q', ?_, hrel', hseg, hfree⟩
      rw [← hq', List.getLast?_concat, h.next_eq]

/-! ## The tick -/

theorem tickLoop_spec {o : Option ℕ} (h : Seg q.next o P none) (hnd : P.Nodup) {fuel : ℕ}
    (hfuel : P.length < fuel) :
    ∃ entries', tickLoop fuel q o = some { q with entries := entries' } ∧
      ∀ x, entries' x = { q.entries x with
        index := (q.entries x).index - if x ∈ P then 1 else 0 } := by
  induction P generalizing q o fuel with
  | nil =>
    obtain ⟨fuel, rfl⟩ := Nat.exists_eq_add_of_lt hfuel
    obtain rfl : o = none := h
    refine ⟨q.entries, rfl, fun x => ?_⟩
    rw [if_neg List.not_mem_nil, sub_zero]
  | cons p P ih =>
    obtain ⟨fuel, rfl⟩ : ∃ n, fuel = n + 1 := ⟨fuel - 1, by omega⟩
    obtain ⟨rfl, hrest⟩ := h
    obtain ⟨hpP, hnd⟩ := List.nodup_cons.1 hnd
    rw [tickLoop.eq_def]
    dsimp only
    set q1 := q.setEntry p { q.entries p with index := (q.entries p).index - 1 } with hq1
    have hentry : ∀ x, q1.entries x = { q.entries x with
        index := (q.entries x).index - if x = p then 1 else 0 } := by
      intro x
      by_cases hx : x = p
      · subst hx
        simp [hq1, setEntry]
      · simp [hq1, setEntry, hx]
    have hnext : q1.next = q.next := by
      funext x
      unfold next
      rw [hentry]
    obtain ⟨entries', heq, hspec⟩ := ih (q := q1) (o := q1.next p)
      (by rw [hnext]; exact hrest) hnd (by simpa using hfuel)
    refine ⟨entries', heq, fun x => ?_⟩
    rw [hspec, hentry]
    by_cases hx : x = p
    · subst hx
      simp [hpP]
    · simp [hx]

/-! ## The whole array -/

/-- The pending list `P`, the free list `F` and the entries `S` being serviced are the
whole array, each entry once. -/
structure Lists (q : EventQueue H) (P F S : List ℕ) : Prop where
  pending : Seg q.next q.next_entry P none
  free : Seg q.next q.free_entry F none
  perm : (P ++ F ++ S).Perm (List.range PIC_QUEUESIZE)

theorem Lists.nodup (h : Lists q P F S) : (P ++ F ++ S).Nodup :=
  h.perm.nodup_iff.2 List.nodup_range

theorem Lists.nodup_pending (h : Lists q P F S) : P.Nodup :=
  (List.nodup_append.1 (List.nodup_append.1 h.nodup).1).1

theorem Lists.length_le (h : Lists q P F S) : P.length ≤ PIC_QUEUESIZE := by
  have hlen := h.perm.length_eq
  simp only [List.length_append, List.length_range] at hlen
  omega

theorem Lists.pending_eq (h : Lists q P F S) : q.pending = P :=
  h.pending.follow_eq h.length_le

theorem inserted_perm (q : EventQueue H) (entry : ℕ) (P : List ℕ) :
    (q.inserted entry P).Perm (entry :: P) := by
  unfold inserted
  refine List.perm_middle.trans ?_
  rw [List.takeWhile_append_dropWhile]

theorem fill_next (q : EventQueue H) (entry : ℕ) (handler : H) (delay : ℚ) (val : ℕ) :
    (q.fill entry handler delay val).next = q.next := by
  funext x
  by_cases hx : x = entry
  · subst hx
    simp [fill, setEntry, next]
  · simp [fill, setEntry, next, hx]

/-- `PIC_AddEvent` with a free entry: the first free one becomes a pending one. -/
theorem Lists.addEvent (h : Lists q P (entry :: F) S) (handler : H) (delay : ℚ) (val : ℕ) :
    ∃ q', q.PIC_AddEvent handler delay val = some q' ∧
      Relinks (q.fill entry handler delay val) q' ∧
      Lists q' ((q.fill entry handler delay val).inserted entry P) F S := by
  have hhead : q.free_entry = some entry := h.free.1
  have hnd := h.nodup
  obtain ⟨hPF, -, -⟩ := List.nodup_append.1 hnd
  obtain ⟨hP, hF, hdisj⟩ := List.nodup_append.1 hPF
  have heP : entry ∉ P := fun hin => hdisj entry hin entry List.mem_cons_self rfl
  have heF : entry ∉ F := (List.nodup_cons.1 hF).1
  have hfill := fill_next q entry handler delay val
  unfold PIC_AddEvent
  rw [hhead]
  dsimp only
  set q1 := q.fill entry handler delay val with hq1
  have hpending : Seg { q1 with free_entry := q1.next entry }.next q.next_entry P none := by
    show Seg q1.next q.next_entry P none
    rw [hfill]
    exact h.pending
  obtain ⟨q', hq', hrel, hseg, hfree, hframe⟩ := addEntry_spec hpending hP heP h.length_le
  refine ⟨q', hq', (relinks_heads q1 q1.next_entry _).trans hrel, hseg, ?_, ?_⟩
  · rw [hfree]
    show Seg q'.next (q1.next entry) F none
    rw [hfill]
    refine Seg.congr h.free.2 fun x hx => ?_
    have hxP : x ∉ P := fun hin => hdisj x hin x (List.mem_cons_of_mem entry hx) rfl
    have hxe : x ≠ entry := by
      rintro rfl
      exact heF hx
    rw [hframe x hxP hxe]
    exact congrFun hfill x
  · refine List.Perm.trans (List.Perm.append_right S ?_) h.perm
    exact ((inserted_perm _ entry P).append_right F).trans List.perm_middle.symm

/-- A full queue is left alone. -/
theorem Lists.addEvent_full (h : Lists q P [] S) (handler : H) (delay : ℚ) (val : ℕ) :
    q.PIC_AddEvent handler delay val = some q := by
  have hhead : q.free_entry = none := h.free
  unfold PIC_AddEvent
  rw [hhead]

/-- A removal moves the entries it picks to the free list and leaves the others in their
order. -/
theorem Lists.remove (h : Lists q P F S) (hit : H → ℕ → Bool) :
    ∃ q', removeLoop hit (PIC_QUEUESIZE + 1) q none q.next_entry = some q' ∧ Relinks q q' ∧
      Lists q' (q.spared hit P) ((q.hits hit P).reverse ++ F) S := by
  have hnd : ([] ++ P ++ F).Nodup := (List.nodup_append.1 h.nodup).1
  obtain ⟨q', hq', hrel, hseg, hfree⟩ := removeLoop_spec (A := []) hit h.pending h.free hnd
    (Nat.lt_succ_of_le h.length_le)
  rw [← h.pending.head_eq] at hq'
  refine ⟨q', hq', hrel, hseg, hfree, ?_⟩
  refine List.Perm.trans (List.Perm.append_right S ?_) h.perm
  have hsplit : (q.spared hit P ++ q.hits hit P).Perm P := by
    unfold spared hits
    exact List.perm_append_comm.trans (List.filter_append_perm _ P)
  rw [← List.append_assoc]
  refine List.Perm.append_right F (List.Perm.trans ?_ hsplit)
  exact List.Perm.append_left _ (List.reverse_perm _)

/-- The first pending entry taken off for service. -/
theorem Lists.take (h : Lists q P F []) {index_nd : ℤ} (ht : q.takeEntry index_nd = some (q', x)) :
    ∃ P', P = x :: P' ∧ q.Due index_nd x ∧ Lists q' P' F [x] ∧
      q' = { q with next_entry := q.next x, srv_lag := (q.entries x).index } := by
  unfold takeEntry at ht
  rw [h.pending.head_eq] at ht
  cases P with
  | nil => simp at ht
  | cons p P' =>
    simp only [List.head?_cons] at ht
    split at ht
    · rename_i hdue
      obtain ⟨rfl, rfl⟩ : { q with next_entry := q.next p, srv_lag := (q.entries p).index } = q' ∧
          p = x := by simpa using ht
      refine ⟨P', rfl, hdue, ⟨h.pending.2, h.free, ?_⟩, rfl⟩
      have hperm := h.perm
      rw [List.append_nil] at hperm
      exact List.perm_append_comm.trans hperm
    · exact absurd ht (by simp)

/-- The entry that was serviced put on the free list. -/
theorem Lists.giveBack (h : Lists q P F [x]) : Lists (q.release x) P (x :: F) [] := by
  obtain ⟨hPF, -, hdisj⟩ := List.nodup_append.1 h.nodup
  have hx : x ∉ P ++ F := fun hin => hdisj x hin x (by simp) rfl
  have hxP : x ∉ P := fun hin => hx (List.mem_append_left F hin)
  have hxF : x ∉ F := fun hin => hx (List.mem_append_right P hin)
  refine ⟨?_, ?_, ?_⟩
  · show Seg (q.setNext x q.free_entry).next q.next_entry P none
    rw [next_setNext]
    exact h.pending.update hxP _
  · show Seg (q.setNext x q.free_entry).next (some x) (x :: F) none
    rw [next_setNext]
    exact h.free.push hxF
  · refine List.Perm.trans ?_ h.perm
    rw [List.append_nil, List.append_assoc]
    exact List.Perm.append_left P (List.perm_append_singleton x F).symm

/-- `TIMER_AddTick` brings every pending event one millisecond nearer. -/
theorem Lists.addTick (h : Lists q P F S) :
    ∃ q', q.TIMER_AddTick = some q' ∧ Lists q' P F S ∧
      (∀ x, q'.entries x = { q.entries x with
        index := (q.entries x).index - if x ∈ P then 1 else 0 }) ∧
      q'.InEventService = q.InEventService ∧ q'.CPU_CycleMax = q.CPU_CycleMax := by
  unfold TIMER_AddTick
  obtain ⟨entries', heq, hspec⟩ := tickLoop_spec
    (q := { q with CPU_CycleLeft := q.CPU_CycleMax, CPU_Cycles := 0 }) h.pending
    h.nodup_pending (Nat.lt_succ_of_le h.length_le)
  have hnext : (fun x => (entries' x).next) = q.next := by
    funext x
    rw [hspec]
    rfl
  refine ⟨_, heq, ⟨?_, ?_, h.perm⟩, hspec, rfl, rfl⟩
  · show Seg (fun x => (entries' x).next) q.next_entry P none
    rw [hnext]
    exact h.pending
  · show Seg (fun x => (entries' x).next) q.free_entry F none
    rw [hnext]
    exact h.free

/-- The constructor threads the free list through the whole array. -/
theorem lists_fresh (blank : H) (cycleMax cycleLeft cycles : ℤ) :
    Lists (fresh blank cycleMax cycleLeft cycles) [] (List.range PIC_QUEUESIZE) [] := by
  have hrange : ∀ n k, k + n = PIC_QUEUESIZE → 0 < n →
      Seg (fresh blank cycleMax cycleLeft cycles).next (some k) (List.range' k n) none := by
    intro n
    induction n with
    | zero =>
      intro k _ hpos
      exact absurd hpos (by decide)
    | succ n ih =>
      intro k hk _
      rw [List.range'_succ]
      refine ⟨rfl, ?_⟩
      have hnext : (fresh blank cycleMax cycleLeft cycles).next k =
          if k + 1 < PIC_QUEUESIZE then some (k + 1) else none := rfl
      rw [hnext]
      by_cases hlast : k + 1 < PIC_QUEUESIZE
      · rw [if_pos hlast]
        exact ih (k + 1) (by omega) (by omega)
      · obtain rfl : n = 0 := by omega
        rw [if_neg hlast]
        rfl
  refine ⟨rfl, ?_, by simp⟩
  rw [List.range_eq_range']
  exact hrange PIC_QUEUESIZE 0 (Nat.zero_add _) (by decide)

end EventQueue

end AugraDosbox
