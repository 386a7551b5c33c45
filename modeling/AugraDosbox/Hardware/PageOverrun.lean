import Mathlib.Data.Set.Card
import AugraDosbox.Hardware.PageRuns
import AugraDosbox.Hardware.PageScatter

/-!
# The end of memory in an allocation of scattered pages

`MEM_AllocatePages` without `sequence` fills one free run after the other, the shortest first,
and looks for a used page at the end of a run.  There is none behind the last page of memory.

* `FreeRun` — a run of free pages that cannot be made longer.
* `BestMatch_one` — `BestMatch(1)` finds the first of the shortest runs.
* `takeRun_free` — the inner loop takes the pages of a run one by one.
* **`allocate_scattered_iff`** — the allocation returns, with a chain of as many free pages as
  were asked for, exactly when they do not reach beyond the runs that are no longer than the one
  at the end of memory.
-/

namespace AugraDosbox

namespace MemoryBlock

open Threaded

/-! ## Runs of free pages -/

/-- A run of `l` free pages from `a` on, between used pages or the ends of the table. -/
structure FreeRun (m : MemoryBlock) (a l : ℕ) : Prop where
  start : XMS_START ≤ a
  pos : 0 < l
  fits : a + l ≤ m.pages
  free : ∀ p, a ≤ p → p < a + l → m.mhandles p = 0
  before : a = XMS_START ∨ m.mhandles (a - 1) ≠ 0
  behind : a + l = m.pages ∨ m.mhandles (a + l) ≠ 0

variable {m m' : MemoryBlock} {a a' l l' p : ℕ}

/-- Runs that share a page are the same. -/
theorem FreeRun.unique (h : FreeRun m a l) (h' : FreeRun m a' l') (hp : a ≤ p) (hp' : p < a + l)
    (hq : a' ≤ p) (hq' : p < a' + l') : a = a' ∧ l = l' := by
  have hstart {b b' k k' : ℕ} (hr : FreeRun m b k) (hr' : FreeRun m b' k') (hb : p < b' + k')
      (hb' : b ≤ p) : b ≤ b' := by
    by_contra hlt
    rcases hr.before with hfirst | hused
    · have := hr'.start
      omega
    · exact hused (hr'.free _ (by omega) (by omega))
  have hend {b b' k k' : ℕ} (hr : FreeRun m b k) (hr' : FreeRun m b' k') (hb : b' ≤ p)
      (hb' : p < b + k) : b' + k' ≤ b + k := by
    by_contra hlt
    rcases hr.behind with hlast | hused
    · have := hr'.fits
      omega
    · exact hused (hr'.free _ (by omega) (by omega))
  have h1 := hstart h h' hq' hp
  have h2 := hstart h' h hp' hq
  have h3 := hend h h' hq hp'
  have h4 := hend h' h hp hq'
  omega

/-- The pages of runs that are no longer than `k`. -/
def shortPages (m : MemoryBlock) (k : ℕ) : Set ℕ :=
  {p | ∃ a l, FreeRun m a l ∧ l ≤ k ∧ a ≤ p ∧ p < a + l}

theorem shortPages_finite (m : MemoryBlock) (k : ℕ) : (shortPages m k).Finite := by
  refine (Set.finite_Iio m.pages).subset fun p ⟨a, l, hrun, _, _, hlt⟩ => ?_
  exact hlt.trans_le hrun.fits

variable {k first index n : ℕ}

theorem FreeRun.subset_shortPages (h : FreeRun m a l) (hk : l ≤ k) :
    Set.Ico a (a + l) ⊆ shortPages m k := fun _ hp => ⟨a, l, h, hk, hp.1, hp.2⟩

/-! ## The shortest run -/

/-- The first of the shortest runs that start below `bound`. -/
structure Shortest (m : MemoryBlock) (bound a l : ℕ) : Prop where
  run : FreeRun m a l
  below : a < bound
  least : ∀ a' l', FreeRun m a' l' → a' < bound → l < l' ∨ (l = l' ∧ a ≤ a')

/-- What `BestMatch` knows about the runs that start below `bound`. -/
def BestSoFar (m : MemoryBlock) (bound best best_first : ℕ) : Prop :=
  (best = 0xfffffff ∧ best_first = 0 ∧ ∀ a l, FreeRun m a l → bound ≤ a) ∨
    (1 < best ∧ Shortest m bound best_first best)

/-- A run that is shorter than the best is the new best. -/
theorem BestSoFar.better {best best_first bound : ℕ} (h : BestSoFar m first best best_first)
    (hrun : FreeRun m first l) (hlt : l < best) (hbound : first < bound)
    (hnext : ∀ a' l', FreeRun m a' l' → a' < bound → first ≤ a' → a' = first) :
    Shortest m bound first l := by
  refine ⟨hrun, hbound, fun a' l' hrun' ha' => ?_⟩
  rcases Nat.lt_or_ge a' first with hbefore | hafter
  · rcases h with ⟨-, -, hnone⟩ | ⟨-, hbest⟩
    · exact absurd (hnone a' l' hrun') (by omega)
    · have := hbest.least a' l' hrun' hbefore
      omega
  · obtain rfl := hnext a' l' hrun' ha' hafter
    have hl := (hrun.unique hrun' le_rfl (by have := hrun.pos; omega) le_rfl
      (by have := hrun'.pos; omega)).2
    exact .inr ⟨hl, le_rfl⟩

/-- A run that is not shorter leaves the best. -/
theorem BestSoFar.keep {best best_first bound : ℕ} (h : BestSoFar m first best best_first)
    (hrun : FreeRun m first l) (hle : best ≤ l) (hbound : first < bound)
    (hnext : ∀ a' l', FreeRun m a' l' → a' < bound → first ≤ a' → a' = first) :
    1 < best ∧ Shortest m bound best_first best := by
  rcases h with ⟨hbest, -, -⟩ | ⟨hone, hbest⟩
  · have hfits := hrun.fits
    have hpages := m.pages_le
    simp only [MaxPages] at hpages
    omega
  · refine ⟨hone, hbest.run, hbest.below.trans hbound, fun a' l' hrun' ha' => ?_⟩
    rcases Nat.lt_or_ge a' first with hbefore | hafter
    · exact hbest.least a' l' hrun' hbefore
    · obtain rfl := hnext a' l' hrun' ha' hafter
      have hl := (hrun.unique hrun' le_rfl (by have := hrun.pos; omega) le_rfl
        (by have := hrun'.pos; omega)).2
      have := hbest.below
      omega

theorem BestSoFar.next {best best_first : ℕ} (h : BestSoFar m index best best_first)
    (hnone : ∀ a l, FreeRun m a l → a ≠ index) : BestSoFar m (index + 1) best best_first := by
  rcases h with ⟨hbest, h0, hall⟩ | ⟨hone, hbest⟩
  · refine .inl ⟨hbest, h0, fun a l hrun => ?_⟩
    have := hall a l hrun
    have := hnone a l hrun
    omega
  · refine .inr ⟨hone, hbest.run, by have := hbest.below; omega, fun a' l' hrun' ha' => ?_⟩
    have := hnone a' l' hrun'
    exact hbest.least a' l' hrun' (by omega)

/-- The run that the loop of `BestMatch` is in, or none. -/
def InRun (m : MemoryBlock) (index first : ℕ) : Prop :=
  (first = 0 ∧ (index = XMS_START ∨ m.mhandles (index - 1) ≠ 0)) ∨
    (XMS_START ≤ first ∧ first < index ∧ (∀ p, first ≤ p → p < index → m.mhandles p = 0) ∧
      (first = XMS_START ∨ m.mhandles (first - 1) ≠ 0))

/-- The run before a used page or the end of memory. -/
theorem InRun.freeRun (h : InRun m index first) (hfirst : first ≠ 0) (hle : index ≤ m.pages)
    (hend : index = m.pages ∨ m.mhandles index ≠ 0) :
    FreeRun m first (index - first) := by
  rcases h with ⟨h0, -⟩ | ⟨hstart, hlt, hfree, hbefore⟩
  · exact absurd h0 hfirst
  · refine ⟨hstart, by omega, by omega, fun p hp hp' => hfree p hp (by omega), hbefore, ?_⟩
    rwa [Nat.add_sub_cancel' hlt.le]

/-- Below a used page or the end of memory no run starts after the one before it. -/
theorem InRun.next {bound : ℕ} (h : InRun m index first) (hfirst : first ≠ 0)
    (hrun : FreeRun m first (index - first))
    (hbound : bound = index ∨ (bound = index + 1 ∧ m.mhandles index ≠ 0)) :
    ∀ a' l', FreeRun m a' l' → a' < bound → first ≤ a' → a' = first := by
  intro a' l' hrun' ha' hle
  rcases h with ⟨h0, -⟩ | ⟨-, hlt, -, -⟩
  · exact absurd h0 hfirst
  · have hpos := hrun'.pos
    have hin : a' < index := by
      rcases hbound with rfl | ⟨rfl, hused⟩
      · exact ha'
      · have hne : a' ≠ index := by
          rintro rfl
          exact hused (hrun'.free a' le_rfl (by omega))
        omega
    exact (hrun'.unique hrun le_rfl (by omega) hle (by omega)).1

theorem bestMatchLoop_one : ∀ {index first best best_first : ℕ}, index + n = m.pages →
    XMS_START ≤ index → InRun m index first →
    BestSoFar m (if first = 0 then index else first) best best_first →
    (bestMatchLoop m.mhandles 1 n index first best best_first = 0 ∧
      ∀ a l, ¬ FreeRun m a l) ∨
    ∃ l, Shortest m m.pages (bestMatchLoop m.mhandles 1 n index first best best_first) l := by
  induction n with
  | zero =>
    intro index first best best_first hn hstart hin hbest
    obtain rfl : index = m.pages := hn
    rw [bestMatchLoop]
    by_cases hfirst : first = 0
    · rw [if_pos hfirst] at hbest
      rw [if_neg fun h => h.1 hfirst]
      rcases hbest with ⟨-, h0, hnone⟩ | ⟨-, hshort⟩
      · exact .inl ⟨h0, fun a l hrun => by
          have := hnone a l hrun
          have := hrun.fits
          have := hrun.pos
          omega⟩
      · exact .inr ⟨best, hshort⟩
    · have hrun := hin.freeRun hfirst le_rfl (.inl rfl)
      have hnext := hin.next hfirst hrun (.inl rfl)
      have hbound : first < m.pages := by
        have := hrun.pos
        omega
      rw [if_neg hfirst] at hbest
      split
      · next hlt => exact .inr ⟨_, hbest.better hrun hlt.2.2 hbound hnext⟩
      · next hge =>
        have hle : best ≤ m.pages - first := by
          by_contra hlt
          exact hge ⟨hfirst, hrun.pos, by omega⟩
        exact .inr ⟨best, (hbest.keep hrun hle hbound hnext).2⟩
  | succ n ih =>
    intro index first best best_first hn hstart hin hbest
    rw [bestMatchLoop]
    by_cases hfirst : first = 0
    · rw [if_pos hfirst]
      subst hfirst
      rw [if_pos rfl] at hbest
      have hbefore : index = XMS_START ∨ m.mhandles (index - 1) ≠ 0 := by
        rcases hin with ⟨-, hbefore⟩ | ⟨hpos, -⟩
        · exact hbefore
        · simp [XMS_START] at hpos
      by_cases hfree : m.mhandles index = 0
      · have hne : index ≠ 0 := by
          rintro rfl
          simp [XMS_START] at hstart
        have hin' : InRun m (index + 1) index :=
          .inr ⟨hstart, Nat.lt_succ_self index, fun p hp hp' => by
            rwa [show p = index by omega], hbefore⟩
        rw [if_pos hfree]
        exact ih (by omega) (by omega) hin' (by rwa [if_neg hne])
      · have hnone (a l : ℕ) (hrun : FreeRun m a l) : a ≠ index := by
          rintro rfl
          exact hfree (hrun.free a le_rfl (by have := hrun.pos; omega))
        rw [if_neg hfree]
        refine ih (by omega) (by omega) (.inl ⟨rfl, .inr hfree⟩) ?_
        rw [if_pos rfl]
        exact hbest.next hnone
    · rw [if_neg hfirst]
      rw [if_neg hfirst] at hbest
      split
      · next hused =>
        have hrun := hin.freeRun hfirst (by omega) (.inr hused)
        have hnext := hin.next hfirst hrun (.inr ⟨rfl, hused⟩)
        have hbound : first < index + 1 := by
          have := hrun.pos
          omega
        have hin' : InRun m (index + 1) 0 := .inl ⟨rfl, .inr hused⟩
        dsimp only
        split
        · next hone =>
          rw [hone] at hrun
          have hone_lt : 1 < best := by
            rcases hbest with ⟨h, -⟩ | ⟨h, -⟩
            · omega
            · exact h
          refine .inr ⟨1, hrun, by omega, fun a' l' hrun' _ => ?_⟩
          rcases Nat.lt_or_ge a' (index + 1) with hlt | hge
          · exact (hbest.better hrun hone_lt hbound hnext).least a' l' hrun' hlt
          · have := hrun'.pos
            omega
        · next hone =>
          split
          · next hlt => 
            exact ih (by omega) (by omega) hin' (.inr ⟨hlt.1, hbest.better hrun hlt.2 hbound hnext⟩)
          · next hge =>
            have hpos := hrun.pos
            have hle : best ≤ index - first := by omega
            exact ih (by omega) (by omega) hin' (.inr (hbest.keep hrun hle hbound hnext))
      · next hfree =>
        have hin' : InRun m (index + 1) first := by
          rcases hin with ⟨h0, -⟩ | ⟨hpos, hlt, hrun, hbefore⟩
          · exact absurd h0 hfirst
          · refine .inr ⟨hpos, by omega, fun p hp hp' => ?_, hbefore⟩
            rcases Nat.lt_or_ge p index with hlt | hge
            · exact hrun p hp hlt
            · rw [show p = index by omega]
              exact not_not.mp hfree
        exact ih (by omega) (by omega) hin' (by rwa [if_neg hfirst])

/-- **`BestMatch(1)` finds the first of the shortest runs**, or there is none. -/
theorem BestMatch_one (m : MemoryBlock) :
    (BestMatch m 1 = 0 ∧ ∀ a l, ¬ FreeRun m a l) ∨ ∃ l, Shortest m m.pages (BestMatch m 1) l := by
  by_cases hpages : XMS_START ≤ m.pages
  · refine bestMatchLoop_one (by omega) le_rfl (.inl ⟨rfl, .inl rfl⟩) (.inl ⟨rfl, rfl, ?_⟩)
    exact fun a l hrun => hrun.start
  · refine .inl ⟨?_, fun a l hrun => ?_⟩
    · simp [BestMatch, show m.pages - XMS_START = 0 by omega, bestMatchLoop]
    · have := hrun.start
      have := hrun.fits
      omega

theorem exists_start (hp : XMS_START ≤ p) : m.mhandles p = 0 → ∃ a, XMS_START ≤ a ∧ a ≤ p ∧
    (∀ q, a ≤ q → q ≤ p → m.mhandles q = 0) ∧ (a = XMS_START ∨ m.mhandles (a - 1) ≠ 0) := by
  induction p, hp using Nat.le_induction with
  | base =>
    exact fun hfree => ⟨XMS_START, le_rfl, le_rfl, fun q h1 h2 => by
      rwa [show q = XMS_START by omega], .inl rfl⟩
  | succ p hp ih =>
    intro hfree
    by_cases hprev : m.mhandles p = 0
    · obtain ⟨a, hstart, hle, hall, hbefore⟩ := ih hprev
      refine ⟨a, hstart, by omega, fun q h1 h2 => ?_, hbefore⟩
      rcases Nat.lt_or_ge p q with hlt | hge
      · rwa [show q = p + 1 by omega]
      · exact hall q h1 hge
    · exact ⟨p + 1, by omega, le_rfl, fun q h1 h2 => by rwa [show q = p + 1 by omega], .inr hprev⟩

theorem exists_end {d : ℕ} : ∀ {p : ℕ}, p + (d + 1) = m.pages → m.mhandles p = 0 →
    ∃ e, p < e ∧ e ≤ m.pages ∧ (∀ q, p ≤ q → q < e → m.mhandles q = 0) ∧
      (e = m.pages ∨ m.mhandles e ≠ 0) := by
  induction d with
  | zero =>
    exact fun {p} hd hfree => ⟨p + 1, by omega, by omega, fun q h1 h2 => by
      rwa [show q = p by omega], .inl hd⟩
  | succ d ih =>
    intro p hd hfree
    by_cases hnext : m.mhandles (p + 1) = 0
    · obtain ⟨e, hlt, hle, hall, hbehind⟩ := ih (by omega) hnext
      refine ⟨e, by omega, hle, fun q h1 h2 => ?_, hbehind⟩
      rcases Nat.lt_or_ge p q with hlt | hge
      · exact hall q hlt h2
      · rwa [show q = p by omega]
    · exact ⟨p + 1, by omega, by omega, fun q h1 h2 => by rwa [show q = p by omega], .inr hnext⟩

/-- Every free page is in a run. -/
theorem exists_freeRun (hp : XMS_START ≤ p) (hp' : p < m.pages) (hfree : m.mhandles p = 0) :
    ∃ a l, FreeRun m a l ∧ a ≤ p ∧ p < a + l := by
  obtain ⟨a, hstart, hle, hall, hbefore⟩ := exists_start hp hfree
  have hd : p + (m.pages - p - 1 + 1) = m.pages := by omega
  obtain ⟨e, hlt, hle', hall', hbehind⟩ := exists_end hd hfree
  have hae : a + (e - a) = e := by omega
  refine ⟨a, e - a, ⟨hstart, by omega, by omega, fun q h1 h2 => ?_, hbefore, by rwa [hae]⟩, hle,
    by omega⟩
  rcases Nat.lt_or_ge p q with hgt | hge
  · exact hall' q (by omega) (by omega)
  · exact hall q h1 hge

/-! ## The inner loop -/

/-- The entry at the end of the pages taken so far is closed with -1. -/
def closed (next : Option ℕ) (r : ℤ × MemoryBlock) : MemoryBlock := (writeNext next (-1) r).2

theorem closed_eq_zero_iff {next : Option ℕ} {r : ℤ × MemoryBlock} :
    (closed next r).mhandles p = 0 ↔ r.2.mhandles p = 0 ∧ next ≠ some p := by
  cases next with
  | none => simp [closed, writeNext]
  | some i =>
    by_cases hp : p = i
    · subst hp
      simp [closed, writeNext]
    · simp [closed, writeNext, hp, Ne.symm hp]

/-- Taking a page changes which pages are free by that page only. -/
theorem closed_take {next : Option ℕ} {r : ℤ × MemoryBlock} (hindex : 0 < index) :
    (closed (some index) (writeNext next index r)).mhandles p = 0 ↔
      (closed next r).mhandles p = 0 ∧ p ≠ index := by
  have hwritten : (writeNext next (index : ℤ) r).2.mhandles p = 0 ↔
      r.2.mhandles p = 0 ∧ next ≠ some p := by
    cases next with
    | none => simp [writeNext]
    | some i =>
      by_cases hp : p = i
      · subst hp
        simp [writeNext]
        omega
      · simp [writeNext, hp, Ne.symm hp]
  rw [closed_eq_zero_iff, closed_eq_zero_iff, hwritten]
  simp [eq_comm]

/-- The inner loop takes a run of free pages one by one. -/
theorem takeRun_free : ∀ (index : ℕ) (next : Option ℕ) (r : ℤ × MemoryBlock),
    0 < index → index + l ≤ r.2.pages →
    (∀ p, index ≤ p → p < index + l → (closed next r).mhandles p = 0) →
    ∃ next' r', takeRun (l + k) index next r = takeRun k (index + l) next' r' ∧
      r'.2.pages = r.2.pages ∧
      ((l = 0 ∧ next' = next) ∨ ∃ i, next' = some i ∧ i < index + l) ∧
      ∀ p, (closed next' r').mhandles p = 0 ↔
        (closed next r).mhandles p = 0 ∧ ¬ (index ≤ p ∧ p < index + l) := by
  induction l with
  | zero =>
    intro index next r _ _ _
    exact ⟨next, r, by rw [Nat.zero_add, Nat.add_zero], rfl, .inl ⟨rfl, rfl⟩, fun p => by simp⟩
  | succ l ih =>
    intro index next r hindex hfits hfree
    have hhere := (closed_eq_zero_iff.mp (hfree index le_rfl (by omega))).1
    obtain ⟨next', r', hrun, hpages, hnext, hzero⟩ := ih (index + 1) (some index)
      (writeNext next index r) (by omega)
      (by rw [writeNext_pages]; omega)
      (fun p hp hp' => (closed_take hindex).mpr ⟨hfree p (by omega) (by omega), by omega⟩)
    refine ⟨next', r', ?_, hpages.trans (writeNext_pages _), .inr ?_, fun p => ?_⟩
    · rw [show l + 1 + k = l + k + 1 by omega, takeRun, if_neg (by omega), if_pos hhere, hrun]
      congr 1
      omega
    · rcases hnext with ⟨-, hsame⟩ | ⟨i, hi, hlt⟩
      · exact ⟨index, hsame, by omega⟩
      · exact ⟨i, hi, by omega⟩
    · rw [hzero, closed_take hindex]
      constructor
      · rintro ⟨⟨h1, h2⟩, h3⟩
        exact ⟨h1, fun h => h3 (by omega)⟩
      · rintro ⟨h1, h2⟩
        exact ⟨⟨h1, fun h => h2 (by omega)⟩, fun h => h2 (by omega)⟩

/-! ## Memory without a run -/

/-- The run of `l` pages from `a` on is taken, and no other page. -/
structure Without (m : MemoryBlock) (a l : ℕ) (m' : MemoryBlock) : Prop where
  pages : m'.pages = m.pages
  free : ∀ p, m'.mhandles p = 0 ↔ m.mhandles p = 0 ∧ ¬ (a ≤ p ∧ p < a + l)

/-- The other runs stay, and there are no new ones. -/
theorem Without.freeRun_iff (h : Without m a l m') (hrun : FreeRun m a l) {b : ℕ} :
    FreeRun m' b k ↔ FreeRun m b k ∧ b ≠ a := by
  have hpos := hrun.pos
  constructor
  · intro hr
    have hout (p : ℕ) (hp : b ≤ p) (hp' : p < b + k) := (h.free p).mp (hr.free p hp hp')
    have hk := hr.pos
    have hfits := hr.fits
    rw [h.pages] at hfits
    have hstart := hout b le_rfl (by omega)
    have hlast := hout (b + k - 1) (by omega) (by omega)
    refine ⟨⟨hr.start, hk, hfits, fun p hp hp' => (hout p hp hp').1, ?_, ?_⟩, ?_⟩
    · refine hr.before.imp_right fun hused hfree => hused ((h.free _).mpr ⟨hfree, fun hin => ?_⟩)
      -- the page before would be the last one of the run
      have hb : a + l = b := by
        have := hstart.2
        omega
      rcases hrun.behind with hend | hend
      · omega
      · exact hend (by rw [hb]; exact hstart.1)
    · have hbehind := hr.behind
      rw [h.pages] at hbehind
      refine hbehind.imp_right fun hused hfree => hused ((h.free _).mpr ⟨hfree, fun hin => ?_⟩)
      have hb : a - 1 = b + k - 1 := by
        have := hlast.2
        omega
      rcases hrun.before with hfirst | hfirst
      · have := hr.start
        have := hlast.2
        omega
      · exact hfirst (by rw [hb]; exact hlast.1)
    · rintro rfl
      exact hstart.2 ⟨le_rfl, by omega⟩
  · rintro ⟨hr, hne⟩
    have hout (p : ℕ) (hp : b ≤ p) (hp' : p < b + k) : ¬ (a ≤ p ∧ p < a + l) := fun hin =>
      hne (hr.unique hrun hp hp' hin.1 hin.2).1
    refine ⟨hr.start, hr.pos, h.pages ▸ hr.fits, fun p hp hp' =>
      (h.free p).mpr ⟨hr.free p hp hp', hout p hp hp'⟩, ?_, ?_⟩
    · exact hr.before.imp_right fun hused hfree => hused ((h.free _).mp hfree).1
    · rw [h.pages]
      exact hr.behind.imp_right fun hused hfree => hused ((h.free _).mp hfree).1

theorem Without.shortPages_eq (h : Without m a l m') (hrun : FreeRun m a l) (k : ℕ) :
    shortPages m' k = shortPages m k \ Set.Ico a (a + l) := by
  ext p
  constructor
  · rintro ⟨b, j, hr, hj, hp, hp'⟩
    obtain ⟨hr, hne⟩ := (h.freeRun_iff hrun).mp hr
    exact ⟨⟨b, j, hr, hj, hp, hp'⟩, fun hin => hne (hr.unique hrun hp hp' hin.1 hin.2).1⟩
  · rintro ⟨⟨b, j, hr, hj, hp, hp'⟩, hout⟩
    refine ⟨b, j, (h.freeRun_iff hrun).mpr ⟨hr, ?_⟩, hj, hp, hp'⟩
    rintro rfl
    exact hout ⟨hp, by rwa [← (hr.unique hrun le_rfl (by omega) le_rfl (by
      have := hrun.pos; omega)).2]⟩

theorem ncard_Ico (a l : ℕ) : (Set.Ico a (a + l)).ncard = l := by
  rw [← Finset.coe_Ico, Set.ncard_coe_finset, Nat.card_Ico, Nat.add_sub_cancel_left]

theorem Without.ncard (h : Without m a l m') (hrun : FreeRun m a l) (hk : l ≤ k) :
    (shortPages m' k).ncard + l = (shortPages m k).ncard := by
  have hcard := Set.ncard_sdiff_add_ncard_of_subset (hrun.subset_shortPages hk)
    (shortPages_finite m k)
  rwa [← h.shortPages_eq hrun, ncard_Ico] at hcard

/-- All free pages are in runs that fit in memory. -/
theorem MEM_FreeTotal_eq_ncard (m : MemoryBlock) :
    MEM_FreeTotal m = (shortPages m m.pages).ncard := by
  rw [MEM_FreeTotal_eq, ← Set.ncard_coe_finset]
  congr 1
  ext p
  simp only [Finset.coe_filter, Finset.mem_Ico, Set.mem_ofPred_eq]
  constructor
  · rintro ⟨⟨hp, hp'⟩, hfree⟩
    obtain ⟨a, l, hrun, hle, hlt⟩ := exists_freeRun hp hp' hfree
    have := hrun.fits
    exact ⟨a, l, hrun, by omega, hle, hlt⟩
  · rintro ⟨a, l, hrun, -, hle, hlt⟩
    have := hrun.start
    have := hrun.fits
    exact ⟨by omega, hrun.free p hle hlt⟩

/-! ## The outer loop -/

/-- `n` pages do not reach beyond the runs that are no longer than the one at the end of
memory. -/
def StopsBeforeEnd (m : MemoryBlock) (n : ℕ) : Prop :=
  ∀ a l, FreeRun m a l → a + l = m.pages → n ≤ (shortPages m l).ncard

theorem Without.stopsBeforeEnd_iff (h : Without m a l m') (hrun : FreeRun m a l)
    (hend : a + l ≠ m.pages) (hleast : ∀ b k, FreeRun m b k → l ≤ k) :
    StopsBeforeEnd m' n ↔ StopsBeforeEnd m (n + l) := by
  constructor
  · intro hstops b k hr hlast
    have hne : b ≠ a := by
      rintro rfl
      have hk := (hr.unique hrun le_rfl (by have := hr.pos; omega) le_rfl
        (by have := hrun.pos; omega)).2
      omega
    have hle := hstops b k ((h.freeRun_iff hrun).mpr ⟨hr, hne⟩) (by rwa [h.pages])
    rw [← h.ncard hrun (hleast b k hr)]
    omega
  · intro hstops b k hr hlast
    obtain ⟨hr, -⟩ := (h.freeRun_iff hrun).mp hr
    rw [h.pages] at hlast
    have hle := hstops b k hr hlast
    rw [← h.ncard hrun (hleast b k hr)] at hle
    omega

/-- A number of pages that the shortest run holds does not reach beyond it. -/
theorem stopsBeforeEnd_of_le (hrun : FreeRun m a l) (hleast : ∀ b k, FreeRun m b k → l ≤ k)
    (hn : n ≤ l) : StopsBeforeEnd m n := by
  intro b k hr _
  have hsub := hrun.subset_shortPages (hleast b k hr)
  have hle := Set.ncard_le_ncard hsub (shortPages_finite m k)
  rw [ncard_Ico] at hle
  omega

/-- The first of the shortest runs, at the end of memory, is the only one of its length. -/
theorem Shortest.not_stopsBeforeEnd (h : Shortest m m.pages a l) (hend : a + l = m.pages)
    (hn : l < n) : ¬ StopsBeforeEnd m n := by
  intro hstops
  have hle := hstops a l h.run hend
  have hsub : shortPages m l ⊆ Set.Ico a (a + l) := by
    rintro p ⟨b, k, hr, hk, hp, hp'⟩
    have hfits := hr.fits
    have hpos := hr.pos
    have hleast := h.least b k hr (by omega)
    exact ⟨by omega, by omega⟩
  have hcard := Set.ncard_le_ncard hsub (Set.finite_Ico a (a + l))
  rw [ncard_Ico] at hcard
  omega

/-- There is a shortest run as long as a page is free. -/
theorem exists_shortest (h : 0 < MEM_FreeTotal m) : ∃ l, Shortest m m.pages (BestMatch m 1) l := by
  rcases BestMatch_one m with ⟨-, hnone⟩ | hsome
  · have hempty : shortPages m m.pages = ∅ := by
      ext p
      exact iff_of_false (fun ⟨a, l, hrun, _⟩ => hnone a l hrun) (Set.notMem_empty p)
    rw [MEM_FreeTotal_eq_ncard, hempty, Set.ncard_empty] at h
    exact absurd h (Nat.lt_irrefl 0)
  · exact hsome

/-- One round of the outer loop after the other. -/
theorem allocateScattered_cases {fuel : ℕ} : ∀ (n : ℕ) (next : Option ℕ) (r : ℤ × MemoryBlock),
    n ≤ fuel → n ≤ MEM_FreeTotal r.2 → (∀ i, next = some i → r.2.mhandles i ≠ 0) →
    (StopsBeforeEnd r.2 n ∧ ∃ r', allocateScattered fuel n next r = .ok r') ∨
      (¬ StopsBeforeEnd r.2 n ∧ allocateScattered fuel n next r = .error .outOfBounds) := by
  induction fuel with
  | zero =>
    intro n next r hn _ _
    obtain rfl : n = 0 := Nat.le_zero.mp hn
    exact .inl ⟨fun a l _ _ => Nat.zero_le _, r, rfl⟩
  | succ fuel ih =>
    intro n next r hn hfree hclosed
    cases n with
    | zero => exact .inl ⟨fun a l _ _ => Nat.zero_le _, r, rfl⟩
    | succ n =>
      obtain ⟨l, hshort⟩ := exists_shortest (by omega : 0 < MEM_FreeTotal r.2)
      have hrun := hshort.run
      have hstart : 0 < BestMatch r.2 1 := lt_of_lt_of_le (by decide) hrun.start
      have hleast (b k : ℕ) (hr : FreeRun r.2 b k) : l ≤ k := by
        have := hr.fits
        have := hr.pos
        have := hshort.least b k hr (by omega)
        omega
      have hzero (p : ℕ) : (closed next r).mhandles p = 0 ↔ r.2.mhandles p = 0 :=
        closed_eq_zero_iff.trans ⟨And.left, fun h => ⟨h, fun hp => hclosed p hp h⟩⟩
      rw [allocateScattered, if_neg (by omega)]
      generalize BestMatch r.2 1 = a at hshort hrun hstart
      rcases Nat.lt_or_ge l (n + 1) with hlt | hge
      · obtain ⟨k, hk⟩ : ∃ k, n + 1 = l + (k + 1) := ⟨n - l, by omega⟩
        obtain ⟨next', r', htake, hpages, hnext, hfree'⟩ := takeRun_free (k := k + 1) a next r
          hstart hrun.fits fun p hp hp' => (hzero p).mpr (hrun.free p hp hp')
        rw [hk, htake, takeRun, hpages]
        by_cases hend : a + l = r.2.pages
        · -- the run reaches the end of memory: the loop looks behind it
          rw [if_pos hend.ge]
          exact .inr ⟨hshort.not_stopsBeforeEnd hend (by omega), rfl⟩
        · have hfits := hrun.fits
          have hused : r'.2.mhandles (a + l) ≠ 0 := by
            intro h0
            have hbehind := hrun.behind.resolve_left hend
            have hpos := hrun.pos
            have hout : ¬ (closed next' r').mhandles (a + l) = 0 := fun h =>
              hbehind ((hzero _).mp ((hfree' _).mp h).1)
            refine hout (closed_eq_zero_iff.mpr ⟨h0, fun hn' => ?_⟩)
            rcases hnext with ⟨hl0, -⟩ | ⟨i, hi, hlt'⟩
            · omega
            · rw [hi] at hn'
              cases hn'
              omega
          rw [if_neg (by omega), if_neg hused]
          have hwithout : Without r.2 a l (closed next' r') :=
            ⟨(writeNext_pages _).trans hpages, fun p => by rw [hfree', hzero]⟩
          have htotal : k + 1 ≤ MEM_FreeTotal (closed next' r') := by
            have hcard := hwithout.ncard hrun (show l ≤ r.2.pages by omega)
            rw [MEM_FreeTotal_eq_ncard] at hfree ⊢
            rw [hwithout.pages]
            omega
          rw [Nat.add_comm l, ← hwithout.stopsBeforeEnd_iff hrun hend hleast]
          refine ih _ _ _ (by have := hrun.pos; omega) htotal fun i hi => ?_
          rw [hi, writeNext, setEntry_mhandles, Function.update_self]
          decide
      · obtain ⟨next', r', htake, -⟩ := takeRun_free (l := n + 1) (k := 0) a next r
          hstart (by have := hrun.fits; omega) fun p hp hp' =>
            (hzero p).mpr (hrun.free p hp (by omega))
        rw [Nat.add_zero] at htake
        rw [htake]
        refine .inl ⟨stopsBeforeEnd_of_le hrun hleast hge, writeNext next' (-1) r', ?_⟩
        cases fuel <;> rfl

/-- **A scattered allocation returns exactly when it stops before the end of memory**, and then
hands out a chain of as many free pages as were asked for. -/
theorem allocate_scattered_iff {n : ℕ} (hpos : 0 < n) (hfree : n ≤ MEM_FreeTotal m) :
    (∃ (k : ℕ) (m' : MemoryBlock) (B : List ℕ), MEM_AllocatePages m n false = .ok ((k : ℤ), m') ∧
      Scattered m n k m' B ∧ B.Nodup) ↔ StopsBeforeEnd m n := by
  have hcall : MEM_AllocatePages m n false = allocateScattered n n none (0, m) := by
    rw [MEM_AllocatePages, if_neg (by omega), if_neg (by decide), if_neg (by omega)]
  rcases allocateScattered_cases n none (0, m) le_rfl hfree (fun _ h => by cases h) with
    ⟨hstops, ⟨handle, m'⟩, hok⟩ | ⟨hstops, herror⟩
  · refine iff_of_true ?_ hstops
    obtain ⟨k, B, rfl, hB⟩ := allocateScattered_scattered (by omega) hok
    exact ⟨k, m', B, hcall.trans hok, hB, Chained.nodup hB.chain⟩
  · refine iff_of_false ?_ hstops
    rintro ⟨k, m', B, hok, -⟩
    rw [hcall, herror] at hok
    cases hok

/-! ## An allocation that stops, and one that does not -/

set_option maxRecDepth 8000 in
/-- Three of four free pages. -/
theorem allocate_scattered_fourPages :
    ∃ (k : ℕ) (m' : MemoryBlock) (B : List ℕ),
      MEM_AllocatePages Pages.fourPages.mem 3 false = .ok ((k : ℤ), m') ∧
        Scattered Pages.fourPages.mem 3 k m' B ∧ B.Nodup := by
  have hrun : FreeRun Pages.fourPages.mem 0x110 4 :=
    ⟨le_rfl, by decide, by decide, fun _ _ _ => rfl, .inl rfl, .inl rfl⟩
  have hleast (b k : ℕ) (hr : FreeRun Pages.fourPages.mem b k) : 4 ≤ k := by
    have hstart : 0x110 ≤ b := hr.start
    have hfits : b + k ≤ 0x114 := hr.fits
    have hpos := hr.pos
    exact (hr.unique hrun le_rfl (by omega) hstart (by omega)).2.ge
  exact (allocate_scattered_iff (by decide) (by decide)).mpr
    (stopsBeforeEnd_of_le hrun hleast (by decide))

/-- Two free pages, a used one, and a free one at the end of memory. -/
def lastPageFree : MemoryBlock where
  pages := 0x114
  mhandles := fun p => if p = 0x112 then -1 else 0
  bytes := fun _ => 0
  pages_le := (by decide : 0x114 ≤ 3072 * 256)

set_option maxRecDepth 8000 in
/-- **The end of memory is overrun**: of three free pages two are asked for, the last page of
memory is taken first, and the loop reads the entry behind it. -/
theorem lastPageFree_overrun :
    2 ≤ MEM_FreeTotal lastPageFree ∧
      MEM_AllocatePages lastPageFree 2 false = .error .outOfBounds := ⟨by decide, rfl⟩

end MemoryBlock

end AugraDosbox
