import AugraDosbox.Network.Ne2000Ring
import Mathlib.Data.List.Basic

/-!
# The receive ring of the NE2000 is a FIFO

What a driver gets out of the ring, for every order in which frames come in and the driver
accesses the card.

* `Machine.Inv` — the pages from BNRY to CURR hold the frames that have been accepted and
  that the driver has not yet obtained;
* `Inv.rx_frame`, `Inv.driver` — a step keeps it, and one of the driver's brings it nearer
  to the end of its work;
* **`run_lossless`** — nothing from BNRY up to CURR is overwritten, CURR stays in the ring,
  and the driver obtains the accepted frames, in their order and each once.
-/

namespace AugraDosbox.Ne2000

open Ring

set_option maxRecDepth 4096

/-! ## The invariant -/

/-- How far the driver has got with the first of the frames. -/
def Phase.Reads (s : Nic) (r : ℕ) (pending : List (List Byte)) : Phase → Prop
  | .idle => True
  | .header got => ∃ frame rest, pending = frame :: rest ∧
      Reading s (r * 256)
        (pkthdr (frame.getD 0 0) (s.page (r + framePages frame.length)) frame.length) got
  | .body nextpage length got => ∃ frame rest, pending = frame :: rest ∧
      nextpage = s.page (r + framePages frame.length) ∧ length = frame.length ∧
      Reading s (r * 256 + 4) frame got

/-- BNRY is page `b`, the driver reads from page `r` on, and CURR is page `c`. -/
structure Machine.Inv (b r c : ℕ) (pending : List (List Byte)) (m : Machine) : Prop where
  ring : m.nic.RingValid
  bound : m.nic.bound_ptr = m.nic.page b
  here : m.driver.page = m.nic.page r
  curr : m.nic.curr_page = m.nic.page c
  le : b ≤ r
  room : c < b + m.nic.pages
  stored : Stored m.nic r pending c
  lengths : ∀ frame ∈ pending, 60 ≤ frame.length ∧ frame.length ≤ 1514
  accepted : m.accepted = m.driver.received ++ pending
  reads : m.driver.phase.Reads m.nic r pending

/-- What the driver has done for the first of the frames. -/
def Phase.done : Phase → ℕ
  | .idle => 0
  | .header got => got.length + 1
  | .body _ _ got => got.length + 6

/-- What the driver still has to do. -/
def workLeft (pending : List (List Byte)) (phase : Phase) : ℕ :=
  (pending.map fun frame => frame.length + 8).sum - phase.done

section

variable {b r c : ℕ} {pending : List (List Byte)} {m : Machine} {s s' : Nic}

variable {v nextpage n : ℕ} {content : List Byte}

theorem Reading.congr {got : List Byte} (h : Reading s v content got)
    (haddress : s'.address = s.address) (hdma : s'.remote_dma = s.remote_dma)
    (hbytes : s'.remote_bytes = s.remote_bytes) (hsize : s'.wdsize = s.wdsize) :
    Reading s' v content got := by
  constructor
  case taken => exact h.taken
  case le => exact h.le
  case bytes => rw [hbytes, h.bytes]
  case dma =>
    intro hlt
    rw [hdma, haddress, h.dma hlt]
  case even =>
    intro hword hlt
    exact h.even (hsize ▸ hword) hlt

theorem Reading.eq_of_le {got : List Byte} (h : Reading s v content got)
    (hle : content.length ≤ got.length) : got = content := by
  rw [h.taken, List.take_of_length_le hle]

/-- A remote read of what lies at a position. -/
theorem reading_start (hr : s.RingValid) (hlength : content.length < 2 ^ 16) :
    Reading (startRemoteRead s (BitVec.ofNat 16 (s.address v)) (BitVec.ofNat 16 content.length))
      v content [] := by
  have hlt := hr.address_lt (v := v)
  have hlast := hr.last
  rw [startRemoteRead_eq]
  constructor
  case taken => rfl
  case le => exact Nat.zero_le _
  case bytes =>
    rw [BitVec.toNat_ofNat, Nat.mod_eq_of_lt hlength, List.length_nil, Nat.sub_zero]
  case dma =>
    intro _
    have haddress : Nic.address { s with
        stop := false
        remote_start := BitVec.ofNat 16 (s.address v)
        remote_dma := BitVec.ofNat 16 (s.address v)
        remote_bytes := BitVec.ofNat 16 content.length } = s.address := address_congr rfl rfl
    rw [haddress, List.length_nil, Nat.add_zero, BitVec.toNat_ofNat, Nat.mod_eq_of_lt (by omega)]
  case even => exact fun _ _ => rfl

theorem page_startRemoteRead {address count : BitVec 16} :
    (startRemoteRead s address count).page = s.page := by
  rw [startRemoteRead_eq]
  exact page_congr rfl rfl

theorem length_pkthdr {first : Byte} : (pkthdr first nextpage n).length = 4 := rfl

/-- What the driver takes from the header. -/
theorem pkthdr_length {first : Byte} (hn : n ≤ 1514) :
    ((pkthdr first nextpage n).getD 2 0).toNat +
      ((pkthdr first nextpage n).getD 3 0).toNat * 256 - 4 = n := by
  have hlow : ((pkthdr first nextpage n).getD 2 0).toNat = (n + 4) % 256 := by
    change (BitVec.ofNat 8 ((n + 4) % 256)).toNat = _
    rw [BitVec.toNat_ofNat, Nat.mod_eq_of_lt (Nat.mod_lt _ (by omega))]
  have hhigh : ((pkthdr first nextpage n).getD 3 0).toNat = (n + 4) / 256 := by
    change (BitVec.ofNat 8 ((n + 4) / 256)).toNat = _
    rw [BitVec.toNat_ofNat, Nat.mod_eq_of_lt (by omega)]
  rw [hlow, hhigh]
  omega

theorem pkthdr_nextpage {first : Byte} (hpage : nextpage < 256) :
    ((pkthdr first nextpage n).getD 1 0).toNat = nextpage := by
  change (BitVec.ofNat 8 nextpage).toNat = _
  rw [BitVec.toNat_ofNat, Nat.mod_eq_of_lt hpage]

/-- The header and the frame are what a record consists of. -/
theorem Holds.header {frame : List Byte} (h : Holds s v (record nextpage frame)) :
    Holds s v (pkthdr (frame.getD 0 0) nextpage frame.length) := by
  intro i hi
  have hrecord := h i (by rw [length_record]; rw [length_pkthdr] at hi; omega)
  rw [hrecord]
  exact List.getElem_append_left hi

theorem Holds.frame {frame : List Byte} (h : Holds s v (record nextpage frame)) :
    Holds s (v + 4) frame := by
  intro i hi
  have hrecord := h (4 + i) (by rw [length_record]; omega)
  rw [Nat.add_assoc, hrecord]
  simp only [record]
  rw [List.getElem_append_right (by simp [pkthdr])]
  simp [pkthdr]

theorem step_rx_none {frame : Frame} (h : m.nic.rx_frame frame.buf frame.bytes.length = none) :
    m.step (.rx_frame frame) = m := by
  unfold Machine.step
  dsimp only
  rw [h]

theorem step_rx_some {frame : Frame} (h : m.nic.rx_frame frame.buf frame.bytes.length = some (s, n))
    :
    m.step (.rx_frame frame) =
      { m with nic := s, accepted := m.accepted ++ [frame.bytes] } := by
  unfold Machine.step
  dsimp only
  rw [h]

namespace Machine.Inv

/-! ## A frame comes in -/

theorem rx_frame (h : Inv b r c pending m) (frame : Frame) :
    ∃ c' pending', Inv b r c' pending' (m.step (.rx_frame frame)) := by
  cases hrx : m.nic.rx_frame frame.buf frame.bytes.length with
  | none =>
    rw [step_rx_none hrx]
    exact ⟨c, pending, h⟩
  | some result =>
    obtain ⟨nic, n⟩ := result
    have hle := h.le.trans (Stored.le h.stored)
    obtain ⟨hroom, hnic, hbefore, hframe⟩ :=
      rx_frame_spec h.ring h.bound h.curr hle h.room hrx
    have hpage : nic.page = m.nic.page := by
      rw [hnic]
      exact page_congr rfl rfl
    have haddress : nic.address = m.nic.address := by
      rw [hnic]
      exact address_congr rfl rfl
    have hpages : nic.pages = m.nic.pages := by
      rw [hnic]
      exact pages_congr rfl rfl
    refine ⟨c + framePages frame.bytes.length, pending ++ [frame.bytes], ?_⟩
    rw [step_rx_some hrx]
    constructor
    case ring =>
      rw [hnic]
      exact ⟨h.ring.first, h.ring.lt, h.ring.last⟩
    case bound => rw [hpage, hnic, h.bound]
    case here => rw [hpage, h.here]
    case curr => rw [hpage, hnic]
    case le => exact h.le
    case room => rwa [hpages]
    case stored =>
      have hold := h.stored.congr hpage fun v hv hv' =>
        hbefore v ((Nat.mul_le_mul_right 256 h.le).trans hv) hv'
      refine hold.snoc ?_
      rw [hpage]
      exact hframe
    case lengths =>
      intro f hf
      rcases List.mem_append.mp hf with hf | hf
      · exact h.lengths f hf
      · rw [List.mem_singleton.mp hf]
        exact ⟨frame.le_length, frame.length_le⟩
    case accepted => rw [h.accepted, List.append_assoc]
    case reads =>
      have hreads := h.reads
      revert hreads
      cases m.driver.phase with
      | idle => exact id
      | header got =>
        rintro ⟨first, rest, rfl, hread⟩
        refine ⟨first, rest ++ [frame.bytes], rfl, ?_⟩
        rw [hpage]
        exact hread.congr haddress (by rw [hnic]) (by rw [hnic]) (by rw [hnic])
      | body nextpage length got =>
        rintro ⟨first, rest, rfl, hnext, hlength, hread⟩
        refine ⟨first, rest ++ [frame.bytes], rfl, ?_, hlength, ?_⟩
        · rw [hpage, hnext]
        · exact hread.congr haddress (by rw [hnic]) (by rw [hnic]) (by rw [hnic])

/-! ## The driver accesses the card -/

/-- An access that concerns the remote DMA only. -/
theorem of_remote (h : Inv b r c pending m) {phase : Phase}
    (hnic : ∃ stop start dma bytes, s = { m.nic with
      stop := stop, remote_start := start, remote_dma := dma, remote_bytes := bytes })
    (hreads : phase.Reads s r pending) :
    Inv b r c pending { m with nic := s, driver := { m.driver with phase := phase } } := by
  obtain ⟨stop, start, dma, bytes, rfl⟩ := hnic
  have hpage : Nic.page { m.nic with
      stop := stop, remote_start := start, remote_dma := dma, remote_bytes := bytes } =
      m.nic.page := page_congr rfl rfl
  have hat : Nic.at { m.nic with
      stop := stop, remote_start := start, remote_dma := dma, remote_bytes := bytes } =
      m.nic.at := at_congr rfl rfl rfl
  have hpages : Nic.pages { m.nic with
      stop := stop, remote_start := start, remote_dma := dma, remote_bytes := bytes } =
      m.nic.pages := pages_congr rfl rfl
  constructor
  case ring => exact ⟨h.ring.first, h.ring.lt, h.ring.last⟩
  case bound => rw [hpage, h.bound]
  case here => rw [hpage, h.here]
  case curr => rw [hpage, h.curr]
  case le => exact h.le
  case room =>
    rw [hpages]
    exact h.room
  case stored => exact h.stored.congr hpage fun v _ _ => congrFun hat v
  case lengths => exact h.lengths
  case accepted => exact h.accepted
  case reads => exact hreads

theorem here_eq_curr (h : Inv b r c pending m) (heq : m.nic.curr_page = m.driver.page) :
    r = c := by
  have hle := Stored.le h.stored
  have hroom := h.room
  have hb := h.le
  rw [h.curr, h.here] at heq
  unfold Nic.page at heq
  exact slot_inj hle (by omega) heq.symm

/-- The first of the frames, when the driver is not where the next one comes in. -/
theorem exists_frame (h : Inv b r c pending m) (hne : m.nic.curr_page ≠ m.driver.page) :
    ∃ frame rest, pending = frame :: rest := by
  cases hpending : pending with
  | nil =>
    have hstored := h.stored
    rw [hpending] at hstored
    obtain rfl : r = c := hstored
    exact absurd (h.curr.trans h.here.symm) hne
  | cons frame rest => exact ⟨frame, rest, rfl⟩

theorem idle_step (h : Inv b r c pending m) (hphase : m.driver.phase = .idle)
    (hne : m.nic.curr_page ≠ m.driver.page) : Inv b r c pending (m.step .driver) ∧
      workLeft pending (m.step .driver).driver.phase < workLeft pending m.driver.phase := by
  obtain ⟨frame, rest, rfl⟩ := h.exists_frame hne
  have hstep : m.step .driver = { m with
      nic := startRemoteRead m.nic (BitVec.ofNat 16 (m.driver.page * 256)) 4
      driver := { m.driver with phase := .header [] } } := by
    unfold step driverStep
    rw [hphase]
    dsimp only
    rw [if_neg hne]
  rw [hstep]
  constructor
  · refine h.of_remote ⟨_, _, _, _, startRemoteRead_eq ..⟩ ⟨frame, rest, rfl, ?_⟩
    rw [page_startRemoteRead, h.here, ← address_page_zero]
    generalize hheader : pkthdr (frame.getD 0 0) (m.nic.page (r + framePages frame.length))
      frame.length = header
    have hlength : header.length = 4 := by rw [← hheader, length_pkthdr]
    have hstart : Reading _ (r * 256) header [] := reading_start h.ring (by omega)
    rwa [hlength] at hstart
  · rw [hphase]
    simp only [workLeft, Phase.done, List.map_cons, List.sum_cons, List.length_nil]
    omega

theorem header_step (h : Inv b r c pending m) {got : List Byte}
    (hphase : m.driver.phase = .header got) : Inv b r c pending (m.step .driver) ∧
      workLeft pending (m.step .driver).driver.phase < workLeft pending m.driver.phase := by
  have hreads := h.reads
  rw [hphase] at hreads
  obtain ⟨frame, rest, rfl, hread⟩ := hreads
  have hlength := (h.lengths frame List.mem_cons_self).2
  by_cases hlt : got.length < 4
  · have hstep : m.step .driver = { m with
        nic := (readData m.nic (4 - got.length)).1
        driver := { m.driver with
          phase := .header (got ++ (readData m.nic (4 - got.length)).2) } } := by
      unfold step driverStep
      rw [hphase]
      dsimp only
      rw [if_pos hlt]
    obtain ⟨dma, bytes, hnic, hne, hnext⟩ :=
      readData_spec h.ring hread (by omega) hlt h.stored.1.header
    rw [length_pkthdr] at hnic hne hnext
    have hmore := List.length_pos_iff.mpr hne
    have hle := hnext.le
    rw [List.length_append, length_pkthdr] at hle
    rw [hstep]
    constructor
    · refine h.of_remote ⟨_, _, dma, bytes, hnic⟩ ⟨frame, rest, rfl, ?_⟩
      have hpage : (readData m.nic (4 - got.length)).1.page = m.nic.page := by
        rw [hnic]
        exact page_congr rfl rfl
      rw [hpage]
      exact hnext
    · rw [hphase]
      simp only [workLeft, Phase.done, List.map_cons, List.sum_cons, List.length_append]
      omega
  · have hall := hread.eq_of_le (by rw [length_pkthdr]; omega)
    have hsmall : m.nic.page (r + framePages frame.length) < 256 := by
      have hlast := h.ring.last
      exact (h.ring.page_lt).trans (by omega)
    have hstep : m.step .driver = { m with
        nic := startRemoteRead m.nic (BitVec.ofNat 16 (m.driver.page * 256 + 4))
          (BitVec.ofNat 16 frame.length)
        driver := { m.driver with
          phase := .body (m.nic.page (r + framePages frame.length)) frame.length [] } } := by
      unfold step driverStep
      rw [hphase]
      dsimp only
      rw [if_neg hlt, hall, pkthdr_length hlength, pkthdr_nextpage hsmall]
    have haddress : m.driver.page * 256 + 4 = m.nic.address (r * 256 + 4) := by
      rw [h.here, address_page (by omega)]
    rw [hstep]
    constructor
    · refine h.of_remote ⟨_, _, _, _, startRemoteRead_eq ..⟩ ⟨frame, rest, rfl, ?_, rfl, ?_⟩
      · rw [page_startRemoteRead]
      · rw [haddress]
        exact reading_start h.ring (by omega)
    · have hfour : got.length = 4 := by rw [hall, length_pkthdr]
      rw [hphase]
      simp only [workLeft, Phase.done, List.map_cons, List.sum_cons, List.length_nil]
      omega

theorem body_step (h : Inv b r c pending m) {nextpage length : ℕ} {got : List Byte}
    (hphase : m.driver.phase = .body nextpage length got) :
    ∃ b' r' pending', Inv b' r' c pending' (m.step .driver) ∧
      workLeft pending' (m.step .driver).driver.phase < workLeft pending m.driver.phase := by
  have hreads := h.reads
  rw [hphase] at hreads
  obtain ⟨frame, rest, rfl, rfl, rfl, hread⟩ := hreads
  by_cases hlt : got.length < frame.length
  · have hstep : m.step .driver = { m with
        nic := (readData m.nic (frame.length - got.length)).1
        driver := { m.driver with
          phase := .body (m.nic.page (r + framePages frame.length)) frame.length
            (got ++ (readData m.nic (frame.length - got.length)).2) } } := by
      unfold step driverStep
      rw [hphase]
      dsimp only
      rw [if_pos hlt]
    obtain ⟨dma, bytes, hnic, hne, hnext⟩ :=
      readData_spec h.ring hread (by omega) hlt h.stored.1.frame
    have hmore := List.length_pos_iff.mpr hne
    have hle := hnext.le
    rw [List.length_append] at hle
    rw [hstep]
    refine ⟨b, r, frame :: rest, ?_, ?_⟩
    · refine h.of_remote ⟨_, _, dma, bytes, hnic⟩ ⟨frame, rest, rfl, ?_, rfl, hnext⟩
      have hpage : (readData m.nic (frame.length - got.length)).1.page = m.nic.page := by
        rw [hnic]
        exact page_congr rfl rfl
      rw [hpage]
    · rw [hphase]
      simp only [workLeft, Phase.done, List.map_cons, List.sum_cons, List.length_append]
      omega
  · have hall := hread.eq_of_le (by omega)
    have hfirst := h.ring.first
    have hlast := h.ring.last
    have hpage_le := h.ring.le_page (v := r + framePages frame.length)
    have hpage_lt := h.ring.page_lt (v := r + framePages frame.length)
    have hstep : m.step .driver = { m with
        nic := { m.nic with bound_ptr := m.nic.page (r + framePages frame.length) }
        driver := {
          page := m.nic.page (r + framePages frame.length)
          phase := .idle
          received := m.driver.received ++ [frame] } } := by
      have hvalue : (BitVec.ofNat 8 (m.nic.page (r + framePages frame.length))).toNat =
          m.nic.page (r + framePages frame.length) := by
        rw [BitVec.toNat_ofNat, Nat.mod_eq_of_lt (by omega)]
      have hrange : ne2k_page_in_range (m.nic.page (r + framePages frame.length)) = true := by
        have hlo : PAGE_FIRST = 64 := rfl
        have hhi : PAGE_LAST = 191 := rfl
        unfold ne2k_page_in_range
        exact decide_eq_true ⟨by omega, by omega⟩
      unfold step driverStep
      rw [hphase]
      dsimp only
      rw [if_neg hlt, hall, Nic.page0_write, hvalue, if_pos hrange]
    have hpage : Nic.page { m.nic with bound_ptr := m.nic.page (r + framePages frame.length) } =
        m.nic.page := page_congr rfl rfl
    have hat : Nic.at { m.nic with bound_ptr := m.nic.page (r + framePages frame.length) } =
        m.nic.at := at_congr rfl rfl rfl
    have hpages : Nic.pages { m.nic with bound_ptr := m.nic.page (r + framePages frame.length) } =
        m.nic.pages := pages_congr rfl rfl
    rw [hstep]
    refine ⟨r + framePages frame.length, r + framePages frame.length, rest, ?_, ?_⟩
    · constructor
      case ring => exact ⟨h.ring.first, h.ring.lt, h.ring.last⟩
      case bound => rw [hpage]
      case here => rw [hpage]
      case curr => rw [hpage, h.curr]
      case le => exact Nat.le_refl _
      case room =>
        have hroom := h.room
        have hb := h.le
        rw [hpages]
        omega
      case stored => exact h.stored.2.congr hpage fun v _ _ => congrFun hat v
      case lengths => exact fun f hf => h.lengths f (List.mem_cons_of_mem _ hf)
      case accepted => rw [h.accepted, List.append_assoc, List.singleton_append]
      case reads => trivial
    · have hlength : got.length = frame.length := congrArg List.length hall
      rw [hphase]
      simp only [workLeft, Phase.done, List.map_cons, List.sum_cons]
      omega

/-- An access of the driver keeps the invariant, and some of its work is done. -/
theorem driver (h : Inv b r c pending m) : ∃ b' r' pending', Inv b' r' c pending' (m.step .driver) ∧
    (m.driver.phase = .idle ∧ m.nic.curr_page = m.driver.page ∨
      workLeft pending' (m.step .driver).driver.phase < workLeft pending m.driver.phase) := by
  cases hphase : m.driver.phase with
  | idle =>
    by_cases hcurr : m.nic.curr_page = m.driver.page
    · have hstep : m.step .driver = m := by
        unfold step driverStep
        rw [hphase]
        dsimp only
        rw [if_pos hcurr]
      rw [hstep]
      exact ⟨b, r, pending, h, .inl ⟨rfl, hcurr⟩⟩
    · obtain ⟨hinv, hless⟩ := h.idle_step hphase hcurr
      rw [hphase] at hless
      exact ⟨b, r, pending, hinv, .inr hless⟩
  | header got =>
    obtain ⟨hinv, hless⟩ := h.header_step hphase
    rw [hphase] at hless
    exact ⟨b, r, pending, hinv, .inr hless⟩
  | body nextpage length got =>
    obtain ⟨b', r', pending', hinv, hless⟩ := h.body_step hphase
    rw [hphase] at hless
    exact ⟨b', r', pending', hinv, .inr hless⟩

/-! ## Runs -/

theorem step (h : Inv b r c pending m) (event : Event) :
    ∃ b' r' c' pending', Inv b' r' c' pending' (m.step event) := by
  cases event with
  | rx_frame frame =>
    obtain ⟨c', pending', hinv⟩ := h.rx_frame frame
    exact ⟨b, r, c', pending', hinv⟩
  | driver =>
    obtain ⟨b', r', pending', hinv, -⟩ := h.driver
    exact ⟨b', r', c, pending', hinv⟩

theorem run (h : Inv b r c pending m) (events : List Event) :
    ∃ b' r' c' pending', Inv b' r' c' pending' (m.run events) := by
  induction events generalizing b r c pending m with
  | nil => exact ⟨b, r, c, pending, h⟩
  | cons event events ih =>
    obtain ⟨b', r', c', pending', hinv⟩ := h.step event
    exact ih hinv

/-- A driver that is idle at CURR has obtained all frames. -/
theorem received_eq (h : Inv b r c pending m) (hcurr : m.nic.curr_page = m.driver.page) :
    m.driver.received = m.accepted := by
  rw [h.accepted, h.stored.eq_nil (h.here_eq_curr hcurr), List.append_nil]

/-- When no more frames come in, the driver gets to the end of its work. -/
theorem finishes (h : Inv b r c pending m) : ∃ n,
    (m.run (List.replicate n .driver)).driver.received = m.accepted := by
  generalize hwork : workLeft pending m.driver.phase = work
  induction work using Nat.strong_induction_on generalizing b r c pending m with
  | _ work ih =>
    obtain ⟨b', r', pending', hinv, ⟨-, hcurr⟩ | hless⟩ := h.driver
    · exact ⟨0, h.received_eq hcurr⟩
    · obtain ⟨n, hn⟩ := ih _ (hwork ▸ hless) hinv rfl
      exact ⟨n + 1, hn⟩

end Machine.Inv

/-- The pages from BNRY up to CURR, going round the ring. -/
def Nic.BoundToCurr (s : Nic) (page : ℕ) : Prop :=
  if s.bound_ptr ≤ s.curr_page then s.bound_ptr ≤ page ∧ page < s.curr_page
  else (s.bound_ptr ≤ page ∧ page < s.page_stop) ∨ (s.page_start ≤ page ∧ page < s.curr_page)

/-- They are the pages of the positions from `b` up to `c`. -/
theorem exists_position (hr : s.RingValid) (hb : s.bound_ptr = s.page b)
    (hc : s.curr_page = s.page c) (hle : b ≤ c) (hroom : c < b + s.pages) {page : ℕ}
    (hpage : s.BoundToCurr page) : ∃ v, b ≤ v ∧ v < c ∧ s.page v = page := by
  have hstart := hr.start_add
  have hlo := hr.le_page (v := b)
  have hhi := hr.page_lt (v := b)
  have hlo' := hr.le_page (v := c)
  have hhi' := hr.page_lt (v := c)
  have hadd : ∀ k, k ≤ s.pages → s.page (b + k) =
      if s.page b + k < s.page_start + s.pages then s.page b + k
      else s.page b + k - s.pages := fun k hk => page_add hk
  have hend := hadd (c - b) (by omega)
  rw [Nat.add_sub_cancel' hle] at hend
  unfold Nic.BoundToCurr at hpage
  rw [hb, hc] at hpage
  by_cases hbehind : s.page b ≤ page
  · refine ⟨b + (page - s.page b), by omega, ?_, ?_⟩
    · split at hend <;> split at hpage <;> omega
    · rw [hadd _ (by split at hpage <;> omega), if_pos (by split at hpage <;> omega)]
      omega
  · refine ⟨b + (s.pages - (s.page b - page)), by omega, ?_, ?_⟩
    · split at hend <;> split at hpage <;> omega
    · rw [hadd _ (by omega), if_neg (by split at hpage <;> omega)]
      split at hpage <;> omega

/-- The driver does not write to the memory. -/
theorem driverStep_mem {driver : Driver} : (driverStep s driver).1.mem = s.mem := by
  have hread : ∀ left, (readData s left).1.mem = s.mem := by
    intro left
    unfold readData Nic.asic_read
    dsimp only
    split <;> rfl
  have hstart : ∀ address count, (startRemoteRead s address count).mem = s.mem := by
    intro address count
    rw [startRemoteRead_eq]
  have hbound : ∀ value, (s.page0_write 0x3 value).mem = s.mem := by
    intro value
    change (if ne2k_page_in_range value.toNat then { s with bound_ptr := value.toNat }
      else s).mem = s.mem
    split <;> rfl
  unfold driverStep
  split
  · split
    · rfl
    · exact hstart _ _
  · rename_i got _
    split
    · exact hread (4 - got.length)
    · exact hstart _ _
  · rename_i length got _
    split
    · exact hread (length - got.length)
    · exact hbound _

/-- No step touches a page from BNRY up to CURR. -/
theorem Machine.Inv.kept (h : Machine.Inv b r c pending m) (event : Event) {page i : ℕ}
    (hpage : m.nic.BoundToCurr page) (hi : i < 256) :
    (m.step event).nic.mem (page * 256 + i - MEMSTART) =
      m.nic.mem (page * 256 + i - MEMSTART) := by
  have hle := h.le.trans (Stored.le h.stored)
  cases event with
  | rx_frame frame =>
    cases hrx : m.nic.rx_frame frame.buf frame.bytes.length with
    | none => rw [step_rx_none hrx]
    | some result =>
      obtain ⟨nic, n⟩ := result
      obtain ⟨v, hv, hv', rfl⟩ := exists_position h.ring h.bound h.curr hle h.room hpage
      obtain ⟨-, hnic, hbefore, -⟩ := rx_frame_spec h.ring h.bound h.curr hle h.room hrx
      have haddress : nic.address = m.nic.address := by
        rw [hnic]
        exact address_congr rfl rfl
      have hat := hbefore (v * 256 + i) (by omega) (by omega)
      unfold Nic.at at hat
      rw [haddress, address_page hi] at hat
      rw [step_rx_some hrx]
      exact hat
  | driver =>
    have hmem : (driverStep m.nic m.driver).1.mem = m.nic.mem := driverStep_mem
    exact congrFun hmem _

end

/-! ## The ring is lossless -/

/-- A machine whose driver is idle at CURR, before any frame has come in. -/
structure Machine.Start (m : Machine) : Prop where
  ring : m.nic.RingValid
  bound : m.nic.page_start ≤ m.nic.bound_ptr ∧ m.nic.bound_ptr < m.nic.page_stop
  curr : m.nic.page_start ≤ m.nic.curr_page ∧ m.nic.curr_page < m.nic.page_stop
  here : m.driver.page = m.nic.curr_page
  idle : m.driver.phase = .idle
  received : m.driver.received = []
  accepted : m.accepted = []

theorem Machine.Start.inv {m : Machine} (h : m.Start) :
    ∃ b c, Machine.Inv b c c [] m := by
  have hstart := h.ring.start_add
  have hbound := h.bound
  have hcurr := h.curr
  have hpage : ∀ p, m.nic.page_start ≤ p → p < m.nic.page_stop →
      m.nic.page (p - m.nic.page_start) = p := by
    intro p hp hp'
    unfold Nic.page
    exact slot_of_mem hp (by omega)
  have hb := hpage _ hbound.1 hbound.2
  have hc := hpage _ hcurr.1 hcurr.2
  -- CURR is counted on from BNRY
  have hahead : ∃ c, m.nic.bound_ptr - m.nic.page_start ≤ c ∧
      c < m.nic.bound_ptr - m.nic.page_start + m.nic.pages ∧
      m.nic.page c = m.nic.curr_page := by
    by_cases hle : m.nic.bound_ptr ≤ m.nic.curr_page
    · exact ⟨m.nic.curr_page - m.nic.page_start, by omega, by omega, hc⟩
    · refine ⟨m.nic.curr_page - m.nic.page_start + m.nic.pages, by omega, by omega, ?_⟩
      rw [page_add (Nat.le_refl _), hc, if_neg (by omega)]
      omega
  obtain ⟨c, hle, hroom, hpagec⟩ := hahead
  refine ⟨m.nic.bound_ptr - m.nic.page_start, c, ?_⟩
  constructor
  case ring => exact h.ring
  case bound => exact hb.symm
  case here => rw [h.here, hpagec]
  case curr => exact hpagec.symm
  case le => exact hle
  case room => exact hroom
  case stored => exact rfl
  case lengths => exact fun f hf => absurd hf List.not_mem_nil
  case accepted => rw [h.accepted, h.received, List.append_nil]
  case reads =>
    rw [h.idle]
    trivial

/-- **The ring is a lossless FIFO**: whatever comes in and whenever the driver accesses the
card, CURR stays in the ring; nothing from BNRY up to CURR is overwritten; the driver has
obtained a beginning of what has been accepted; when it is idle at CURR it has obtained all of
it, and it gets there when it is left alone. -/
theorem Machine.run_lossless (m : Machine) (h : m.Start) (events : List Event) :
    ((m.run events).nic.page_start ≤ (m.run events).nic.curr_page ∧
      (m.run events).nic.curr_page < (m.run events).nic.page_stop) ∧
    (∀ event page i, (m.run events).nic.BoundToCurr page → i < 256 →
      ((m.run events).step event).nic.mem (page * 256 + i - MEMSTART) =
        (m.run events).nic.mem (page * 256 + i - MEMSTART)) ∧
    (m.run events).driver.received <+: (m.run events).accepted ∧
    ((m.run events).nic.curr_page = (m.run events).driver.page →
      (m.run events).driver.received = (m.run events).accepted) ∧
    ∃ n, ((m.run events).run (List.replicate n .driver)).driver.received =
      (m.run events).accepted := by
  obtain ⟨b₀, c₀, hstart⟩ := h.inv
  obtain ⟨b, r, c, pending, hinv⟩ := hstart.run events
  refine ⟨?_, ?_, ?_, ?_, ?_⟩
  · rw [hinv.curr]
    exact ⟨hinv.ring.le_page, hinv.ring.page_lt⟩
  · exact fun event page i hpage hi => hinv.kept event hpage hi
  · exact ⟨pending, hinv.accepted.symm⟩
  · exact hinv.received_eq
  · exact hinv.finishes

/-- A ring of eight pages, with CURR on its last page. -/
def smallMachine : Machine where
  nic := {
    stop := false, wdsize := true, promisc := true, broadcast := false, multicast := false
    runts_ok := false, physaddr := [], mchash := fun _ => 0, macaddr := fun _ => 0
    page_start := 64, page_stop := 72, bound_ptr := 71, curr_page := 71
    remote_start := 0, remote_dma := 0, remote_bytes := 0, mem := fun _ => 0 }
  driver := { page := 71, phase := .idle, received := [] }
  accepted := []

/-- A frame that goes over the end of the ring. -/
def smallFrame : Frame where
  bytes := List.replicate 401 7
  behind := fun _ => 0
  le_length := by decide
  length_le := by decide

theorem Machine.run_lossless_small : ∃ n,
    ((smallMachine.run [.rx_frame smallFrame]).run (List.replicate n .driver)).driver.received =
      [smallFrame.bytes] := by
  have hstart : smallMachine.Start :=
    ⟨⟨by decide, by decide, by decide⟩, by decide, by decide, rfl, rfl, rfl, rfl⟩
  have haccepted : (smallMachine.run [.rx_frame smallFrame]).accepted = [smallFrame.bytes] := by
    decide
  obtain ⟨-, -, -, -, hall⟩ := Machine.run_lossless smallMachine hstart [.rx_frame smallFrame]
  rwa [haccepted] at hall

end AugraDosbox.Ne2000
