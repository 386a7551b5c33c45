import AugraDosbox.Hardware.Serial
import AugraDosbox.Lib.BitRegister
import Mathlib.Data.List.Induction

/-!
# The receiving side of a serial port

* `Access`, `CSerial.run` — what happens to the receiving side after power on, and the bytes that
  the guest reads;
* `Mailbox` — what it is for: bytes with their errors, in the order in which they came;
* **`mirrors_run`** — the port is such a mailbox in every run;
* `Accounts` — the two FIFOs and the counter of errors agree;
* `StaleRead` — a read of RHR that finds nothing but the error of the byte before;
* **`accounting_iff`** — the counter agrees exactly as long as there was no such read.
-/

namespace AugraDosbox

namespace Serial

/-! ## Runs -/

/-- What happens to the receiving side; `timeout` is the event. -/
inductive Access where
  | receive (IF : Bool) (data error : Byte)
  | readRHR
  | readLSR
  | writeFCR (data : Byte)
  | writeIER (data : Byte)
  | writeLCR (data : Byte)
  | timeout
deriving DecidableEq, Repr

namespace CSerial

def step (s : CSerial) : Access → CSerial
  | .receive IF data error => s.receiveByteEx IF data error
  | .readRHR => s.Read_RHR.1
  | .readLSR => s.Read_LSR.1
  | .writeFCR data => s.Write_FCR data
  | .writeIER data => s.Write_IER data
  | .writeLCR data => s.Write_LCR data
  | .timeout => s.handleEvent true .RX_TIMEOUT

/-- The byte that an access reads, if it reads RHR and finds one there. -/
def found (s : CSerial) : Access → List Byte
  | .readRHR => if ¬ s.divisorEnabled ∧ ¬ s.rxfifo.isEmpty then [s.Read_RHR.2] else []
  | _ => []

/-- The port after some accesses, and the bytes found. -/
def run (s : CSerial) : List Access → CSerial × List Byte
  | [] => (s, [])
  | access :: rest => (((s.step access).run rest).1, s.found access ++ ((s.step access).run rest).2)

end CSerial

/-! ## What it is for -/

/-- The bytes that wait for the guest, each with its error, and those it has read. -/
structure Mailbox where
  active : Bool
  divisor : Bool
  pending : List (Byte × Byte)
  delivered : List Byte
deriving DecidableEq

namespace Mailbox

variable (m : Mailbox)

def capacity : ℕ := if m.active then fifosize else 1

/-- Errors are kept only with the FIFO on. -/
def kept (error : Byte) : Byte := if m.active then error else 0#8

/-- The error of the newest byte. -/
def newest : Byte := (m.pending.getLast?.map Prod.snd).getD 0#8

/-- A byte that comes when there is no room takes the place of the newest one and its errors. -/
def receive (data error : Byte) : Mailbox :=
  if m.pending.length < m.capacity then
    { m with pending := m.pending ++ [(data, m.kept (CSerial.breakError error))] }
  else
    { m with
      pending := m.pending.dropLast ++
        [(data, m.kept (CSerial.breakError (error ||| LSR_OVERRUN_ERROR_MASK) ||| m.newest))] }

def read : Mailbox :=
  if m.divisor then m
  else
    { m with
      pending := m.pending.tail
      delivered := m.delivered ++ (m.pending.head?.map Prod.fst).toList }

/-- Switching the FIFO on or off and clearing it both lose what is there. -/
def control (data : Byte) : Mailbox :=
  let active := decide (data &&& FCR_ACTIVATE ≠ 0)
  { m with
    active := active
    pending := if m.active ≠ active ∨ data &&& FCR_CLEAR_RX ≠ 0 then [] else m.pending }

def step : Access → Mailbox
  | .receive _ data error => m.receive data error
  | .readRHR => m.read
  | .writeFCR data => m.control data
  | .writeLCR data => { m with divisor := decide (data &&& LCR_DIVISOR_Enable_MASK ≠ 0) }
  | _ => m

def run (m : Mailbox) (accesses : List Access) : Mailbox := accesses.foldl step m

/-- After power on. -/
def empty : Mailbox := ⟨false, false, [], []⟩

end Mailbox

/-! ## The registers of the receiving side -/

/-- The part of the port that the mailbox is about. -/
structure Receiver where
  rxfifo : MyFifo
  errorfifo : MyFifo
  errors_in_fifo : BitVec 32
  FCR : Byte
  LCR : Byte

namespace Receiver

variable (r : Receiver)

/-- What happens to the errors when a byte with the error has come. -/
def record (error : Byte) : Receiver :=
  if r.FCR &&& FCR_ACTIVATE = 0 then r
  else if error = 0 then { r with errorfifo := (r.errorfifo.addb 0#8).1 }
  else if ¬ r.errorfifo.isFull then
    { r with
      errors_in_fifo := r.errors_in_fifo + 1
      errorfifo := (r.errorfifo.addb error).1 }
  else
    { r with
      errors_in_fifo :=
        if r.errorfifo.getTop = 0 then r.errors_in_fifo + 1 else r.errors_in_fifo
      errorfifo := (r.errorfifo.addb (error ||| r.errorfifo.getTop)).1 }

/-- What happens to the errors when a byte is read. -/
def next : Receiver :=
  if r.FCR &&& FCR_ACTIVATE = 0 then r
  else
    { r with
      errorfifo := r.errorfifo.getb.1
      errors_in_fifo :=
        if r.errorfifo.getb.2 ≠ 0 then r.errors_in_fifo - 1 else r.errors_in_fifo }

/-- What a write to FCR does. -/
def control (data : Byte) : Receiver :=
  let r :=
    if r.FCR &&& FCR_ACTIVATE = 0 ∧ data &&& FCR_ACTIVATE ≠ 0 then
      { r with
        errors_in_fifo := 0
        errorfifo := r.errorfifo.setSize fifosize
        rxfifo := r.rxfifo.setSize fifosize }
    else if r.FCR &&& FCR_ACTIVATE ≠ 0 ∧ data &&& FCR_ACTIVATE = 0 then
      { r with
        errors_in_fifo := 0
        errorfifo := r.errorfifo.setSize 1
        rxfifo := r.rxfifo.setSize 1 }
    else r
  let r := { r with FCR := data &&& 0xCF#8 }
  if data &&& FCR_CLEAR_RX ≠ 0 then
    { r with errors_in_fifo := 0, errorfifo := r.errorfifo.clear, rxfifo := r.rxfifo.clear }
  else r

end Receiver

namespace CSerial

variable (s : CSerial) {IF : Bool} {data error : Byte}

def receiver : Receiver := ⟨s.rxfifo, s.errorfifo, s.errors_in_fifo, s.FCR, s.LCR⟩

@[simp] theorem receiver_rise (priority : Byte) : (s.rise priority).receiver = s.receiver := rfl

@[simp] theorem receiver_clear (priority : Byte) : (s.clear priority).receiver = s.receiver := rfl

@[simp] theorem receiver_setEvent (type : Event) : (s.setEvent type).receiver = s.receiver := rfl

@[simp] theorem receiver_removeEvent (type : Event) :
    (s.removeEvent type).receiver = s.receiver := rfl

@[simp] theorem receiver_countErrors : (s.countErrors IF error).receiver = s.receiver := by
  unfold countErrors
  dsimp only
  split <;> rfl

@[simp] theorem receiver_reportError : (s.reportError error).receiver = s.receiver := rfl

theorem receiver_addData : (s.addData data).receiver =
    { s.receiver with rxfifo := (s.rxfifo.addb data).1 } := by
  unfold addData
  dsimp only
  split <;> rfl

theorem receiver_addError (hactive : s.fifoActive) (h : error ≠ 0) :
    (s.addError error).receiver = s.receiver.record error := by
  have hkept : ¬ s.receiver.FCR &&& FCR_ACTIVATE = 0 := hactive
  rw [addError, Receiver.record, if_neg hkept, if_neg h]
  by_cases hfull : s.errorfifo.isFull
  · have hfull' : ¬¬ s.receiver.errorfifo.isFull := not_not.2 hfull
    rw [if_neg hfull', if_neg (not_not.2 hfull)]
    rfl
  · have hroom : ¬ s.receiver.errorfifo.isFull := hfull
    rw [if_pos hroom, if_pos hfull]
    rfl

theorem receiver_recordError (h : error ≠ 0) :
    (s.recordError error).receiver = s.receiver.record error := by
  by_cases hactive : s.fifoActive
  · rw [recordError, if_pos hactive]
    dsimp only
    rw [apply_ite receiver, receiver_reportError, ite_self, receiver_addError _ hactive h]
  · have hkept : s.receiver.FCR &&& FCR_ACTIVATE = 0 := not_not.1 hactive
    rw [recordError, Receiver.record, if_neg hactive, if_pos hkept]
    rfl

theorem receiver_recordNone :
    (if s.fifoActive then { s with errorfifo := (s.errorfifo.addb 0).1 } else s).receiver =
      s.receiver.record 0 := by
  by_cases hactive : s.fifoActive
  · have hkept : ¬ s.receiver.FCR &&& FCR_ACTIVATE = 0 := hactive
    rw [Receiver.record, if_pos hactive, if_neg hkept, if_pos rfl]
    rfl
  · have hkept : s.receiver.FCR &&& FCR_ACTIVATE = 0 := not_not.1 hactive
    rw [Receiver.record, if_neg hactive, if_pos hkept]

theorem breakError_eq_zero_iff : breakError error = 0 ↔ error = 0 := by
  unfold breakError
  split
  · rename_i hbreak
    constructor
    · intro h
      exact (BitVec.or_eq_zero_iff.1 h).1
    · rintro rfl
      exact absurd rfl hbreak
  · exact Iff.rfl

/-- The error of a byte, with the overrun. -/
def receivedError (data error : Byte) : Byte :=
  breakError (if (s.rxfifo.addb data).2 then error else error ||| LSR_OVERRUN_ERROR_MASK)

theorem receiver_receiveByteEx : (s.receiveByteEx IF data error).receiver =
    { s.receiver with rxfifo := (s.rxfifo.addb data).1 }.record (s.receivedError data error) := by
  unfold receiveByteEx receivedError
  dsimp only
  generalize (if (s.rxfifo.addb data).2 then error else error ||| LSR_OVERRUN_ERROR_MASK) = e
  by_cases herror : e = 0
  · subst herror
    rw [if_neg (not_not.2 rfl), breakError_eq_zero_iff.2 rfl, receiver_recordNone,
      receiver_addData]
  · rw [if_pos herror, receiver_countErrors,
      receiver_recordError _ (breakError_eq_zero_iff.not.2 herror), receiver_addData]

theorem receiver_nextError : s.nextError.receiver = s.receiver.next ∨ ¬ s.fifoActive := by
  by_cases hactive : s.fifoActive
  · have hkept : ¬ s.receiver.FCR &&& FCR_ACTIVATE = 0 := hactive
    left
    unfold nextError Receiver.next
    rw [if_neg hkept]
    dsimp only
    split <;> rfl
  · exact .inr hactive

theorem receiver_Read_RHR (h : ¬ s.divisorEnabled) :
    s.Read_RHR.1.receiver = { s.receiver with rxfifo := s.rxfifo.getb.1 }.next := by
  have hnext : ∀ t : CSerial,
      (if t.fifoActive then t.nextError else t).receiver = t.receiver.next := by
    intro t
    split
    · rename_i hactive
      exact (receiver_nextError t).resolve_right (not_not.2 hactive)
    · rename_i hactive
      have hkept : t.receiver.FCR &&& FCR_ACTIVATE = 0 := not_not.1 hactive
      rw [Receiver.next, if_pos hkept]
  unfold Read_RHR
  rw [if_neg h]
  dsimp only
  rw [apply_ite receiver, receiver_setEvent, ite_self, receiver_removeEvent, apply_ite receiver,
    receiver_clear, ite_self, receiver_clear]
  exact hnext _

theorem Read_RHR_snd (h : ¬ s.divisorEnabled) : s.Read_RHR.2 = s.rxfifo.probeByte := by
  unfold Read_RHR
  rw [if_neg h]
  exact MyFifo.getb_snd

theorem receiver_Write_IER : (s.Write_IER data).receiver = s.receiver := by
  unfold Write_IER
  split <;> rfl

theorem receiver_switchFifos : (s.switchFifos data).receiver =
    if s.receiver.FCR &&& FCR_ACTIVATE = 0 ∧ data &&& FCR_ACTIVATE ≠ 0 then
      { s.receiver with
        errors_in_fifo := 0
        errorfifo := s.errorfifo.setSize fifosize
        rxfifo := s.rxfifo.setSize fifosize }
    else if s.receiver.FCR &&& FCR_ACTIVATE ≠ 0 ∧ data &&& FCR_ACTIVATE = 0 then
      { s.receiver with
        errors_in_fifo := 0
        errorfifo := s.errorfifo.setSize 1
        rxfifo := s.rxfifo.setSize 1 }
    else s.receiver := by
  unfold switchFifos
  rw [apply_ite receiver, apply_ite receiver]
  rfl

theorem receiver_clearRx : s.clearRx.receiver =
    if s.FCR &&& FCR_CLEAR_RX ≠ 0 then
      { s.receiver with
        errors_in_fifo := 0
        errorfifo := s.errorfifo.clear
        rxfifo := s.rxfifo.clear }
    else s.receiver := by
  unfold clearRx
  rw [apply_ite receiver]
  rfl

theorem receiver_clearTx : s.clearTx.receiver = s.receiver := by
  unfold clearTx
  split <;> rfl

theorem receiver_setThreshold : s.setThreshold.receiver = s.receiver := by
  unfold setThreshold
  split <;> rfl

theorem receiver_Write_FCR : (s.Write_FCR data).receiver = s.receiver.control data := by
  have hclear : data &&& 0xCF#8 &&& FCR_CLEAR_RX = data &&& FCR_CLEAR_RX := by
    rw [BitVec.and_assoc]
    rfl
  have hswitch : (s.switchFifos data).receiver = _ := receiver_switchFifos s
  unfold Write_FCR Receiver.control
  rw [receiver_setThreshold, receiver_clearTx, receiver_clearRx]
  dsimp only
  rw [hclear]
  change (if _ then { (s.switchFifos data).receiver with
      errors_in_fifo := 0
      errorfifo := (s.switchFifos data).receiver.errorfifo.clear
      rxfifo := (s.switchFifos data).receiver.rxfifo.clear
      FCR := data &&& 0xCF#8 }
    else { (s.switchFifos data).receiver with FCR := data &&& 0xCF#8 }) = _
  rw [hswitch]
  rfl

end CSerial

/-! ## The errors of the FIFO -/

namespace Receiver

variable {r : Receiver} {data error : Byte}

abbrev active (r : Receiver) : Prop := r.FCR &&& FCR_ACTIVATE ≠ 0

/-- The counter counts the entries with an error. -/
def Counted (r : Receiver) : Prop :=
  r.active → r.errors_in_fifo.toNat = r.errorfifo.contents.countP (· ≠ 0)

theorem countP_singleton_ne_zero (e : Byte) : [e].countP (· ≠ 0) = if e = 0 then 0 else 1 := by
  by_cases h : e = 0 <;> simp [h]

theorem record_of_inactive (h : ¬ r.active) : r.record error = r := if_pos (not_not.1 h)

theorem rxfifo_record : (r.record error).rxfifo = r.rxfifo := by
  unfold record
  split_ifs <;> rfl

theorem FCR_record : (r.record error).FCR = r.FCR := by
  unfold record
  split_ifs <;> rfl

theorem LCR_record : (r.record error).LCR = r.LCR := by
  unfold record
  split_ifs <;> rfl

theorem size_record : (r.record error).errorfifo.size = r.errorfifo.size := by
  unfold record
  split_ifs <;> first | rfl | exact MyFifo.size_addb

theorem contents_record (h : r.active) (hroom : ¬ r.errorfifo.isFull) :
    (r.record error).errorfifo.contents = r.errorfifo.contents ++ [error] := by
  have hlt : r.errorfifo.used < r.errorfifo.size :=
    lt_of_le_of_ne r.errorfifo.used_le fun heq => hroom (MyFifo.isFull_iff.2 heq)
  unfold record
  rw [if_neg h, if_pos hroom]
  split
  · rename_i hzero
    rw [hzero]
    exact MyFifo.contents_addb hlt
  · exact MyFifo.contents_addb hlt

theorem contents_record_full (h : r.active) (hfull : r.errorfifo.isFull) (herror : error ≠ 0) :
    (r.record error).errorfifo.contents =
      r.errorfifo.contents.dropLast ++ [error ||| r.errorfifo.getTop] := by
  unfold record
  rw [if_neg h, if_neg herror, if_neg (not_not.2 hfull)]
  exact MyFifo.contents_addb_full (MyFifo.isFull_iff.1 hfull)

/-- The counter stays right when a byte comes; a byte that comes too late has an error. -/
theorem Counted.record (hc : r.Counted) (hsize : r.errorfifo.size ≤ fifosize)
    (herror : r.errorfifo.isFull → error ≠ 0) : (r.record error).Counted := by
  intro hactive
  rw [Receiver.active, FCR_record] at hactive
  have hcount := hc hactive
  have hle : r.errorfifo.contents.countP (· ≠ 0) ≤ 16 :=
    List.countP_le_length.trans (MyFifo.length_contents.le.trans
      (r.errorfifo.used_le.trans hsize))
  have hsucc : (r.errors_in_fifo + 1).toNat = r.errors_in_fifo.toNat + 1 := by
    rw [BitVec.toNat_add]
    exact Nat.mod_eq_of_lt (show r.errors_in_fifo.toNat + 1 < 2 ^ 32 by omega)
  by_cases hfull : r.errorfifo.isFull
  · have hne := herror hfull
    have htop := MyFifo.contents_eq_append_top hfull
    have hor : error ||| r.errorfifo.getTop ≠ 0 := fun h => hne (BitVec.or_eq_zero_iff.1 h).1
    rw [contents_record_full hactive hfull hne, List.countP_append, countP_singleton_ne_zero,
      if_neg hor]
    rw [htop, List.countP_append, countP_singleton_ne_zero] at hcount
    unfold Receiver.record
    rw [if_neg hactive, if_neg hne, if_neg (not_not.2 hfull)]
    dsimp only
    split at hcount
    · rw [if_pos ‹_›, hsucc, hcount]
    · rw [if_neg ‹_›, hcount]
  · rw [contents_record hactive hfull, List.countP_append, countP_singleton_ne_zero, ← hcount]
    unfold Receiver.record
    rw [if_neg hactive]
    split
    · rfl
    · exact hsucc

theorem next_of_inactive (h : ¬ r.active) : r.next = r := if_pos (not_not.1 h)

theorem rxfifo_next : r.next.rxfifo = r.rxfifo := by
  unfold next
  split <;> rfl

theorem FCR_next : r.next.FCR = r.FCR := by
  unfold next
  split <;> rfl

theorem LCR_next : r.next.LCR = r.LCR := by
  unfold next
  split <;> rfl

theorem size_next : r.next.errorfifo.size = r.errorfifo.size := by
  unfold next
  split
  · rfl
  · exact MyFifo.size_getb

theorem contents_next (h : r.active) : r.next.errorfifo.contents = r.errorfifo.contents.tail := by
  unfold next
  rw [if_neg h]
  exact MyFifo.contents_getb

/-- The counter stays right when a byte is read, unless there is none and the error of the last
one is found again. -/
theorem counted_next_iff (hc : r.Counted) (h : r.active) :
    r.next.Counted ↔ ¬ (r.errorfifo.isEmpty ∧ r.errorfifo.probeByte ≠ 0) := by
  have hcount := hc h
  have hactive : r.next.active := by rwa [active, FCR_next]
  have hnext : r.next.Counted ↔
      r.next.errors_in_fifo.toNat = r.errorfifo.contents.tail.countP (· ≠ 0) := by
    rw [Counted, forall_prop_of_true hactive, contents_next h]
  have herrors : r.next.errors_in_fifo =
      if r.errorfifo.probeByte ≠ 0 then r.errors_in_fifo - 1 else r.errors_in_fifo := by
    unfold next
    rw [if_neg h, MyFifo.getb_snd]
  rw [hnext, herrors]
  by_cases hempty : r.errorfifo.isEmpty
  · rw [MyFifo.contents_eq_nil_iff.2 hempty, List.countP_nil] at hcount
    have hzero : r.errors_in_fifo = 0 := BitVec.eq_of_toNat_eq hcount
    rw [MyFifo.contents_eq_nil_iff.2 hempty, List.tail_nil, List.countP_nil, hzero]
    split
    · rename_i hstale
      exact iff_of_false (by decide) (not_not.2 ⟨hempty, hstale⟩)
    · rename_i hstale
      exact iff_of_true rfl fun h => hstale h.2
  · refine iff_of_true ?_ fun h => hempty h.1
    rw [MyFifo.contents_eq_cons hempty, ← List.singleton_append, List.countP_append,
      countP_singleton_ne_zero] at hcount
    split
    · rename_i hprobe
      rw [if_neg hprobe] at hcount
      have hone : (1#32).toNat ≤ r.errors_in_fifo.toNat := by
        rw [hcount]
        exact Nat.le_add_right 1 _
      have hsub := BitVec.toNat_sub_of_le (BitVec.le_def.2 hone)
      refine hsub.trans ?_
      rw [hcount]
      exact Nat.add_sub_cancel_left 1 _
    · rename_i hprobe
      rw [if_pos (not_not.1 hprobe), Nat.zero_add] at hcount
      exact hcount

end Receiver

/-! ## The port as a mailbox -/

/-- The FIFOs hold what waits in the mailbox. -/
structure Mirrors (r : Receiver) (m : Mailbox) : Prop where
  active : m.active = true ↔ r.active
  divisor : m.divisor = true ↔ r.LCR &&& LCR_DIVISOR_Enable_MASK ≠ 0
  size : r.rxfifo.size = m.capacity
  bytes : r.rxfifo.contents = m.pending.map Prod.fst
  error_size : r.active → r.errorfifo.size = fifosize
  errors : r.active → r.errorfifo.contents = m.pending.map Prod.snd

namespace Mirrors

variable {r : Receiver} {s : CSerial} {m : Mailbox} {IF : Bool} {data error : Byte}

theorem used_eq (h : Mirrors r m) : r.rxfifo.used = m.pending.length := by
  rw [← MyFifo.length_contents, h.bytes, List.length_map]

theorem error_used_eq (h : Mirrors r m) (hactive : r.active) :
    r.errorfifo.used = m.pending.length := by
  rw [← MyFifo.length_contents, h.errors hactive, List.length_map]

theorem capacity_eq (h : Mirrors r m) (hactive : r.active) : m.capacity = fifosize :=
  if_pos (h.active.2 hactive)

/-- The error FIFO is full when the other one is. -/
theorem isFull_iff (h : Mirrors r m) (hactive : r.active) :
    r.errorfifo.isFull ↔ r.rxfifo.used = r.rxfifo.size := by
  rw [MyFifo.isFull_iff, h.used_eq, h.size, h.error_used_eq hactive, h.error_size hactive,
    h.capacity_eq hactive]

theorem newest_eq (h : Mirrors r m) (hactive : r.active) (hfull : r.errorfifo.isFull) :
    m.newest = r.errorfifo.getTop := by
  have htop := MyFifo.contents_eq_append_top hfull
  rw [Mailbox.newest, ← List.getLast?_map, ← h.errors hactive, htop, List.getLast?_concat]
  rfl

theorem kept_eq (h : Mirrors r m) (hactive : r.active) (e : Byte) : m.kept e = e :=
  if_pos (h.active.2 hactive)

theorem receivedError_eq (h : Mirrors s.receiver m) : s.receivedError data error =
    CSerial.breakError (if m.pending.length < m.capacity then error
      else error ||| LSR_OVERRUN_ERROR_MASK) := by
  have hused : s.rxfifo.used = m.pending.length := h.used_eq
  have hsize : s.rxfifo.size = m.capacity := h.size
  rw [CSerial.receivedError, MyFifo.addb_snd, hused, hsize]
  by_cases hlt : m.pending.length < m.capacity
  · rw [if_pos hlt, if_pos (decide_eq_true hlt)]
  · rw [if_neg hlt, if_neg (by rwa [decide_eq_true_eq])]

theorem overrun_ne_zero (error : Byte) :
    CSerial.breakError (error ||| LSR_OVERRUN_ERROR_MASK) ≠ 0 := by
  rw [Ne, CSerial.breakError_eq_zero_iff]
  intro h
  exact absurd (BitVec.or_eq_zero_iff.1 h).2 (by decide)

theorem receive (h : Mirrors s.receiver m) :
    Mirrors (s.receiveByteEx IF data error).receiver (m.receive data error) := by
  have hused : s.rxfifo.used = m.pending.length := h.used_eq
  have hsize : s.rxfifo.size = m.capacity := h.size
  have hle : s.rxfifo.used ≤ s.rxfifo.size := s.rxfifo.used_le
  have hbytes : s.rxfifo.contents = m.pending.map Prod.fst := h.bytes
  have hcapacity : (m.receive data error).capacity = m.capacity := by
    unfold Mailbox.receive
    split <;> rfl
  have hactive : (m.receive data error).active = m.active := by
    unfold Mailbox.receive
    split <;> rfl
  have hdivisor : (m.receive data error).divisor = m.divisor := by
    unfold Mailbox.receive
    split <;> rfl
  rw [CSerial.receiver_receiveByteEx]
  refine ⟨?_, ?_, ?_, ?_, ?_, ?_⟩
  · rw [hactive, Receiver.active, Receiver.FCR_record]
    exact h.active
  · rw [hdivisor, Receiver.LCR_record]
    exact h.divisor
  · rw [hcapacity, Receiver.rxfifo_record, ← hsize]
    exact MyFifo.size_addb
  · rw [Receiver.rxfifo_record]
    unfold Mailbox.receive
    split
    · rw [List.map_append, ← hbytes]
      exact MyFifo.contents_addb (by omega)
    · rw [List.map_append, List.map_dropLast, ← hbytes]
      exact MyFifo.contents_addb_full (by omega)
  · intro hkept
    rw [Receiver.active, Receiver.FCR_record] at hkept
    rw [Receiver.size_record]
    exact h.error_size hkept
  · intro hkept
    rw [Receiver.active, Receiver.FCR_record] at hkept
    have herrors : s.errorfifo.contents = m.pending.map Prod.snd := h.errors hkept
    have hfull : s.errorfifo.isFull ↔ s.rxfifo.used = s.rxfifo.size := h.isFull_iff hkept
    rw [h.receivedError_eq]
    unfold Mailbox.receive
    split
    · rw [List.map_append, List.map_singleton, h.kept_eq hkept, ← herrors]
      exact Receiver.contents_record hkept fun hf => absurd (hfull.1 hf) (by omega)
    · have hfull' : s.errorfifo.isFull := hfull.2 (by omega)
      rw [List.map_append, List.map_singleton, h.kept_eq hkept, List.map_dropLast, ← herrors,
        h.newest_eq hkept hfull']
      exact Receiver.contents_record_full hkept hfull' (overrun_ne_zero error)

theorem read (h : Mirrors s.receiver m) : Mirrors s.Read_RHR.1.receiver m.read ∧
    m.read.delivered = m.delivered ++ s.found .readRHR := by
  have hbytes : s.rxfifo.contents = m.pending.map Prod.fst := h.bytes
  by_cases hdivisor : s.divisorEnabled
  · have hmode : m.divisor = true := h.divisor.2 hdivisor
    have hread : s.Read_RHR.1 = s := by
      unfold CSerial.Read_RHR
      rw [if_pos hdivisor]
    rw [hread, Mailbox.read, if_pos hmode, CSerial.found, if_neg fun hfound => hfound.1 hdivisor]
    exact ⟨h, (List.append_nil _).symm⟩
  · have hmode : ¬ m.divisor = true := fun hm => hdivisor (h.divisor.1 hm)
    rw [CSerial.receiver_Read_RHR _ hdivisor, Mailbox.read, if_neg hmode]
    refine ⟨⟨?_, ?_, ?_, ?_, ?_, ?_⟩, ?_⟩
    · rw [Receiver.active, Receiver.FCR_next]
      exact h.active
    · rw [Receiver.LCR_next]
      exact h.divisor
    · rw [Receiver.rxfifo_next]
      exact MyFifo.size_getb.trans h.size
    · rw [Receiver.rxfifo_next, List.map_tail, ← hbytes]
      exact MyFifo.contents_getb
    · intro hkept
      rw [Receiver.active, Receiver.FCR_next] at hkept
      rw [Receiver.size_next]
      exact h.error_size hkept
    · intro hkept
      rw [Receiver.active, Receiver.FCR_next] at hkept
      rw [List.map_tail, ← h.errors hkept]
      exact Receiver.contents_next hkept
    · rw [← List.head?_map, ← hbytes, CSerial.found]
      by_cases hempty : s.rxfifo.isEmpty
      · rw [if_neg fun hfound => hfound.2 hempty, MyFifo.contents_eq_nil_iff.2 hempty]
        rfl
      · rw [if_pos ⟨hdivisor, hempty⟩, MyFifo.contents_eq_cons hempty,
          CSerial.Read_RHR_snd _ hdivisor]
        rfl

theorem control_of_kept (hkept : r.active ↔ data &&& FCR_ACTIVATE ≠ 0) : r.control data =
    if data &&& FCR_CLEAR_RX ≠ 0 then
      { r with
        errors_in_fifo := 0
        errorfifo := r.errorfifo.clear
        rxfifo := r.rxfifo.clear
        FCR := data &&& 0xCF#8 }
    else { r with FCR := data &&& 0xCF#8 } := by
  have hon : ¬ (r.FCR &&& FCR_ACTIVATE = 0 ∧ data &&& FCR_ACTIVATE ≠ 0) :=
    fun h => hkept.2 h.2 h.1
  have hoff : ¬ (r.FCR &&& FCR_ACTIVATE ≠ 0 ∧ data &&& FCR_ACTIVATE = 0) :=
    fun h => hkept.1 h.1 h.2
  unfold Receiver.control
  rw [if_neg hon, if_neg hoff]

theorem FCR_control : (r.control data).FCR = data &&& 0xCF#8 := by
  unfold Receiver.control
  dsimp only
  split <;> rfl

theorem LCR_control : (r.control data).LCR = r.LCR := by
  unfold Receiver.control
  dsimp only
  split_ifs <;> rfl

theorem active_control : (r.control data).active ↔ data &&& FCR_ACTIVATE ≠ 0 := by
  have hmask : (0xCF#8 : Byte) &&& FCR_ACTIVATE = FCR_ACTIVATE := rfl
  rw [Receiver.active, FCR_control, BitVec.and_assoc, hmask]

/-- Switching on or off empties all, with or without the bit that clears. -/
theorem control_of_switched (hswitched : ¬ (r.active ↔ data &&& FCR_ACTIVATE ≠ 0)) :
    (r.control data).rxfifo.contents = [] ∧ (r.control data).errorfifo.contents = [] ∧
    (r.control data).errors_in_fifo = 0 ∧
    (r.control data).rxfifo.size = (if data &&& FCR_ACTIVATE ≠ 0 then fifosize else 1) ∧
    (r.control data).errorfifo.size = (if data &&& FCR_ACTIVATE ≠ 0 then fifosize else 1) := by
  unfold Receiver.control
  by_cases hdata : data &&& FCR_ACTIVATE ≠ 0
  · have hoff : r.FCR &&& FCR_ACTIVATE = 0 := by
      by_contra hactive
      exact hswitched (iff_of_true hactive hdata)
    have hswitch : r.FCR &&& FCR_ACTIVATE = 0 ∧ data &&& FCR_ACTIVATE ≠ 0 := ⟨hoff, hdata⟩
    rw [if_pos hswitch, if_pos hdata]
    dsimp only
    split
    · exact ⟨MyFifo.contents_clear, MyFifo.contents_clear, rfl, rfl, rfl⟩
    · exact ⟨MyFifo.contents_setSize, MyFifo.contents_setSize, rfl, rfl, rfl⟩
  · have hon : r.FCR &&& FCR_ACTIVATE ≠ 0 := by
      intro hactive
      exact hswitched (iff_of_false (not_not.2 hactive) hdata)
    have hswitch : r.FCR &&& FCR_ACTIVATE ≠ 0 ∧ data &&& FCR_ACTIVATE = 0 :=
      ⟨hon, not_not.1 hdata⟩
    have hno : ¬ (r.FCR &&& FCR_ACTIVATE = 0 ∧ data &&& FCR_ACTIVATE ≠ 0) := fun h => hdata h.2
    rw [if_neg hno, if_pos hswitch, if_neg hdata]
    dsimp only
    split
    · exact ⟨MyFifo.contents_clear, MyFifo.contents_clear, rfl, rfl, rfl⟩
    · exact ⟨MyFifo.contents_setSize, MyFifo.contents_setSize, rfl, rfl, rfl⟩

theorem control (h : Mirrors r m) : Mirrors (r.control data) (m.control data) := by
  have hactive : (m.control data).active = true ↔ (r.control data).active := by
    rw [active_control]
    exact decide_eq_true_iff
  have hdivisor : (m.control data).divisor = true ↔
      (r.control data).LCR &&& LCR_DIVISOR_Enable_MASK ≠ 0 := by
    rw [LCR_control]
    exact h.divisor
  by_cases hkept : r.active ↔ data &&& FCR_ACTIVATE ≠ 0
  · have hmode : m.active = decide (data &&& FCR_ACTIVATE ≠ 0) := by
      rw [Bool.eq_iff_iff, h.active, hkept, decide_eq_true_iff]
    have hcapacity : (m.control data).capacity = m.capacity := by
      rw [Mailbox.capacity, Mailbox.capacity, hmode]
      rfl
    have hactive' : (r.control data).active ↔ _ := active_control
    have hcontrol := control_of_kept hkept
    by_cases hclear : data &&& FCR_CLEAR_RX ≠ 0
    · have hpending : (m.control data).pending = [] := if_pos (.inr hclear)
      rw [if_pos hclear] at hcontrol
      refine ⟨hactive, hdivisor, ?_, ?_, fun hon => ?_, fun hon => ?_⟩
      · rw [hcapacity, hcontrol]
        exact h.size
      · rw [hpending, hcontrol]
        exact MyFifo.contents_clear
      · rw [hcontrol]
        exact h.error_size (hkept.2 (hactive'.1 hon))
      · rw [hpending, hcontrol]
        exact MyFifo.contents_clear
    · have hpending : (m.control data).pending = m.pending :=
        if_neg fun hor => hor.elim (fun hne => hne hmode) hclear
      rw [if_neg hclear] at hcontrol
      refine ⟨hactive, hdivisor, ?_, ?_, fun hon => ?_, fun hon => ?_⟩
      · rw [hcapacity, hcontrol]
        exact h.size
      · rw [hpending, hcontrol]
        exact h.bytes
      · rw [hcontrol]
        exact h.error_size (hkept.2 (hactive'.1 hon))
      · rw [hpending, hcontrol]
        exact h.errors (hkept.2 (hactive'.1 hon))
  · have hmode : m.active ≠ decide (data &&& FCR_ACTIVATE ≠ 0) := by
      intro heq
      rw [Bool.eq_iff_iff, h.active, decide_eq_true_iff] at heq
      exact hkept heq
    have hpending : (m.control data).pending = [] := if_pos (.inl hmode)
    have hcapacity : (m.control data).capacity =
        if data &&& FCR_ACTIVATE ≠ 0 then fifosize else 1 := by
      simp only [Mailbox.capacity, Mailbox.control, decide_eq_true_eq]
    obtain ⟨hbytes, herrors, -, hsize, herror_size⟩ := control_of_switched hkept
    refine ⟨hactive, hdivisor, ?_, ?_, fun hon => ?_, fun hon => ?_⟩
    · rw [hsize, hcapacity]
    · rw [hbytes, hpending]
      rfl
    · rw [herror_size, if_pos (active_control.1 hon)]
    · rw [herrors, hpending]
      rfl

/-- **One access**, and the byte that it finds. -/
theorem step (h : Mirrors s.receiver m) (access : Access) :
    Mirrors (s.step access).receiver (m.step access) ∧
    (m.step access).delivered = m.delivered ++ s.found access := by
  cases access with
  | receive IF data error =>
    refine ⟨h.receive, ?_⟩
    refine Eq.trans ?_ (List.append_nil _).symm
    unfold Mailbox.step Mailbox.receive
    dsimp only
    split <;> rfl
  | readRHR => exact h.read
  | readLSR => exact ⟨h, (List.append_nil _).symm⟩
  | writeFCR data =>
    refine ⟨?_, (List.append_nil _).symm⟩
    have hcontrol : Mirrors (s.receiver.control data) _ := h.control
    rwa [← CSerial.receiver_Write_FCR] at hcontrol
  | writeIER data =>
    refine ⟨?_, (List.append_nil _).symm⟩
    unfold CSerial.step Mailbox.step
    rwa [CSerial.receiver_Write_IER]
  | writeLCR data =>
    refine ⟨⟨h.active, decide_eq_true_iff, h.size, h.bytes, h.error_size, h.errors⟩,
      (List.append_nil _).symm⟩
  | timeout => exact ⟨h, (List.append_nil _).symm⟩

/-- **A whole run.** -/
theorem run (h : Mirrors s.receiver m) (accesses : List Access) :
    Mirrors (s.run accesses).1.receiver (m.run accesses) ∧
    (m.run accesses).delivered = m.delivered ++ (s.run accesses).2 := by
  induction accesses generalizing s m with
  | nil => exact ⟨h, (List.append_nil _).symm⟩
  | cons access rest ih =>
    obtain ⟨hstep, hdelivered⟩ := h.step access
    obtain ⟨hrun, hrest⟩ := ih hstep
    refine ⟨hrun, ?_⟩
    rw [hdelivered, List.append_assoc] at hrest
    exact hrest

end Mirrors

/-! ## The counter -/

/-- The FIFOs and the counter agree, and LSR reports the errors that wait. -/
structure Accounts (s : CSerial) (m : Mailbox) : Prop where
  usage : s.rxfifo.getUsage = s.errorfifo.getUsage
  count : s.errors_in_fifo.toNat = s.errorfifo.contents.countP (· ≠ 0)
  errorBit : s.Read_LSR.2 &&& FIFO_ERROR ≠ 0 ↔ ∃ entry ∈ m.pending, entry.2 ≠ 0

namespace CSerial

variable {s : CSerial} {m : Mailbox} {accesses done : List Access} {next : Access}

/-- RHR is read with the FIFO on and nothing in it, and the byte taken out of it last, or what was
in its cell when the FIFO was switched on, had an error. -/
def StaleRead (s : CSerial) (access : Access) : Prop :=
  access = .readRHR ∧ ¬ s.divisorEnabled ∧ s.fifoActive ∧ s.rxfifo.isEmpty ∧
    s.errorfifo.probeByte ≠ 0

instance (s : CSerial) (access : Access) : Decidable (s.StaleRead access) :=
  inferInstanceAs (Decidable (_ ∧ _))

theorem run_append (done rest : List Access) :
    (s.run (done ++ rest)).1 = ((s.run done).1.run rest).1 := by
  induction done generalizing s with
  | nil => rfl
  | cons access done ih => exact ih

/-- The bit that LSR has for the errors of the FIFO. -/
theorem Read_LSR_errorBit : s.Read_LSR.2 &&& FIFO_ERROR ≠ 0 ↔ s.errors_in_fifo ≠ 0 := by
  have hbit : FIFO_ERROR = BitRegister.bit 8 7 := rfl
  have hmask : (LSR_ERROR_MASK ||| LSR_TX_EMPTY_MASK).getLsbD 7 = false := rfl
  have hholding : LSR_TX_HOLDING_EMPTY_MASK.getLsbD 7 = false := rfl
  have hready : LSR_RX_DATA_READY_MASK.getLsbD 7 = false := rfl
  have hset : FIFO_ERROR.getLsbD 7 = true := rfl
  rw [hbit, BitRegister.and_bit_ne_zero]
  unfold Read_LSR
  dsimp only
  by_cases herrors : s.errors_in_fifo ≠ 0
  · rw [if_pos herrors, BitVec.getLsbD_or, hset, Bool.or_true]
    exact iff_of_true rfl herrors
  · rw [if_neg herrors]
    refine iff_of_false ?_ herrors
    split <;> split <;>
      simp only [BitVec.getLsbD_or, BitVec.getLsbD_and, hmask, hholding, hready, Bool.and_false,
        Bool.or_false, Bool.false_eq_true, not_false_eq_true]

/-- The counter is right after an access if it was before, except after a stale read. -/
theorem counted_step_iff (h : Mirrors s.receiver m) (hc : s.receiver.Counted) (access : Access) :
    (s.step access).receiver.Counted ↔ ¬ s.StaleRead access := by
  cases access with
  | receive IF data error =>
    refine iff_of_true ?_ fun hstale => Access.noConfusion hstale.1
    change (s.receiveByteEx IF data error).receiver.Counted
    rw [receiver_receiveByteEx]
    by_cases hactive : s.receiver.active
    · refine Receiver.Counted.record hc (h.error_size hactive).le fun hfull => ?_
      have hused : s.receiver.rxfifo.used = s.receiver.rxfifo.size :=
        (h.isFull_iff hactive).1 hfull
      rw [h.used_eq, h.size] at hused
      rw [h.receivedError_eq, if_neg (by omega)]
      exact Mirrors.overrun_ne_zero error
    · refine (congrArg Receiver.Counted (Receiver.record_of_inactive ?_)).mpr ?_
      · exact hactive
      · exact hc
  | readRHR =>
    change s.Read_RHR.1.receiver.Counted ↔ _
    by_cases hdivisor : s.divisorEnabled
    · have hread : s.Read_RHR.1 = s := by
        unfold Read_RHR
        rw [if_pos hdivisor]
      rw [hread]
      exact iff_of_true hc fun hstale => hstale.2.1 hdivisor
    · rw [receiver_Read_RHR _ hdivisor]
      by_cases hactive : s.receiver.active
      · refine Iff.trans (Receiver.counted_next_iff ?_ hactive) (not_congr ?_)
        · exact hc
        have hempty : s.errorfifo.isEmpty ↔ s.rxfifo.isEmpty := by
          have hrx : s.rxfifo.used = m.pending.length := h.used_eq
          have herr : s.errorfifo.used = m.pending.length := h.error_used_eq hactive
          rw [MyFifo.isEmpty, MyFifo.isEmpty, hrx, herr]
        constructor
        · rintro ⟨hnone, hprobe⟩
          exact ⟨rfl, hdivisor, hactive, hempty.1 hnone, hprobe⟩
        · rintro ⟨-, -, -, hnone, hprobe⟩
          exact ⟨hempty.2 hnone, hprobe⟩
      · refine iff_of_true ?_ fun hstale => hactive hstale.2.2.1
        refine (congrArg Receiver.Counted (Receiver.next_of_inactive ?_)).mpr ?_
        · exact hactive
        · exact hc
  | readLSR => exact iff_of_true hc fun hstale => Access.noConfusion hstale.1
  | writeFCR data =>
    refine iff_of_true ?_ fun hstale => Access.noConfusion hstale.1
    change (s.Write_FCR data).receiver.Counted
    rw [receiver_Write_FCR]
    intro hactive
    by_cases hkept : s.receiver.active ↔ data &&& FCR_ACTIVATE ≠ 0
    · have hcount := hc (hkept.2 (Mirrors.active_control.1 hactive))
      rw [Mirrors.control_of_kept hkept]
      split
      · exact (congrArg (List.countP _) MyFifo.contents_clear).symm
      · exact hcount
    · obtain ⟨-, herrors, hzero, -⟩ := Mirrors.control_of_switched hkept
      rw [herrors, hzero]
      rfl
  | writeIER data =>
    refine iff_of_true ?_ fun hstale => Access.noConfusion hstale.1
    change (s.Write_IER data).receiver.Counted
    rw [receiver_Write_IER]
    exact hc
  | writeLCR data => exact iff_of_true hc fun hstale => Access.noConfusion hstale.1
  | timeout => exact iff_of_true hc fun hstale => Access.noConfusion hstale.1

/-- The counter decides whether the port accounts for the mailbox. -/
theorem accounts_iff (h : Mirrors s.receiver m) :
    (s.fifoActive → Accounts s m) ↔ s.receiver.Counted := by
  constructor
  · intro haccounts hactive
    exact (haccounts hactive).count
  · intro hc hactive
    have hcount : s.errors_in_fifo.toNat = s.errorfifo.contents.countP (· ≠ 0) := hc hactive
    have hrx : s.rxfifo.used = m.pending.length := h.used_eq
    have herr : s.errorfifo.used = m.pending.length := h.error_used_eq hactive
    have herrors : s.errorfifo.contents = m.pending.map Prod.snd := h.errors hactive
    refine ⟨hrx.trans herr.symm, hcount, ?_⟩
    rw [Read_LSR_errorBit, Ne, ← BitVec.toNat_inj, hcount, herrors]
    change List.countP _ _ ≠ 0 ↔ _
    rw [← Nat.pos_iff_ne_zero, List.countP_pos_iff]
    simp only [List.mem_map, decide_eq_true_eq, exists_exists_and_eq_and]

theorem mirrors_powerOn : Mirrors powerOn.receiver .empty := by
  refine ⟨by decide, by decide, rfl, rfl, fun h => absurd h (by decide), fun h => ?_⟩
  exact absurd h (by decide)

/-- **The accounting of a whole run**: the bytes that the guest finds are those that came, in
order, and the errors are accounted for as long as none of them was found twice. -/
theorem accounting_iff (accesses : List Access) :
    (∀ done, done <+: accesses →
      (powerOn.run done).2 = (Mailbox.empty.run done).delivered ∧
      ((powerOn.run done).1.fifoActive →
        Accounts (powerOn.run done).1 (Mailbox.empty.run done))) ↔
    ∀ done next, done ++ [next] <+: accesses → ¬ (powerOn.run done).1.StaleRead next := by
  have hmirrors := mirrors_powerOn.run
  constructor
  · intro haccounts done next hdone
    have hbefore := (haccounts done ((List.prefix_append done [next]).trans hdone)).2
    have hafter := (haccounts _ hdone).2
    rw [accounts_iff (hmirrors done).1] at hbefore
    rw [accounts_iff (hmirrors _).1, run_append] at hafter
    exact (counted_step_iff (hmirrors done).1 hbefore next).1 hafter
  · intro hstale done hdone
    refine ⟨(hmirrors done).2.symm, (accounts_iff (hmirrors done).1).2 ?_⟩
    induction done using List.reverseRecOn with
    | nil => exact fun hactive => absurd hactive (by decide)
    | append_singleton done next ih =>
      have hcounted := ih ((List.prefix_append done [next]).trans hdone)
      rw [run_append]
      exact (counted_step_iff (hmirrors done).1 hcounted next).2 (hstale done next hdone)

/-- A byte with a parity error is read, and then RHR once more. -/
def parityTwice : List Access := [.writeFCR 1#8, .receive true 5#8 4#8, .readRHR, .readRHR]

/-- LSR reports an error in a FIFO that is empty, of `2 ^ 32 - 1`. -/
theorem parityTwice_miscounted :
    (powerOn.run parityTwice).1.rxfifo.isEmpty ∧
    (powerOn.run parityTwice).1.errors_in_fifo = 0xffffffff#32 ∧
    (powerOn.run parityTwice).1.Read_LSR.2 &&& FIFO_ERROR ≠ 0 ∧
    ¬ ((powerOn.run parityTwice).1.fifoActive →
      Accounts (powerOn.run parityTwice).1 (Mailbox.empty.run parityTwice)) := by
  have hcount : (powerOn.run parityTwice).1.errors_in_fifo.toNat = 4294967295 := by decide
  have hempty : (powerOn.run parityTwice).1.errorfifo.contents = [] := by decide
  refine ⟨by decide, by decide, by decide, fun h => ?_⟩
  have haccounts := (h (by decide)).count
  rw [hcount, hempty] at haccounts
  exact absurd haccounts (by decide)

end CSerial

end Serial

end AugraDosbox
