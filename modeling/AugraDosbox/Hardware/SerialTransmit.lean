import AugraDosbox.Hardware.Serial
import Mathlib.Data.List.Induction

/-!
# The sending side of a serial port

* `Transfer`, `CSerial.exec` — writes to THR, and the events that are due, in any order;
* `passed`, `coming` — the bytes given to `transmitByte`, or with loopback to `receiveByte`, and
  those that will be when nothing more is written;
* `Stage` — what the port is about: the byte under way and those behind it;
* **`Stage.Of.transfer`** — one transfer;
* `Misheard` — a byte that is written while the loopback is busy with another one;
* **`transmission_iff`** — the bytes come out as they were written exactly if there is none.
-/

namespace AugraDosbox

namespace Serial

/-! ## Runs -/

/-- The events of the sending side. -/
def Event.isTransmit : Event → Bool
  | .TX_LOOPBACK | .THR_LOOPBACK | .TX | .THR => true
  | .ERRMSG | .RX_TIMEOUT => false

/-- The events that end the transmission of a byte. -/
def Event.isCompletion : Event → Bool
  | .TX_LOOPBACK | .TX => true
  | _ => false

inductive Transfer where
  | write (data : Byte)
  | event (IF : Bool) (type : Event)
deriving DecidableEq, Repr

/-- The bytes that are written. -/
def written : List Transfer → List Byte
  | [] => []
  | .write data :: rest => data :: written rest
  | .event _ _ :: rest => written rest

/-- How many transmissions end. -/
def completions : List Transfer → ℕ
  | [] => 0
  | .write _ :: rest => completions rest
  | .event _ type :: rest => (if type.isCompletion then 1 else 0) + completions rest

namespace CSerial

/-- An event is taken off the queue before it is handled. -/
def transfer (s : CSerial) : Transfer → CSerial
  | .write data => s.Write_THR data
  | .event IF type => handleEvent { s with events := s.events.erase type } IF type

/-- A write to THR that finds room, or an event that is due. -/
def Possible (s : CSerial) : Transfer → Prop
  | .write data =>
      ¬ s.divisorEnabled ∧ (s.LSR &&& LSR_TX_EMPTY_MASK = 0 → (s.txfifo.addb data).2 = true)
  | .event _ type => type ∈ s.events

instance (s : CSerial) : ∀ t, Decidable (s.Possible t)
  | .write data => inferInstanceAs (Decidable (¬ s.divisorEnabled ∧
      (s.LSR &&& LSR_TX_EMPTY_MASK = 0 → (s.txfifo.addb data).2 = true)))
  | .event _ type => inferInstanceAs (Decidable (type ∈ s.events))

def exec (s : CSerial) (transfers : List Transfer) : CSerial := transfers.foldl transfer s

/-- All transfers are possible when their turn comes. -/
def Legal (s : CSerial) : List Transfer → Prop
  | [] => True
  | t :: rest => s.Possible t ∧ (s.transfer t).Legal rest

/-- What `receiveByte` is called with. -/
def heard (s : CSerial) : Transfer → List Byte
  | .event _ .TX_LOOPBACK => [s.loopback_data]
  | _ => []

def looped (s : CSerial) : List Transfer → List Byte
  | [] => []
  | t :: rest => s.heard t ++ (s.transfer t).looped rest

/-- The bytes that come out during a run. -/
def passed (s : CSerial) (transfers : List Transfer) : List Byte :=
  if s.loopback then s.looped transfers
  else (s.exec transfers).transmitted.drop s.transmitted.length

/-- The events of the sending side one after the other, as long as there are some. -/
def drain : ℕ → CSerial → List Transfer
  | 0, _ => []
  | n + 1, s =>
    match s.events.find? Event.isTransmit with
    | none => []
    | some type => .event false type :: drain n (s.transfer (.event false type))

/-- The bytes that come out when nothing more is written. -/
def coming (s : CSerial) : List Byte := s.passed (drain (s.txfifo.used + 1) s)

end CSerial

/-! ## The stages of a transmission -/

/-- Nothing to send, a byte on its way to the shift register, or a byte in it; with the byte and
those that wait behind it. -/
inductive Stage where
  | idle
  | warming (b : Byte) (q : List Byte)
  | sending (b : Byte) (q : List Byte)
deriving DecidableEq, Repr

namespace Stage

def write (data : Byte) : Stage → Stage
  | .idle => .warming data []
  | .warming b q => .warming b (q ++ [data])
  | .sending b q => .sending b (q ++ [data])

/-- The event that is due.  With loopback the byte under way stays what it was. -/
def fire (loopback : Bool) : Stage → Stage
  | .idle => .idle
  | .warming b q => .sending b q
  | .sending _ [] => .idle
  | .sending b (c :: q) => .sending (if loopback then b else c) q

def step (loopback : Bool) (st : Stage) : Transfer → Stage
  | .write data => st.write data
  | .event _ type => if type.isTransmit then st.fire loopback else st

/-- The bytes that come out with a transfer. -/
def passes (loopback : Bool) : Stage → Transfer → List Byte
  | .idle, .write data => if loopback then [] else [data]
  | .sending b q, .event _ type =>
      if type.isTransmit then if loopback then [b] else q.take 1 else []
  | _, _ => []

/-- The bytes that will come out. -/
def coming (loopback : Bool) : Stage → List Byte
  | .idle => []
  | .warming b q | .sending b q => if loopback then List.replicate (q.length + 1) b else q

/-- What will come out in place of a byte that is written. -/
def echo (loopback : Bool) : Stage → Transfer → List Byte
  | .idle, .write data => [data]
  | .warming b _, .write data | .sending b _, .write data => [if loopback then b else data]
  | _, .event _ _ => []

/-- The bytes whose transmission has not ended. -/
def outstanding : Stage → ℕ
  | .idle => 0
  | .warming _ q | .sending _ q => q.length + 1

/-- The events until all is sent. -/
def rounds : Stage → ℕ
  | .idle => 0
  | .warming _ q => q.length + 2
  | .sending _ q => q.length + 1

variable {loopback : Bool}

theorem passes_append_coming (st : Stage) (t : Transfer) :
    st.passes loopback t ++ (st.step loopback t).coming loopback =
      st.coming loopback ++ st.echo loopback t := by
  cases t with
  | write data =>
    cases st with
    | idle => cases loopback <;> rfl
    | warming b q =>
      cases loopback
      · rfl
      · simp only [passes, step, write, coming, echo, if_true, List.nil_append,
          List.length_append, List.length_singleton, List.replicate_succ']
    | sending b q =>
      cases loopback
      · rfl
      · simp only [passes, step, write, coming, echo, if_true, List.nil_append,
          List.length_append, List.length_singleton, List.replicate_succ']
  | event IF type =>
    cases htype : type.isTransmit with
    | false =>
      have hstep : st.step loopback (.event IF type) = st := by
        simp only [step, htype, Bool.false_eq_true, if_false]
      have hpasses : st.passes loopback (.event IF type) = [] := by
        cases st <;> simp only [passes, htype, Bool.false_eq_true, if_false]
      have hecho : st.echo loopback (.event IF type) = [] := by cases st <;> rfl
      rw [hstep, hpasses, hecho, List.nil_append, List.append_nil]
    | true =>
      cases st with
      | idle => simp only [passes, step, htype, if_true, fire, coming, echo]
      | warming b q =>
        simp only [passes, step, htype, if_true, fire, coming, echo, List.nil_append,
          List.append_nil]
      | sending b q =>
        cases q with
        | nil => cases loopback <;> simp [passes, step, htype, fire, coming, echo]
        | cons c q =>
          cases loopback <;>
            simp [passes, step, htype, fire, coming, echo, List.replicate_succ]

end Stage

/-! ## The registers of the sending side -/

/-- The part of the port that the stages are about; `due` are the events of the sending side. -/
structure Sender where
  txfifo : MyFifo
  busy : Bool
  sync_guardtime : Bool
  loopback : Bool
  loopback_data : Byte
  due : List Event
  transmitted : List Byte

namespace Sender

variable (s : Sender)

def write (data : Byte) : Sender :=
  if s.busy then { s with txfifo := (s.txfifo.addb data).1 }
  else
    { s with
      txfifo := (s.txfifo.addb data).1
      busy := true
      sync_guardtime := true
      due := s.due ++ [if s.loopback then .THR_LOOPBACK else .THR]
      transmitted := if s.loopback then s.transmitted else s.transmitted ++ [data] }

/-- `ByteTransmitting`. -/
def transmitting : Sender :=
  if s.sync_guardtime then { s with sync_guardtime := false, txfifo := s.txfifo.getb.1 } else s

/-- `ByteTransmitted`. -/
def complete : Sender :=
  if s.txfifo.isEmpty then { s with busy := false }
  else
    { s with
      txfifo := s.txfifo.getb.1
      due := s.due ++ [if s.loopback then .TX_LOOPBACK else .TX]
      transmitted := if s.loopback then s.transmitted else s.transmitted ++ [s.txfifo.probeByte] }

def handle : Event → Sender
  | .TX_LOOPBACK | .TX => s.complete
  | .THR_LOOPBACK =>
      let t := transmitting { s with loopback_data := s.txfifo.probeByte }
      { t with due := t.due ++ [.TX_LOOPBACK] }
  | .THR => { s.transmitting with due := s.transmitting.due ++ [.TX] }
  | .ERRMSG | .RX_TIMEOUT => s

def transfer : Transfer → Sender
  | .write data => s.write data
  | .event _ type => handle { s with due := s.due.erase type } type

variable {s}

theorem transfer_of_not {IF : Bool} {type : Event} (h : type.isTransmit = false)
    (hdue : type ∉ s.due) : s.transfer (.event IF type) = s := by
  change handle { s with due := s.due.erase type } type = s
  rw [List.erase_of_not_mem hdue]
  cases type <;> first | rfl | exact absurd h Bool.noConfusion

theorem transmitting_loopback : s.transmitting.loopback = s.loopback := by
  unfold transmitting
  split <;> rfl

theorem transmitting_transmitted : s.transmitting.transmitted = s.transmitted := by
  unfold transmitting
  split <;> rfl

theorem complete_loopback : s.complete.loopback = s.loopback := by
  unfold complete
  split <;> rfl

theorem transfer_loopback : ∀ {t : Transfer}, (s.transfer t).loopback = s.loopback
  | .write data => by
    change (s.write data).loopback = s.loopback
    unfold write
    split <;> rfl
  | .event IF .TX_LOOPBACK => complete_loopback
  | .event IF .THR_LOOPBACK => transmitting_loopback
  | .event IF .ERRMSG => rfl
  | .event IF .RX_TIMEOUT => rfl
  | .event IF .TX => complete_loopback
  | .event IF .THR => transmitting_loopback

end Sender

namespace CSerial

variable (s : CSerial) {IF : Bool} {data error : Byte} {type : Event}

def sender : Sender :=
  ⟨s.txfifo, decide (s.LSR &&& LSR_TX_EMPTY_MASK = 0), s.sync_guardtime, s.loopback,
    s.loopback_data, s.events.filter Event.isTransmit, s.transmitted⟩

theorem sender_rise (priority : Byte) : (s.rise priority).sender = s.sender := rfl

theorem sender_setEvent : (s.setEvent type).sender =
    { s.sender with due := s.sender.due ++ [type].filter Event.isTransmit } := by
  unfold sender setEvent
  simp only [List.filter_append]

theorem sender_setEvent_of_not (h : type.isTransmit = false) :
    (s.setEvent type).sender = s.sender := by
  rw [sender_setEvent, List.filter_singleton, h]
  simp

theorem sender_setEvent_of_isTransmit (h : type.isTransmit = true) :
    (s.setEvent type).sender = { s.sender with due := s.sender.due ++ [type] } := by
  rw [sender_setEvent, List.filter_singleton, h]
  rfl

theorem sender_removeEvent (h : type.isTransmit = false) :
    (s.removeEvent type).sender = s.sender := by
  unfold sender removeEvent
  simp only [List.filter_filter]
  congr 1
  refine List.filter_congr fun e _ => ?_
  by_cases he : e = type
  · rw [he, h]
    rfl
  · simp [he]

theorem sender_countErrors : (s.countErrors IF error).sender = s.sender := by
  unfold countErrors
  dsimp only
  split
  · rfl
  · exact sender_setEvent_of_not _ rfl

/-- An error does not touch the bit of the sending side. -/
theorem sender_LSR_or (h : error &&& LSR_TX_EMPTY_MASK = 0) :
    { s with LSR := s.LSR ||| error }.sender = s.sender := by
  unfold sender
  simp only [BitVec.and_or_distrib_right, h]
  congr 2
  exact congrArg (· = 0) (BitVec.or_zero)

theorem sender_reportError (h : error &&& LSR_TX_EMPTY_MASK = 0) :
    (s.reportError error).sender = s.sender := sender_LSR_or s h

theorem sender_addError : (s.addError error).sender = s.sender := by
  unfold addError
  split <;> rfl

theorem sender_recordError (h : error &&& LSR_TX_EMPTY_MASK = 0) :
    (s.recordError error).sender = s.sender := by
  unfold recordError
  dsimp only
  rw [apply_ite sender, apply_ite sender, sender_reportError _ h, sender_reportError _ h, ite_self,
    sender_addError, ite_self]

theorem sender_addData : (s.addData data).sender = s.sender := by
  unfold addData
  dsimp only
  rw [apply_ite sender, sender_setEvent_of_not _ rfl, sender_rise, ite_self,
    sender_removeEvent _ rfl]
  rfl

/-- A byte that is received without errors can at most overrun. -/
theorem sender_receiveByte : (s.receiveByte IF data).sender = s.sender := by
  unfold receiveByte receiveByteEx
  dsimp only
  have herror : breakError (if (s.rxfifo.addb data).2 = true then 0#8
      else 0#8 ||| LSR_OVERRUN_ERROR_MASK) &&& LSR_TX_EMPTY_MASK = 0 := by
    split <;> rfl
  generalize (if (s.rxfifo.addb data).2 = true then 0#8
    else 0#8 ||| LSR_OVERRUN_ERROR_MASK) = e at herror ⊢
  have hnone : ∀ t : CSerial,
      (if t.fifoActive then { t with errorfifo := (t.errorfifo.addb e).1 } else t).sender =
        t.sender := by
    intro t
    split <;> rfl
  rw [apply_ite sender, sender_countErrors, sender_recordError _ herror, hnone, ite_self,
    sender_addData]

theorem sender_ByteTransmitting : s.ByteTransmitting.sender = s.sender.transmitting := by
  unfold ByteTransmitting Sender.transmitting
  dsimp only
  rw [apply_ite sender, sender_rise, ite_self]
  split
  · rename_i hguard
    rw [if_pos (show s.sender.sync_guardtime = true from hguard)]
    rfl
  · rename_i hguard
    rw [if_neg (show ¬ s.sender.sync_guardtime = true from hguard)]

theorem sender_transmitByte (first : Bool) : (s.transmitByte data first).sender =
    { s.sender with
      due := s.sender.due ++ [if first then .THR else .TX]
      transmitted := s.sender.transmitted ++ [data] } := by
  unfold transmitByte
  rw [sender_setEvent_of_isTransmit _ (by cases first <;> rfl)]
  rfl

theorem sender_ByteTransmitted : s.ByteTransmitted.sender = s.sender.complete := by
  unfold ByteTransmitted Sender.complete
  by_cases hempty : s.txfifo.isEmpty
  · rw [if_neg (not_not.2 hempty), if_pos (show s.sender.txfifo.isEmpty from hempty)]
    unfold sender
    simp only [BitVec.and_or_distrib_right]
    congr 1
    rw [decide_eq_false_iff_not]
    intro h
    exact absurd (BitVec.or_eq_zero_iff.1 h).2 (by decide)
  · rw [if_pos hempty, if_neg (show ¬ s.sender.txfifo.isEmpty from hempty)]
    dsimp only
    rw [apply_ite sender, sender_rise, ite_self]
    by_cases hloop : s.loopback = true
    · have hloop' : s.sender.loopback = true := hloop
      rw [if_pos hloop, if_pos hloop', if_pos hloop', sender_setEvent_of_isTransmit _ rfl]
      rfl
    · have hloop' : ¬ s.sender.loopback = true := hloop
      rw [if_neg hloop, if_neg hloop', if_neg hloop', sender_transmitByte, MyFifo.getb_snd]
      rfl

theorem sender_startTransmit (h : s.sender.busy = false) :
    (s.startTransmit data).sender = s.sender.write data := by
  have hbusy : ¬ s.sender.busy = true := by rw [h]; exact Bool.false_ne_true
  have hbit : decide (s.LSR &&& ~~~LSR_TX_EMPTY_MASK &&& LSR_TX_EMPTY_MASK = 0) = true := by
    rw [BitVec.and_assoc]
    exact decide_eq_true (BitVec.and_zero)
  unfold startTransmit Sender.write
  rw [if_neg hbusy]
  by_cases hloop : s.loopback = true
  · have hloop' : s.sender.loopback = true := hloop
    dsimp only
    rw [if_pos hloop, if_pos hloop', if_pos hloop', sender_setEvent_of_isTransmit _ rfl]
    unfold sender
    simp only [hbit]
  · have hloop' : ¬ s.sender.loopback = true := hloop
    dsimp only
    rw [if_neg hloop, if_neg hloop', if_neg hloop', sender_transmitByte]
    unfold sender
    simp only [hbit, if_true]

theorem sender_queueTransmit (h : s.sender.busy = true) :
    (s.queueTransmit data).sender = s.sender.write data := by
  unfold queueTransmit Sender.write
  rw [if_pos h]
  split
  · rfl
  · dsimp only
    split
    · rfl
    · exact sender_setEvent_of_not _ rfl

theorem sender_Write_THR (h : ¬ s.divisorEnabled) :
    (s.Write_THR data).sender = s.sender.write data := by
  unfold Write_THR
  rw [if_neg h]
  dsimp only
  split
  · rename_i hidle
    exact sender_startTransmit _ (decide_eq_false hidle)
  · rename_i hbusy
    exact sender_queueTransmit _ (decide_eq_true (not_not.1 hbusy))

theorem sender_handleEvent : (s.handleEvent IF type).sender = s.sender.handle type := by
  cases type with
  | TX_LOOPBACK =>
    change ((s.receiveByte IF s.loopback_data).ByteTransmitted).sender = _
    rw [sender_ByteTransmitted, sender_receiveByte]
    rfl
  | THR_LOOPBACK =>
    change ((ByteTransmitting { s with loopback_data := s.txfifo.probeByte }).setEvent _).sender = _
    rw [sender_setEvent_of_isTransmit _ rfl, sender_ByteTransmitting]
    rfl
  | ERRMSG => rfl
  | RX_TIMEOUT => rfl
  | TX =>
    change s.ByteTransmitted.sender = _
    rw [sender_ByteTransmitted]
    rfl
  | THR =>
    change (s.ByteTransmitting.setEvent .TX).sender = _
    rw [sender_setEvent_of_isTransmit _ rfl, sender_ByteTransmitting]
    rfl

theorem sender_transfer {t : Transfer} (h : s.Possible t) :
    (s.transfer t).sender = s.sender.transfer t := by
  cases t with
  | write data => exact sender_Write_THR s h.1
  | event IF type =>
    change (handleEvent { s with events := s.events.erase type } IF type).sender =
      Sender.handle { s.sender with due := s.sender.due.erase type } type
    rw [sender_handleEvent]
    unfold sender
    rw [List.erase_filter]

theorem loopback_transfer {t : Transfer} (h : s.Possible t) :
    (s.transfer t).loopback = s.loopback := by
  have hsender := congrArg Sender.loopback (sender_transfer s h)
  exact hsender.trans Sender.transfer_loopback

theorem room_of_possible (h : s.Possible (.write data)) (hbusy : s.sender.busy = true) :
    s.sender.txfifo.used < s.sender.txfifo.size := by
  have hadded := h.2 (of_decide_eq_true hbusy)
  rw [MyFifo.addb_snd] at hadded
  exact of_decide_eq_true hadded

end CSerial

/-! ## The port goes through the stages -/

namespace Stage

variable {s : Sender} {c : CSerial} {st : Stage} {data : Byte}

/-- The event that leads to the shift register, and the one that ends the transmission. -/
def warmingEvent (loopback : Bool) : Event := if loopback then .THR_LOOPBACK else .THR

def sendingEvent (loopback : Bool) : Event := if loopback then .TX_LOOPBACK else .TX

/-- The port is at a stage.  While it warms up the FIFO still holds the byte under way. -/
def Of (st : Stage) (s : Sender) : Prop :=
  match st with
  | .idle =>
      s.busy = false ∧ s.txfifo.contents = [] ∧ s.sync_guardtime = false ∧ s.due = []
  | .warming b q =>
      s.busy = true ∧ s.txfifo.contents = b :: q ∧ s.sync_guardtime = true ∧
        s.due = [warmingEvent s.loopback]
  | .sending b q =>
      s.busy = true ∧ s.txfifo.contents = q ∧ s.sync_guardtime = false ∧
        s.due = [sendingEvent s.loopback] ∧ (s.loopback = true → s.loopback_data = b)

theorem Of.busy_iff (h : st.Of s) : s.busy = true ↔ st ≠ .idle := by
  cases st with
  | idle => exact iff_of_false (by rw [h.1]; exact Bool.false_ne_true) fun hne => hne rfl
  | warming b q => exact iff_of_true h.1 Stage.noConfusion
  | sending b q => exact iff_of_true h.1 Stage.noConfusion

theorem Of.write (h : st.Of s) (hroom : s.busy = true → s.txfifo.used < s.txfifo.size) :
    (st.write data).Of (s.write data) := by
  cases st with
  | idle =>
    obtain ⟨hbusy, hempty, hguard, hdue⟩ := h
    have hused : s.txfifo.used = 0 := MyFifo.contents_eq_nil_iff.1 hempty
    have hpos : 0 < s.txfifo.size := Nat.zero_lt_of_lt s.txfifo.pos_lt
    unfold Sender.write
    rw [if_neg (by rw [hbusy]; exact Bool.false_ne_true)]
    refine ⟨rfl, ?_, rfl, ?_⟩
    · exact (MyFifo.contents_addb (by omega)).trans (by rw [hempty]; rfl)
    · change s.due ++ _ = _
      rw [hdue]
      rfl
  | warming b q =>
    obtain ⟨hbusy, hq, hguard, hdue⟩ := h
    unfold Sender.write
    rw [if_pos hbusy]
    exact ⟨hbusy, (MyFifo.contents_addb (hroom hbusy)).trans (by rw [hq]; rfl), hguard, hdue⟩
  | sending b q =>
    obtain ⟨hbusy, hq, hguard, hdue, hdata⟩ := h
    unfold Sender.write
    rw [if_pos hbusy]
    exact ⟨hbusy, (MyFifo.contents_addb (hroom hbusy)).trans (by rw [hq]), hguard, hdue, hdata⟩

/-- The event that is due leads to the next stage. -/
theorem Of.fire {e : Event} (h : st.Of s) (he : e ∈ s.due) :
    (st.fire s.loopback).Of (Sender.handle { s with due := s.due.erase e } e) := by
  cases st with
  | idle =>
    rw [h.2.2.2] at he
    cases he
  | warming b q =>
    obtain ⟨hbusy, hq, hguard, hdue⟩ := h
    rw [hdue, List.mem_singleton] at he
    subst he
    have hne : ¬ s.txfifo.isEmpty := by
      rw [← MyFifo.contents_eq_nil_iff, hq]
      exact List.cons_ne_nil b q
    have hprobe : s.txfifo.probeByte = b := by
      have hcons := MyFifo.contents_eq_cons hne
      rw [hq] at hcons
      exact (List.cons.inj hcons).1.symm
    have hrest : s.txfifo.getb.1.contents = q := MyFifo.contents_getb.trans (by rw [hq]; rfl)
    rw [hdue, List.erase_cons_head]
    cases hloop : s.loopback with
    | true =>
      simp only [warmingEvent, if_true, Sender.handle, Sender.transmitting, hguard]
      exact ⟨hbusy, hrest, rfl, rfl, fun _ => hprobe⟩
    | false =>
      simp only [warmingEvent, Bool.false_eq_true, if_false, Sender.handle, Sender.transmitting,
        hguard, if_true]
      exact ⟨hbusy, hrest, rfl, rfl, fun ht => absurd ht Bool.false_ne_true⟩
  | sending b q =>
    obtain ⟨hbusy, hq, hguard, hdue, hdata⟩ := h
    rw [hdue, List.mem_singleton] at he
    subst he
    rw [hdue, List.erase_cons_head]
    have hhandle : Sender.handle { s with due := [] } (sendingEvent s.loopback) =
        Sender.complete { s with due := [] } := by
      cases s.loopback <;> rfl
    rw [hhandle]
    unfold Sender.complete
    cases q with
    | nil =>
      rw [if_pos (MyFifo.contents_eq_nil_iff.1 hq)]
      exact ⟨rfl, hq, hguard, rfl⟩
    | cons x q =>
      have hne : ¬ s.txfifo.isEmpty := by
        rw [← MyFifo.contents_eq_nil_iff, hq]
        exact List.cons_ne_nil x q
      have hrest : s.txfifo.getb.1.contents = q := MyFifo.contents_getb.trans (by rw [hq]; rfl)
      rw [if_neg hne]
      refine ⟨hbusy, hrest, hguard, rfl, fun hloop => ?_⟩
      exact (hdata hloop).trans (if_pos hloop).symm

variable {t : Transfer}

theorem Of.transfer (h : st.Of c.sender) (ht : c.Possible t) :
    (st.step c.loopback t).Of (c.transfer t).sender := by
  rw [CSerial.sender_transfer c ht]
  cases t with
  | write data => exact h.write (CSerial.room_of_possible c ht)
  | event IF type =>
    cases htype : type.isTransmit with
    | true =>
      rw [show st.step c.loopback (.event IF type) = st.fire c.loopback from if_pos htype]
      exact h.fire (List.mem_filter.2 ⟨ht, htype⟩)
    | false =>
      rw [show st.step c.loopback (.event IF type) = st from
        if_neg (by rw [htype]; exact Bool.false_ne_true), Sender.transfer_of_not htype
          fun hmem => absurd (List.mem_filter.1 hmem).2 (by rw [htype]; exact Bool.false_ne_true)]
      exact h

/-- Without loopback the stage says what is given to the device. -/
theorem Of.transmitted (h : st.Of c.sender) (hloop : c.loopback = false) (ht : c.Possible t) :
    (c.transfer t).transmitted = c.transmitted ++ st.passes false t := by
  have hsloop : c.sender.loopback = false := hloop
  have hsender := congrArg Sender.transmitted (CSerial.sender_transfer c ht)
  refine hsender.trans ?_
  change _ = c.sender.transmitted ++ _
  cases t with
  | write data =>
    change (c.sender.write data).transmitted = _
    unfold Sender.write
    cases st with
    | idle =>
      rw [if_neg (by rw [h.1]; exact Bool.false_ne_true)]
      dsimp only
      rw [if_neg (by rw [hsloop]; exact Bool.false_ne_true)]
      rfl
    | warming b q =>
      rw [if_pos h.1]
      exact (List.append_nil _).symm
    | sending b q =>
      rw [if_pos h.1]
      exact (List.append_nil _).symm
  | event IF type =>
    cases htype : type.isTransmit with
    | false =>
      have hpasses : st.passes false (.event IF type) = [] := by
        cases st <;> simp only [passes, htype, Bool.false_eq_true, if_false]
      rw [hpasses, List.append_nil, Sender.transfer_of_not htype
        fun hmem => absurd (List.mem_filter.1 hmem).2 (by rw [htype]; exact Bool.false_ne_true)]
    | true =>
      have hdue : type ∈ c.sender.due := List.mem_filter.2 ⟨ht, htype⟩
      cases st with
      | idle =>
        rw [h.2.2.2] at hdue
        cases hdue
      | warming b q =>
        obtain ⟨-, -, -, hevents⟩ := h
        rw [hevents, hsloop, List.mem_singleton] at hdue
        subst hdue
        exact Sender.transmitting_transmitted.trans (List.append_nil _).symm
      | sending b q =>
        obtain ⟨-, hq, -, hevents, -⟩ := h
        rw [hevents, hsloop, List.mem_singleton] at hdue
        subst hdue
        change (Sender.complete { c.sender with due := _ }).transmitted = _ ++ q.take 1
        unfold Sender.complete
        cases q with
        | nil =>
          rw [if_pos (MyFifo.contents_eq_nil_iff.1 hq)]
          exact (List.append_nil _).symm
        | cons x q =>
          have hne : ¬ c.sender.txfifo.isEmpty := by
            rw [← MyFifo.contents_eq_nil_iff, hq]
            exact List.cons_ne_nil x q
          have hprobe : c.sender.txfifo.probeByte = x := by
            have hcons := MyFifo.contents_eq_cons hne
            rw [hq] at hcons
            exact (List.cons.inj hcons).1.symm
          rw [if_neg hne]
          dsimp only
          rw [if_neg (by rw [hsloop]; exact Bool.false_ne_true), hprobe]
          rfl

/-- With loopback it says what the port receives. -/
theorem Of.heard (h : st.Of c.sender) (hloop : c.loopback = true) (ht : c.Possible t) :
    c.heard t = st.passes true t := by
  have hsloop : c.sender.loopback = true := hloop
  cases t with
  | write data => cases st <;> rfl
  | event IF type =>
    cases htype : type.isTransmit with
    | false =>
      have hpasses : st.passes true (.event IF type) = [] := by
        cases st <;> simp only [passes, htype, Bool.false_eq_true, if_false]
      rw [hpasses]
      cases type <;> first | rfl | exact absurd htype.symm Bool.noConfusion
    | true =>
      have hdue : type ∈ c.sender.due := List.mem_filter.2 ⟨ht, htype⟩
      cases st with
      | idle =>
        rw [h.2.2.2] at hdue
        cases hdue
      | warming b q =>
        obtain ⟨-, -, -, hevents⟩ := h
        rw [hevents, hsloop, List.mem_singleton] at hdue
        subst hdue
        rfl
      | sending b q =>
        obtain ⟨-, -, -, hevents, hdata⟩ := h
        rw [hevents, hsloop, List.mem_singleton] at hdue
        subst hdue
        change [c.sender.loopback_data] = [b]
        rw [hdata hsloop]

/-- A transmission that ends is one less outstanding, a byte that is written one more. -/
theorem Of.outstanding (h : st.Of c.sender) (ht : c.Possible t) :
    completions [t] + (st.step c.loopback t).outstanding =
      st.outstanding + (written [t]).length := by
  cases t with
  | write data =>
    cases st <;>
      simp [completions, written, step, Stage.write, Stage.outstanding]
  | event IF type =>
    cases htype : type.isTransmit with
    | false =>
      have hcompletion : type.isCompletion = false := by
        cases type <;> first | rfl | exact absurd htype.symm Bool.noConfusion
      simp [completions, written, step, htype, hcompletion]
    | true =>
      have hdue : type ∈ c.sender.due := List.mem_filter.2 ⟨ht, htype⟩
      have hstep : st.step c.loopback (.event IF type) = st.fire c.loopback := if_pos htype
      rw [hstep]
      cases st with
      | idle =>
        rw [h.2.2.2] at hdue
        cases hdue
      | warming b q =>
        obtain ⟨-, -, -, hevents⟩ := h
        rw [hevents, List.mem_singleton] at hdue
        have hcompletion : type.isCompletion = false := by
          rw [hdue]
          cases c.sender.loopback <;> rfl
        simp [completions, written, hcompletion, Stage.fire, Stage.outstanding]
      | sending b q =>
        obtain ⟨-, -, -, hevents, -⟩ := h
        rw [hevents, List.mem_singleton] at hdue
        have hcompletion : type.isCompletion = true := by
          rw [hdue]
          cases c.sender.loopback <;> rfl
        cases q with
        | nil => simp [completions, written, hcompletion, Stage.fire, Stage.outstanding]
        | cons x q =>
          simp [completions, written, hcompletion, Stage.fire, Stage.outstanding]
          omega

/-! ### Runs -/

def after (loopback : Bool) (st : Stage) (transfers : List Transfer) : Stage :=
  transfers.foldl (step loopback) st

/-- The bytes that come out during a run. -/
def out (loopback : Bool) (st : Stage) : List Transfer → List Byte
  | [] => []
  | t :: rest => st.passes loopback t ++ (st.step loopback t).out loopback rest

/-- What comes out, early or late, in place of the bytes that are written. -/
def echoes (loopback : Bool) (st : Stage) : List Transfer → List Byte
  | [] => []
  | t :: rest => st.echo loopback t ++ (st.step loopback t).echoes loopback rest

variable {loopback : Bool}

theorem out_append_coming (st : Stage) (transfers : List Transfer) :
    st.out loopback transfers ++ (st.after loopback transfers).coming loopback =
      st.coming loopback ++ st.echoes loopback transfers := by
  induction transfers generalizing st with
  | nil => exact (List.append_nil _).symm
  | cons t rest ih =>
    change (st.passes loopback t ++ (st.step loopback t).out loopback rest) ++
      ((st.step loopback t).after loopback rest).coming loopback =
        st.coming loopback ++ (st.echo loopback t ++ (st.step loopback t).echoes loopback rest)
    rw [List.append_assoc, ih, ← List.append_assoc, passes_append_coming, List.append_assoc]

theorem echoes_append (st : Stage) (done more : List Transfer) :
    st.echoes loopback (done ++ more) =
      st.echoes loopback done ++ (st.after loopback done).echoes loopback more := by
  induction done generalizing st with
  | nil => rfl
  | cons t rest ih =>
    change st.echo loopback t ++ (st.step loopback t).echoes loopback (rest ++ more) = _
    rw [ih, ← List.append_assoc]
    rfl

variable {transfers : List Transfer}

theorem Of.exec (h : st.Of c.sender) (hlegal : c.Legal transfers) :
    (st.after c.loopback transfers).Of (c.exec transfers).sender ∧
      (c.exec transfers).loopback = c.loopback := by
  induction transfers generalizing c st with
  | nil => exact ⟨h, rfl⟩
  | cons t rest ih =>
    obtain ⟨ht, hrest⟩ := hlegal
    have hloop := c.loopback_transfer ht
    obtain ⟨hof, hsame⟩ := ih (h.transfer ht) hrest
    rw [hloop] at hof hsame
    exact ⟨hof, hsame⟩

theorem Of.looped (h : st.Of c.sender) (hloop : c.loopback = true)
    (hlegal : c.Legal transfers) : c.looped transfers = st.out true transfers := by
  induction transfers generalizing c st with
  | nil => rfl
  | cons t rest ih =>
    obtain ⟨ht, hrest⟩ := hlegal
    have hnext := h.transfer ht
    rw [hloop] at hnext
    change c.heard t ++ (c.transfer t).looped rest = _
    rw [h.heard hloop ht, ih hnext ((c.loopback_transfer ht).trans hloop) hrest]
    rfl

theorem Of.exec_transmitted (h : st.Of c.sender) (hloop : c.loopback = false)
    (hlegal : c.Legal transfers) :
    (c.exec transfers).transmitted = c.transmitted ++ st.out false transfers := by
  induction transfers generalizing c st with
  | nil => exact (List.append_nil _).symm
  | cons t rest ih =>
    obtain ⟨ht, hrest⟩ := hlegal
    have hnext := h.transfer ht
    rw [hloop] at hnext
    change ((c.transfer t).exec rest).transmitted = _
    rw [ih hnext ((c.loopback_transfer ht).trans hloop) hrest, h.transmitted hloop ht,
      List.append_assoc]
    rfl

theorem Of.passed (h : st.Of c.sender) (hlegal : c.Legal transfers) :
    c.passed transfers = st.out c.loopback transfers := by
  unfold CSerial.passed
  cases hloop : c.loopback with
  | true =>
    rw [if_pos rfl]
    exact h.looped hloop hlegal
  | false =>
    rw [if_neg Bool.false_ne_true, h.exec_transmitted hloop hlegal, List.drop_left]

theorem Of.exec_outstanding (h : st.Of c.sender) (hlegal : c.Legal transfers) :
    completions transfers + (st.after c.loopback transfers).outstanding =
      st.outstanding + (written transfers).length := by
  induction transfers generalizing c st with
  | nil => exact Nat.add_comm _ _
  | cons t rest ih =>
    obtain ⟨ht, hrest⟩ := hlegal
    have hone := h.outstanding ht
    have hmore := ih (h.transfer ht) hrest
    rw [c.loopback_transfer ht] at hmore
    have hcompletions : completions (t :: rest) = completions [t] + completions rest := by
      cases t <;> simp [completions]
    have hwritten : (written (t :: rest)).length =
        (written [t]).length + (written rest).length := by
      cases t <;> simp [written, Nat.add_comm]
    change _ + ((st.step c.loopback t).after c.loopback rest).outstanding = _
    omega

/-! ### What is still to come -/

theorem Of.rounds_le (h : st.Of s) : st.rounds ≤ s.txfifo.used + 1 := by
  rw [← MyFifo.length_contents]
  cases st with
  | idle => exact Nat.zero_le _
  | warming b q =>
    rw [h.2.1]
    exact Nat.le_refl _
  | sending b q =>
    rw [h.2.1]
    exact Nat.le_refl _

theorem Of.drain {n : ℕ} (h : st.Of c.sender) (hn : st.rounds ≤ n) :
    c.Legal (CSerial.drain n c) ∧ st.after c.loopback (CSerial.drain n c) = .idle ∧
      st.echoes c.loopback (CSerial.drain n c) = [] := by
  have hfind : c.events.find? Event.isTransmit = c.sender.due.head? :=
    (List.head?_filter).symm
  induction n generalizing c st with
  | zero =>
    cases st with
    | idle => exact ⟨trivial, rfl, rfl⟩
    | warming b q => exact absurd hn (Nat.not_succ_le_zero _)
    | sending b q => exact absurd hn (Nat.not_succ_le_zero _)
  | succ n ih =>
    have hdue : ∀ type : Event, c.sender.due.head? = some type →
        c.Legal (CSerial.drain (n + 1) c) ∧ st.after c.loopback (CSerial.drain (n + 1) c) = .idle ∧
          st.echoes c.loopback (CSerial.drain (n + 1) c) = [] := by
      intro type htype
      obtain ⟨hmem, htransmit⟩ := List.mem_filter.1 (List.mem_of_mem_head? htype)
      have hstep : st.step c.loopback (.event false type) = st.fire c.loopback :=
        if_pos htransmit
      have hrounds : (st.fire c.loopback).rounds ≤ n := by
        cases st with
        | idle => exact Nat.zero_le n
        | warming b q => exact Nat.le_of_succ_le_succ hn
        | sending b q =>
          cases q with
          | nil => exact Nat.zero_le n
          | cons x q => exact Nat.le_of_succ_le_succ hn
      have hnext := h.transfer (t := .event false type) hmem
      obtain ⟨hlegal, hidle, hechoes⟩ := ih hnext (by rw [hstep]; exact hrounds)
        (List.head?_filter).symm
      rw [c.loopback_transfer (t := .event false type) hmem] at hidle hechoes
      have hdrain : CSerial.drain (n + 1) c =
          .event false type :: CSerial.drain n (c.transfer (.event false type)) := by
        rw [CSerial.drain, hfind, htype]
      rw [hdrain]
      refine ⟨⟨hmem, hlegal⟩, hidle, ?_⟩
      change st.echo c.loopback (.event false type) ++ _ = []
      rw [hechoes]
      cases st <;> rfl
    cases st with
    | idle =>
      have hnone : CSerial.drain (n + 1) c = [] := by
        rw [CSerial.drain, hfind, h.2.2.2]
        rfl
      rw [hnone]
      exact ⟨trivial, rfl, rfl⟩
    | warming b q => exact hdue _ (by rw [h.2.2.2]; rfl)
    | sending b q => exact hdue _ (by rw [h.2.2.2.1]; rfl)

theorem Of.coming (h : st.Of c.sender) : c.coming = st.coming c.loopback := by
  obtain ⟨hlegal, hidle, hechoes⟩ := h.drain h.rounds_le
  have hall := @out_append_coming c.loopback st
    (CSerial.drain (c.txfifo.used + 1) c)
  change st.after c.loopback (CSerial.drain (c.txfifo.used + 1) c) = _ at hidle
  change st.echoes c.loopback (CSerial.drain (c.txfifo.used + 1) c) = _ at hechoes
  rw [hidle, hechoes, List.append_nil, show Stage.idle.coming c.loopback = [] from rfl,
    List.append_nil] at hall
  exact (h.passed hlegal).trans hall

/-! ### In the order written -/

/-- Each byte comes out as itself exactly if none is written that comes out as another. -/
theorem echoes_eq_written_iff (st : Stage) (transfers : List Transfer) :
    (∀ done, done <+: transfers → st.echoes loopback done = written done) ↔
      ∀ done data, done ++ [.write data] <+: transfers →
        (st.after loopback done).echo loopback (.write data) = [data] := by
  have hwritten : ∀ done more, written (done ++ more) = written done ++ written more := by
    intro done more
    induction done with
    | nil => rfl
    | cons t rest ih => cases t <;> simp [written, ih]
  have hlast : ∀ done t, st.echoes loopback (done ++ [t]) =
      st.echoes loopback done ++ (st.after loopback done).echo loopback t := by
    intro done t
    rw [echoes_append]
    exact congrArg _ (List.append_nil _)
  constructor
  · intro hall done data hdone
    have hnow := hall _ hdone
    have hbefore := hall done ((List.prefix_append done _).trans hdone)
    rw [hlast, hwritten, hbefore] at hnow
    exact List.append_cancel_left hnow
  · intro hall done
    induction done using List.reverseRecOn with
    | nil => exact fun _ => rfl
    | append_singleton done t ih =>
      intro hdone
      rw [hlast, hwritten, ih ((List.prefix_append done _).trans hdone)]
      cases t with
      | write data =>
        rw [hall done data hdone]
        rfl
      | event IF type => cases st.after loopback done <;> rfl

end Stage

namespace CSerial

/-- The byte under way, as the loopback remembers it. -/
def inFlight (s : CSerial) : Byte :=
  if s.sync_guardtime then s.txfifo.probeByte else s.loopback_data

/-- A byte is written while another one is looped back: the other one will be received again in
its place. -/
def Misheard (s : CSerial) (data : Byte) : Prop :=
  s.loopback = true ∧ s.LSR &&& LSR_TX_EMPTY_MASK = 0 ∧ data ≠ s.inFlight

theorem misheard_iff {s : CSerial} {st : Stage} (h : st.Of s.sender) (data : Byte) :
    s.Misheard data ↔ st.echo s.loopback (.write data) ≠ [data] := by
  have hbusy : s.LSR &&& LSR_TX_EMPTY_MASK = 0 ↔ st ≠ .idle :=
    decide_eq_true_iff.symm.trans h.busy_iff
  unfold Misheard
  rw [hbusy]
  have hcase : ∀ b, st.echo s.loopback (.write data) = [if s.loopback then b else data] →
      st ≠ .idle → (s.loopback = true → s.inFlight = b) →
      (s.loopback = true ∧ st ≠ .idle ∧ data ≠ s.inFlight ↔
        st.echo s.loopback (.write data) ≠ [data]) := by
    intro b hecho hne hflight
    rw [hecho]
    cases hloop : s.loopback with
    | false => simp
    | true =>
      rw [hflight hloop]
      simp [hne, eq_comm]
  cases st with
  | idle => exact iff_of_false (fun hm => hm.2.1 rfl) fun hne => hne rfl
  | warming b q =>
    obtain ⟨-, hq, hguard, -⟩ := h
    refine hcase b rfl Stage.noConfusion fun _ => ?_
    have hguard' : s.sync_guardtime = true := hguard
    have hne : ¬ s.txfifo.isEmpty := by
      rw [← MyFifo.contents_eq_nil_iff, show s.txfifo.contents = b :: q from hq]
      exact List.cons_ne_nil b q
    have hcons := MyFifo.contents_eq_cons hne
    rw [show s.txfifo.contents = b :: q from hq] at hcons
    rw [inFlight, if_pos hguard']
    exact (List.cons.inj hcons).1.symm
  | sending b q =>
    obtain ⟨-, -, hguard, -, hdata⟩ := h
    have hguard' : s.sync_guardtime = false := hguard
    refine hcase b rfl Stage.noConfusion fun hloop => ?_
    rw [inFlight, if_neg (by rw [hguard']; exact Bool.false_ne_true)]
    exact hdata hloop

theorem Legal.before {s : CSerial} {done transfers : List Transfer}
    (h : s.Legal transfers) (hdone : done <+: transfers) : s.Legal done := by
  induction done generalizing s transfers with
  | nil => trivial
  | cons t rest ih =>
    obtain ⟨more, rfl⟩ := hdone
    exact ⟨h.1, ih h.2 (List.prefix_append rest more)⟩

/-- **The bytes come out once each and in the order written**, and the transmitter is empty when all
of them have, exactly if no byte is written while the loopback is busy with a different one. -/
theorem transmission_iff (s : CSerial) (transfers : List Transfer)
    (hidle : Stage.Of .idle s.sender) (hlegal : s.Legal transfers) :
    (∀ done, done <+: transfers →
        s.passed done ++ (s.exec done).coming = written done ∧
          ((s.exec done).LSR &&& LSR_TX_EMPTY_MASK ≠ 0 ↔
            completions done = (written done).length)) ↔
      ∀ done data, done ++ [.write data] <+: transfers → ¬ (s.exec done).Misheard data := by
  have hall : ∀ done, done <+: transfers →
      s.passed done ++ (s.exec done).coming = Stage.idle.echoes s.loopback done := by
    intro done hdone
    obtain ⟨hof, hloop⟩ := hidle.exec (hlegal.before hdone)
    rw [hidle.passed (hlegal.before hdone), hof.coming, hloop]
    exact Stage.out_append_coming Stage.idle done
  have hempty : ∀ done, done <+: transfers →
      ((s.exec done).LSR &&& LSR_TX_EMPTY_MASK ≠ 0 ↔
        completions done = (written done).length) := by
    intro done hdone
    obtain ⟨hof, -⟩ := hidle.exec (hlegal.before hdone)
    have hsum := hidle.exec_outstanding (hlegal.before hdone)
    have hbusy : (s.exec done).LSR &&& LSR_TX_EMPTY_MASK = 0 ↔ _ :=
      decide_eq_true_iff.symm.trans hof.busy_iff
    rw [Ne, hbusy, not_not]
    have hzero : Stage.idle.after s.loopback done = .idle ↔
        (Stage.idle.after s.loopback done).outstanding = 0 := by
      cases Stage.idle.after s.loopback done <;> simp [Stage.outstanding]
    rw [hzero]
    change _ = 0 + _ at hsum
    omega
  have hmisheard : ∀ done data, done ++ [.write data] <+: transfers →
      (¬ (s.exec done).Misheard data ↔
        (Stage.idle.after s.loopback done).echo s.loopback (.write data) = [data]) := by
    intro done data hdone
    obtain ⟨hof, hloop⟩ := hidle.exec
      (hlegal.before ((List.prefix_append done _).trans hdone))
    rw [misheard_iff hof, hloop, Ne, not_not]
  have horder := @Stage.echoes_eq_written_iff s.loopback .idle transfers
  refine Iff.trans ?_ (horder.trans ?_)
  · refine forall₂_congr fun done hdone => ?_
    rw [hall done hdone]
    exact and_iff_left (hempty done hdone)
  · exact forall₂_congr fun done data => forall_congr' fun hdone =>
      (hmisheard done data hdone).symm

/-- The port with the FIFO on: two bytes are written, and all events happen. -/
def buffered : CSerial := powerOn.Write_FCR 1#8

def twoBytes : List Transfer :=
  [.write 1#8, .write 2#8, .event true .THR, .event true .TX, .event true .TX]

theorem buffered_transmission :
    buffered.passed twoBytes ++ (buffered.exec twoBytes).coming = [1#8, 2#8] ∧
      (buffered.exec twoBytes).LSR &&& LSR_TX_EMPTY_MASK ≠ 0 := by
  have hidle : Stage.Of .idle buffered.sender := ⟨by decide, by decide, by decide, by decide⟩
  have hlegal : buffered.Legal twoBytes :=
    ⟨by decide, by decide, by decide, by decide, by decide, trivial⟩
  have hheard : ∀ done data, done ++ [.write data] <+: twoBytes →
      ¬ (buffered.exec done).Misheard data := by
    intro done data hdone hmis
    have hbefore := hlegal.before ((List.prefix_append done _).trans hdone)
    exact absurd ((hidle.exec hbefore).2.symm.trans hmis.1) (by decide)
  obtain ⟨hpassed, hempty⟩ :=
    (transmission_iff buffered twoBytes hidle hlegal).2 hheard twoBytes (List.prefix_refl _)
  exact ⟨hpassed, hempty.2 (by decide)⟩

def loopedBack : CSerial := buffered.Write_MCR 0x10#8

def twoLoopedBytes : List Transfer :=
  [.write 1#8, .write 2#8, .event true .THR_LOOPBACK, .event true .TX_LOOPBACK,
    .event true .TX_LOOPBACK]

/-- The same in loopback mode: the first byte is received twice, the second not at all. -/
theorem loopback_misheard :
    loopedBack.Legal twoLoopedBytes ∧ loopedBack.looped twoLoopedBytes = [1#8, 1#8] ∧
      ¬ ∀ done, done <+: twoLoopedBytes →
        loopedBack.passed done ++ (loopedBack.exec done).coming = written done := by
  refine ⟨⟨by decide, by decide, by decide, by decide, by decide, trivial⟩, by decide, ?_⟩
  intro hall
  exact absurd (hall _ (List.prefix_refl _)) (by decide)

end CSerial

end Serial

end AugraDosbox
