import AugraDosbox.Hardware.SerialFifo

/-!
# The UART of a serial port

`CSerial` of `src/hardware/serialport/serialport.cpp`, the part that moves bytes.

* `Interrupts` — the sub-interrupts and the interrupt line;
* `CSerial` — the FIFOs and registers, the events that are due, and the bytes `transmitByte` was
  called with;
* `receiveByteEx`, `Read_RHR`, `Read_LSR`, `Write_FCR` — the receiving side;
* `Write_THR`, `ByteTransmitting`, `ByteTransmitted`, `handleEvent` — the sending side, with the
  events of a device like `CSerialDummy` or `CNullModem`;
* `Init_Registers` — power on.

How long an event takes is left out, and so are the modem lines and the break condition.
-/

namespace AugraDosbox

namespace Serial

/-! ## Interrupts -/

def RX_PRIORITY : Byte := 1#8
def TX_PRIORITY : Byte := 2#8
def ERROR_PRIORITY : Byte := 4#8
def MSR_PRIORITY : Byte := 8#8
def TIMEOUT_PRIORITY : Byte := 0x10#8

/-- The interrupt registers; `line` is what the interrupt controller was told last. -/
structure Interrupts where
  IER : Byte
  ISR : Byte
  waiting_interrupts : Byte
  irq_active : Bool
  op2 : Bool
  line : Bool
deriving DecidableEq

namespace Interrupts

variable (i : Interrupts)

def ComputeInterrupts : Interrupts :=
  let val := i.IER &&& i.waiting_interrupts
  let i := { i with
    ISR :=
      if val &&& ERROR_PRIORITY ≠ 0 then 0x6#8
      else if val &&& TIMEOUT_PRIORITY ≠ 0 then 0xc#8
      else if val &&& RX_PRIORITY ≠ 0 then 0x4#8
      else if val &&& TX_PRIORITY ≠ 0 then 0x2#8
      else if val &&& MSR_PRIORITY ≠ 0 then 0x0#8
      else 0x1#8 }
  if val ≠ 0 ∧ i.irq_active = false then { i with irq_active := true, line := i.line || i.op2 }
  else if val = 0 ∧ i.irq_active then { i with irq_active := false, line := i.line && !i.op2 }
  else i

def rise (priority : Byte) : Interrupts :=
  ComputeInterrupts { i with waiting_interrupts := i.waiting_interrupts ||| priority }

def clear (priority : Byte) : Interrupts :=
  ComputeInterrupts { i with waiting_interrupts := i.waiting_interrupts &&& ~~~priority }

end Interrupts

/-! ## The port -/

/-- The errors since the last message about them. -/
structure ErrorCounts where
  errormsg_pending : Bool
  framingErrors : ℕ
  parityErrors : ℕ
  overrunErrors : ℕ
  overrunIF0 : ℕ
  txOverrunErrors : ℕ
  breakErrors : ℕ
deriving DecidableEq

/-- What `setEvent` is called with; `TX` and `THR` are the device's. -/
inductive Event where
  | TX_LOOPBACK
  | THR_LOOPBACK
  | ERRMSG
  | TX
  | THR
  | RX_TIMEOUT
deriving DecidableEq, Repr

def fifosize : ℕ := 16

instance : NeZero fifosize := ⟨by decide⟩

scoped instance neZero_one : NeZero 1 := ⟨by decide⟩

structure CSerial where
  rxfifo : MyFifo
  errorfifo : MyFifo
  txfifo : MyFifo
  errors_in_fifo : BitVec 32
  rx_interrupt_threshold : ℕ
  FCR : Byte
  LCR : Byte
  LSR : Byte
  baud_divider : BitVec 16
  sync_guardtime : Bool
  loopback : Bool
  loopback_data : Byte
  interrupts : Interrupts
  counts : ErrorCounts
  /-- The events that are due, oldest first. -/
  events : List Event
  /-- The bytes that `transmitByte` was called with. -/
  transmitted : List Byte
deriving DecidableEq

def LCR_DIVISOR_Enable_MASK : Byte := 0x80#8

def LSR_RX_DATA_READY_MASK : Byte := 0x1#8
def LSR_OVERRUN_ERROR_MASK : Byte := 0x2#8
def LSR_PARITY_ERROR_MASK : Byte := 0x4#8
def LSR_FRAMING_ERROR_MASK : Byte := 0x8#8
def LSR_RX_BREAK_MASK : Byte := 0x10#8
def LSR_TX_HOLDING_EMPTY_MASK : Byte := 0x20#8
def LSR_TX_EMPTY_MASK : Byte := 0x40#8
def LSR_ERROR_MASK : Byte := 0x1e#8
def FIFO_ERROR : Byte := 0x80#8

def FCR_ACTIVATE : Byte := 0x01#8
def FCR_CLEAR_RX : Byte := 0x02#8
def FCR_CLEAR_TX : Byte := 0x04#8

namespace CSerial

variable (s : CSerial)

/-- `FCR & FCR_ACTIVATE`. -/
abbrev fifoActive : Prop := s.FCR &&& FCR_ACTIVATE ≠ 0

/-- `LCR & LCR_DIVISOR_Enable_MASK`. -/
abbrev divisorEnabled : Prop := s.LCR &&& LCR_DIVISOR_Enable_MASK ≠ 0

def setEvent (type : Event) : CSerial := { s with events := s.events ++ [type] }

def removeEvent (type : Event) : CSerial := { s with events := s.events.filter (· ≠ type) }

def rise (priority : Byte) : CSerial := { s with interrupts := s.interrupts.rise priority }

def clear (priority : Byte) : CSerial := { s with interrupts := s.interrupts.clear priority }

/-! ## Receiving -/

/-- `receiveByteEx`, the byte itself. -/
def addData (data : Byte) : CSerial :=
  let s := removeEvent { s with rxfifo := (s.rxfifo.addb data).1 } .RX_TIMEOUT
  if s.rxfifo.getUsage = s.rx_interrupt_threshold then s.rise RX_PRIORITY
  else s.setEvent .RX_TIMEOUT

/-- `receiveByteEx`, an error with the FIFO active. -/
def addError (error : Byte) : CSerial :=
  if ¬ s.errorfifo.isFull then
    { s with
      errors_in_fifo := s.errors_in_fifo + 1
      errorfifo := (s.errorfifo.addb error).1 }
  else
    let toperror := s.errorfifo.getTop
    { s with
      errors_in_fifo := if toperror = 0 then s.errors_in_fifo + 1 else s.errors_in_fifo
      errorfifo := (s.errorfifo.addb (error ||| toperror)).1 }

/-- An error that LSR tells the guest about. -/
def reportError (error : Byte) : CSerial :=
  { s.rise ERROR_PRIORITY with LSR := s.LSR ||| error }

/-- `receiveByteEx`, where the error goes: to the errors of the FIFO, and to LSR if the next byte
is one with an error, or there is no FIFO. -/
def recordError (error : Byte) : CSerial :=
  if s.fifoActive then
    let s := s.addError error
    if s.errorfifo.probeByte ≠ 0 then s.reportError error else s
  else s.reportError error

/-- `receiveByteEx`, the counters for the message; `IF` is the processor's interrupt flag. -/
def countErrors (IF : Bool) (error : Byte) : CSerial :=
  let overrun := error &&& LSR_OVERRUN_ERROR_MASK ≠ 0
  let c := s.counts
  let c := { c with
    parityErrors := if error &&& LSR_PARITY_ERROR_MASK ≠ 0 then c.parityErrors + 1 else c.parityErrors
    overrunErrors := if overrun then c.overrunErrors + 1 else c.overrunErrors
    overrunIF0 := if overrun ∧ IF = false then c.overrunIF0 + 1 else c.overrunIF0
    framingErrors :=
      if error &&& LSR_FRAMING_ERROR_MASK ≠ 0 then c.framingErrors + 1 else c.framingErrors
    breakErrors := if error &&& LSR_RX_BREAK_MASK ≠ 0 then c.breakErrors + 1 else c.breakErrors }
  if c.errormsg_pending then { s with counts := c }
  else setEvent { s with counts := { c with errormsg_pending := true } } .ERRMSG

/-- A break is a framing error too. -/
def breakError (error : Byte) : Byte :=
  if error &&& LSR_RX_BREAK_MASK ≠ 0 then error ||| LSR_FRAMING_ERROR_MASK else error

def receiveByteEx (IF : Bool) (data error : Byte) : CSerial :=
  let error := if (s.rxfifo.addb data).2 then error else error ||| LSR_OVERRUN_ERROR_MASK
  let s := s.addData data
  if error ≠ 0 then (s.recordError (breakError error)).countErrors IF (breakError error)
  else if s.fifoActive then { s with errorfifo := (s.errorfifo.addb error).1 }
  else s

def receiveByte (IF : Bool) (data : Byte) : CSerial := s.receiveByteEx IF data 0#8

/-- `Read_RHR`, the error FIFO: it goes on with the data, and the next byte's error goes to LSR. -/
def nextError : CSerial :=
  let error := s.errorfifo.getb.2
  let s := { s with
    errorfifo := s.errorfifo.getb.1
    errors_in_fifo := if error ≠ 0 then s.errors_in_fifo - 1 else s.errors_in_fifo }
  if ¬ s.rxfifo.isEmpty ∧ s.errorfifo.probeByte ≠ 0 then s.reportError s.errorfifo.probeByte
  else s

def Read_RHR : CSerial × Byte :=
  if s.divisorEnabled then (s, s.baud_divider.setWidth 8)
  else
    let data := s.rxfifo.getb.2
    let s := { s with rxfifo := s.rxfifo.getb.1 }
    let s := if s.fifoActive then s.nextError else s
    let s := s.clear TIMEOUT_PRIORITY
    let s := if s.rxfifo.getUsage < s.rx_interrupt_threshold then s.clear RX_PRIORITY else s
    let s := s.removeEvent .RX_TIMEOUT
    (if ¬ s.rxfifo.isEmpty then s.setEvent .RX_TIMEOUT else s, data)

def Read_LSR : CSerial × Byte :=
  let retval := s.LSR &&& (LSR_ERROR_MASK ||| LSR_TX_EMPTY_MASK)
  let retval := if s.txfifo.isEmpty then retval ||| LSR_TX_HOLDING_EMPTY_MASK else retval
  let retval := if ¬ s.rxfifo.isEmpty then retval ||| LSR_RX_DATA_READY_MASK else retval
  let retval := if s.errors_in_fifo ≠ 0 then retval ||| FIFO_ERROR else retval
  (clear { s with LSR := s.LSR &&& ~~~LSR_ERROR_MASK } ERROR_PRIORITY, retval)

/-! ## Control registers -/

/-- `Write_FCR`, the FIFOs change their size when they are switched on or off. -/
def switchFifos (data : Byte) : CSerial :=
  if s.FCR &&& FCR_ACTIVATE = 0 ∧ data &&& FCR_ACTIVATE ≠ 0 then
    { s with
      errors_in_fifo := 0
      errorfifo := s.errorfifo.setSize fifosize
      rxfifo := s.rxfifo.setSize fifosize
      txfifo := s.txfifo.setSize fifosize }
  else if s.FCR &&& FCR_ACTIVATE ≠ 0 ∧ data &&& FCR_ACTIVATE = 0 then
    { s with
      errors_in_fifo := 0
      errorfifo := s.errorfifo.setSize 1
      rxfifo := s.rxfifo.setSize 1
      txfifo := s.txfifo.setSize 1
      rx_interrupt_threshold := 1 }
  else s

/-- `Write_FCR`, `FCR_CLEAR_RX`. -/
def clearRx : CSerial :=
  if s.FCR &&& FCR_CLEAR_RX ≠ 0 then
    { s with errors_in_fifo := 0, errorfifo := s.errorfifo.clear, rxfifo := s.rxfifo.clear }
  else s

/-- `Write_FCR`, `FCR_CLEAR_TX`. -/
def clearTx : CSerial :=
  if s.FCR &&& FCR_CLEAR_TX ≠ 0 then { s with txfifo := s.txfifo.clear } else s

/-- `Write_FCR`, the trigger level. -/
def setThreshold : CSerial :=
  if s.fifoActive then
    { s with
      rx_interrupt_threshold :=
        match (s.FCR >>> 6).toNat with
        | 0 => 1
        | 1 => 4
        | 2 => 8
        | _ => 14 }
  else s

def Write_FCR (data : Byte) : CSerial :=
  let s := { s.switchFifos data with FCR := data &&& 0xCF#8 }
  s.clearRx.clearTx.setThreshold

def Write_IER (data : Byte) : CSerial :=
  if s.divisorEnabled then
    { s with baud_divider := (s.baud_divider &&& 0xff#16) ||| (data.setWidth 16 <<< 8) }
  else
    let i := s.interrupts
    let waiting :=
      if s.txfifo.isEmpty ∧ data &&& TX_PRIORITY ≠ 0 then i.waiting_interrupts ||| TX_PRIORITY
      else i.waiting_interrupts
    let IER := data &&& 0xF#8
    let IER := if s.fifoActive ∧ data &&& RX_PRIORITY ≠ 0 then IER ||| TIMEOUT_PRIORITY else IER
    { s with
      interrupts :=
        Interrupts.ComputeInterrupts { i with IER := IER, waiting_interrupts := waiting } }

def Write_LCR (data : Byte) : CSerial := { s with LCR := data }

/-- `Write_MCR`, the loopback mode and the gate of the interrupt line. -/
def Write_MCR (data : Byte) : CSerial :=
  let i := s.interrupts
  let op2 := decide (data &&& 0x8#8 ≠ 0)
  let line :=
    if i.op2 = false ∧ op2 then i.line || i.irq_active
    else if i.op2 ∧ op2 = false then i.line && !i.irq_active
    else i.line
  { s with
    interrupts := { i with op2 := op2, line := line }
    loopback := decide (data &&& 0x10#8 ≠ 0) }

/-! ## Sending -/

/-- `transmitByte` of a device that announces both stages by events. -/
def transmitByte (val : Byte) (first : Bool) : CSerial :=
  setEvent { s with transmitted := s.transmitted ++ [val] } (if first then .THR else .TX)

def ByteTransmitting : CSerial :=
  let s :=
    if s.sync_guardtime then { s with sync_guardtime := false, txfifo := s.txfifo.getb.1 } else s
  if s.txfifo.isEmpty then s.rise TX_PRIORITY else s

def ByteTransmitted : CSerial :=
  if ¬ s.txfifo.isEmpty then
    let data := s.txfifo.getb.2
    let s := { s with txfifo := s.txfifo.getb.1 }
    let s := if s.loopback then s.setEvent .TX_LOOPBACK else s.transmitByte data false
    if s.txfifo.isEmpty then s.rise TX_PRIORITY else s
  else { s with LSR := s.LSR ||| LSR_TX_EMPTY_MASK }

/-- `Write_THR`, the port was idle: the byte stays in the FIFO while it warms up. -/
def startTransmit (data : Byte) : CSerial :=
  let s := { s with
    sync_guardtime := true
    txfifo := (s.txfifo.addb data).1
    LSR := s.LSR &&& ~~~LSR_TX_EMPTY_MASK }
  if s.loopback then s.setEvent .THR_LOOPBACK else s.transmitByte data true

/-- `Write_THR`, the shift register is transmitting. -/
def queueTransmit (data : Byte) : CSerial :=
  if (s.txfifo.addb data).2 then { s with txfifo := (s.txfifo.addb data).1 }
  else
    let c := { s.counts with txOverrunErrors := s.counts.txOverrunErrors + 1 }
    let s := { s with txfifo := (s.txfifo.addb data).1 }
    if c.errormsg_pending then { s with counts := c }
    else setEvent { s with counts := { c with errormsg_pending := true } } .ERRMSG

def Write_THR (data : Byte) : CSerial :=
  if s.divisorEnabled then
    { s with baud_divider := (s.baud_divider &&& 0xff00#16) ||| data.setWidth 16 }
  else
    let s := s.clear TX_PRIORITY
    if s.LSR &&& LSR_TX_EMPTY_MASK ≠ 0 then s.startTransmit data else s.queueTransmit data

/-- `handleEvent`, and `handleUpperEvent` of the device. -/
def handleEvent (IF : Bool) : Event → CSerial
  | .TX_LOOPBACK => (s.receiveByte IF s.loopback_data).ByteTransmitted
  | .THR_LOOPBACK =>
      (ByteTransmitting { s with loopback_data := s.txfifo.probeByte }).setEvent .TX_LOOPBACK
  | .ERRMSG => { s with counts := ⟨false, 0, 0, 0, 0, 0, 0⟩ }
  | .RX_TIMEOUT => s.rise TIMEOUT_PRIORITY
  | .TX => s.ByteTransmitted
  | .THR => s.ByteTransmitting.setEvent .TX

/-! ## Power on -/

/-- `Init_Registers`: 9600 baud, eight bits, no parity. -/
def Init_Registers : CSerial :=
  let s := { s with
    interrupts := ⟨0#8, 1#8, 0#8, false, true, false⟩
    LCR := 0#8
    loopback := true
    sync_guardtime := false
    FCR := 0xff#8 }
  let s := s.Write_FCR 0#8
  let s := { s with LSR := 0x60#8, baud_divider := 0#16 }
  let s := s.Write_MCR 0#8
  let s := s.Write_LCR LCR_DIVISOR_Enable_MASK
  let s := s.Write_THR 12#8
  let s := s.Write_IER 0#8
  s.Write_LCR 3#8

/-- The constructor of `CSerial`, and that of a device. -/
def powerOn : CSerial :=
  Init_Registers {
    rxfifo := .new fifosize
    errorfifo := .new fifosize
    txfifo := .new fifosize
    errors_in_fifo := 0
    rx_interrupt_threshold := 0
    FCR := 0#8
    LCR := 0#8
    LSR := 0#8
    baud_divider := 0#16
    sync_guardtime := false
    loopback := false
    loopback_data := 0#8
    interrupts := ⟨0#8, 0#8, 0#8, false, false, false⟩
    counts := ⟨false, 0, 0, 0, 0, 0, 0⟩
    events := []
    transmitted := [] }

end CSerial

end Serial

end AugraDosbox
