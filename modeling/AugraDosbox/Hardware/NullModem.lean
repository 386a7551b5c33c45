import Mathlib.Data.List.Basic
import Mathlib.Tactic.Common

/-!
# The null-modem link

One direction of the link between two `CNullModem` peers, as
`src/hardware/serialport/nullmodem.cpp` and the socket buffer of `misc_util.cpp` have
it, over a reliable ordered byte stream.

* `Sender`, `Receiver`, `Link` — the two ends and the bytes under way, with what was
  issued at one end and the calls made at the other;
* `transmitByte`, `setRTSDTR`, `setRTS`, `setDTR`, `setBreak`, `FlushBuffer` — the
  sending end: data bytes go through a buffer, line states do not;
* `readChar`, `doReceive` — the receiving end, which keeps no state between polls;
* `not_reproduced` — an escape pair that arrives in two parts, and a line change made
  while bytes wait in the buffer;
* **`run_reproduces`** — a run without these two reproduces what was issued.

Telnet mode, connecting and disconnecting are left out, and so are the timers that
decide when the polls and flushes happen: they happen at any moment here.
-/

namespace AugraDosbox

namespace NullModem

abbrev Byte := BitVec 8

/-! ## The two ends -/

/-- What the sending end is told to convey. -/
inductive Issued where
  | data (val : Byte)
  /-- The state of the lines, with the break condition. -/
  | lines (rts dtr brk : Bool)
deriving DecidableEq, Repr

/-- A call made at the receiving end. -/
inductive Received where
  | setCTS (val : Bool)
  | setDSR (val : Bool)
  | receiveByteEx (data error : Byte)
deriving DecidableEq, Repr

/-- The sending port: its registers, and the bytes in the first `sendbufferindex` places
of the send buffer. -/
structure Sender where
  transparent : Bool
  LCR : Byte
  rts : Bool
  dtr : Bool
  loopback : Bool
  sendbuffer : List Byte
deriving DecidableEq, Repr

/-- The receiving port: the bytes its socket holds, and the calls made so far. -/
structure Receiver where
  transparent : Bool
  arrived : List Byte
  calls : List Received
deriving DecidableEq, Repr

/-- Both ports, the bytes on their way, and everything issued so far. -/
structure Link where
  sender : Sender
  stream : List Byte
  receiver : Receiver
  issued : List Issued
deriving DecidableEq, Repr

namespace Link

variable (l : Link)

/-! ## Sending -/

/-- The size that `SetSendBufferSize` is called with. -/
def sendBufferSize : ℕ := 256

/-- `SendArray` on a socket that stays open. -/
def SendArray (data : List Byte) : Link := { l with stream := l.stream ++ data }

def FlushBuffer : Link :=
  if l.sender.sendbuffer.length ≠ 0 then
    SendArray { l with sender := { l.sender with sendbuffer := [] } } l.sender.sendbuffer
  else l

/-- `SendByteBuffered`: a full buffer is sent. -/
def SendByteBuffered (val : Byte) : Link :=
  let buffer := l.sender.sendbuffer ++ [val]
  if l.sender.sendbuffer.length < sendBufferSize - 1 then
    { l with sender := { l.sender with sendbuffer := buffer } }
  else SendArray { l with sender := { l.sender with sendbuffer := [] } } buffer

/-- `transmitByte`: outside transparent mode `0xff` is doubled. -/
def transmitByte (val : Byte) : Link :=
  let l := if l.sender.transparent = false ∧ val = 0xff#8 then l.SendByteBuffered 0xff#8 else l
  l.SendByteBuffered val

/-- `LCR & LCR_BREAK_MASK`. -/
def breakOn : Bool := decide (l.sender.LCR &&& 0x40#8 ≠ 0)

/-- The byte `ctrl_lines[1]`. -/
def ctrlLines (rts dtr brk : Bool) : Byte :=
  (if rts then 1#8 else 0#8) ||| (if dtr then 2#8 else 0#8) ||| (if brk then 4#8 else 0#8)

/-- `setRTSDTR`: the line states go straight to the socket. -/
def setRTSDTR (xrts xdtr : Bool) : Link :=
  if l.sender.transparent then l else l.SendArray [0xff#8, ctrlLines xrts xdtr l.breakOn]

def getRTS : Bool := if l.sender.loopback then false else l.sender.rts

def getDTR : Bool := if l.sender.loopback then false else l.sender.dtr

/-! ## Receiving -/

/-- `readChar`, with the number of further bytes that arrive before its second read.  The
byte it answers is the payload, if there is one. -/
def readChar (late : ℕ) : Link × Option Byte :=
  let arrives (rest : List Byte) (calls : List Received) : Link :=
    { l with
      stream := l.stream.drop late
      receiver := { l.receiver with arrived := rest, calls := l.receiver.calls ++ calls } }
  match l.receiver.arrived with
  | [] => (arrives (l.stream.take late) [], none)
  | val :: rest =>
    if val = 0xff#8 ∧ l.receiver.transparent = false then
      -- the escape byte has been taken from the socket, whatever comes next
      match rest ++ l.stream.take late with
      | [] => (arrives [] [], none)
      | val :: rest =>
        if val = 0xff#8 then (arrives rest [], some val)
        else
          let lines := [.setCTS (decide (val &&& 0x1#8 ≠ 0)), .setDSR (decide (val &&& 0x2#8 ≠ 0))]
          let brk := if val &&& 0x4#8 ≠ 0 then [.receiveByteEx 0x0 0x10] else []
          (arrives rest (lines ++ brk), none)
    else (arrives (rest ++ l.stream.take late) [], some val)

def doReceive (late : ℕ) : Link :=
  match l.readChar late with
  | (l, some val) =>
    { l with receiver := { l.receiver with
      calls := l.receiver.calls ++ [.receiveByteEx val 0] } }
  | (l, none) => l

/-! ## Runs -/

/-- A line change with the record of it. -/
def changeLines (xrts xdtr : Bool) : Link :=
  { l.setRTSDTR xrts xdtr with issued := l.issued ++ [.lines xrts xdtr l.breakOn] }

end Link

/-- What happens at the two ends and between them. -/
inductive Action where
  | transmitByte (val : Byte)
  | setRTSDTR (xrts xdtr : Bool)
  | setRTS (val : Bool)
  | setDTR (val : Bool)
  | setBreak
  /-- The guest writes the port's registers. -/
  | registers (LCR : Byte) (rts dtr loopback : Bool)
  /-- `SERIAL_TX_REDUCTION` flushes the buffer. -/
  | flush
  /-- The next bytes of the stream arrive. -/
  | arrive (n : ℕ)
  /-- The receiver calls `doReceive`; some bytes may arrive meanwhile. -/
  | poll (late : ℕ)
deriving DecidableEq, Repr

namespace Link

def step (l : Link) : Action → Link
  | .transmitByte val => { l.transmitByte val with issued := l.issued ++ [.data val] }
  | .setRTSDTR xrts xdtr => l.changeLines xrts xdtr
  | .setRTS val => l.changeLines val l.getDTR
  | .setDTR val => l.changeLines l.getRTS val
  | .setBreak => l.changeLines l.getRTS l.getDTR
  | .registers LCR rts dtr loopback =>
    { l with sender := { l.sender with LCR := LCR, rts := rts, dtr := dtr, loopback := loopback } }
  | .flush => l.FlushBuffer
  | .arrive n =>
    { l with
      stream := l.stream.drop n
      receiver := { l.receiver with arrived := l.receiver.arrived ++ l.stream.take n } }
  | .poll late => l.doReceive late

/-- Two peers that have just been connected, not in transparent mode. -/
def start (LCR : Byte) (rts dtr loopback : Bool) : Link :=
  { sender := ⟨false, LCR, rts, dtr, loopback, []⟩, stream := []
    receiver := ⟨false, [], []⟩, issued := [] }

/-- The link after a list of actions. -/
def run (l : Link) (actions : List Action) : Link := actions.foldl step l

/-- The calls by which the receiver conveys what was issued. -/
def expected : Issued → List Received
  | .data val => [.receiveByteEx val 0]
  | .lines rts dtr brk =>
    [.setCTS rts, .setDSR dtr] ++ if brk then [.receiveByteEx 0x0 0x10] else []

/-- The receiver's calls so far are those for what was issued, in its order, and when
nothing is under way any more they are all of them. -/
def Reproduces (l : Link) : Prop :=
  l.receiver.calls <+: l.issued.flatMap expected ∧
    (l.sender.sendbuffer = [] → l.stream = [] → l.receiver.arrived = [] →
      l.receiver.calls = l.issued.flatMap expected)

/-- **What is lost or misplaced.**  An escape pair that arrives in two parts is lost, and
a line change overtakes the bytes that wait in the send buffer. -/
theorem not_reproduced :
    ¬ Reproduces ((start 0 true true false).run
      [.transmitByte 0xff#8, .flush, .arrive 1, .poll 0, .arrive 1, .poll 0]) ∧
    ¬ Reproduces ((start 0 true true false).run
      [.transmitByte 0x41, .setRTSDTR false true, .flush, .arrive 3, .poll 0, .poll 0]) := by
  constructor
  · rintro ⟨-, hall⟩
    exact absurd (hall (by decide) (by decide) (by decide)) (by decide)
  · rintro ⟨hheads, -⟩
    exact absurd hheads (by decide)

/-! ## Careful runs -/

/-- No line change is made while bytes wait in the send buffer, and no poll takes the
escape byte of a pair whose other byte does not arrive in time. -/
def Careful (l : Link) : Action → Prop
  | .setRTSDTR _ _ | .setRTS _ | .setDTR _ | .setBreak => l.sender.sendbuffer = []
  | .poll late => l.receiver.arrived = [0xff#8] → late ≠ 0 ∧ l.stream ≠ []
  | _ => True

instance (l : Link) : (a : Action) → Decidable (l.Careful a)
  | .setRTSDTR _ _ | .setRTS _ | .setDTR _ | .setBreak => inferInstanceAs (Decidable (_ = _))
  | .poll _ => inferInstanceAs (Decidable (_ → _))
  | .transmitByte _ | .registers _ _ _ _ | .flush | .arrive _ => isTrue trivial

/-- Every action of the list is careful in the state it is taken in. -/
def CarefulRun (l : Link) : List Action → Prop
  | [] => True
  | a :: actions => l.Careful a ∧ CarefulRun (l.step a) actions

instance decidableCarefulRun : (l : Link) → (actions : List Action) →
    Decidable (l.CarefulRun actions)
  | _, [] => isTrue trivial
  | l, a :: actions =>
    have := decidableCarefulRun (l.step a) actions
    inferInstanceAs (Decidable (_ ∧ _))

/-- The bytes of what was issued. -/
def encode : Issued → List Byte
  | .data val => if val = 0xff#8 then [0xff#8, 0xff#8] else [val]
  | .lines rts dtr brk => [0xff#8, ctrlLines rts dtr brk]

/-- The bytes that the receiver has not read yet, in the order in which it will. -/
def wire (l : Link) : List Byte := l.receiver.arrived ++ l.stream ++ l.sender.sendbuffer

/-- What was issued is split into what the receiver has conveyed and what the bytes under
way are the encoding of. -/
structure Inv (l : Link) (rest : List Issued) : Prop where
  sender : l.sender.transparent = false
  receiver : l.receiver.transparent = false
  conveyed : ∃ done, l.issued = done ++ rest ∧ l.receiver.calls = done.flatMap expected
  underWay : l.wire = rest.flatMap encode

section

variable {l l' : Link} {rest : List Issued}

theorem ctrlLines_ne (rts dtr brk : Bool) : ctrlLines rts dtr brk ≠ 0xff#8 := by
  cases rts <;> cases dtr <;> cases brk <;> decide

/-- The receiver reads the line states back from their byte. -/
theorem ctrlLines_read (rts dtr brk : Bool) :
    decide (ctrlLines rts dtr brk &&& 0x1#8 ≠ 0) = rts ∧
      decide (ctrlLines rts dtr brk &&& 0x2#8 ≠ 0) = dtr ∧
      (ctrlLines rts dtr brk &&& 0x4#8 ≠ 0 ↔ brk = true) := by
  cases rts <;> cases dtr <;> cases brk <;> decide

/-! ## The sending end -/

/-- A byte written through the buffer comes last on the wire, whether or not the buffer
is sent. -/
theorem sendByteBuffered_spec (l : Link) (val : Byte) :
    (l.SendByteBuffered val).wire = l.wire ++ [val] ∧
      (l.SendByteBuffered val).sender.transparent = l.sender.transparent ∧
      (l.SendByteBuffered val).receiver = l.receiver ∧
      (l.SendByteBuffered val).issued = l.issued := by
  unfold SendByteBuffered
  dsimp only
  split
  · exact ⟨by simp [wire], rfl, rfl, rfl⟩
  · exact ⟨by simp [wire, SendArray], rfl, rfl, rfl⟩

theorem flushBuffer_wire (l : Link) : l.FlushBuffer.wire = l.wire := by
  unfold FlushBuffer
  split
  · simp [wire, SendArray]
  · rfl

theorem flushBuffer_frame (l : Link) : l.FlushBuffer.sender.transparent = l.sender.transparent ∧
    l.FlushBuffer.receiver = l.receiver ∧ l.FlushBuffer.issued = l.issued := by
  unfold FlushBuffer
  split <;> exact ⟨rfl, rfl, rfl⟩

theorem transmitByte_spec (h : l.sender.transparent = false) (val : Byte) :
    (l.transmitByte val).wire = l.wire ++ encode (.data val) ∧
      (l.transmitByte val).sender.transparent = false ∧
      (l.transmitByte val).receiver = l.receiver := by
  unfold transmitByte encode
  dsimp only
  by_cases hval : val = 0xff#8
  · subst hval
    rw [if_pos ⟨h, rfl⟩, if_pos rfl]
    obtain ⟨hwire, htrans, hrecv, -⟩ := sendByteBuffered_spec l 0xff#8
    obtain ⟨hwire', htrans', hrecv', -⟩ := sendByteBuffered_spec (l.SendByteBuffered 0xff#8) 0xff#8
    refine ⟨?_, htrans'.trans (htrans.trans h), hrecv'.trans hrecv⟩
    rw [hwire', hwire, List.append_assoc]
    rfl
  · rw [if_neg (fun hc => hval hc.2), if_neg hval]
    obtain ⟨hwire, htrans, hrecv, -⟩ := sendByteBuffered_spec l val
    exact ⟨hwire, htrans.trans h, hrecv⟩

/-- Something issued, with its bytes last on the wire. -/
theorem Inv.issue (h : l.Inv rest) {e : Issued} (hwire : l'.wire = l.wire ++ encode e)
    (hsender : l'.sender.transparent = false) (hrecv : l'.receiver = l.receiver)
    (hissued : l'.issued = l.issued ++ [e]) : l'.Inv (rest ++ [e]) := by
  obtain ⟨done, hdone, hcalls⟩ := h.conveyed
  refine ⟨hsender, hrecv ▸ h.receiver, ⟨done, ?_, hrecv ▸ hcalls⟩, ?_⟩
  · rw [hissued, hdone, List.append_assoc]
  · rw [hwire, h.underWay, List.flatMap_append]
    simp

theorem Inv.transmitByte (h : l.Inv rest) (val : Byte) :
    (l.step (.transmitByte val)).Inv (rest ++ [.data val]) := by
  obtain ⟨hwire, htrans, hrecv⟩ := transmitByte_spec h.sender val
  exact h.issue hwire htrans hrecv rfl

/-- With an empty buffer the line states come last on the wire. -/
theorem Inv.changeLines (h : l.Inv rest) (hempty : l.sender.sendbuffer = []) (xrts xdtr : Bool) :
    (l.changeLines xrts xdtr).Inv (rest ++ [.lines xrts xdtr l.breakOn]) := by
  have hset : l.setRTSDTR xrts xdtr = l.SendArray [0xff#8, ctrlLines xrts xdtr l.breakOn] := by
    unfold setRTSDTR
    rw [if_neg (by simp [h.sender])]
  unfold Link.changeLines
  rw [hset]
  refine h.issue ?_ h.sender rfl rfl
  simp [wire, SendArray, encode, hempty]

/-! ## The receiving end -/

/-- A poll that conveys the oldest thing under way. -/
theorem Inv.convey {e : Issued} (h : l.Inv (e :: rest)) (hsender : l'.sender = l.sender)
    (hissued : l'.issued = l.issued) (htrans : l'.receiver.transparent = l.receiver.transparent)
    (hcalls : l'.receiver.calls = l.receiver.calls ++ expected e)
    (hwire : encode e ++ l'.wire = l.wire) : l'.Inv rest := by
  obtain ⟨done, hdone, hold⟩ := h.conveyed
  refine ⟨hsender ▸ h.sender, htrans.trans h.receiver, ⟨done ++ [e], ?_, ?_⟩, ?_⟩
  · rw [hissued, hdone]
    simp
  · rw [hcalls, hold]
    simp
  · have hunder := h.underWay
    rw [← hwire, List.flatMap_cons] at hunder
    exact List.append_cancel_left hunder

theorem readChar_frame (l : Link) (late : ℕ) : (l.readChar late).1.sender = l.sender ∧
    (l.readChar late).1.stream = l.stream.drop late ∧
    (l.readChar late).1.issued = l.issued := by
  unfold readChar
  split
  · exact ⟨rfl, rfl, rfl⟩
  · split
    · split
      · exact ⟨rfl, rfl, rfl⟩
      · split <;> exact ⟨rfl, rfl, rfl⟩
    · exact ⟨rfl, rfl, rfl⟩

theorem doReceive_frame (l : Link) (late : ℕ) : (l.doReceive late).sender = l.sender ∧
    (l.doReceive late).stream = l.stream.drop late ∧ (l.doReceive late).issued = l.issued := by
  have hread := readChar_frame l late
  unfold doReceive
  split <;> rename_i heq <;> rw [heq] at hread <;> exact hread

theorem doReceive_plain {b : Byte} {A : List Byte} {late : ℕ}
    (harr : l.receiver.arrived = b :: A) (hb : b ≠ 0xff#8) :
    l.doReceive late = { l with
      stream := l.stream.drop late
      receiver := { l.receiver with
        arrived := A ++ l.stream.take late
        calls := l.receiver.calls ++ [.receiveByteEx b 0] } } := by
  unfold doReceive readChar
  rw [harr]
  dsimp only
  rw [if_neg (fun hc => hb hc.1)]
  simp

/-- The calls for a whole escape pair. -/
def pairCalls (c : Byte) : List Received :=
  if c = 0xff#8 then [.receiveByteEx c 0]
  else [.setCTS (decide (c &&& 0x1#8 ≠ 0)), .setDSR (decide (c &&& 0x2#8 ≠ 0))] ++
    if c &&& 0x4#8 ≠ 0 then [.receiveByteEx 0x0 0x10] else []

/-- A poll that finds an escape pair first. -/
theorem doReceive_pair {c : Byte} {A A' : List Byte} {late : ℕ}
    (harr : l.receiver.arrived = 0xff#8 :: A) (htrans : l.receiver.transparent = false)
    (hpair : A ++ l.stream.take late = c :: A') :
    l.doReceive late = { l with
      stream := l.stream.drop late
      receiver := { l.receiver with
        arrived := A'
        calls := l.receiver.calls ++ pairCalls c } } := by
  unfold doReceive readChar pairCalls
  rw [harr]
  dsimp only
  rw [if_pos ⟨rfl, htrans⟩, hpair]
  dsimp only
  by_cases hc : c = 0xff#8
  · rw [if_pos hc, if_pos hc]
    simp
  · rw [if_neg hc, if_neg hc]

theorem pairCalls_encode {e : Issued} {c : Byte} (he : encode e = [0xff#8, c]) :
    pairCalls c = expected e := by
  cases e with
  | data val =>
    simp only [encode] at he
    split at he
    · rename_i hval
      obtain rfl : 0xff#8 = c := by simpa using he
      rw [hval]
      rfl
    · simp at he
  | lines rts dtr brk =>
    obtain rfl : ctrlLines rts dtr brk = c := by simpa [encode] using he
    obtain ⟨hrts, hdtr, hbrk⟩ := ctrlLines_read rts dtr brk
    unfold pairCalls expected
    rw [if_neg (ctrlLines_ne rts dtr brk), hrts, hdtr]
    simp only [hbrk]

/-- What is issued is sent as a plain byte or as an escape pair. -/
theorem encode_cases (e : Issued) :
    (∃ b, b ≠ 0xff#8 ∧ encode e = [b] ∧ expected e = [.receiveByteEx b 0]) ∨
      ∃ c, encode e = [0xff#8, c] := by
  cases e with
  | data val =>
    by_cases hval : val = 0xff#8
    · exact .inr ⟨0xff#8, by simp [encode, hval]⟩
    · exact .inl ⟨val, hval, by simp [encode, hval], rfl⟩
  | lines rts dtr brk => exact .inr ⟨_, rfl⟩

/-- **A careful poll conveys the oldest thing under way**, if it finds anything. -/
theorem Inv.poll (h : l.Inv rest) {late : ℕ} (hcareful : l.Careful (.poll late)) :
    (l.receiver.arrived = [] ∧ (l.doReceive late).Inv rest) ∨
      ∃ e rest', rest = e :: rest' ∧ (l.doReceive late).Inv rest' := by
  cases harr : l.receiver.arrived with
  | nil =>
    left
    refine ⟨rfl, ?_⟩
    have heq : l.doReceive late = { l with
        stream := l.stream.drop late
        receiver := { l.receiver with arrived := l.stream.take late } } := by
      simp [doReceive, readChar, harr]
    rw [heq]
    refine ⟨h.sender, h.receiver, h.conveyed, ?_⟩
    rw [← h.underWay]
    simp [wire, harr]
  | cons b A =>
    right
    have hwire : b :: A ++ l.stream ++ l.sender.sendbuffer = rest.flatMap encode := by
      rw [← h.underWay, wire, harr]
    cases rest with
    | nil => simp at hwire
    | cons e rest =>
      refine ⟨e, rest, rfl, ?_⟩
      rw [List.flatMap_cons] at hwire
      rcases encode_cases e with ⟨v, hv, hencode, hexpected⟩ | ⟨c, hencode⟩
      · -- a plain byte
        rw [hencode] at hwire
        obtain ⟨rfl, -⟩ : b = v ∧ _ := by simpa using hwire
        rw [doReceive_plain harr hv]
        refine h.convey rfl rfl rfl (by rw [hexpected]) ?_
        rw [hencode]
        simp [wire, harr]
      · -- a pair, whose second byte has arrived or arrives in time
        rw [hencode] at hwire
        obtain ⟨rfl, htail⟩ : b = 0xff#8 ∧
            A ++ (l.stream ++ l.sender.sendbuffer) = c :: rest.flatMap encode := by
          simpa using hwire
        have hfound : A ++ l.stream.take late ≠ [] := by
          intro hnone
          obtain ⟨rfl, htake⟩ := List.append_eq_nil_iff.1 hnone
          obtain ⟨hlate, hstream⟩ := hcareful harr
          rcases List.take_eq_nil_iff.1 htake with hzero | hempty
          · exact hlate hzero
          · exact hstream hempty
        obtain ⟨c', A', hpair⟩ := List.exists_cons_of_ne_nil hfound
        have hsplit : A ++ (l.stream ++ l.sender.sendbuffer) =
            c' :: (A' ++ l.stream.drop late ++ l.sender.sendbuffer) := by
          rw [← List.take_append_drop late l.stream, List.append_assoc, ← List.append_assoc A,
            hpair]
          simp
        obtain ⟨rfl, -⟩ : c' = c ∧ _ := List.cons.inj (hsplit.symm.trans htail)
        rw [doReceive_pair harr h.receiver hpair]
        refine h.convey rfl rfl rfl (by rw [pairCalls_encode hencode]) ?_
        rw [hencode, wire, wire, harr]
        simpa using hsplit.symm

/-! ## Runs -/

theorem Inv.step (h : l.Inv rest) {a : Action} (hcareful : l.Careful a) :
    ∃ rest', (l.step a).Inv rest' := by
  cases a with
  | transmitByte val => exact ⟨_, h.transmitByte val⟩
  | setRTSDTR xrts xdtr => exact ⟨_, h.changeLines hcareful xrts xdtr⟩
  | setRTS val => exact ⟨_, h.changeLines hcareful val l.getDTR⟩
  | setDTR val => exact ⟨_, h.changeLines hcareful l.getRTS val⟩
  | setBreak => exact ⟨_, h.changeLines hcareful l.getRTS l.getDTR⟩
  | registers LCR rts dtr loopback => exact ⟨rest, h.sender, h.receiver, h.conveyed, h.underWay⟩
  | flush =>
    obtain ⟨htrans, hrecv, hissued⟩ := flushBuffer_frame l
    refine ⟨rest, htrans.trans h.sender, ?_, ?_, (flushBuffer_wire l).trans h.underWay⟩
    · show l.FlushBuffer.receiver.transparent = false
      rw [hrecv]
      exact h.receiver
    · show ∃ done, l.FlushBuffer.issued = done ++ rest ∧
        l.FlushBuffer.receiver.calls = done.flatMap expected
      rw [hrecv, hissued]
      exact h.conveyed
  | arrive n =>
    refine ⟨rest, h.sender, h.receiver, h.conveyed, ?_⟩
    rw [← h.underWay]
    simp [wire, Link.step]
  | poll late =>
    rcases h.poll hcareful with ⟨-, hinv⟩ | ⟨e, rest', -, hinv⟩
    · exact ⟨rest, hinv⟩
    · exact ⟨rest', hinv⟩

theorem Inv.reproduces (h : l.Inv rest) : l.Reproduces := by
  obtain ⟨done, hdone, hcalls⟩ := h.conveyed
  constructor
  · rw [hdone, hcalls, List.flatMap_append]
    exact List.prefix_append _ _
  · intro hbuffer hstream harrived
    have hempty : rest.flatMap encode = [] := by
      rw [← h.underWay, wire, hbuffer, hstream, harrived]
      rfl
    have hrest : rest = [] := by
      cases rest with
      | nil => rfl
      | cons e rest =>
        rw [List.flatMap_cons] at hempty
        rcases encode_cases e with ⟨v, -, hencode, -⟩ | ⟨c, hencode⟩ <;>
          simp [hencode] at hempty
    rw [hdone, hcalls, hrest, List.append_nil]

/-- With everything arrived, careful polls convey all that is left. -/
theorem Inv.drain (h : l.Inv rest) (hbuffer : l.sender.sendbuffer = []) (hstream : l.stream = []) :
    ∃ polls, l.CarefulRun polls ∧ (l.run polls).issued = l.issued ∧
      (l.run polls).receiver.calls = l.issued.flatMap expected := by
  induction rest generalizing l with
  | nil =>
    obtain ⟨done, hdone, hcalls⟩ := h.conveyed
    refine ⟨[], trivial, rfl, ?_⟩
    show l.receiver.calls = l.issued.flatMap expected
    rw [hdone, hcalls, List.append_nil]
  | cons e rest ih =>
    have hwire : l.receiver.arrived = encode e ++ rest.flatMap encode := by
      have hunder := h.underWay
      rw [wire, hbuffer, hstream, List.append_nil, List.append_nil, List.flatMap_cons] at hunder
      exact hunder
    -- the wire holds whole pairs, so no poll is left with half of one
    have hcareful : l.Careful (.poll 0) := by
      intro halone
      rw [halone] at hwire
      rcases encode_cases e with ⟨v, hv, hencode, -⟩ | ⟨c, hencode⟩
      · rw [hencode] at hwire
        exact absurd (List.cons.inj hwire).1.symm hv
      · rw [hencode] at hwire
        simp at hwire
    obtain ⟨hb, hs, hi⟩ := doReceive_frame l 0
    rcases h.poll hcareful with ⟨hnone, -⟩ | ⟨e', rest', heq, hinv⟩
    · rw [hnone] at hwire
      rcases encode_cases e with ⟨v, -, hencode, -⟩ | ⟨c, hencode⟩ <;> simp [hencode] at hwire
    · obtain ⟨rfl, rfl⟩ := List.cons.inj heq
      obtain ⟨polls, hrun, hissued, hcalls⟩ :=
        ih hinv (by rw [hb, hbuffer]) (by rw [hs, hstream]; rfl)
      refine ⟨.poll 0 :: polls, ⟨hcareful, hrun⟩, hissued.trans hi, hcalls.trans ?_⟩
      rw [hi]

theorem inv_start (LCR : Byte) (rts dtr loopback : Bool) : (start LCR rts dtr loopback).Inv [] :=
  ⟨rfl, rfl, ⟨[], rfl, rfl⟩, rfl⟩

theorem Inv.run (h : l.Inv rest) {actions : List Action} (hcareful : l.CarefulRun actions) :
    ∃ rest', (l.run actions).Inv rest' := by
  induction actions generalizing l rest with
  | nil => exact ⟨rest, h⟩
  | cons a actions ih =>
    obtain ⟨rest', h'⟩ := h.step hcareful.1
    exact ih h' hcareful.2

/-- A flush and polls convey all that is left. -/
theorem Inv.finish (h : l.Inv rest) :
    ∃ more, l.CarefulRun more ∧ (l.run more).issued = l.issued ∧
      (l.run more).receiver.calls = l.issued.flatMap expected := by
  obtain ⟨rest₁, h₁⟩ := Inv.step h (show l.Careful .flush from trivial)
  set l₁ := l.step .flush with hl₁
  obtain ⟨rest₂, h₂⟩ := h₁.step (show l₁.Careful (.arrive l₁.stream.length) from trivial)
  have hbuffer : l₁.sender.sendbuffer = [] := by
    show l.FlushBuffer.sender.sendbuffer = []
    unfold FlushBuffer
    split
    · rfl
    · rename_i hlen
      exact List.length_eq_zero_iff.1 (not_not.1 hlen)
  have hissued : l₁.issued = l.issued := (flushBuffer_frame l).2.2
  obtain ⟨polls, hrun, hissued', hcalls⟩ := h₂.drain hbuffer List.drop_length
  refine ⟨.flush :: .arrive l₁.stream.length :: polls, ⟨trivial, trivial, hrun⟩,
    hissued'.trans hissued, hcalls.trans ?_⟩
  exact congrArg (List.flatMap expected) hissued

/-- **The link reproduces what is issued.**  In every run in which no line change is made
while bytes wait in the send buffer and no poll finds the escape byte alone, the
receiver's calls are at every moment those for what was issued so far, in order; they are
all of them when nothing is under way, and a flush and polls are enough to get there. -/
theorem run_reproduces (LCR : Byte) (rts dtr loopback : Bool) (actions : List Action)
    (hcareful : (start LCR rts dtr loopback).CarefulRun actions) :
    let l := (start LCR rts dtr loopback).run actions
    l.Reproduces ∧ ∃ more, l.CarefulRun more ∧ (l.run more).issued = l.issued ∧
      (l.run more).receiver.calls = l.issued.flatMap expected := by
  intro l
  obtain ⟨rest, h⟩ := (inv_start LCR rts dtr loopback).run hcareful
  exact ⟨h.reproduces, h.finish⟩

/-- A byte and the escape byte, then a line change after the flush; the second byte of
the pair arrives during the poll. -/
theorem run_reproduces_threeIssued :
    let l := (start 0 true true false).run [.transmitByte 0x41, .transmitByte 0xff#8, .flush,
      .setRTS false, .arrive 2, .poll 0, .poll 1]
    l.issued = [.data 0x41, .data 0xff#8, .lines false true false] ∧
      l.receiver.calls = [.receiveByteEx 0x41 0, .receiveByteEx 0xff#8 0] ∧ l.Reproduces :=
  ⟨by decide, by decide, (run_reproduces 0 true true false [.transmitByte 0x41,
    .transmitByte 0xff#8, .flush, .setRTS false, .arrive 2, .poll 0, .poll 1] (by decide)).1⟩

end

end Link

end NullModem

end AugraDosbox
