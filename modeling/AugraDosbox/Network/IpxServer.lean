import AugraDosbox.Lib.ByteOrder
import Mathlib.Data.List.FinRange
import Mathlib.Data.List.Nodup
import Mathlib.Logic.Function.Basic

/-!
# The IPX server

The server of `src/hardware/network/ipxserver.cpp`, which tunnels IPX packets between the
endpoints that have registered.

* `Server` — the tables and the receive buffer; `receive` — what one datagram does;
* `Session` — the server with the addresses that its replies have handed out;
* `Session.Sound` — the invariant: the connected slots hold these addresses, each once;
* `Meets` — the datagrams that the server deals with as it should;
* **`run_routes`** — in a run of such datagrams each endpoint has at most one slot, and every
  further one is sent to those it is for;
* **`run_not_routed`** — a client that registers twice has two slots, and a datagram that is
  shorter than a header is sent on.

The byte order of the processor is a parameter.  Calls of `send_to` are what is observed; the
socket is open.
-/

namespace AugraDosbox.Ipx

open ByteOrder

def SOCKETTABLESIZE : ℕ := 16

def IPXBUFFERSIZE : ℕ := 1424

/-- `sizeof(IPXHeader)`. -/
def headerSize : ℕ := 30

/-- An address in the order of the network, as the processor sees it. -/
@[ext]
structure IPaddress where
  host : BitVec 32
  port : BitVec 16
deriving DecidableEq

structure Endpoint where
  address : BitVec 32
  port : BitVec 16
deriving DecidableEq

/-- A datagram.  It never comes from the broadcast address. -/
structure Datagram where
  sender : Endpoint
  data : List Byte
  unicast : sender.address ≠ 0xffffffff

/-- A call of `send_to`. -/
structure Send where
  target : Endpoint
  bytes : List Byte
deriving DecidableEq

structure Server where
  ipxServerIp : IPaddress
  connected : Fin SOCKETTABLESIZE → Bool
  ipconn : Fin SOCKETTABLESIZE → IPaddress
  inBuffer : ℕ → Byte

/-- What a datagram does: the reply to a registration, and what is sent on. -/
structure Handled where
  server : Server
  reply : Option Send
  forwarded : List Send

variable (littleEndian : Bool)

def to_endpoint (addr : IPaddress) : Endpoint :=
  ⟨net32 littleEndian addr.host, net16 littleEndian addr.port⟩

def from_endpoint (ep : Endpoint) : IPaddress :=
  ⟨net32 littleEndian ep.address, net16 littleEndian ep.port⟩

/-- The six bytes of an address in a header, as `PackIP` writes them. -/
def IPaddress.node (addr : IPaddress) : List Byte :=
  store32 littleEndian addr.host ++ store16 littleEndian addr.port

def broadcastNode : List Byte := List.replicate 6 0xff

namespace Server

variable (s : Server)

/-! ## Headers -/

/-- The address that is read from six bytes of the receive buffer. -/
def addressAt (offset : ℕ) : IPaddress :=
  ⟨load32 littleEndian (s.inBuffer offset) (s.inBuffer (offset + 1)) (s.inBuffer (offset + 2))
      (s.inBuffer (offset + 3)),
    load16 littleEndian (s.inBuffer (offset + 4)) (s.inBuffer (offset + 5))⟩

/-- `dest.addr.byIP`. -/
def dest : IPaddress := s.addressAt littleEndian 10

/-- `src.addr.byIP`. -/
def src : IPaddress := s.addressAt littleEndian 22

/-- `net_read16(dest.socket)`. -/
def destSocket : BitVec 16 := net16 littleEndian (load16 littleEndian (s.inBuffer 16) (s.inBuffer 17))

/-- An echo packet with a null destination. -/
def isRegistration : Bool := s.destSocket littleEndian = 0x2 ∧ (s.dest littleEndian).host = 0x0

/-! ## Sending -/

/-- The test with which `sendIPXPacket` chooses the slots. -/
def addressed (i : Fin SOCKETTABLESIZE) : Bool :=
  if (s.dest littleEndian).host = 0xffffffff then
    (s.ipconn i).host ≠ (s.src littleEndian).host ∨ (s.ipconn i).port ≠ (s.src littleEndian).port
  else
    (s.ipconn i).host = (s.dest littleEndian).host ∧ (s.ipconn i).port = (s.dest littleEndian).port

def sendIPXPacket (bufSize : ℕ) : List Send :=
  ((List.finRange SOCKETTABLESIZE).filter fun i => s.connected i && s.addressed littleEndian i).map
    fun i => ⟨to_endpoint littleEndian (s.ipconn i), (List.range bufSize).map s.inBuffer⟩

/-- The reply to a registration. -/
def ackClient (clientAddr : IPaddress) : Send :=
  ⟨to_endpoint littleEndian clientAddr,
    bytes16 0xffff ++ bytes16 (BitVec.ofNat 16 headerSize) ++ [0, 0] ++
      bytes32 0 ++ clientAddr.node littleEndian ++ bytes16 0x2 ++
      bytes32 1 ++ s.ipxServerIp.node littleEndian ++ bytes16 0x2⟩

/-! ## Receiving -/

def IPX_ServerHandlePacket (sender_addr : IPaddress) (packet_len : ℕ) : Handled :=
  if packet_len = 0 then ⟨s, none, []⟩
  else if packet_len > IPXBUFFERSIZE then ⟨s, none, []⟩
  else if s.isRegistration littleEndian then
    match (List.finRange SOCKETTABLESIZE).find? fun i =>
        !s.connected i || s.ipconn i = s.src littleEndian with
    | some i =>
      if s.connected i = false then
        ⟨{ s with
            ipconn := Function.update s.ipconn i sender_addr
            connected := Function.update s.connected i true },
          some (s.ackClient littleEndian sender_addr), []⟩
      else
        ⟨{ s with ipconn := Function.update s.ipconn i ⟨(s.ipconn i).host, sender_addr.port⟩ },
          some (s.ackClient littleEndian sender_addr), []⟩
    | none => ⟨s, none, s.sendIPXPacket littleEndian packet_len⟩
  else ⟨s, none, s.sendIPXPacket littleEndian packet_len⟩

/-- The datagram is in the receive buffer, over what was there. -/
def arrive (d : Datagram) : Server :=
  { s with inBuffer := fun i =>
      if i < IPXBUFFERSIZE then d.data.getD i (s.inBuffer i) else s.inBuffer i }

def receive (d : Datagram) : Handled :=
  (s.arrive d).IPX_ServerHandlePacket littleEndian (from_endpoint littleEndian d.sender)
    (min d.data.length IPXBUFFERSIZE)

/-- The server when it is started. -/
def start (ipxServerIp : IPaddress) (ipconn : Fin SOCKETTABLESIZE → IPaddress)
    (inBuffer : ℕ → Byte) : Server :=
  ⟨ipxServerIp, fun _ => false, ipconn, inBuffer⟩

end Server

/-! ## Sessions -/

/-- The node addresses in a packet. -/
def destNode (packet : List Byte) : List Byte := (packet.drop 10).take 6

def srcNode (packet : List Byte) : List Byte := (packet.drop 22).take 6

/-- The server, and the addresses that its replies have handed out, each with the endpoint
that it was told to. -/
structure Session where
  server : Server
  handedOut : List (List Byte × Endpoint)

namespace Session

/-- A registration under an address that had been handed out gives this one up. -/
def step (σ : Session) (d : Datagram) : Session :=
  let r := σ.server.receive littleEndian d
  ⟨r.server, match r.reply with
    | none => σ.handedOut
    | some reply => (destNode reply.bytes, reply.target) ::
        σ.handedOut.filter fun x => x.1 ≠ srcNode d.data⟩

def run (σ : Session) (ds : List Datagram) : Session := ds.foldl (step littleEndian) σ

end Session

/-! ## Addresses -/

section

variable {littleEndian}

theorem to_from_endpoint (ep : Endpoint) :
    to_endpoint littleEndian (from_endpoint littleEndian ep) = ep := by
  simp [to_endpoint, from_endpoint]

theorem from_to_endpoint (addr : IPaddress) :
    from_endpoint littleEndian (to_endpoint littleEndian addr) = addr := by
  simp [to_endpoint, from_endpoint]

theorem to_endpoint_injective : Function.Injective (to_endpoint littleEndian) :=
  Function.LeftInverse.injective from_to_endpoint

theorem length_node (addr : IPaddress) : (addr.node littleEndian).length = 6 := by
  rw [IPaddress.node, List.length_append, length_store32, length_store16]

theorem node_injective : Function.Injective (IPaddress.node littleEndian) := by
  rintro ⟨host, port⟩ ⟨host', port'⟩ h
  obtain ⟨hhost, hport⟩ := List.append_inj h ((length_store32 ..).trans (length_store32 ..).symm)
  obtain rfl := store32_injective littleEndian hhost
  obtain rfl := store16_injective littleEndian hport
  rfl

theorem node_eq_broadcast {addr : IPaddress} :
    addr.node littleEndian = broadcastNode ↔ addr = ⟨0xffffffff, 0xffff⟩ := by
  have hnode : (⟨0xffffffff, 0xffff⟩ : IPaddress).node littleEndian = broadcastNode := by
    cases littleEndian <;> decide
  rw [← hnode]
  exact node_injective.eq_iff

namespace Server

variable {s : Server} {d : Datagram}

theorem node_addressAt (offset : ℕ) :
    (s.addressAt littleEndian offset).node littleEndian =
      (List.range 6).map fun k => s.inBuffer (offset + k) := by
  simp only [IPaddress.node, addressAt, store32_load32, store16_load16]
  rfl

theorem arrive_inBuffer {i : ℕ} (hi : i < IPXBUFFERSIZE) (hd : i < d.data.length) :
    (s.arrive d).inBuffer i = d.data[i] := by
  simp [arrive, hi, hd]

/-- What is in the buffer is the datagram, as far as it goes. -/
theorem map_inBuffer {offset n : ℕ} (hn : offset + n ≤ IPXBUFFERSIZE)
    (hd : offset + n ≤ d.data.length) :
    ((List.range n).map fun k => (s.arrive d).inBuffer (offset + k)) =
      (d.data.drop offset).take n := by
  refine List.ext_getElem ?_ fun k hk _ => ?_
  · simp only [List.length_map, List.length_range, List.length_take, List.length_drop]
    omega
  · simp only [List.length_map, List.length_range] at hk
    rw [List.getElem_map, List.getElem_range, List.getElem_take, List.getElem_drop]
    exact arrive_inBuffer (by omega) (by omega)

theorem node_dest (hd : headerSize ≤ d.data.length) :
    ((s.arrive d).dest littleEndian).node littleEndian = destNode d.data :=
  (node_addressAt 10).trans (map_inBuffer (by decide) (Nat.le_trans (by decide) hd))

theorem node_src (hd : headerSize ≤ d.data.length) :
    ((s.arrive d).src littleEndian).node littleEndian = srcNode d.data :=
  (node_addressAt 22).trans (map_inBuffer (by decide) (Nat.le_trans (by decide) hd))

theorem packet_eq :
    ((List.range (min d.data.length IPXBUFFERSIZE)).map (s.arrive d).inBuffer) =
      d.data.take IPXBUFFERSIZE := by
  have hmap : ((List.range (min d.data.length IPXBUFFERSIZE)).map fun k =>
      (s.arrive d).inBuffer (0 + k)) = (d.data.drop 0).take (min d.data.length IPXBUFFERSIZE) :=
    map_inBuffer (by omega) (by omega)
  simp only [Nat.zero_add, List.drop_zero] at hmap
  rw [hmap, List.take_eq_take_iff]
  omega

/-- The address in the reply is the client's. -/
theorem destNode_ackClient (addr : IPaddress) :
    destNode (s.ackClient littleEndian addr).bytes = addr.node littleEndian := by
  have hlength : (addr.node littleEndian).length = 6 := length_node addr
  simp only [destNode, ackClient, List.append_assoc]
  change List.take 6 (addr.node littleEndian ++ _) = _
  rw [List.take_append_of_le_length (Nat.le_of_eq hlength.symm), ← hlength, List.take_length]

end Server

end

/-! ## The invariant -/

namespace Session

/-- The connected slots come first, and they hold the addresses that have been handed out,
each once. -/
structure Sound (σ : Session) : Prop where
  filled : ∀ i j, i ≤ j → σ.server.connected j = true → σ.server.connected i = true
  distinct : ∀ i j, σ.server.connected i = true → σ.server.connected j = true →
    σ.server.ipconn i = σ.server.ipconn j → i = j
  hosts : ∀ i, σ.server.connected i = true → (σ.server.ipconn i).host ≠ 0xffffffff
  handed : ∀ x, x ∈ σ.handedOut ↔ ∃ i, σ.server.connected i = true ∧
    x = ((σ.server.ipconn i).node littleEndian, to_endpoint littleEndian (σ.server.ipconn i))

end Session

/-- The datagrams that are dealt with as they should be.

* One that is shorter than a header is empty, or what it leaves in the buffer is neither a
  registration nor for anybody who is connected;
* a registration under an address that is connected comes from that host, and one from an
  endpoint that is connected is under its own address, unless the table is full and it is
  not under a connected one;
* a packet whose destination begins as the broadcast address is for that address, unless it
  reaches nobody. -/
def Meets (s : Server) (d : Datagram) : Prop :=
  if d.data.length < headerSize then
    d.data = [] ∨ (s.arrive d).isRegistration littleEndian = false ∧
      ∀ i, s.connected i = true → (s.arrive d).addressed littleEndian i = false
  else if (s.arrive d).isRegistration littleEndian then
    (∀ i, s.connected i = true → s.ipconn i = (s.arrive d).src littleEndian →
      (s.ipconn i).host = (from_endpoint littleEndian d.sender).host) ∧
    ∀ i, s.connected i = true → s.ipconn i = from_endpoint littleEndian d.sender →
      (s.arrive d).src littleEndian = from_endpoint littleEndian d.sender ∨
        ∀ j, s.connected j = true ∧ s.ipconn j ≠ (s.arrive d).src littleEndian
  else
    ((s.arrive d).dest littleEndian).host = 0xffffffff →
      ((s.arrive d).dest littleEndian).port ≠ 0xffff →
        ∀ i, s.connected i = true → s.ipconn i = (s.arrive d).src littleEndian

section

variable {littleEndian} {s : Server} {d : Datagram}

/-! ## Registrations -/

theorem net32_broadcast : net32 littleEndian 0xffffffff = 0xffffffff := by
  cases littleEndian <;> decide

theorem host_ne_broadcast (d : Datagram) :
    (from_endpoint littleEndian d.sender).host ≠ 0xffffffff := by
  intro heq
  apply d.unicast
  have hback := congrArg (net32 littleEndian) heq
  rw [net32_broadcast] at hback
  exact (net32_net32 littleEndian _).symm.trans hback

/-- The slot that a loop stops at is the first that passes the test. -/
theorem find_finRange {n : ℕ} {p : Fin n → Bool} {i : Fin n}
    (h : (List.finRange n).find? p = some i) : p i = true ∧ ∀ j < i, p j = false := by
  obtain ⟨hp, k, hk, hget, hfirst⟩ := List.find?_eq_some_iff_getElem.mp h
  refine ⟨hp, fun j hj => ?_⟩
  rw [List.getElem_finRange] at hget
  have hlt : j.val < k := by
    have hval := congrArg Fin.val hget
    simp only [Fin.val_cast] at hval
    omega
  have hskip := hfirst j.val hlt
  rw [List.getElem_finRange] at hskip
  simpa using hskip

variable {σ : Session}

/-- What is common to a registration in a new slot and in the old one. -/
theorem Session.Sound.put {i : Fin SOCKETTABLESIZE} {server : Server} (h : σ.Sound littleEndian)
    (hlength : headerSize ≤ d.data.length) (hbefore : ∀ j < i, σ.server.connected j = true)
    (hother : ∀ j, j ≠ i → σ.server.connected j = true →
      σ.server.ipconn j ≠ from_endpoint littleEndian d.sender)
    (hself : σ.server.connected i = true → σ.server.ipconn i = (σ.server.arrive d).src littleEndian)
    (hsrc : ∀ j, j ≠ i → σ.server.connected j = true →
      σ.server.ipconn j ≠ (σ.server.arrive d).src littleEndian)
    (hconnected : server.connected = Function.update σ.server.connected i true)
    (hipconn : server.ipconn = Function.update σ.server.ipconn i
      (from_endpoint littleEndian d.sender))
    :
    Session.Sound littleEndian ⟨server,
      ((from_endpoint littleEndian d.sender).node littleEndian, d.sender) ::
        σ.handedOut.filter fun x => x.1 ≠ srcNode d.data⟩ := by
  have hcon : ∀ j, server.connected j = true ↔ j = i ∨ σ.server.connected j = true := by
    intro j
    rw [hconnected]
    by_cases hj : j = i
    · subst hj
      simp
    · simp [hj]
  have hat : server.ipconn i = from_endpoint littleEndian d.sender := by
    rw [hipconn, Function.update_self]
  have hkept : ∀ j, j ≠ i → server.ipconn j = σ.server.ipconn j := by
    intro j hj
    rw [hipconn, Function.update_of_ne hj]
  constructor
  case filled =>
    intro j k hjk hk
    rcases (hcon k).mp hk with rfl | hk
    · rcases eq_or_lt_of_le hjk with rfl | hlt
      · exact hk
      · exact (hcon j).mpr (.inr (hbefore j hlt))
    · exact (hcon j).mpr (.inr (h.filled j k hjk hk))
  case distinct =>
    intro j k hj hk heq
    change server.ipconn j = server.ipconn k at heq
    by_cases hji : j = i <;> by_cases hki : k = i
    · rw [hji, hki]
    · rw [hji, hat, hkept k hki] at heq
      exact absurd heq.symm (hother k hki (((hcon k).mp hk).resolve_left hki))
    · rw [hki, hat, hkept j hji] at heq
      exact absurd heq (hother j hji (((hcon j).mp hj).resolve_left hji))
    · rw [hkept j hji, hkept k hki] at heq
      exact h.distinct j k (((hcon j).mp hj).resolve_left hji)
        (((hcon k).mp hk).resolve_left hki) heq
  case hosts =>
    intro j hj
    change (server.ipconn j).host ≠ _
    by_cases hji : j = i
    · rw [hji, hat]
      exact host_ne_broadcast d
    · rw [hkept j hji]
      exact h.hosts j (((hcon j).mp hj).resolve_left hji)
  case handed =>
    intro x
    change x ∈ _ :: _ ↔ ∃ j, server.connected j = true ∧
      x = ((server.ipconn j).node littleEndian, to_endpoint littleEndian (server.ipconn j))
    have hnode : ((σ.server.arrive d).src littleEndian).node littleEndian = srcNode d.data :=
      Server.node_src hlength
    rw [List.mem_cons, List.mem_filter, decide_eq_true_eq, ← hnode, h.handed]
    constructor
    · rintro (rfl | ⟨⟨j, hj, rfl⟩, hne⟩)
      · refine ⟨i, (hcon i).mpr (.inl rfl), ?_⟩
        rw [hat, to_from_endpoint]
      · have hji : j ≠ i := by
          rintro rfl
          exact hne (congrArg (IPaddress.node littleEndian) (hself hj))
        refine ⟨j, (hcon j).mpr (.inr hj), ?_⟩
        rw [hkept j hji]
    · rintro ⟨j, hj, rfl⟩
      by_cases hji : j = i
      · rw [hji, hat, to_from_endpoint]
        exact .inl rfl
      · have hj' := ((hcon j).mp hj).resolve_left hji
        rw [hkept j hji]
        exact .inr ⟨⟨j, hj', rfl⟩, fun heq => hsrc j hji hj' (node_injective heq)⟩

theorem receive_empty (hd : d.data = []) :
    s.receive littleEndian d = ⟨s.arrive d, none, []⟩ := by
  unfold Server.receive Server.IPX_ServerHandlePacket
  rw [if_pos (by simp [hd])]

theorem receive_nonempty (hd : d.data ≠ []) :
    s.receive littleEndian d =
      if (s.arrive d).isRegistration littleEndian then
        match (List.finRange SOCKETTABLESIZE).find? fun i =>
            !s.connected i || s.ipconn i = (s.arrive d).src littleEndian with
        | some i =>
          if s.connected i = false then
            ⟨{ s.arrive d with
                ipconn := Function.update s.ipconn i (from_endpoint littleEndian d.sender)
                connected := Function.update s.connected i true },
              some (s.ackClient littleEndian (from_endpoint littleEndian d.sender)), []⟩
          else
            ⟨{ s.arrive d with
                ipconn := Function.update s.ipconn i
                  ⟨(s.ipconn i).host, (from_endpoint littleEndian d.sender).port⟩ },
              some (s.ackClient littleEndian (from_endpoint littleEndian d.sender)), []⟩
        | none => ⟨s.arrive d, none, (s.arrive d).sendIPXPacket littleEndian
            (min d.data.length IPXBUFFERSIZE)⟩
      else ⟨s.arrive d, none, (s.arrive d).sendIPXPacket littleEndian
        (min d.data.length IPXBUFFERSIZE)⟩ := by
  have hpos := List.length_pos_iff.mpr hd
  have hbuffer : 0 < IPXBUFFERSIZE := by decide
  unfold Server.receive Server.IPX_ServerHandlePacket
  rw [if_neg (by omega), if_neg (by omega)]
  rfl

theorem Session.Sound.congr {server : Server} (h : σ.Sound littleEndian)
    (hconnected : server.connected = σ.server.connected) (hipconn : server.ipconn = σ.server.ipconn)
    :
    Session.Sound littleEndian ⟨server, σ.handedOut⟩ := by
  obtain ⟨⟨ip, connected, ipconn, inBuffer⟩, handedOut⟩ := σ
  obtain ⟨ip', connected', ipconn', inBuffer'⟩ := server
  obtain rfl : connected' = connected := hconnected
  obtain rfl : ipconn' = ipconn := hipconn
  exact ⟨h.filled, h.distinct, h.hosts, h.handed⟩

/-- A registration is answered, or the table is full. -/
theorem Session.Sound.register (h : σ.Sound littleEndian) (hlength : headerSize ≤ d.data.length)
    (hreg : (σ.server.arrive d).isRegistration littleEndian = true)
    (hm : Meets littleEndian σ.server d) : (σ.step littleEndian d).Sound littleEndian := by
  have hd : d.data ≠ [] := List.length_pos_iff.mp (Nat.lt_of_lt_of_le (by decide) hlength)
  unfold Meets at hm
  rw [if_neg (Nat.not_lt.mpr hlength), if_pos hreg] at hm
  obtain ⟨hhost, hown⟩ := hm
  unfold Session.step
  rw [receive_nonempty hd, if_pos hreg]
  rcases hfind : (List.finRange SOCKETTABLESIZE).find? fun i => !σ.server.connected i ||
      σ.server.ipconn i = (σ.server.arrive d).src littleEndian with _ | i
  · exact h.congr rfl rfl
  obtain ⟨hi, hfirst⟩ := find_finRange hfind
  have hbefore : ∀ j < i, σ.server.connected j = true ∧
      σ.server.ipconn j ≠ (σ.server.arrive d).src littleEndian := by
    intro j hj
    simpa using hfirst j hj
  have hnode : destNode (σ.server.ackClient littleEndian
      (from_endpoint littleEndian d.sender)).bytes =
      (from_endpoint littleEndian d.sender).node littleEndian := Server.destNode_ackClient _
  have htarget : (σ.server.ackClient littleEndian (from_endpoint littleEndian d.sender)).target =
      d.sender := to_from_endpoint _
  dsimp only
  by_cases hfree : σ.server.connected i = false
  · -- a new slot: nobody who is connected has either address
    rw [if_pos hfree]
    dsimp only
    rw [hnode, htarget]
    have hlow : ∀ j, σ.server.connected j = true → j < i := by
      intro j hj
      by_contra hle
      rw [h.filled i j (not_lt.mp hle) hj] at hfree
      exact absurd hfree (by simp)
    refine h.put hlength (fun j hj => (hbefore j hj).1) ?_ (fun hcon => ?_) ?_ rfl rfl
    · intro j _ hj heq
      rcases hown j hj heq with hsrc | hfull
      · exact (hbefore j (hlow j hj)).2 (heq.trans hsrc.symm)
      · rw [(hfull i).1] at hfree
        exact absurd hfree (by simp)
    · rw [hcon] at hfree
      exact absurd hfree (by simp)
    · exact fun j _ hj => (hbefore j (hlow j hj)).2
  · -- the slot of the address under which the registration is
    rw [if_neg hfree]
    dsimp only
    rw [hnode, htarget]
    have hcon : σ.server.connected i = true := by simpa using hfree
    have hsrc : σ.server.ipconn i = (σ.server.arrive d).src littleEndian := by
      simpa [hcon] using hi
    have hothersrc : ∀ j, j ≠ i → σ.server.connected j = true →
        σ.server.ipconn j ≠ (σ.server.arrive d).src littleEndian :=
      fun j hj hjcon heq => hj (h.distinct j i hjcon hcon (heq.trans hsrc.symm))
    refine h.put hlength (fun j hj => (hbefore j hj).1) ?_ (fun _ => hsrc) hothersrc ?_ ?_
    · intro j hj hjcon heq
      rcases hown j hjcon heq with hself | hfull
      · exact hothersrc j hj hjcon (heq.trans hself.symm)
      · exact (hfull i).2 hsrc
    · change σ.server.connected = _
      rw [← hcon, Function.update_eq_self]
    · change Function.update _ _ _ = _
      rw [hhost i hcon hsrc]

/-- The invariant is kept by what is dealt with as it should be. -/
theorem Session.Sound.step {σ : Session} (h : σ.Sound littleEndian)
    (hm : Meets littleEndian σ.server d) : (σ.step littleEndian d).Sound littleEndian := by
  by_cases hd : d.data = []
  · unfold Session.step
    rw [receive_empty hd]
    exact h.congr rfl rfl
  by_cases hreg : (σ.server.arrive d).isRegistration littleEndian = true
  · by_cases hshort : d.data.length < headerSize
    · unfold Meets at hm
      rw [if_pos hshort, hreg] at hm
      exact absurd (hm.resolve_left hd).1 (by simp)
    · exact h.register (Nat.not_lt.mp hshort) hreg hm
  · unfold Session.step
    rw [receive_nonempty hd, if_neg hreg]
    exact h.congr rfl rfl

/-! ## Routing -/

theorem mem_sendIPXPacket {n : ℕ} {x : Send} :
    x ∈ s.sendIPXPacket littleEndian n ↔ ∃ i, s.connected i = true ∧
      s.addressed littleEndian i = true ∧
      (⟨to_endpoint littleEndian (s.ipconn i), (List.range n).map s.inBuffer⟩ : Send) = x := by
  simp only [Server.sendIPXPacket, List.mem_map, List.mem_filter, List.mem_finRange, true_and,
    Bool.and_eq_true, and_assoc]

/-- Nobody gets a packet twice when the connected addresses are different. -/
theorem nodup_targets {n : ℕ} (hdistinct : ∀ i j, s.connected i = true → s.connected j = true →
    s.ipconn i = s.ipconn j → i = j) :
    ((s.sendIPXPacket littleEndian n).map (·.target)).Nodup := by
  simp only [Server.sendIPXPacket, List.map_map]
  refine List.Nodup.map_on ?_ ((List.nodup_finRange _).filter _)
  intro i hi j hj heq
  rw [List.mem_filter, Bool.and_eq_true] at hi hj
  exact hdistinct i j hi.2.1 hj.2.1 (to_endpoint_injective heq)

theorem addressed_broadcast (hdest : (s.dest littleEndian).host = 0xffffffff)
    (i : Fin SOCKETTABLESIZE) :
    s.addressed littleEndian i = true ↔ s.ipconn i ≠ s.src littleEndian := by
  rw [Server.addressed, if_pos hdest, decide_eq_true_eq]
  simp only [ne_eq, IPaddress.ext_iff]
  tauto

theorem addressed_one (hdest : (s.dest littleEndian).host ≠ 0xffffffff)
    (i : Fin SOCKETTABLESIZE) :
    s.addressed littleEndian i = true ↔ s.ipconn i = s.dest littleEndian := by
  rw [Server.addressed, if_neg hdest, decide_eq_true_eq, IPaddress.ext_iff]

theorem receive_packet (hd : d.data ≠ [])
    (hreg : (s.arrive d).isRegistration littleEndian = false) :
    s.receive littleEndian d = ⟨s.arrive d, none, (s.arrive d).sendIPXPacket littleEndian
      (min d.data.length IPXBUFFERSIZE)⟩ := by
  rw [receive_nonempty hd, if_neg (by simp [hreg])]

end

/-- Each endpoint has at most one connected slot. -/
def Server.OneSlotEach (s : Server) : Prop :=
  ∀ i j, s.connected i = true → s.connected j = true →
    to_endpoint littleEndian (s.ipconn i) = to_endpoint littleEndian (s.ipconn j) → i = j

/-- The datagram goes to those it is for. -/
structure Routed (σ : Session) (d : Datagram) : Prop where
  short : d.data.length < headerSize →
    (σ.server.receive littleEndian d).reply = none ∧
      (σ.server.receive littleEndian d).forwarded = [] ∧
      (σ.server.receive littleEndian d).server.connected = σ.server.connected ∧
      (σ.server.receive littleEndian d).server.ipconn = σ.server.ipconn
  one : headerSize ≤ d.data.length → (σ.server.arrive d).isRegistration littleEndian = false →
    ∀ ep, (destNode d.data, ep) ∈ σ.handedOut →
      (σ.server.receive littleEndian d).forwarded = [⟨ep, d.data.take IPXBUFFERSIZE⟩]
  broadcast : headerSize ≤ d.data.length →
    (σ.server.arrive d).isRegistration littleEndian = false → destNode d.data = broadcastNode →
      ((σ.server.receive littleEndian d).forwarded.map (·.target)).Nodup ∧
        ∀ x, x ∈ (σ.server.receive littleEndian d).forwarded ↔ ∃ client ∈ σ.handedOut,
          client.1 ≠ srcNode d.data ∧ x = ⟨client.2, d.data.take IPXBUFFERSIZE⟩
  nobody : headerSize ≤ d.data.length → (σ.server.arrive d).isRegistration littleEndian = false →
    destNode d.data ≠ broadcastNode → (∀ ep, (destNode d.data, ep) ∉ σ.handedOut) →
      (σ.server.receive littleEndian d).forwarded = []

section

variable {littleEndian} {σ : Session} {d : Datagram}

theorem nonempty_of_header (hlength : headerSize ≤ d.data.length) : d.data ≠ [] :=
  List.length_pos_iff.mp (Nat.lt_of_lt_of_le (by decide) hlength)

/-- A packet to an address that has been handed out. -/
theorem Session.Sound.forwarded_one (h : σ.Sound littleEndian) (hlength : headerSize ≤ d.data.length)
    (hreg : (σ.server.arrive d).isRegistration littleEndian = false) {ep : Endpoint}
    (hep : (destNode d.data, ep) ∈ σ.handedOut) :
    (σ.server.receive littleEndian d).forwarded = [⟨ep, d.data.take IPXBUFFERSIZE⟩] := by
  obtain ⟨i, hi, heq⟩ := (h.handed _).mp hep
  obtain ⟨hnode, rfl⟩ := Prod.ext_iff.mp heq
  have hdest : σ.server.ipconn i = (σ.server.arrive d).dest littleEndian :=
    node_injective (hnode.symm.trans (Server.node_dest hlength).symm)
  have hhost : ((σ.server.arrive d).dest littleEndian).host ≠ 0xffffffff := hdest ▸ h.hosts i hi
  rw [receive_packet (nonempty_of_header hlength) hreg]
  dsimp only
  have hnodup : (((σ.server.arrive d).sendIPXPacket littleEndian
      (min d.data.length IPXBUFFERSIZE)).map (·.target)).Nodup := nodup_targets h.distinct
  refine List.perm_singleton.mp ((List.perm_ext_iff_of_nodup (List.Nodup.of_map _ hnodup)
    (List.nodup_singleton _)).mpr fun x => ?_)
  rw [mem_sendIPXPacket, List.mem_singleton, Server.packet_eq]
  constructor
  · rintro ⟨j, hj, haddressed, rfl⟩
    have hsame := ((addressed_one hhost j).mp haddressed).trans hdest.symm
    rw [hsame]
  · rintro rfl
    exact ⟨i, hi, (addressed_one hhost i).mpr hdest, rfl⟩

theorem Session.Sound.forwarded_broadcast (h : σ.Sound littleEndian)
    (hlength : headerSize ≤ d.data.length)
    (hreg : (σ.server.arrive d).isRegistration littleEndian = false)
    (hdest : destNode d.data = broadcastNode) :
    ((σ.server.receive littleEndian d).forwarded.map (·.target)).Nodup ∧
      ∀ x, x ∈ (σ.server.receive littleEndian d).forwarded ↔ ∃ client ∈ σ.handedOut,
        client.1 ≠ srcNode d.data ∧ x = ⟨client.2, d.data.take IPXBUFFERSIZE⟩ := by
  have hnode : ((σ.server.arrive d).dest littleEndian).node littleEndian = broadcastNode :=
    (Server.node_dest hlength).trans hdest
  have hhost : ((σ.server.arrive d).dest littleEndian).host = 0xffffffff :=
    congrArg IPaddress.host (node_eq_broadcast.mp hnode)
  have hsrc : ((σ.server.arrive d).src littleEndian).node littleEndian = srcNode d.data :=
    Server.node_src hlength
  rw [receive_packet (nonempty_of_header hlength) hreg]
  refine ⟨nodup_targets h.distinct, fun x => ?_⟩
  rw [mem_sendIPXPacket, Server.packet_eq, ← hsrc]
  constructor
  · rintro ⟨i, hi, haddressed, rfl⟩
    refine ⟨_, (h.handed _).mpr ⟨i, hi, rfl⟩, fun heq => ?_, rfl⟩
    exact (addressed_broadcast hhost i).mp haddressed (node_injective heq)
  · rintro ⟨client, hclient, hne, rfl⟩
    obtain ⟨i, hi, rfl⟩ := (h.handed _).mp hclient
    refine ⟨i, hi, (addressed_broadcast hhost i).mpr fun heq => hne ?_, rfl⟩
    exact congrArg (IPaddress.node littleEndian) heq

theorem forwarded_nil (hd : d.data ≠ [])
    (hreg : (σ.server.arrive d).isRegistration littleEndian = false)
    (hnobody : ∀ i, σ.server.connected i = true →
      (σ.server.arrive d).addressed littleEndian i = false) :
    (σ.server.receive littleEndian d).forwarded = [] := by
  rw [receive_packet hd hreg]
  refine List.eq_nil_iff_forall_not_mem.mpr fun x hx => ?_
  obtain ⟨i, hi, haddressed, -⟩ := mem_sendIPXPacket.mp hx
  rw [hnobody i hi] at haddressed
  exact absurd haddressed (by simp)

/-- What the invariant says of the next datagram. -/
theorem Session.Sound.routed (h : σ.Sound littleEndian) (hm : Meets littleEndian σ.server d) :
    Routed littleEndian σ d := by
  constructor
  case short =>
    intro hshort
    by_cases hd : d.data = []
    · rw [receive_empty hd]
      exact ⟨rfl, rfl, rfl, rfl⟩
    · unfold Meets at hm
      rw [if_pos hshort] at hm
      obtain ⟨hreg, hnobody⟩ := hm.resolve_left hd
      have hnil := forwarded_nil hd hreg hnobody
      rw [receive_packet hd hreg] at hnil ⊢
      exact ⟨rfl, hnil, rfl, rfl⟩
  case one => exact fun hlength hreg ep hep => h.forwarded_one hlength hreg hep
  case broadcast => exact fun hlength hreg hdest => h.forwarded_broadcast hlength hreg hdest
  case nobody =>
    intro hlength hreg hdest hnot
    have hnode : ((σ.server.arrive d).dest littleEndian).node littleEndian = destNode d.data :=
      Server.node_dest hlength
    refine forwarded_nil (nonempty_of_header hlength) hreg fun i hi => Bool.eq_false_iff.mpr ?_
    intro haddressed
    by_cases hhost : ((σ.server.arrive d).dest littleEndian).host = 0xffffffff
    · -- only the beginning of the broadcast address
      have hport : ((σ.server.arrive d).dest littleEndian).port ≠ 0xffff := by
        intro hport
        refine hdest (hnode.symm.trans (node_eq_broadcast.mpr ?_))
        exact IPaddress.ext hhost hport
      unfold Meets at hm
      rw [if_neg (Nat.not_lt.mpr hlength), if_neg (by simp [hreg])] at hm
      exact (addressed_broadcast hhost i).mp haddressed (hm hhost hport i hi)
    · have heq := (addressed_one hhost i).mp haddressed
      refine hnot (to_endpoint littleEndian (σ.server.ipconn i)) ((h.handed _).mpr ⟨i, hi, ?_⟩)
      rw [← hnode, ← heq]
      rfl

end

/-! ## Runs -/

/-- Each datagram is one that is dealt with as it should be, when it arrives. -/
def Session.Complies : Session → List Datagram → Prop
  | _, [] => True
  | σ, d :: ds => Meets littleEndian σ.server d ∧ (σ.step littleEndian d).Complies ds

/-- The server when it is started, with no address handed out. -/
def Session.start (ipxServerIp : IPaddress) (ipconn : Fin SOCKETTABLESIZE → IPaddress)
    (inBuffer : ℕ → Byte) : Session :=
  ⟨Server.start ipxServerIp ipconn inBuffer, []⟩

section

variable {littleEndian}

theorem Session.sound_start (ipxServerIp : IPaddress) (ipconn : Fin SOCKETTABLESIZE → IPaddress)
    (inBuffer : ℕ → Byte) : (start ipxServerIp ipconn inBuffer).Sound littleEndian where
  filled := fun _ _ _ hj => absurd hj (by simp [start, Server.start])
  distinct := fun _ _ hi => absurd hi (by simp [start, Server.start])
  hosts := fun _ hi => absurd hi (by simp [start, Server.start])
  handed := by simp [start, Server.start]

theorem Session.Sound.run {σ : Session} (h : σ.Sound littleEndian) {ds : List Datagram}
    (hc : σ.Complies littleEndian ds) : (σ.run littleEndian ds).Sound littleEndian := by
  induction ds generalizing σ with
  | nil => exact h
  | cons d ds ih => exact ih (h.step hc.1) hc.2

end

/-- **The server routes.**  After any datagrams that are dealt with as they should be, each
endpoint has at most one slot, and the next such datagram goes to those it is for. -/
theorem run_routes (ipxServerIp : IPaddress) (ipconn : Fin SOCKETTABLESIZE → IPaddress)
    (inBuffer : ℕ → Byte) (ds : List Datagram)
    (hc : (Session.start ipxServerIp ipconn inBuffer).Complies littleEndian ds) :
    let σ := (Session.start ipxServerIp ipconn inBuffer).run littleEndian ds
    σ.server.OneSlotEach littleEndian ∧
      ∀ d, Meets littleEndian σ.server d → Routed littleEndian σ d := by
  have hsound := (Session.sound_start ipxServerIp ipconn inBuffer).run hc
  refine ⟨fun i j hi hj heq => ?_, fun d hm => hsound.routed hm⟩
  exact hsound.distinct i j hi hj (to_endpoint_injective heq)

instance (s : Server) (d : Datagram) : Decidable (Meets littleEndian s d) := by
  unfold Meets
  infer_instance

instance decidableComplies (σ : Session) : ∀ ds, Decidable (σ.Complies littleEndian ds)
  | [] => .isTrue trivial
  | d :: ds =>
    have := decidableComplies (σ.step littleEndian d) ds
    inferInstanceAs (Decidable (_ ∧ _))

/-- A header without data. -/
def emptyPacket (socket : BitVec 16) (dest src : List Byte) : List Byte :=
  bytes16 0xffff ++ bytes16 (BitVec.ofNat 16 headerSize) ++ [0, 0] ++ bytes32 0 ++ dest ++
    bytes16 socket ++ bytes32 0 ++ src ++ bytes16 socket

/-- The packet with which `ConnectToServer` registers. -/
def registration (sender : Endpoint) (h : sender.address ≠ 0xffffffff) : Datagram :=
  ⟨sender, emptyPacket 0x2 (List.replicate 6 0) (List.replicate 6 0), h⟩

/-- The server of port 213, and two hosts of its network. -/
def startEmpty : Session := .start ⟨0, 0xd500⟩ (fun _ => ⟨0, 0⟩) fun _ => 0

def firstHost : Endpoint := ⟨0xc0a80001, 4000⟩

def secondHost : Endpoint := ⟨0xc0a80002, 4000⟩

def bothRegister : List Datagram :=
  [registration firstHost (by decide), registration secondHost (by decide)]

theorem complies_bothRegister : startEmpty.Complies true bothRegister := by
  decide

theorem run_routes_bothRegister :
    startEmpty.Complies true bothRegister ∧
      (startEmpty.run true bothRegister).server.OneSlotEach true ∧
      ∀ d, Meets true (startEmpty.run true bothRegister).server d →
        Routed true (startEmpty.run true bothRegister) d :=
  ⟨complies_bothRegister, run_routes true _ _ _ bothRegister complies_bothRegister⟩

/-- A packet from the second host to the first. -/
def toFirst : Datagram :=
  ⟨secondHost, emptyPacket 0x4000 (bytes32 firstHost.address ++ bytes16 firstHost.port)
    (bytes32 secondHost.address ++ bytes16 secondHost.port), by decide⟩

def oneByte : Datagram := ⟨secondHost, [0xff], by decide⟩

/-- **A client that registers twice has two slots**, and gets what is sent to it twice; and a
datagram of one byte is sent to the receiver of the one before. -/
theorem run_not_routed :
    ¬(startEmpty.run true [registration firstHost (by decide),
        registration firstHost (by decide)]).server.OneSlotEach true ∧
      ¬Routed true (startEmpty.run true [registration firstHost (by decide),
        registration firstHost (by decide)]) toFirst ∧
      ¬Routed true (startEmpty.run true [registration firstHost (by decide), toFirst]) oneByte := by
  refine ⟨fun h => ?_, fun h => ?_, fun h => ?_⟩
  · have hsame := h ⟨0, by decide⟩ ⟨1, by decide⟩ (by decide) (by decide)
      (by decide)
    exact absurd hsame (by decide)
  · have hone := h.one (by decide) (by decide) firstHost (by decide)
    exact absurd (congrArg List.length hone) (by decide)
  · have hnone := (h.short (by decide)).2.1
    exact absurd (congrArg List.length hnone) (by decide)

end AugraDosbox.Ipx
