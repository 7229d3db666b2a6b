import RixuriOS.Net.Packet
import RixuriOS.Lib.RingBuffer

/-!
# Sockets and the receive queue of the stack

The receiving side of `net/socket.c`, `net/tcp.c` and `net/stack.c`: the queue of
IPv4 packets of the stack, shared by all processes, and the socket table of a
process that takes packets from it. Packets that a call sends in answer are not
part of this model, nor are the fields of a socket that only loopback connections
use.
-/

namespace RixuriOS.Net

open Function

abbrev socketMax : Nat := 16

scoped instance : NeZero socketMax := ⟨by decide⟩

abbrev socketQueue : Nat := 8

scoped instance : NeZero socketQueue := ⟨by decide⟩

abbrev reassemblySlots : Nat := 4

abbrev rxQueueMax : Nat := 8

def packetRoom : Nat := 1500 + 16

inductive TcpState
  | closed | listen | synSent | synReceived | established | finWait1 | finWait2 | closeWait
  | lastAck | timeWait
  deriving DecidableEq, Repr

inductive TcpEvent
  | passiveOpen | activeOpen | syn | synAck | ack | fin | close
  deriving DecidableEq, Repr

/-- `rix_tcp_transition`; `none` for a return value of -1. -/
def tcpTransition : TcpState → TcpEvent → Option TcpState
  | .closed, .passiveOpen => some .listen
  | .closed, .activeOpen => some .synSent
  | .listen, .syn => some .synReceived
  | .listen, .close => some .closed
  | .synSent, .synAck => some .established
  | .synSent, .close => some .closed
  | .synReceived, .ack => some .established
  | .synReceived, .close => some .finWait1
  | .established, .close => some .finWait1
  | .established, .fin => some .closeWait
  | .established, .ack => some .established
  | .finWait1, .ack => some .finWait2
  | .finWait1, .fin => some .timeWait
  | .finWait2, .fin => some .timeWait
  | .closeWait, .close => some .lastAck
  | .lastAck, .ack => some .closed
  | .timeWait, .close => some .closed
  | _, _ => none

structure TcpControl where
  state : TcpState
  sequence : UInt32
  acknowledgment : UInt32

structure Endpoint where
  address : Nat
  port : Nat
  deriving DecidableEq

inductive SocketType
  | udp | rawIcmp | tcp
  deriving DecidableEq, Repr

structure SocketQueue where
  packets : Fin socketQueue → Packet
  peers : Fin socketQueue → Endpoint
  head : Nat
  count : Nat

structure ReassemblySlot where
  used : Bool
  fin : Bool
  sequence : UInt32
  packet : Packet

structure Socket where
  used : Bool
  connected : Bool
  nonblock : Bool
  shutRd : Bool
  type : SocketType
  localPort : Nat
  peer : Endpoint
  tcp : TcpControl
  receive : SocketQueue
  reassembly : Fin reassemblySlots → ReassemblySlot

abbrev SocketTable := Fin socketMax → Socket

def packetCopy (data : Packet) : Option Packet :=
  if data.length ≤ packetRoom then some data else none

def queuePacket (s : Socket) (data : Packet) (peer : Endpoint) : Option Socket :=
  if data.length = 0 ∨ socketQueue ≤ s.receive.count then none
  else
    (packetCopy data).map fun packet =>
      let tail := Fin.ofNat socketQueue (s.receive.head + s.receive.count)
      { s with
        receive :=
          { s.receive with
            packets := update s.receive.packets tail packet
            peers := update s.receive.peers tail peer
            count := s.receive.count + 1 } }

/-- `tcp_queue_payload`: whether it returns 0, and the socket. The acknowledgment moves
before a refused transition. -/
def tcpQueuePayload (s : Socket) (sequence : UInt32) (packet : Packet) (fin : Bool) :
    Bool × Socket :=
  if sequence ≠ s.tcp.acknowledgment then (false, s)
  else
    match if packet.length = 0 then some s else queuePacket s packet s.peer with
    | none => (false, s)
    | some s' =>
      let acknowledgment := sequence + UInt32.ofNat packet.length + if fin then 1 else 0
      let s'' := { s' with tcp := { s'.tcp with acknowledgment } }
      if fin then
        match tcpTransition s''.tcp.state .fin with
        | none => (false, s'')
        | some state => (true, { s'' with tcp := { s''.tcp with state } })
      else (true, s'')

def tcpHoldSegment (s : Socket) (sequence : UInt32) (packet : Packet) (fin : Bool) :
    Option Socket :=
  if (List.finRange reassemblySlots).any fun i =>
      (s.reassembly i).used && (s.reassembly i).sequence == sequence then some s
  else
    match (List.finRange reassemblySlots).find? fun i => !(s.reassembly i).used with
    | none => none
    | some i =>
      (packetCopy packet).map fun packet =>
        { s with
          reassembly := update s.reassembly i { used := true, fin, sequence, packet } }

/-- What a pass of `tcp_drain_reassembly` over the slots comes to. -/
inductive Drained
  | failed | idle | progressed
  deriving DecidableEq

def drainPass : List (Fin reassemblySlots) → Drained → Socket → Drained × Socket
  | [], d, s => (d, s)
  | i :: rest, d, s =>
    let slot := s.reassembly i
    if !slot.used ∨ slot.sequence ≠ s.tcp.acknowledgment then drainPass rest d s
    else
      let r := tcpQueuePayload s slot.sequence slot.packet slot.fin
      if !r.1 then (.failed, r.2)
      else
        drainPass rest .progressed
          { r.2 with reassembly := update r.2.reassembly i { slot with used := false } }

def drainLoop : Nat → Socket → Bool × Socket
  | 0, s => (true, s)
  | passes + 1, s =>
    match drainPass (List.finRange reassemblySlots) .idle s with
    | (.failed, s') => (false, s')
    | (.idle, s') => (true, s')
    | (.progressed, s') => drainLoop passes s'

/-- `tcp_drain_reassembly`: whether it returns 0, and the socket. Each pass that makes
progress empties a slot, so one more pass than slots reaches the end. -/
def tcpDrainReassembly (s : Socket) : Bool × Socket := drainLoop (reassemblySlots + 1) s

def tcpMatches (s : Socket) (header : TcpHeader) (source : Nat) : Bool :=
  s.used && s.type == .tcp && s.localPort == header.destinationPort &&
    s.peer.address == source && s.peer.port == header.sourcePort

/-- What `dispatch_external_tcp` does with a segment for the socket `s`. -/
def tcpInput (s : Socket) (header : TcpHeader) (payload : Packet) : Int × Socket :=
  if header.rst then
    (11, { s with
      connected := false
      tcp := { s.tcp with state := (tcpTransition s.tcp.state .close).getD s.tcp.state } })
  else if header.syn ∧ s.tcp.state = .synSent ∧ header.acknowledgment = s.tcp.sequence + 1 then
    (11, { s with
      connected := true
      tcp :=
        { state := .established
          sequence := s.tcp.sequence + 1
          acknowledgment := header.sequence + 1 } })
  else if s.tcp.state ≠ .established ∧ s.tcp.state ≠ .closeWait then (13, s)
  else if header.sequence < s.tcp.acknowledgment then (14, s)
  else if s.tcp.acknowledgment < header.sequence then
    match tcpHoldSegment s header.sequence payload header.fin with
    | none => (-1, s)
    | some s' => (14, s')
  else
    let queued := tcpQueuePayload s header.sequence payload header.fin
    if !queued.1 then (-1, queued.2)
    else
      let drained := tcpDrainReassembly queued.2
      if !drained.1 then (-1, drained.2)
      else (if payload.length ≠ 0 ∨ header.fin then 11 else 0, drained.2)

/-- `dispatch_external_tcp` after the header has been taken off: the segment goes to the
first socket that matches. -/
def dispatchSegment (table : SocketTable) (header : TcpHeader) (payload : Packet) (source : Nat) :
    Int × SocketTable :=
  match (List.finRange socketMax).find? fun i => tcpMatches (table i) header source with
  | none => (2, table)
  | some i =>
    let r := tcpInput (table i) header payload
    (r.1, update table i r.2)

def dispatchExternalTcp (table : SocketTable) (packet : Packet) (source destination : Nat) :
    Int × SocketTable :=
  match tcpPull packet source destination with
  | none => (-1, table)
  | some (header, payload) => dispatchSegment table header payload source

def deliverIcmp (message : Packet) (source : Nat) :
    List (Fin socketMax) → Bool → SocketTable → Bool × SocketTable
  | [], matched, table => (matched, table)
  | i :: rest, matched, table =>
    if !(table i).used ∨ (table i).type ≠ .rawIcmp then deliverIcmp message source rest matched table
    else
      match queuePacket (table i) message ⟨source, 0⟩ with
      | none => deliverIcmp message source rest matched table
      | some s => deliverIcmp message source rest true (update table i s)

def udpMatches (s : Socket) (header : UdpHeader) : Bool :=
  s.used && s.type == .udp && s.localPort == header.destinationPort

/-- The IPv4 receive queue of `rix_net_stack_t`. -/
structure RxQueue where
  incoming : Fin rxQueueMax → Packet
  head : Nat
  count : Nat

/-- The queue part of `rix_net_stack_poll`, for a frame that the device has received:
when the queue is full, the oldest packet goes. -/
def stackPoll (q : RxQueue) (frame : Option Packet) : RxQueue :=
  match frame.bind ethPull with
  | none => q
  | some (ethertype, packet) =>
    if ethertype ≠ ethertypeIpv4 then q
    else
      let q' : RxQueue :=
        if rxQueueMax ≤ q.count then
          { q with head := (q.head + 1) % rxQueueMax, count := q.count - 1 }
        else q
      { q' with
        incoming := update q'.incoming (Fin.ofNat rxQueueMax (q'.head + q'.count)) packet
        count := q'.count + 1 }

def stackTakeIpv4 (q : RxQueue) : Option (Packet × RxQueue) :=
  if q.count = 0 then none
  else
    some (q.incoming (Fin.ofNat rxQueueMax q.head),
      { q with head := (q.head + 1) % rxQueueMax, count := q.count - 1 })

/-- What `dispatch_external_ipv4` does with the packet it has taken. -/
def dispatchPacket (table : SocketTable) (packet : Packet) : Int × SocketTable :=
  match ipv4Pull packet with
  | none => (0, table)
  | some (ip, body) =>
    if ip.protocol = protoTcp then dispatchExternalTcp table body ip.source ip.destination
    else if ip.protocol = protoIcmp then
      if body.length < 8 ∨ byteAt body 0 ≠ 0 ∨ byteAt body 1 ≠ 0 ∨ checksum body ≠ 0 then (0, table)
      else
        let r := deliverIcmp body ip.source (List.finRange socketMax) false table
        (if r.1 then 1 else 0, r.2)
    else if ip.protocol ≠ protoUdp then (0, table)
    else
      match udpPull body ip.source ip.destination with
      | none => (0, table)
      | some (udp, data) =>
        match (List.finRange socketMax).find? fun i => udpMatches (table i) udp with
        | none => (0, table)
        | some i =>
          (1, update table i
            ((queuePacket (table i) data ⟨ip.source, udp.sourcePort⟩).getD (table i)))

/-- `dispatch_external_ipv4`, with the frame that the device has received. -/
def dispatchExternalIpv4 (q : RxQueue) (table : SocketTable) (frame : Option Packet) :
    Int × RxQueue × SocketTable :=
  match stackTakeIpv4 (stackPoll q frame) with
  | none => (0, stackPoll q frame, table)
  | some (packet, q') =>
    let r := dispatchPacket table packet
    (r.1, q', r.2)

def socketPoll (q : RxQueue) (table : SocketTable) (frame : Option Packet) :
    Int × RxQueue × SocketTable := dispatchExternalIpv4 q table frame

/-- The queue part of `rix_net_socket_receive`: the oldest packet, if it fits. -/
def takePacket (s : Socket) (capacity : Nat) : Int × Option (Packet × Endpoint) × Socket :=
  if s.receive.count = 0 then
    if s.type = .tcp ∧ s.tcp.state = .closeWait then (0, none, s)
    else (if s.nonblock then -2 else -3, none, s)
  else
    let packet := s.receive.packets (Fin.ofNat socketQueue s.receive.head)
    if capacity < packet.length then (-4, none, s)
    else
      (packet.length, some (packet, s.receive.peers (Fin.ofNat socketQueue s.receive.head)),
        { s with
          receive :=
            { s.receive with
              head := (s.receive.head + 1) % socketQueue
              count := s.receive.count - 1 } })

def socketReceive (q : RxQueue) (table : SocketTable) (descriptor : Int) (capacity : Nat)
    (frame : Option Packet) : Int × Option (Packet × Endpoint) × RxQueue × SocketTable :=
  if h : 0 ≤ descriptor ∧ descriptor < socketMax then
    let i : Fin socketMax := ⟨descriptor.toNat, by omega⟩
    if !(table i).used ∨ capacity = 0 then (-1, none, q, table)
    else if (table i).shutRd then (0, none, q, table)
    else
      let polled : RxQueue × SocketTable :=
        if (table i).receive.count = 0 then (dispatchExternalIpv4 q table frame).2 else (q, table)
      let r := takePacket (polled.2 i) capacity
      (r.1, r.2.1, polled.1, update polled.2 i r.2.2)
  else (-1, none, q, table)

end RixuriOS.Net
