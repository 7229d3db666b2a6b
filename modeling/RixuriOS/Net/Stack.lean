import RixuriOS.Net.Arp
import RixuriOS.Net.Builders
import RixuriOS.Net.Socket

/-!
# Sending through the stack

`rix_net_stack_send_ipv4` keeps one packet while the hardware address of its next hop
is unknown. It returns -2 for that packet, and for one that it drops because another is
kept; the senders of `net/socket.c` report both as sent. `handle_arp` sends the packet
on. When the device refuses it, its header stays in front, and the next attempt adds
another one.
-/

namespace RixuriOS.Net

/-- The interface, and which frames `rix_net_device_transmit` takes. -/
structure Device where
  mac : MacBytes
  address : UInt32
  netmask : UInt32
  gateway : UInt32
  takes : Frame → Bool

/-- A pending packet. The packet as it was parked and the refusals since are history. -/
structure Parked where
  frame : Frame
  hop : UInt32
  packet : Frame
  refusals : Nat

/-- `rix_net_stack_t`. History are the frames that the device took from `rix_net_stack_send_ipv4`,
the packets that were parked, and those that it took from `handle_arp`. -/
structure Stack where
  arp : List ArpEntry
  pending : Option Parked
  sent : List Frame
  parked : List Frame
  flushed : List Parked

/-- What is read of a socket that sends. -/
structure Sender where
  type : SocketType
  shutWr : Bool
  connected : Bool
  localPort : UInt16
  peer : UInt32 × UInt16
  tcp : TcpControl

def stackInit : Stack := ⟨arpInit, none, [], [], []⟩

/-- After `rix_net_packet_init`. The bytes are written before they are read and are zero here. -/
def blank : Frame := ⟨fun _ => 0, 64, 0⟩

def built (b : Build Unit) : Option Frame :=
  match b blank with
  | .ok _ packet => some packet
  | .error _ _ => none

def macBytes (m : Mac) : MacBytes := .ofFn fun i => .ofNat (m.toNat / 256 ^ (5 - i.val))

section

variable (d : Device) (s : Stack)

def nextHop (destination : UInt32) : UInt32 :=
  if destination &&& d.netmask = d.address &&& d.netmask then destination else d.gateway

def sendArp (operation : UInt16) (mac targetMac : MacBytes) (target : UInt32) : Bool :=
  (built do
    arpPush operation d.mac d.address targetMac target
    ethPush mac d.mac 0x0806).any d.takes

/-- `rix_net_stack_send_ipv4` of an initialised stack. -/
def stackSendIpv4 (packet : Frame) (destination : UInt32) : Int × Stack :=
  let hop := nextHop d destination
  if packet.length = 0 ∨ destination = 0 then (-1, s)
  else match arpLookup s.arp hop 0, s.pending with
    | none, some _ => (-2, s)
    | none, none =>
      (if sendArp d 1 (.replicate 6 0xff) (.replicate 6 0) hop then -2 else -3,
        { s with pending := some ⟨packet, hop, packet, 0⟩, parked := s.parked ++ [packet] })
    | some mac, _ => match ethPush (macBytes mac) d.mac 0x0800 packet with
      | .error _ _ => (-1, s)
      | .ok _ frame => if d.takes frame then (0, { s with sent := frame :: s.sent }) else (-1, s)

variable (k : Sender) (data : List UInt8) (dst : UInt32 × UInt16)

/-- The packet that `send_udp_external`, `send_tcp_external` or `send_raw_icmp_external` builds. -/
def externalPacket : Option Frame :=
  let ipv4 := fun protocol => ipv4Push d.address dst.1 protocol 64 0 0x4000
  match k.type with
  | .udp => if data = [] then none
    else built do
      udpPush d.address dst.1 k.localPort dst.2 data
      ipv4 17
  | .tcp => if data = [] ∨ ¬k.connected ∨ k.tcp.state ≠ .established ∨ k.peer ≠ dst then none
    else built do
      tcpPush d.address dst.1 k.localPort dst.2 k.tcp.sequence k.tcp.acknowledgment 0x18 4096 data
      ipv4 6
  | .rawIcmp => if 1500 < data.length ∨ dst.1 = 0 ∨ data.length < 8 ∨ data[0]? ≠ some 8 ∨
        data[1]? ≠ some 0 ∨ checksum data ≠ 0 then none
    else built do
      putBytes data
      ipv4 1

/-- The three senders; the stack returns nothing positive. -/
def sendExternal : Int × Stack :=
  match externalPacket d k data dst with
  | none => (-1, s)
  | some packet =>
    let r := stackSendIpv4 d s packet dst.1
    (if r.1 = 0 ∨ r.1 = -2 then data.length else -1, r.2)

def Sender.destination : UInt32 × UInt16 := if k.connected then k.peer else dst

/-- `rix_net_socket_send` when the destination is not the loopback address. -/
def socketSend : Int × Stack :=
  if data = [] ∨ 1500 < data.length ∨ k.shutWr then (-1, s)
  else if k.type ≠ .rawIcmp ∧ (k.destination dst).2 = 0 then (-2, s)
  else sendExternal d s k data (k.destination dst)

/-- The device has taken the packet from `s` on to `s'`, or it has become the pending one. -/
def Kept (s' : Stack) (packet : Frame) (hop : UInt32) : Prop :=
  (∃ mac frame, ethPush mac d.mac 0x0800 packet = .ok () frame ∧ s'.sent = frame :: s.sent) ∨
    s'.pending = some ⟨packet, hop, packet, 0⟩ ∧ s'.parked = s.parked ++ [packet]

variable {d s} in
theorem not_kept_self {packet : Frame} {hop : UInt32} : ¬Kept d s s packet hop := by
  rintro (⟨-, frame, -, h⟩ | ⟨-, h⟩)
  · exact List.cons_ne_self frame s.sent h.symm
  · exact List.cons_ne_nil packet [] (List.self_eq_append_right.1 h)

variable {d s} in
theorem stackSendIpv4_kept {packet : Frame} {destination : UInt32} {r : Int × Stack}
    (hr : stackSendIpv4 d s packet destination = r) (hdone : r.1 = 0 ∨ r.1 = -2) :
    Kept d s r.2 packet (nextHop d destination) ↔
      s.pending = none ∨ arpLookup s.arp (nextHop d destination) 0 ≠ none := by
  unfold stackSendIpv4 at hr
  split_ifs at hr
  · subst hr
    simp at hdone
  cases hmac : arpLookup s.arp (nextHop d destination) 0 with
  | none =>
    cases hpending : s.pending with
    | none =>
      simp only [hmac, hpending] at hr
      subst hr
      exact iff_of_true (.inr ⟨rfl, rfl⟩) (.inl rfl)
    | some q =>
      simp only [hmac, hpending] at hr
      subst hr
      exact iff_of_false not_kept_self (by simp)
  | some mac =>
    refine iff_of_true ?_ (.inr (Option.some_ne_none mac))
    simp only [hmac] at hr
    cases hpush : ethPush (macBytes mac) d.mac 0x0800 packet with
    | error =>
      rw [hpush] at hr
      subst hr
      simp at hdone
    | ok _ frame =>
      simp only [hpush] at hr
      split_ifs at hr <;> subst hr
      · exact .inl ⟨_, frame, hpush, rfl⟩
      · simp at hdone

/-- A packet that is reported as sent has been handed over or is kept, unless another packet is
pending while its hop is unknown: then it is dropped. -/
theorem socketSend_kept (h : 0 < (socketSend d s k data dst).1) :
    ∃ packet, externalPacket d k data (k.destination dst) = some packet ∧
      (Kept d s (socketSend d s k data dst).2 packet (nextHop d (k.destination dst).1) ↔
        s.pending = none ∨ arpLookup s.arp (nextHop d (k.destination dst).1) 0 ≠ none) := by
  unfold socketSend at h ⊢
  generalize k.destination dst = dst at h ⊢
  split_ifs at h ⊢
  · exact absurd h (Int.not_lt.2 (Int.negSucc_le_zero 0))
  · exact absurd h (Int.not_lt.2 (Int.negSucc_le_zero 1))
  unfold sendExternal at h ⊢
  cases hpacket : externalPacket d k data dst with
  | none =>
    rw [hpacket] at h
    exact absurd h (Int.not_lt.2 (Int.negSucc_le_zero 0))
  | some packet =>
  rw [hpacket] at h
  refine ⟨packet, rfl, stackSendIpv4_kept (r := stackSendIpv4 d s packet dst.1) rfl ?_⟩
  by_contra hdone
  simp [hdone] at h

end

def wire : Device := ⟨.replicate 6 2, 0x0a00020f, 0xffffff00, 0x0a000202, fun _ => true⟩

def client : Sender := ⟨.udp, false, false, 1000, (0, 0), ⟨.closed, 0, 0⟩⟩

theorem socketSend_kept_empty :
    ∃ packet, externalPacket wire client [1] (0x0a000203, 7) = some packet ∧
      Kept wire stackInit (socketSend wire stackInit client [1] (0x0a000203, 7)).2 packet
        (nextHop wire 0x0a000203) := by
  obtain ⟨packet, hpacket, hkept⟩ :=
    socketSend_kept wire stackInit client [1] (0x0a000203, 7) (by decide +kernel)
  exact ⟨packet, hpacket, hkept.2 (.inl rfl)⟩

/-- While a packet is kept, the next one to an unknown hop is reported as sent and lost. -/
theorem socketSend_drops : ∃ r, socketSend wire
      { stackInit with pending := some ⟨blank, 0x0a000204, blank, 0⟩ } client [1] (0x0a000203, 7) = r ∧
    r.1 = 1 ∧ r.2.sent = [] ∧ r.2.pending.map (·.frame.length) = some 0 :=
  ⟨_, rfl, by decide +kernel⟩

/-! ## The packet that is parked -/

/-- What is used of an ARP packet. -/
structure ArpPacket where
  operation : UInt16
  senderMac : Mac
  senderIp : UInt32
  targetIp : UInt32

def handleArp (d : Device) (s : Stack) (a : ArpPacket) (now : Nat) : Int × Stack :=
  let mac := macBytes a.senderMac
  let s' := { s with arp := arpLearn s.arp a.senderIp a.senderMac now 60 }
  if a.senderIp = 0 then (-1, s)
  else if a.operation = 1 ∧ a.targetIp = d.address ∧ ¬sendArp d 2 mac mac a.senderIp then (-1, s')
  else match s.pending with
    | none => (0, s')
    | some p =>
      match if a.senderIp = p.hop then arpLookup s'.arp p.hop now else none with
      | none => (0, s')
      | some mac => match ethPush (macBytes mac) d.mac 0x0800 p.frame with
        | .error _ _ => (-1, s')
        | .ok _ frame =>
          if d.takes frame then
            (0, { s' with pending := none, flushed := s.flushed ++ [{ p with frame }] })
          else (-1, { s' with pending := some { p with frame, refusals := p.refusals + 1 } })

inductive StackCall
  | send (packet : Frame) (destination : UInt32)
  | arp (a : ArpPacket) (now : Nat)
  | timer (now : Nat)

/-- A call on the interface as it is then. The request that `rix_net_stack_timer` may repeat leaves
the stack alone. -/
def stackStep (s : Stack) : Device × StackCall → Stack
  | (d, .send packet destination) => (stackSendIpv4 d s packet destination).2
  | (d, .arp a now) => (handleArp d s a now).2
  | (_, .timer now) => { s with arp := arpExpire s.arp now }

/-- Every packet that was parked has been sent on once or is pending, and one that the device never
refused goes out behind one header. -/
structure StackInv (s : Stack) : Prop where
  parked : s.parked = (s.flushed ++ s.pending.toList).map (·.packet)
  pending : ∀ p ∈ s.pending, p.refusals = 0 → p.frame = p.packet
  flushed : ∀ p ∈ s.flushed, p.refusals = 0 →
    ∃ mac src, ethPush mac src 0x0800 p.packet = .ok () p.frame

section

variable {s : Stack} (h : StackInv s)

include h

theorem StackInv.send (d : Device) (packet : Frame) (destination : UInt32) :
    StackInv (stackSendIpv4 d s packet destination).2 := by
  unfold stackSendIpv4
  split_ifs
  · exact h
  simp only
  split
  · exact h
  · rename_i hnone
    exact ⟨by simp [h.parked, hnone], by simp, h.flushed⟩
  split
  · exact h
  · split <;> exact ⟨h.parked, h.pending, h.flushed⟩

theorem StackInv.handleArp (d : Device) (a : ArpPacket) (now : Nat) :
    StackInv (handleArp d s a now).2 := by
  have hsame : ∀ arp, StackInv { s with arp } := fun _ => ⟨h.parked, h.pending, h.flushed⟩
  rw [Net.handleArp]
  split_ifs
  · exact h
  · exact hsame _
  cases hp : s.pending with
  | none =>
    rw [hp] at hsame
    exact hsame _
  | some p =>
  simp only [hp] at hsame ⊢
  split
  · exact hsame _
  rename_i mac _
  have hframe := h.pending p hp
  cases hpush : ethPush (macBytes mac) d.mac 0x0800 p.frame with
  | error => exact hsame _
  | ok _ frame =>
  simp only
  split_ifs
  · refine ⟨by simp [h.parked, hp], by simp, fun q hq h0 => ?_⟩
    obtain hq | rfl := by simpa using hq
    · exact h.flushed q hq h0
    · exact ⟨_, _, hframe h0 ▸ hpush⟩
  · exact ⟨by simp [h.parked, hp], by simp, h.flushed⟩

end

theorem stackRun_parked (calls : List (Device × StackCall)) :
    StackInv (calls.foldl stackStep stackInit) := by
  refine List.foldlRecOn calls stackStep ⟨rfl, by simp [stackInit], by simp [stackInit]⟩
    fun s h c _ => ?_
  obtain ⟨d, ⟨packet, destination⟩ | ⟨a, now⟩ | now⟩ := c
  · exact h.send d packet destination
  · exact h.handleArp d a now
  · exact ⟨h.parked, h.pending, h.flushed⟩

/-- A packet that the device refused once goes out behind two headers. -/
theorem stackRun_doubles : ∃ p ∈ (List.foldl stackStep stackInit
    [(wire, .send { blank with length := 20 } 0x0a000203),
      ({ wire with takes := fun _ => false }, .arp ⟨2, 1, 0x0a000203, 0⟩ 0),
      (wire, .arp ⟨2, 1, 0x0a000203, 0⟩ 0)]).flushed, p.frame.length = p.packet.length + 28 := by
  decide +kernel

end RixuriOS.Net
