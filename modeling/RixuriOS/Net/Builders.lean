import RixuriOS.Net.Packet

/-!
# Building packets

The buffer of `net/net.c` and the functions that put payloads and headers into it.
They work on the buffer step by step, so that a call which fails late has already
changed it: those that append a payload first leave it there when no room is left
for their header. Pointers are taken to be valid.
-/

namespace RixuriOS.Net

def frameCapacity : UInt64 := 64 + 1500 + 16

/-- `rix_net_packet_t`; offsets past the array stand for what lies behind it. -/
structure Frame where
  bytes : UInt64 → UInt8
  start : UInt64
  length : UInt64

/-- Code on a packet. It ends early with a return value, or with `none` when it reads through the
null pointer of `rix_net_packet_data`. -/
abbrev Build := EStateM (Option Int) Frame

/-- `rix_net_packet_push`; the result is the offset that `out` points to. -/
def packetPush (n : UInt64) : Build UInt64 := fun p =>
  if p.start < n then .error (some (-1)) p
  else .ok (p.start - n) { p with start := p.start - n, length := p.length + n }

def packetPut (n : UInt64) : Build UInt64 := fun p =>
  if frameCapacity < p.start ∨ frameCapacity - p.start - p.length < n then .error (some (-1)) p
  else .ok (p.start + p.length) { p with length := p.length + n }

def packetData : Build (List UInt8) := fun p =>
  if frameCapacity < p.start ∨ frameCapacity - p.start < p.length then .error none p
  else .ok ((List.range p.length.toNat).map fun i => p.bytes (p.start + .ofNat i)) p

def packetLength : Build UInt64 := fun p => .ok p.length p

def write (out : UInt64) (data : List UInt8) : Build Unit := fun p =>
  .ok () { p with bytes := fun i => (data[(i - out).toNat]?).getD (p.bytes i) }

def refuse (c : Prop) [Decidable c] : Build Unit := fun p =>
  if c then .error (some (-1)) p else .ok () p

/-- `rix_net_packet_put` and the loop that copies the payload to its place. -/
def putBytes (payload : List UInt8) : Build Unit := do
  let body ← packetPut (.ofNat payload.length)
  write body payload

/-- `rix_net_packet_push` of a header of `n` bytes, which may hold the new length of the packet,
and of its checksum at `offset`, which is taken over the whole packet. -/
def prepend (n : UInt64) (header : UInt64 → List UInt8) (offset : UInt64)
    (sum : List UInt8 → List UInt8) : Build Unit := do
  let wire ← packetPush n
  write wire (header (← packetLength))
  write (wire + offset) (sum (← packetData))

def be16 (v : UInt16) : List UInt8 := [(v >>> 8).toUInt8, v.toUInt8]

def be32 (v : UInt32) : List UInt8 :=
  [(v >>> 24).toUInt8, (v >>> 16).toUInt8, (v >>> 8).toUInt8, v.toUInt8]

abbrev MacBytes := Vector UInt8 6
abbrev AddrBytes := Vector UInt8 16

def ethPush (destination source : MacBytes) (ethertype : UInt16) : Build Unit := do
  refuse (ethertype ≠ 0x0800 ∧ ethertype ≠ 0x0806 ∧ ethertype ≠ 0x86dd)
  let header ← packetPush 14
  write header (destination.toList ++ source.toList ++ be16 ethertype)

def arpPush (operation : UInt16) (senderMac : MacBytes) (senderIp : UInt32) (targetMac : MacBytes)
    (targetIp : UInt32) : Build Unit := do
  let p ← get
  refuse (senderIp = 0 ∨ targetIp = 0 ∨ (operation ≠ 1 ∧ operation ≠ 2) ∨ frameCapacity < p.start ∨
    frameCapacity - 28 < p.start ∨ frameCapacity - p.start - 28 < p.length)
  putBytes (be16 1 ++ be16 0x0800 ++ [6, 4] ++ be16 operation ++ senderMac.toList ++
    be32 senderIp ++ targetMac.toList ++ be32 targetIp)

def ipv4Push (source destination : UInt32) (protocol ttl : UInt8)
    (identification flagsFragment : UInt16) : Build Unit := do
  refuse (ttl = 0 ∨ 65515 < (← packetLength))
  let wire ← packetPush 20
  let header := [0x45, 0] ++ be16 (← packetLength).toUInt16 ++ be16 identification ++
    be16 flagsFragment ++ [ttl, protocol, 0, 0] ++ be32 source ++ be32 destination
  write wire header
  write (wire + 10) (be16 (.ofNat (checksum header)))

def icmpEchoPush (type : UInt8) (identifier sequence : UInt16) (payload : List UInt8) :
    Build Unit := do
  refuse (65527 < payload.length)
  putBytes payload
  prepend 8 (fun _ => [type, 0, 0, 0] ++ be16 identifier ++ be16 sequence) 2 fun data =>
    be16 (.ofNat (checksum data))

/-- The test of `rix_net_udp_push` and `rix_net_tcp_push` for the room that the header and the
payload take. -/
def refuseNoRoom (header payload : UInt64) : Build Unit := do
  let p ← get
  refuse (frameCapacity < p.start ∨ frameCapacity - p.start < p.length ∨ p.start < header ∨
    frameCapacity - p.start - p.length - header < payload)

def udpPush (sourceIp destinationIp : UInt32) (sourcePort destinationPort : UInt16)
    (payload : List UInt8) : Build Unit := do
  refuse (sourceIp = 0 ∨ destinationIp = 0 ∨ sourcePort = 0 ∨ destinationPort = 0 ∨
    65527 < payload.length)
  refuseNoRoom 8 (.ofNat payload.length)
  putBytes payload
  prepend 8 (fun length =>
      be16 sourcePort ++ be16 destinationPort ++ be16 length.toUInt16 ++ [0, 0]) 6 fun data =>
    let sum := pseudoChecksum protoUdp sourceIp.toNat destinationIp.toNat data
    be16 (if sum = 0 then 0xffff else .ofNat sum)

/-- The header of TCP over IPv4 and IPv6, with a checksum of zero. -/
def tcpHeader (sourcePort destinationPort : UInt16) (sequence acknowledgment : UInt32)
    (flags window : UInt16) : List UInt8 :=
  be16 sourcePort ++ be16 destinationPort ++ be32 sequence ++ be32 acknowledgment ++
    [0x50, flags.toUInt8] ++ be16 window ++ [0, 0, 0, 0]

def tcpPush (sourceIp destinationIp : UInt32) (sourcePort destinationPort : UInt16)
    (sequence acknowledgment : UInt32) (flags window : UInt16) (payload : List UInt8) :
    Build Unit := do
  refuse (sourceIp = 0 ∨ destinationIp = 0 ∨ sourcePort = 0 ∨ destinationPort = 0 ∨
    65515 < payload.length ∨ flags &&& ~~~0x01ff ≠ 0)
  refuseNoRoom 20 (.ofNat payload.length)
  putBytes payload
  prepend 20 (fun _ => tcpHeader sourcePort destinationPort sequence acknowledgment flags window) 16
    fun data => be16 (.ofNat (pseudoChecksum protoTcp sourceIp.toNat destinationIp.toNat data))

def ipv6Push (source destination : AddrBytes) (nextHeader hopLimit trafficClass : UInt8)
    (flowLabel : UInt32) : Build Unit := do
  refuse (hopLimit = 0 ∨ 0xfffff < flowLabel ∨ 65535 < (← packetLength))
  let wire ← packetPush 40
  write wire (be32 ((6 : UInt32) <<< 28 ||| trafficClass.toUInt32 <<< 20 ||| flowLabel) ++
    be16 ((← packetLength) - 40).toUInt16 ++ [nextHeader, hopLimit] ++ source.toList ++
    destination.toList)

/-- `transport6_checksum`, and `icmpv6_checksum` for its protocol. -/
def transport6Checksum (source destination : AddrBytes) (protocol : UInt8)
    (message : List UInt8) : Nat :=
  checksumAdd (wordSum source.toList + wordSum destination.toList +
    wordSum (be32 (.ofNat message.length)) + wordSum [0, 0, 0, 0, 0, 0, 0, protocol] +
    wordSum message)

def icmpv6Put (type code : UInt8) (source destination : AddrBytes) : Build Unit :=
  prepend 4 (fun _ => [type, code, 0, 0]) 2 fun data =>
    be16 (.ofNat (transport6Checksum source destination 58 data))

def icmpv6EchoPush (type : UInt8) (identifier sequence : UInt16) (source destination : AddrBytes)
    (payload : List UInt8) : Build Unit := do
  refuse (65527 < payload.length ∨ (type ≠ 128 ∧ type ≠ 129))
  putBytes payload
  let fields ← packetPush 4
  write fields (be16 identifier ++ be16 sequence)
  icmpv6Put type 0 source destination

def icmpv6NeighborSolicitPush (source destination target : AddrBytes) : Build Unit := do
  putBytes ([0, 0, 0, 0] ++ target.toList)
  icmpv6Put 135 0 source destination

def icmpv6NeighborAdvertPush (source destination : AddrBytes) (flags : UInt32)
    (target : AddrBytes) : Build Unit := do
  refuse (flags &&& 0x00ffffff ≠ 0)
  putBytes (be32 flags ++ target.toList)
  icmpv6Put 136 0 source destination

def icmpv6RouterSolicitPush (source destination : AddrBytes) : Build Unit := do
  putBytes [0, 0, 0, 0]
  icmpv6Put 133 0 source destination

def icmpv6RouterAdvertPush (source destination : AddrBytes) (hopLimit flags : UInt8)
    (routerLifetime : UInt16) (network : AddrBytes) (networkLength : UInt8) : Build Unit := do
  refuse (128 < networkLength)
  putBytes ([hopLimit, flags] ++ be16 routerLifetime ++ List.replicate 8 0 ++
    [3, 4, networkLength, 0xc0] ++ be32 0xffffffff ++ List.replicate 8 0 ++ network.toList)
  icmpv6Put 134 0 source destination

def udp6Push (source destination : AddrBytes) (sourcePort destinationPort : UInt16)
    (payload : List UInt8) : Build Unit := do
  refuse (65527 < payload.length)
  putBytes payload
  prepend 8 (fun _ => be16 sourcePort ++ be16 destinationPort ++
      be16 (.ofNat (payload.length + 8)) ++ [0, 0]) 6 fun data =>
    be16 (.ofNat (transport6Checksum source destination 17 data))

def tcp6Push (source destination : AddrBytes) (sourcePort destinationPort : UInt16)
    (sequence acknowledgment : UInt32) (flags window : UInt16) (payload : List UInt8) :
    Build Unit := do
  refuse (1500 - 20 < payload.length)
  putBytes payload
  prepend 20 (fun _ => tcpHeader sourcePort destinationPort sequence acknowledgment flags window) 16
    fun data => be16 (.ofNat (transport6Checksum source destination 6 data))

def dhcpUdpPush : Build Unit := do
  let length := (← packetLength) + 8
  refuse (65535 < length ∨ length < 8)
  prepend 8 (fun _ => [0, 68, 0, 67] ++ be16 length.toUInt16 ++ [0, 0]) 6 fun data =>
    let sum := checksumAdd (0xffff + 0xffff + protoUdp + length.toNat + wordSum data)
    if sum = 0 then [0, 0xff] else be16 (.ofNat sum)

/-! ## What a failed call leaves behind -/

variable {α β : Type} {p : Frame} {k : UInt64} {m : Build α} {f : UInt64 → Build α}

/-- From the packet `p` the code has no return value of its own. -/
def Through (p : Frame) (m : Build α) : Prop := ∀ c p', m p ≠ .error (some c) p'

/-- A return value leaves the packet as it was. -/
def Undone (p : Frame) (m : Build α) : Prop := ∀ c p', m p = .error (some c) p' → p' = p

theorem bind_apply (m : Build α) (g : α → Build β) (p : Frame) :
    (m >>= g) p = match m p with
      | .ok a p' => g a p'
      | .error e p' => .error e p' := by
  change EStateM.bind m g p = _
  unfold EStateM.bind
  cases m p <;> rfl

theorem through_push (hk : k ≤ p.start)
    (hf : ∀ q, q.start = p.start - k → Through q (f (p.start - k))) :
    Through p (packetPush k >>= f) := by
  intro c p'
  rw [bind_apply, packetPush, if_neg (UInt64.not_lt.2 hk)]
  exact hf _ rfl c p'

theorem through_fill (wire offset : UInt64) (header : UInt64 → List UInt8)
    (sum : List UInt8 → List UInt8) :
    Through p (do
      write wire (header (← packetLength))
      write (wire + offset) (sum (← packetData))) := by
  intro c p'
  simp only [bind_apply, packetLength, write, packetData]
  split_ifs <;> nofun

theorem through_prepend (hk : k ≤ p.start) (header : UInt64 → List UInt8) (offset : UInt64)
    (sum : List UInt8 → List UInt8) : Through p (prepend k header offset sum) :=
  through_push hk fun _ _ => through_fill _ _ _ _

theorem undone_refuse {c : Prop} [Decidable c] :
    Undone p (refuse c >>= fun _ => m) ↔ c ∨ Undone p m := by
  simp only [Undone, bind_apply, refuse]
  split_ifs with hc
  · exact iff_of_true (fun e p' hm => by cases hm; rfl) (.inl hc)
  · exact (or_iff_right hc).symm

theorem Undone.refuse {c : Prop} [Decidable c] (h : ¬c → Undone p m) :
    Undone p (refuse c >>= fun _ => m) :=
  undone_refuse.2 (or_iff_not_imp_left.2 h)

theorem Undone.push (hf : ∀ q a, Through q (f a)) : Undone p (packetPush k >>= f) := by
  intro e p' hm
  rw [bind_apply, packetPush] at hm
  split_ifs at hm
  · cases hm
    rfl
  · exact absurd hm (hf _ _ e p')

theorem push_error (hk : ¬k ≤ p.start) : (packetPush k >>= f) p = .error (some (-1)) p := by
  rw [bind_apply, packetPush, if_pos (UInt64.not_le.1 hk)]

/-- `rix_net_packet_put` refuses `n` bytes. -/
def NoRoom (p : Frame) (n : Nat) : Prop :=
  frameCapacity < p.start ∨ frameCapacity - p.start - p.length < .ofNat n

/-- The packet `q` is `p` with `n` more bytes. -/
def Appended (p : Frame) (n : Nat) (q : Frame) : Prop :=
  q.start = p.start ∧ q.length = p.length + .ofNat n ∧ (n = 0 → q = p)

theorem undone_putBytes {data : List UInt8} {g : Unit → Build α} {c : Prop}
    (h : ∀ q, Appended p data.length q → ((∀ e p', g () q = .error (some e) p' → p' = p) ↔ c)) :
    Undone p (putBytes data >>= g) ↔ NoRoom p data.length ∨ c := by
  simp only [Undone, NoRoom, bind_apply, putBytes, packetPut]
  split_ifs with hroom
  · exact iff_of_true (fun e p' hm => by cases hm; rfl) (.inl hroom)
  · rw [or_iff_right hroom]
    refine h { p with length := p.length + .ofNat data.length, bytes := _ } ⟨rfl, rfl, fun h0 => ?_⟩
    obtain rfl := List.length_eq_zero_iff.1 h0
    simp

theorem add_ofNat_ne {n : Nat} (a : UInt64) (h0 : n ≠ 0) (hn : n < 2 ^ 64) : a + .ofNat n ≠ a := by
  intro heq
  have h := congrArg UInt64.toNat heq
  rw [UInt64.toNat_add, UInt64.toNat_ofNat_of_lt' hn] at h
  have := a.toNat_lt
  omega

/-- A call that fails with `n` more bytes in the packet is undone if there are none. -/
theorem Appended.error_iff {n : Nat} {q : Frame} {c : Int} (hq : Appended p n q)
    (hn : n < 2 ^ 64) :
    (∀ e p', (.error (some c) q : EStateM.Result (Option Int) Frame α) = .error (some e) p' →
      p' = p) ↔ n = 0 := by
  refine ⟨fun hu => ?_, fun h0 e p' hm => ?_⟩
  · by_contra h0
    exact add_ofNat_ne _ h0 hn (hq.2.1.symm.trans (congrArg Frame.length (hu _ _ rfl)))
  · cases hm
    exact hq.2.2 h0

theorem undone_payload {data : List UInt8} (hn : data.length < 2 ^ 64)
    (header : UInt64 → List UInt8) (offset : UInt64) (sum : List UInt8 → List UInt8) :
    Undone p (putBytes data >>= fun _ => prepend k header offset sum) ↔
      NoRoom p data.length ∨ k ≤ p.start ∨ data.length = 0 := by
  refine undone_putBytes fun q hq => ?_
  by_cases hk : k ≤ p.start
  · exact iff_of_true (fun e p' hm =>
      absurd hm (through_prepend (hq.1 ▸ hk) header offset sum e p')) (.inl hk)
  · rw [prepend, push_error (hq.1 ▸ hk), or_iff_right hk, hq.error_iff hn]

theorem undone_fixed {data : List UInt8} {n : Nat} (hlen : data.length = n) (h0 : n ≠ 0)
    (hn : n < 2 ^ 64) (header : UInt64 → List UInt8) (offset : UInt64)
    (sum : List UInt8 → List UInt8) :
    Undone p (putBytes data >>= fun _ => prepend k header offset sum) ↔
      NoRoom p n ∨ k ≤ p.start := by
  subst hlen
  rw [undone_payload hn, or_iff_left h0]

/-- The header is put in front in two halves, the first of which stays when the second does not
fit. -/
theorem undone_halves {data fields : List UInt8} (hn : data.length + 4 < 2 ^ 64)
    (header : UInt64 → List UInt8) (offset : UInt64) (sum : List UInt8 → List UInt8) :
    Undone p (do
      putBytes data
      let out ← packetPush 4
      write out fields
      prepend 4 header offset sum) ↔
      NoRoom p data.length ∨ 8 ≤ p.start ∨ data.length = 0 ∧ p.start < 4 := by
  refine undone_putBytes fun q hq => ?_
  by_cases h4 : 4 ≤ p.start
  · have h8 : 4 ≤ p.start - 4 ↔ 8 ≤ p.start := by
      rw [UInt64.le_iff_toNat_le, UInt64.toNat_sub_of_le _ _ h4, UInt64.le_iff_toNat_le]
      rw [UInt64.le_iff_toNat_le] at h4
      simp only [UInt64.reduceToNat] at h4 ⊢
      omega
    rw [← h8, or_iff_left fun h => UInt64.not_lt.2 h4 h.2, bind_apply, packetPush,
      if_neg (UInt64.not_lt.2 (hq.1 ▸ h4))]
    simp only [bind_apply, write, hq.1]
    by_cases hk : 4 ≤ p.start - 4
    · exact iff_of_true (fun e p' hm => absurd hm (through_prepend hk _ _ _ e p')) hk
    · refine iff_of_false (fun hu => ?_) hk
      rw [prepend, push_error hk] at hu
      have hlen : q.length + 4 = p.length := congrArg Frame.length (hu _ _ rfl)
      rw [hq.2.1, UInt64.add_assoc] at hlen
      exact add_ofNat_ne (n := data.length + 4) p.length (by omega) hn (by simpa using hlen)
  · have h8 : ¬8 ≤ p.start := fun h8 => h4 (UInt64.le_trans (by decide) h8)
    rw [push_error (hq.1 ▸ h4), or_iff_right h8, and_iff_left (UInt64.not_le.1 h4),
      hq.error_iff (by omega)]

theorem Undone.noRoom {n : UInt64} (h : k ≤ p.start → Undone p m) :
    Undone p (refuseNoRoom k n >>= fun _ => m) := by
  refine Undone.refuse (c := frameCapacity < p.start ∨ _) fun hroom => h ?_
  simp only [not_or] at hroom
  exact UInt64.not_lt.1 hroom.2.2.1

/-- Every function that adds to a packet leaves it as it was when it fails, with the exception of
those that append a payload first: they do so when they fail before that, when the header fits
before the packet, or when the payload is empty. -/
theorem push_undone (p : Frame) :
    (∀ k, Undone p (packetPush k)) ∧ (∀ d s t, Undone p (ethPush d s t)) ∧
    (∀ o a b c d, Undone p (arpPush o a b c d)) ∧
    (∀ s d a b c e, Undone p (ipv4Push s d a b c e)) ∧
    (∀ s d a b c l, Undone p (ipv6Push s d a b c l)) ∧ Undone p dhcpUdpPush ∧
    (∀ s d a b l, Undone p (udpPush s d a b l)) ∧
    (∀ s d a b c e x y l, Undone p (tcpPush s d a b c e x y l)) ∧
    (∀ s d t, Undone p (icmpv6NeighborSolicitPush s d t) ↔ NoRoom p 20 ∨ 4 ≤ p.start) ∧
    (∀ s d x t, Undone p (icmpv6NeighborAdvertPush s d x t) ↔
      x &&& 0x00ffffff ≠ 0 ∨ NoRoom p 20 ∨ 4 ≤ p.start) ∧
    (∀ s d, Undone p (icmpv6RouterSolicitPush s d) ↔ NoRoom p 4 ∨ 4 ≤ p.start) ∧
    (∀ s d a b c e l, Undone p (icmpv6RouterAdvertPush s d a b c e l) ↔
      128 < l ∨ NoRoom p 44 ∨ 4 ≤ p.start) ∧
    (∀ t i s l, Undone p (icmpEchoPush t i s l) ↔
      65527 < l.length ∨ NoRoom p l.length ∨ 8 ≤ p.start ∨ l.length = 0) ∧
    (∀ t i q s d l, Undone p (icmpv6EchoPush t i q s d l) ↔
      (65527 < l.length ∨ (t ≠ 128 ∧ t ≠ 129)) ∨ NoRoom p l.length ∨ 8 ≤ p.start ∨
        l.length = 0 ∧ p.start < 4) ∧
    (∀ s d a b l, Undone p (udp6Push s d a b l) ↔
      65527 < l.length ∨ NoRoom p l.length ∨ 8 ≤ p.start ∨ l.length = 0) ∧
    ∀ s d a b c e x y l, Undone p (tcp6Push s d a b c e x y l) ↔
      1500 - 20 < l.length ∨ NoRoom p l.length ∨ 20 ≤ p.start ∨ l.length = 0 := by
  refine ⟨fun k => ?_, fun d s t => ?_, fun o a b c d => ?_, fun s d a b c e => ?_,
    fun s d a b c l => ?_, ?_, fun s d a b l => ?_, fun s d a b c e x y l => ?_, fun s d t => ?_,
    fun s d x t => ?_, fun s d => ?_, fun s d a b c e l => ?_, fun t i s l => ?_,
    fun t i q s d l => ?_, fun s d a b l => ?_, fun s d a b c e x y l => ?_⟩
  · rw [← bind_pure (packetPush k)]
    exact .push fun _ _ => nofun
  · exact .refuse fun _ => .push fun _ _ => nofun
  · refine .refuse fun _ => ?_
    rw [← bind_pure (putBytes _)]
    refine (undone_putBytes fun q _ => iff_true_intro fun e p' hm => ?_).2 (.inr trivial)
    exact nomatch (show EStateM.Result.ok () q = .error (some e) p' from hm)
  · exact .refuse fun _ => .push fun _ _ => nofun
  · exact .refuse fun _ => .push fun _ _ => nofun
  · exact .refuse fun _ => .push fun _ _ => through_fill _ _ _ _
  · exact .refuse fun _ => .noRoom fun h =>
      (undone_payload (by omega) _ _ _).2 (.inr (.inl h))
  · exact .refuse fun _ => .noRoom fun h =>
      (undone_payload (by omega) _ _ _).2 (.inr (.inl h))
  · exact undone_fixed (by simp) (by decide) (by decide) _ _ _
  · exact undone_refuse.trans (or_congr_right
      (undone_fixed (n := 20) (by simp [be32]) (by decide) (by decide) _ _ _))
  · exact undone_fixed rfl (by decide) (by decide) _ _ _
  · exact undone_refuse.trans (or_congr_right
      (undone_fixed (n := 44) (by simp [be16, be32]) (by decide) (by decide) _ _ _))
  · exact undone_refuse.trans (or_congr_right' fun h => undone_payload (by omega) _ _ _)
  · exact undone_refuse.trans (or_congr_right' fun h => undone_halves (by omega) _ _ _)
  · exact undone_refuse.trans (or_congr_right' fun h => undone_payload (by omega) _ _ _)
  · exact undone_refuse.trans (or_congr_right' fun h => undone_payload (by omega) _ _ _)

/-- With four bytes before the packet, the header does not fit and the payload stays. -/
theorem icmpEchoPush_keeps_payload : ∃ p' : Frame,
    icmpEchoPush 8 1 1 [7] ⟨fun _ => 0, 4, 0⟩ = .error (some (-1)) p' ∧ p'.length = 1 :=
  ⟨_, rfl, rfl⟩

end RixuriOS.Net
