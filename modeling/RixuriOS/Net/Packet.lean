import Mathlib

/-!
# Packets and their headers

The checksum of `net/net.c` and the functions that take a header off a received
packet: `rix_net_eth_pull`, `rix_net_ipv4_pull`, `rix_net_udp_pull` and
`rix_net_tcp_pull`. A packet is the list of the bytes from its start on; every
function returns the header and the bytes behind it, `none` for a negative result.
-/

namespace RixuriOS.Net

abbrev Packet := List UInt8

def byteAt (p : Packet) (i : Nat) : Nat := ((p[i]?).getD 0).toNat

def be16At (p : Packet) (i : Nat) : Nat := byteAt p i * 256 + byteAt p (i + 1)

def be32At (p : Packet) (i : Nat) : Nat := be16At p i * 65536 + be16At p (i + 2)

def foldLoop : Nat → Nat → Nat
  | 0, sum => sum
  | rounds + 1, sum =>
    if sum / 65536 = 0 then sum else foldLoop rounds (sum % 65536 + sum / 65536)

/-- `fold_sum`. Three rounds are enough for 32 bits. -/
def foldSum (sum : Nat) : Nat := foldLoop 3 (sum % 2 ^ 32)

/-- `rix_net_checksum_add`: the complement in 16 bits. -/
def checksumAdd (sum : Nat) : Nat := 65535 - foldSum sum

def wordSum : List UInt8 → Nat
  | a :: b :: rest => a.toNat * 256 + b.toNat + wordSum rest
  | [a] => a.toNat * 256
  | [] => 0

def checksum (bytes : List UInt8) : Nat := checksumAdd (wordSum bytes)

def pseudoChecksum (protocol source destination : Nat) (segment : List UInt8) : Nat :=
  checksumAdd (source / 65536 + source % 65536 + destination / 65536 + destination % 65536 +
    protocol + segment.length + wordSum segment)

def protoIcmp : Nat := 1
def protoTcp : Nat := 6
def protoUdp : Nat := 17

def ethertypeIpv4 : Nat := 0x0800
def ethertypeArp : Nat := 0x0806
def ethertypeIpv6 : Nat := 0x86dd

def ethPull (p : Packet) : Option (Nat × Packet) :=
  if p.length < 14 then none
  else if be16At p 12 = ethertypeIpv4 ∨ be16At p 12 = ethertypeArp ∨ be16At p 12 = ethertypeIpv6 then
    some (be16At p 12, p.drop 14)
  else none

structure Ipv4Header where
  source : Nat
  destination : Nat
  protocol : Nat

def ipv4Pull (p : Packet) : Option (Ipv4Header × Packet) :=
  if p.length < 20 then none
  else if byteAt p 0 / 16 ≠ 4 ∨ byteAt p 0 % 16 ≠ 5 then none
  else if checksum (p.take 20) ≠ 0 then none
  else if be16At p 2 < 20 ∨ p.length < be16At p 2 then none
  else
    some ({ source := be32At p 12, destination := be32At p 16, protocol := byteAt p 9 },
      (p.drop 20).take (be16At p 2 - 20))

structure UdpHeader where
  sourcePort : Nat
  destinationPort : Nat

def udpPull (p : Packet) (source destination : Nat) : Option (UdpHeader × Packet) :=
  if source = 0 ∨ destination = 0 ∨ p.length < 8 then none
  else if be16At p 4 < 8 ∨ p.length < be16At p 4 then none
  else if be16At p 6 ≠ 0 ∧
      pseudoChecksum protoUdp source destination (p.take (be16At p 4)) ≠ 0 then none
  else if be16At p 0 = 0 ∨ be16At p 2 = 0 then none
  else
    some ({ sourcePort := be16At p 0, destinationPort := be16At p 2 },
      (p.drop 8).take (be16At p 4 - 8))

structure TcpHeader where
  sourcePort : Nat
  destinationPort : Nat
  sequence : UInt32
  acknowledgment : UInt32
  fin : Bool
  syn : Bool
  rst : Bool

def tcpPull (p : Packet) (source destination : Nat) : Option (TcpHeader × Packet) :=
  if source = 0 ∨ destination = 0 ∨ p.length < 20 then none
  else
    let headerLength := byteAt p 12 / 16 * 4
    if headerLength < 20 ∨ p.length < headerLength ∨ byteAt p 12 % 16 ≠ 0 then none
    else if pseudoChecksum protoTcp source destination p ≠ 0 then none
    else if be16At p 0 = 0 ∨ be16At p 2 = 0 then none
    else
      some
        ({ sourcePort := be16At p 0
           destinationPort := be16At p 2
           sequence := UInt32.ofNat (be32At p 4)
           acknowledgment := UInt32.ofNat (be32At p 8)
           fin := byteAt p 13 % 2 = 1
           syn := byteAt p 13 / 2 % 2 = 1
           rst := byteAt p 13 / 4 % 2 = 1 },
          p.drop headerLength)

end RixuriOS.Net
