import RixuriOS.Net.Builders

/-!
# The checksum of UDP

The three functions that prepend a UDP header sum up the datagram with a checksum of
zero and write the complement of the sum into the header. Zero means that there is no
checksum, so that `0xffff` has to be written in its place: only `rix_net_udp_push`
does that. `rix_net_udp6_push` writes the zero, and `dhcp_udp_push` replaces its low
byte alone.
-/

namespace RixuriOS.Net

open List

/-! ## Sums -/

variable {n : Nat} {header : UInt64 → List UInt8} {sum : List UInt8 → List UInt8} {m : Build Unit}

/-- The end-around carry leaves the rest modulo `65535`, and never turns into zero. -/
theorem foldSum_eq (h0 : 0 < n) (hn : n < 2 ^ 32) : foldSum n = (n - 1) % 65535 + 1 := by
  unfold foldSum
  rw [Nat.mod_eq_of_lt hn]
  simp only [foldLoop]
  split_ifs <;> omega

theorem checksumAdd_eq_zero (h0 : 0 < n) (hn : n < 2 ^ 32) : checksumAdd n = 0 ↔ 65535 ∣ n := by
  unfold checksumAdd
  rw [foldSum_eq h0 hn]
  omega

/-- The field with which a sum gets valid is the checksum, and `0xffff` as well where that is
zero. -/
theorem checksumAdd_fill {m : Nat} (h0 : 0 < n) (hn : n + 65535 < 2 ^ 32) (hm : m ≤ 65535) :
    checksumAdd (n + m) = 0 ↔ m = checksumAdd n ∨ checksumAdd n = 0 ∧ m = 65535 := by
  rw [checksumAdd_eq_zero (by omega) (by omega)]
  unfold checksumAdd
  rw [foldSum_eq h0 (by omega)]
  omega

theorem wordSum_le (l : List UInt8) : wordSum l ≤ 65535 * l.length := by
  induction l using wordSum.induct with
  | case1 a b rest ih =>
    have ha := a.toNat_lt
    have hb := b.toNat_lt
    simp only [wordSum, length_cons]
    omega
  | case2 a =>
    have ha := a.toNat_lt
    rw [wordSum, length_singleton]
    omega
  | case3 => simp [wordSum]

/-! ## The bytes of a packet -/

/-- The packet lies in the array. -/
def Frame.Valid (p : Frame) : Prop := p.start ≤ frameCapacity ∧ p.length ≤ frameCapacity - p.start

def Frame.data (p : Frame) : List UInt8 :=
  (range p.length.toNat).map fun i => p.bytes (p.start + .ofNat i)

def Frame.written (p : Frame) (out : UInt64) (data : List UInt8) : Frame :=
  { p with bytes := fun i => (data[(i - out).toNat]?).getD (p.bytes i) }

theorem write_apply (out : UInt64) (data : List UInt8) (p : Frame) :
    write out data p = .ok () (p.written out data) := rfl

theorem packetData_apply (p : Frame) : packetData p =
    if frameCapacity < p.start ∨ frameCapacity - p.start < p.length then .error none p
    else .ok p.data p := rfl

variable {p q : Frame}

theorem Frame.Valid.room (hp : p.Valid) : p.start.toNat + p.length.toNat ≤ 1580 := by
  have hs : p.start.toNat ≤ 1580 := UInt64.le_iff_toNat_le.1 hp.1
  have hl := UInt64.le_iff_toNat_le.1 hp.2
  rw [UInt64.toNat_sub_of_le _ _ hp.1, show frameCapacity.toNat = 1580 from rfl] at hl
  omega

theorem Frame.Valid.length_add (hp : p.Valid) : (p.length + 8).toNat = p.length.toNat + 8 := by
  have hroom := hp.room
  exact (UInt64.toNat_add _ _).trans (Nat.mod_eq_of_lt (by simp; omega))

theorem Frame.data_written {k : Nat} {c : List UInt8} (hk : k + c.length ≤ p.length.toNat)
    (hmax : p.length.toNat ≤ 1580) :
    (p.written (p.start + .ofNat k) c).data = p.data.take k ++ c ++ p.data.drop (k + c.length) := by
  refine ext_getElem (by simp [Frame.data, Frame.written]; omega) fun i hi _ => ?_
  have hi : i < p.length.toNat := by simpa [Frame.data, Frame.written] using hi
  have hoff : (p.start + .ofNat i - (p.start + .ofNat k)).toNat =
      if k ≤ i then i - k else 2 ^ 64 + i - k := by
    have := p.start.toNat_lt
    simp only [UInt64.toNat_sub, UInt64.toNat_add, UInt64.toNat_ofNat']
    split_ifs <;> omega
  simp only [Frame.data, Frame.written, getElem_map, getElem_range, hoff, getElem_append, length_append,
    length_take, length_map, length_range, getElem_take, getElem_drop]
  split_ifs <;> grind

theorem Frame.drop_data {k : UInt64} (hlen : (p.length + k).toNat = p.length.toNat + k.toNat) :
    (Frame.data ⟨p.bytes, p.start - k, p.length + k⟩).drop k.toNat = p.data := by
  refine ext_getElem (by simp [Frame.data, hlen]) fun i _ _ => ?_
  simp [Frame.data, ← UInt64.add_assoc]

theorem Frame.data_appended {data : List UInt8}
    (hroom : p.length.toNat + data.length ≤ 1580) :
    Frame.data (Frame.written { p with length := p.length + .ofNat data.length }
      (p.start + p.length) data) = p.data ++ data := by
  have hlen : (p.length + .ofNat data.length).toNat = p.length.toNat + data.length := by
    rw [UInt64.toNat_add, UInt64.toNat_ofNat_of_lt' (by change _ < 2 ^ 64; omega),
      Nat.mod_eq_of_lt (by omega)]
  have h := Frame.data_written (p := { p with length := p.length + .ofNat data.length })
    (k := p.length.toNat) (c := data) hlen.ge (hlen.trans_le hroom)
  simp only [UInt64.ofNat_toNat] at h
  rw [h, drop_eq_nil_of_le (by simp [Frame.data, hlen]), append_nil]
  congr 1
  simp [Frame.data, hlen, ← map_take, take_range]

theorem prepend_ok {n offset : UInt64} (hrun : prepend n header offset sum p = .ok () q) :
    n ≤ p.start ∧ ∃ p', p' = Frame.written ⟨p.bytes, p.start - n, p.length + n⟩ (p.start - n)
      (header (p.length + n)) ∧ q = p'.written (p'.start + offset) (sum p'.data) := by
  rw [prepend, bind_apply, packetPush] at hrun
  split_ifs at hrun with hn
  simp only [bind_apply, packetLength, write_apply, packetData_apply] at hrun
  split_ifs at hrun
  exact ⟨UInt64.not_lt.1 hn, _, rfl, (EStateM.Result.ok.inj hrun).2.symm⟩

theorem wordSum_be16 (v : UInt16) (l : List UInt8) :
    wordSum (be16 v ++ l) = v.toNat + wordSum l := by
  have := v.toNat_lt
  simp [be16, wordSum, Nat.shiftRight_eq_div_pow]
  omega

/-- The header is summed up with a checksum of zero, `P` being the sum of the pseudo header, and
then gets `g` of the checksum. -/
theorem prepend_checksum {P g : Nat → Nat} {x y z : UInt16} (hp : p.Valid)
    (hrun : prepend 8 header 6 sum p = .ok () q)
    (hhead : header (p.length + 8) = be16 x ++ (be16 y ++ (be16 z ++ [0, 0])))
    (hsum : ∀ data, sum data = be16 (.ofNat (g (checksumAdd (P data.length + wordSum data)))))
    (hg : ∀ c ≤ 65535, g c ≤ 65535) (hP : ∀ n ≤ 1580, 0 < P n ∧ P n < 2 ^ 31) :
    q.data.length = p.data.length + 8 ∧ q.data.length ≤ 1580 ∧ ∃ c,
      (c = 0 ↔ 65535 ∣ P (p.data.length + 8) + (x.toNat + y.toNat + z.toNat + wordSum p.data)) ∧
      be16At q.data 6 = g c ∧
      (checksumAdd (P q.data.length + wordSum q.data) = 0 ↔ g c = c ∨ c = 0 ∧ g c = 65535) := by
  obtain ⟨h8, p', hp', rfl⟩ := prepend_ok hrun
  have hroom := hp.room
  have h8 : 8 ≤ p.start.toNat := UInt64.le_iff_toNat_le.1 h8
  have hlen := hp.length_add
  have hlen' : p'.length.toNat = p.length.toNat + 8 := by
    rw [hp']
    exact hlen
  have hbody : p'.data = be16 x ++ (be16 y ++ (be16 z ++ (be16 0 ++ p.data))) := by
    have hfirst := Frame.data_written (p := ⟨p.bytes, p.start - 8, p.length + 8⟩) (k := 0)
      (c := header (p.length + 8)) (by simp [hhead, be16, hlen]) (by dsimp only; omega)
    rw [hp', ← Frame.drop_data (k := 8) hlen]
    simpa [hhead, be16] using hfirst
  obtain ⟨W, hW⟩ : ∃ W, W = x.toNat + y.toNat + z.toNat + wordSum p.data := ⟨_, rfl⟩
  have hwords : wordSum p'.data = W := by
    rw [hbody, hW]
    simp only [wordSum_be16, UInt16.reduceToNat]
    omega
  have hdata : p'.data.length = p.data.length + 8 := by rw [hbody]; rfl
  have hmax : p'.data.length ≤ 1580 := by rw [hdata]; simp [Frame.data]; omega
  have hle := wordSum_le p'.data
  obtain ⟨hpos, hlow⟩ := hP _ hmax
  obtain ⟨c, hc⟩ : ∃ c, c = checksumAdd (P p'.data.length + wordSum p'.data) := ⟨_, rfl⟩
  have hfield := hg c (hc ▸ Nat.sub_le _ _)
  have hq := Frame.data_written (p := p') (k := 6) (c := be16 (.ofNat (g c)))
    (by simp [be16]; omega) (by omega)
  rw [hbody] at hq
  replace hq : _ = be16 x ++ (be16 y ++ (be16 z ++ (be16 (.ofNat (g c)) ++ p.data))) := hq
  rw [← hW, ← hdata, ← hwords, hsum, ← hc, show p'.start + 6 = p'.start + .ofNat 6 from rfl, hq]
  have hlen'' : (be16 x ++ (be16 y ++ (be16 z ++ (be16 (.ofNat (g c)) ++ p.data)))).length =
      p'.data.length := hdata.symm
  refine ⟨hlen'', hlen''.trans_le hmax, c, hc ▸ checksumAdd_eq_zero (by omega) (by omega), ?_, ?_⟩
  · simp [be16At, byteAt, be16]
    omega
  · have hsum' : wordSum (be16 x ++ (be16 y ++ (be16 z ++ (be16 (.ofNat (g c)) ++ p.data)))) =
        wordSum p'.data + g c := by
      rw [hwords, hW]
      simp only [wordSum_be16, UInt16.toNat_ofNat_of_lt' (Nat.lt_succ_of_le hfield)]
      omega
    rw [hlen'', hsum', ← Nat.add_assoc, checksumAdd_fill (by omega) (by omega) hfield, ← hc]

/-! ## The three functions -/

theorem refuse_ok {α : Type} {c : Prop} [Decidable c] {m : Build α} {a : α}
    (h : (refuse c >>= fun _ => m) p = .ok a q) : ¬c ∧ m p = .ok a q := by
  rw [bind_apply, refuse] at h
  split_ifs at h with hc
  exact ⟨hc, h⟩

theorem noRoom_ok {k n : UInt64} (h : (refuseNoRoom k n >>= fun _ => m) p = .ok () q) :
    m p = .ok () q :=
  (refuse_ok (c := frameCapacity < p.start ∨ _) h).2

theorem putBytes_ok {data : List UInt8} (hp : p.Valid) (hn : data.length < 2 ^ 64)
    (h : (putBytes data >>= fun _ => m) p = .ok () q) :
    ∃ p', p'.Valid ∧ p'.data = p.data ++ data ∧ m p' = .ok () q := by
  rw [bind_apply, putBytes, bind_apply, packetPut] at h
  split_ifs at h with hroom
  simp only [write_apply] at h
  obtain ⟨-, hroom⟩ := not_or.1 hroom
  have hle := UInt64.le_iff_toNat_le.1 (UInt64.not_lt.1 hroom)
  rw [UInt64.toNat_sub_of_le _ _ hp.2, UInt64.toNat_sub_of_le _ _ hp.1,
    UInt64.toNat_ofNat_of_lt' hn, show frameCapacity.toNat = 1580 from rfl] at hle
  have hfit := hp.room
  have hdata := @Frame.data_appended p data (by omega)
  refine ⟨_, ?_, hdata, h⟩
  refine ⟨hp.1, UInt64.le_iff_toNat_le.2 ?_⟩
  change (p.length + .ofNat data.length).toNat ≤ (frameCapacity - p.start).toNat
  rw [UInt64.toNat_add, UInt64.toNat_sub_of_le _ _ hp.1, UInt64.toNat_ofNat_of_lt' hn,
    show frameCapacity.toNat = 1580 from rfl]
  omega

/-- What a datagram of `rix_net_udp6_push` sums up to with a checksum of zero: the pseudo header,
the header, and the packet `body` from before with the payload behind it. -/
def udp6Sum (source destination : AddrBytes) (sourcePort destinationPort : UInt16)
    (body payload : List UInt8) : Nat :=
  wordSum source.toList + wordSum destination.toList + (body.length + payload.length + 8) + 17 +
    sourcePort.toNat + destinationPort.toNat + (payload.length + 8) + wordSum (body ++ payload)

/-- The same for `dhcp_udp_push`, from `0.0.0.0` port 68 to `255.255.255.255` port 67. -/
def dhcpSum (body : List UInt8) : Nat :=
  0xffff + 0xffff + protoUdp + (body.length + 8) + 68 + 67 + (body.length + 8) + wordSum body

section

variable {s d : UInt32} {source destination : AddrBytes} {a b : UInt16} {l : List UInt8}
  (hp : p.Valid)

include hp

theorem udpPush_checksum (hrun : udpPush s d a b l p = .ok () q) :
    be16At q.data 6 ≠ 0 ∧ pseudoChecksum protoUdp s.toNat d.toNat q.data = 0 := by
  obtain ⟨hargs, hrun⟩ := refuse_ok hrun
  obtain ⟨p', hp', -, hrun⟩ := putBytes_ok hp (by omega) (noRoom_ok hrun)
  have hif : ∀ c, (if c = 0 then (65535 : UInt16) else .ofNat c) =
      .ofNat (if c = 0 then 65535 else c) := fun c => by split_ifs <;> rfl
  obtain ⟨-, -, c, -, hfield, hver⟩ := prepend_checksum
    (P := fun n => s.toNat / 65536 + s.toNat % 65536 + d.toNat / 65536 + d.toNat % 65536 +
      protoUdp + n) (g := fun c => if c = 0 then 65535 else c) hp' hrun rfl
    (fun _ => congrArg be16 (hif _)) (fun c hc => by split_ifs <;> omega) fun n hn => by
      have hs := s.toNat_lt
      have hd := d.toNat_lt
      rw [protoUdp]
      omega
  rw [hfield]
  refine ⟨by split_ifs <;> omega, hver.2 ?_⟩
  split_ifs with h0
  · exact .inr ⟨h0, rfl⟩
  · exact .inl rfl

theorem udp6Push_checksum (hrun : udp6Push source destination a b l p = .ok () q) :
    transport6Checksum source destination 17 q.data = 0 ∧
      (be16At q.data 6 ≠ 0 ↔ ¬65535 ∣ udp6Sum source destination a b p.data l) := by
  obtain ⟨hargs, hrun⟩ := refuse_ok hrun
  obtain ⟨p', hp', hdata, hrun⟩ := putBytes_ok hp (by omega) hrun
  have hlength : ∀ n ≤ 1580, wordSum (be32 (.ofNat n)) = n := fun n hn => by
    simp [be32, wordSum, Nat.shiftRight_eq_div_pow]
    omega
  obtain ⟨hlen, hmax, c, hc, hfield, hver⟩ := prepend_checksum
    (P := fun n => wordSum source.toList + wordSum destination.toList +
      wordSum (be32 (.ofNat n)) + wordSum [0, 0, 0, 0, 0, 0, 0, 17]) (g := id) hp' hrun rfl
    (fun _ => rfl) (fun _ hc => hc) fun n hn => by
      have hs := wordSum_le source.toList
      have hd := wordSum_le destination.toList
      rw [Vector.length_toList] at hs hd
      rw [hlength n hn]
      simp [wordSum]
      omega
  refine ⟨hver.2 (.inl rfl), ?_⟩
  have hz : (UInt16.ofNat (l.length + 8)).toNat = l.length + 8 :=
    UInt16.toNat_ofNat_of_lt' (by change _ < 2 ^ 16; omega)
  rw [hfield, id, ne_eq, hc, hlength _ (hlen ▸ hmax), hz, udp6Sum, ← length_append, ← hdata]
  simp only [wordSum, UInt8.reduceToNat]
  omega

theorem dhcpUdpPush_checksum (hrun : dhcpUdpPush p = .ok () q) :
    (be16At q.data 6 ≠ 0 ∧ pseudoChecksum protoUdp 0 0xffffffff q.data = 0) ↔
      ¬65535 ∣ dhcpSum p.data := by
  have hif : ∀ c, (if c = 0 then [0, 255] else be16 (.ofNat c)) =
      be16 (.ofNat (if c = 0 then 255 else c)) := fun c => by split_ifs <;> rfl
  have hroom := hp.room
  have hlength : (p.length + 8).toNat = p.data.length + 8 := by
    rw [hp.length_add, Frame.data, length_map, length_range]
  obtain ⟨hlen, -, c, hc, hfield, hver⟩ := prepend_checksum (x := 68) (y := 67)
    (P := fun _ => 0xffff + 0xffff + protoUdp + (p.length + 8).toNat)
    (g := fun c => if c = 0 then 255 else c) hp (refuse_ok hrun).2 rfl
    (fun _ => hif _) (fun c hc => by split_ifs <;> omega) fun n hn => by
      rw [hp.length_add, protoUdp]
      omega
  have hz : (p.length + 8).toUInt16.toNat = p.data.length + 8 := by
    rw [UInt64.toNat_toUInt16, hlength]
    exact Nat.mod_eq_of_lt (by simp [Frame.data]; omega)
  have hcheck : pseudoChecksum protoUdp 0 0xffffffff q.data =
      checksumAdd (0xffff + 0xffff + protoUdp + (p.length + 8).toNat + wordSum q.data) := by
    rw [hlength, ← hlen, pseudoChecksum]
  rw [hcheck, hver, hfield]
  have hsum : 65535 ∣ dhcpSum p.data ↔ c = 0 := by
    rw [hc, hz, hlength, dhcpSum]
    simp only [UInt16.reduceToNat]
    omega
  rw [hsum]
  split_ifs with h0 <;> simp [h0]

end

/-- The checksum of UDP over IPv4 is always set and right. Over IPv6 it is right, and set as long as
the datagram does not sum up to `0xffff`, which the checksum of DHCP needs to be right at all. -/
theorem udp_checksums (p q : Frame) (hp : p.Valid) :
    (∀ s d a b l, udpPush s d a b l p = .ok () q →
      be16At q.data 6 ≠ 0 ∧ pseudoChecksum protoUdp s.toNat d.toNat q.data = 0) ∧
    (∀ s d a b l, udp6Push s d a b l p = .ok () q →
      transport6Checksum s d 17 q.data = 0 ∧
        (be16At q.data 6 ≠ 0 ↔ ¬65535 ∣ udp6Sum s d a b p.data l)) ∧
    (dhcpUdpPush p = .ok () q →
      ((be16At q.data 6 ≠ 0 ∧ pseudoChecksum protoUdp 0 0xffffffff q.data = 0) ↔
        ¬65535 ∣ dhcpSum p.data)) :=
  ⟨fun _ _ _ _ _ => udpPush_checksum hp, fun _ _ _ _ _ => udp6Push_checksum hp,
    dhcpUdpPush_checksum hp⟩

theorem udp_checksums_zero : ∃ q,
    udp6Push (.replicate 16 0) (.replicate 16 0) 68 67 [1] ⟨fun _ => 0, 64, 0⟩ = .ok () q ∧
      be16At q.data 6 ≠ 0 := by
  refine ⟨_, rfl, ?_⟩
  refine ((udp_checksums ⟨fun _ => 0, 64, 0⟩ _ ?_).2.1 (.replicate 16 0) (.replicate 16 0) 68 67 [1]
    rfl).2.2 ?_
  · exact ⟨by decide, by decide⟩
  · decide

/-- Datagrams whose sum is `0xffff`: over IPv6 one without a checksum is sent, and DHCP sends a
wrong one. -/
theorem udp_checksums_fail :
    (∃ q, udp6Push (.replicate 16 0) (.replicate 16 0) 65502 0 [] ⟨fun _ => 0, 64, 0⟩ = .ok () q ∧
      be16At q.data 6 = 0) ∧
    ∃ q, dhcpUdpPush ⟨fun i => if i = 64 then 0xff else 0x53, 64, 2⟩ = .ok () q ∧
      pseudoChecksum protoUdp 0 0xffffffff q.data ≠ 0 := by
  refine ⟨⟨_, rfl, ?_⟩, ⟨_, rfl, ?_⟩⟩
  · decide +kernel
  · decide +kernel

end RixuriOS.Net
