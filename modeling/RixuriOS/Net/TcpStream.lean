import RixuriOS.Lib.Tally
import RixuriOS.Net.Socket

/-!
# The byte stream of a TCP peer

Segments cut from the stream of a peer arrive at an established socket in any
order, any number of times. What is queued to the socket is a prefix of the stream
as long as sequence numbers identify positions in it: in a stream with 2^32
positions or more, a segment from one turn of the sequence numbers is taken for one
from the next.
-/

namespace RixuriOS.Net

open RingBuffer Tally List Function

/-- What a peer sends: its bytes, whether a FIN follows them, and the sequence number of the
first byte. -/
structure PeerStream where
  bytes : List UInt8
  ended : Bool
  initial : UInt32

/-- A segment that starts at some position of the stream and carries what stands there; the
FIN has the position behind the last byte. -/
def CutFrom (ps : PeerStream) (sequence : UInt32) (payload : Packet) (fin : Bool) : Prop :=
  ∃ o, sequence = ps.initial + UInt32.ofNat o ∧
    o + payload.length + fin.toNat ≤ ps.bytes.length + ps.ended.toNat ∧
    payload = (ps.bytes.drop o).take payload.length ∧
    (fin = true → o + payload.length = ps.bytes.length)

def received (s : Socket) : List Packet :=
  contents s.receive.packets s.receive.head s.receive.count

inductive Phase (ps : PeerStream) (s : Socket) (log : List UInt8) : Prop
  | reading : s.tcp.state = .established →
      s.tcp.acknowledgment = ps.initial + UInt32.ofNat log.length → Phase ps s log
  | finished : s.tcp.state = .closeWait → ps.ended = true → log = ps.bytes →
      s.tcp.acknowledgment = ps.initial + UInt32.ofNat (ps.bytes.length + 1) → Phase ps s log

/-- The socket after `log` has been queued to it. -/
structure StreamInv (ps : PeerStream) (s : Socket) (log : List UInt8) : Prop where
  head_lt : s.receive.head < socketQueue
  count_le : s.receive.count ≤ socketQueue
  log_take : log = ps.bytes.take log.length
  log_le : log.length ≤ ps.bytes.length
  phase : Phase ps s log
  held : ∀ i, (s.reassembly i).used = true →
    CutFrom ps (s.reassembly i).sequence (s.reassembly i).packet (s.reassembly i).fin

/-- The fields by which segments find a socket. -/
structure SameId (s s' : Socket) : Prop where
  used : s'.used = s.used
  type : s'.type = s.type
  localPort : s'.localPort = s.localPort
  peer : s'.peer = s.peer

variable {sequence : UInt32} {payload packet : Packet} {fin : Bool} {k : Nat}

theorem SameId.refl (s : Socket) : SameId s s := ⟨rfl, rfl, rfl, rfl⟩

theorem SameId.trans {a b c : Socket} (hab : SameId a b) (hbc : SameId b c) : SameId a c :=
  ⟨hbc.used.trans hab.used, hbc.type.trans hab.type, hbc.localPort.trans hab.localPort,
    hbc.peer.trans hab.peer⟩

/-- From `s` to `s'` only bytes of the stream are queued, in order. -/
def Advances (ps : PeerStream) (s s' : Socket) : Prop :=
  SameId s s' ∧ ∀ log, StreamInv ps s log →
    ∃ news, received s' = received s ++ news ∧ StreamInv ps s' (log ++ news.flatten)

variable {ps : PeerStream} {s s' s'' : Socket} {log : List UInt8}

theorem Advances.refl (ps : PeerStream) (s : Socket) : Advances ps s s :=
  ⟨SameId.refl s, fun log h => ⟨[], by simp, by simpa using h⟩⟩

theorem Advances.trans (h₁ : Advances ps s s') (h₂ : Advances ps s' s'') : Advances ps s s'' := by
  refine ⟨h₁.1.trans h₂.1, fun log hlog => ?_⟩
  obtain ⟨news₁, hr₁, hi₁⟩ := h₁.2 log hlog
  obtain ⟨news₂, hr₂, hi₂⟩ := h₂.2 _ hi₁
  refine ⟨news₁ ++ news₂, by rw [hr₂, hr₁, append_assoc], ?_⟩
  rwa [flatten_append, ← append_assoc]

theorem offset_eq {init : UInt32} {a b : Nat} (ha : a < 2 ^ 32) (hb : b < 2 ^ 32)
    (h : init + UInt32.ofNat a = init + UInt32.ofNat b) : a = b := by
  have hcancel : UInt32.ofNat a = UInt32.ofNat b := by
    have := congrArg (fun u => u - init) h
    simpa [UInt32.add_sub_cancel, UInt32.add_comm init] using this
  have hnat := congrArg UInt32.toNat hcancel
  simp only [UInt32.toNat_ofNat'] at hnat
  rwa [Nat.mod_eq_of_lt ha, Nat.mod_eq_of_lt hb] at hnat

theorem queuePacket_spec {data : Packet} {peer : Endpoint}
    (h : queuePacket s data peer = some s') :
    received s' = received s ++ [data] ∧ SameId s s' ∧ s'.tcp = s.tcp ∧
      s'.reassembly = s.reassembly ∧ s'.receive.head = s.receive.head ∧
      s'.receive.count ≤ socketQueue := by
  unfold queuePacket packetCopy at h
  split_ifs at h with hfull hroom
  · cases h
    rw [not_or] at hfull
    exact ⟨contents_update _ _ (by omega), ⟨rfl, rfl, rfl, rfl⟩, rfl, rfl, rfl, by
      dsimp only
      omega⟩
  · simp at h

def PeerStream.Short (ps : PeerStream) : Prop := ps.bytes.length + ps.ended.toNat < 2 ^ 32

theorem StreamInv.expected (hshort : ps.Short) (h : StreamInv ps s log)
    (hcut : CutFrom ps sequence payload fin) (hseq : sequence = s.tcp.acknowledgment) :
    (s.tcp.state = .established ∧ log.length + payload.length ≤ ps.bytes.length ∧
        payload = (ps.bytes.drop log.length).take payload.length ∧
        (fin = true → ps.ended = true ∧ log.length + payload.length = ps.bytes.length)) ∨
      (s.tcp.state = .closeWait ∧ payload = [] ∧ fin = false) := by
  obtain ⟨o, ho, hle, hslice, hfin⟩ := hcut
  have hloglen := h.log_le
  unfold PeerStream.Short at hshort
  have hslen : payload.length ≤ ps.bytes.length - o := by
    have hlen := congrArg List.length hslice
    rw [length_take, length_drop] at hlen
    omega
  cases h.phase with
  | reading hstate hack =>
    left
    obtain rfl : o = log.length :=
      offset_eq (by omega) (by omega) (ho.symm.trans (hseq.trans hack))
    refine ⟨hstate, by omega, hslice, fun hf => ?_⟩
    have hend := hfin hf
    rw [hf, Bool.toNat_true] at hle
    cases hended : ps.ended with
    | true => exact ⟨rfl, hend⟩
    | false =>
      rw [hended, Bool.toNat_false] at hle
      omega
  | finished hstate hended hlog hack =>
    right
    rw [hended, Bool.toNat_true] at hle hshort
    obtain rfl : o = ps.bytes.length + 1 :=
      offset_eq (by omega) (by omega) (ho.symm.trans (hseq.trans hack))
    refine ⟨hstate, eq_nil_of_length_eq_zero (by omega), ?_⟩
    cases fin with
    | false => rfl
    | true =>
      have hend := hfin rfl
      omega

theorem StreamInv.log_append (h : StreamInv ps s log)
    (hslice : payload = (ps.bytes.drop log.length).take payload.length) :
    log ++ payload = ps.bytes.take (log ++ payload).length := by
  rw [length_append, take_add, ← hslice, ← h.log_take]

theorem uint32_next (init : UInt32) (n m : Nat) :
    init + UInt32.ofNat n + UInt32.ofNat m + 0 = init + UInt32.ofNat (n + m) := by
  rw [UInt32.ofNat_add, UInt32.add_zero, UInt32.add_assoc]

theorem uint32_next_fin (init : UInt32) (n m : Nat) :
    init + UInt32.ofNat n + UInt32.ofNat m + 1 = init + UInt32.ofNat (n + m + 1) := by
  rw [UInt32.ofNat_add, UInt32.ofNat_add, UInt32.add_assoc, UInt32.add_assoc, UInt32.add_assoc]
  rfl

/-- The socket with the payload of a segment queued, before the acknowledgment moves. -/
theorem payload_queued
    (h : (if packet.length = 0 then some s else queuePacket s packet s.peer) = some s') :
    (∃ news, received s' = received s ++ news ∧ news.flatten = packet) ∧ SameId s s' ∧
      s'.tcp = s.tcp ∧ s'.reassembly = s.reassembly ∧ s'.receive.head = s.receive.head ∧
      (s.receive.count ≤ socketQueue → s'.receive.count ≤ socketQueue) := by
  split_ifs at h with hempty
  · cases h
    have hnil := eq_nil_of_length_eq_zero hempty
    exact ⟨⟨[], by simp, by simp [hnil]⟩, SameId.refl s, rfl, rfl, rfl, id⟩
  · obtain ⟨hr, hid, htcp, hre, hhead, hcount⟩ := queuePacket_spec h
    exact ⟨⟨[packet], hr, by simp⟩, hid, htcp, hre, hhead, fun _ => hcount⟩

theorem Phase.acknowledgment_reading (h : Phase ps s log) (hstate : s.tcp.state = .established) :
    s.tcp.acknowledgment = ps.initial + UInt32.ofNat log.length := by
  cases h with
  | reading _ hack => exact hack
  | finished hclosed => simp [hstate] at hclosed

def takenControl (c : TcpControl) (sequence : UInt32) (length : Nat) (fin : Bool) : TcpControl where
  state := if fin then (tcpTransition c.state .fin).getD c.state else c.state
  sequence := c.sequence
  acknowledgment := sequence + UInt32.ofNat length + if fin then 1 else 0

section

variable (s : Socket) (sequence : UInt32) (packet : Packet) (fin : Bool)

theorem tcpQueuePayload_cases :
    (tcpQueuePayload s sequence packet fin).2 = s ∨
      sequence = s.tcp.acknowledgment ∧
        ∃ s', (if packet.length = 0 then some s else queuePacket s packet s.peer) = some s' ∧
          (tcpQueuePayload s sequence packet fin).2 =
            { s' with tcp := takenControl s'.tcp sequence packet.length fin } := by
  unfold tcpQueuePayload
  by_cases hseq : sequence = s.tcp.acknowledgment
  · rw [if_neg (not_not.2 hseq)]
    cases (if packet.length = 0 then some s else queuePacket s packet s.peer) with
    | none => exact .inl rfl
    | some s' =>
    refine .inr ⟨hseq, s', rfl, ?_⟩
    cases fin with
    | false => rfl
    | true =>
    rw [if_pos rfl]
    cases htr : tcpTransition s'.tcp.state .fin with
    | none => simp [takenControl, htr]
    | some state => simp [takenControl, htr]
  · rw [if_pos hseq]
    exact .inl rfl

theorem tcpQueuePayload_sameId : SameId s (tcpQueuePayload s sequence packet fin).2 := by
  obtain hsame | ⟨-, s', hq, hres⟩ := tcpQueuePayload_cases s sequence packet fin
  · rw [hsame]
    exact SameId.refl s
  obtain ⟨-, hid, -⟩ := payload_queued hq
  rw [hres]
  exact ⟨hid.used, hid.type, hid.localPort, hid.peer⟩

theorem tcpQueuePayload_reassembly :
    (tcpQueuePayload s sequence packet fin).2.reassembly = s.reassembly := by
  obtain hsame | ⟨-, s', hq, hres⟩ := tcpQueuePayload_cases s sequence packet fin
  · rw [hsame]
  obtain ⟨-, -, -, hre, -⟩ := payload_queued hq
  rw [hres]
  exact hre

end

theorem drainPass_held (l : List (Fin reassemblySlots)) (d : Drained) (s : Socket) :
    tally ReassemblySlot.used (drainPass l d s).2.reassembly ≤
        tally ReassemblySlot.used s.reassembly ∧
      ((drainPass l d s).1 = .progressed → d = .progressed ∨
        tally ReassemblySlot.used (drainPass l d s).2.reassembly <
          tally ReassemblySlot.used s.reassembly) := by
  induction l generalizing d s with
  | nil => exact ⟨le_refl _, fun h => .inl h⟩
  | cons i l ih =>
    simp only [drainPass]
    split
    · exact ih d s
    rename_i hskip
    have hu : (s.reassembly i).used = true := by
      simpa using fun h => hskip (.inl h)
    have hre := tcpQueuePayload_reassembly s (s.reassembly i).sequence
      (s.reassembly i).packet (s.reassembly i).fin
    split_ifs
    · rw [hre]
      exact ⟨le_refl _, fun h => by simp at h⟩
    have hfewer := tally_update ReassemblySlot.used s.reassembly i
      { s.reassembly i with used := false }
    rw [hu, Bool.toNat_true, Bool.toNat_false] at hfewer
    generalize hs' : ({ (tcpQueuePayload s _ _ _).2 with reassembly := _ } : Socket) = s'
    have hre' : s'.reassembly =
        update s.reassembly i { s.reassembly i with used := false } := by
      subst hs'
      rw [hre]
    have hle := (ih .progressed s').1
    rw [hre'] at hle
    exact ⟨by omega, fun _ => .inr (by omega)⟩

/-- The loop of `tcp_drain_reassembly`, without a bound. -/
inductive Drains : Socket → Bool × Socket → Prop
  | stop {s s' d} : drainPass (finRange _) .idle s = (d, s') → d ≠ .progressed →
      Drains s (d == .idle, s')
  | again {s s' r} : drainPass (finRange _) .idle s = (.progressed, s') → Drains s' r → Drains s r

theorem drains_loop (passes : Nat) (s : Socket)
    (h : tally ReassemblySlot.used s.reassembly < passes) : Drains s (drainLoop passes s) := by
  induction passes generalizing s with
  | zero => omega
  | succ passes ih =>
    have hpass := drainPass_held (finRange reassemblySlots) .idle s
    rw [drainLoop]
    rcases hrun : drainPass (finRange reassemblySlots) .idle s with ⟨_ | _ | _, s'⟩
    · exact .stop hrun nofun
    · exact .stop hrun nofun
    rw [hrun] at hpass
    have hlt := (hpass.2 rfl).resolve_left nofun
    dsimp only at hlt
    exact .again hrun (ih s' (by omega))

/-- The loop ends for every socket, with what the model computes. -/
theorem tcpDrainReassembly_ends (s : Socket) : Drains s (tcpDrainReassembly s) := by
  have hslots : tally ReassemblySlot.used s.reassembly ≤ reassemblySlots :=
    (Finset.card_le_univ _).trans_eq (Fintype.card_fin _)
  exact drains_loop _ s (Nat.lt_succ_of_le hslots)

/-- A segment of the stream moves the log on by what it carries, if it is taken. -/
theorem StreamInv.queuePayload (hshort : ps.Short) (h : StreamInv ps s log)
    (hcut : CutFrom ps sequence packet fin) :
    ∃ news, received (tcpQueuePayload s sequence packet fin).2 = received s ++ news ∧
      StreamInv ps (tcpQueuePayload s sequence packet fin).2 (log ++ news.flatten) := by
  obtain hsame | ⟨hseq, s', hq, hres⟩ := tcpQueuePayload_cases s sequence packet fin
  · rw [hsame]
    exact ⟨[], by simp, by simpa using h⟩
  obtain ⟨⟨news, hnews, hflat⟩, hid, htcp, hre, hhead, hcount⟩ := payload_queued hq
  rw [hres, htcp]
  refine ⟨news, hnews, ?_⟩
  rw [hflat]
  have hheld : ∀ i, (s'.reassembly i).used = true →
      CutFrom ps (s'.reassembly i).sequence (s'.reassembly i).packet (s'.reassembly i).fin := by
    rw [hre]
    exact h.held
  obtain ⟨hstate, hle, hslice, hfin⟩ | ⟨hstate, rfl, rfl⟩ := h.expected hshort hcut hseq
  · have hack := h.phase.acknowledgment_reading hstate
    refine ⟨hhead ▸ h.head_lt, hcount h.count_le, h.log_append hslice,
      by rwa [length_append], ?_, hheld⟩
    cases fin with
    | false =>
      refine .reading hstate ?_
      rw [length_append, ← uint32_next, ← hack, ← hseq]
      rfl
    | true =>
      obtain ⟨hended, hend⟩ := hfin rfl
      refine .finished (by simp [takenControl, hstate, tcpTransition]) hended ?_ ?_
      · rw [h.log_append hslice, length_append, hend, take_length]
      · rw [← hend, ← uint32_next_fin, ← hack, ← hseq]
        rfl
  refine ⟨hhead ▸ h.head_lt, hcount h.count_le, by simpa using h.log_take,
    by simpa using h.log_le, ?_, hheld⟩
  rw [append_nil]
  cases h.phase with
  | reading hopen => simp [hstate] at hopen
  | finished _ hended hlog hack =>
  refine .finished hstate hended hlog ?_
  rw [← hack, ← hseq]
  simp [takenControl]

theorem setSlot_advances (s : Socket) (i : Fin reassemblySlots) {slot : ReassemblySlot}
    (hslot : slot.used = true → CutFrom ps slot.sequence slot.packet slot.fin) :
    Advances ps s { s with reassembly := update s.reassembly i slot } := by
  refine ⟨⟨rfl, rfl, rfl, rfl⟩, fun log h => ⟨[], by simp [received], ?_⟩⟩
  rw [flatten_nil, append_nil]
  refine ⟨h.head_lt, h.count_le, h.log_take, h.log_le, ?_, fun j hu => ?_⟩
  · cases h.phase with
    | reading hstate hack => exact .reading hstate hack
    | finished hstate hended hlog hack => exact .finished hstate hended hlog hack
  by_cases hj : j = i
  · subst hj
    simp only [update_self] at hu ⊢
    exact hslot hu
  · simp only [update_of_ne hj] at hu ⊢
    exact h.held j hu

theorem tcpHoldSegment_advances (hcut : CutFrom ps sequence packet fin)
    (h : tcpHoldSegment s sequence packet fin = some s') : Advances ps s s' := by
  unfold tcpHoldSegment at h
  split_ifs at h with hknown
  · cases h
    exact Advances.refl ps s
  split at h
  · cases h
  next i _ =>
    obtain ⟨p, hp, rfl⟩ := Option.map_eq_some_iff.1 h
    unfold packetCopy at hp
    split_ifs at hp
    cases hp
    exact setSlot_advances s i fun _ => hcut

theorem drainPass_advances (hshort : ps.Short) (l : List (Fin reassemblySlots)) (d : Drained)
    (s : Socket) : Advances ps s (drainPass l d s).2 := by
  induction l generalizing d s with
  | nil => exact Advances.refl ps s
  | cons i l ih =>
    simp only [drainPass]
    split
    · exact ih d s
    rename_i hskip
    have hu : (s.reassembly i).used = true := by
      simpa using fun h => hskip (.inl h)
    have hqueue : Advances ps s (tcpQueuePayload s (s.reassembly i).sequence
        (s.reassembly i).packet (s.reassembly i).fin).2 :=
      ⟨tcpQueuePayload_sameId s _ _ _, fun log h => h.queuePayload hshort (h.held i hu)⟩
    split_ifs
    · exact hqueue
    · exact (hqueue.trans (setSlot_advances _ i (by simp))).trans (ih _ _)

theorem drainLoop_advances (hshort : ps.Short) (passes : Nat) (s : Socket) :
    Advances ps s (drainLoop passes s).2 := by
  induction passes generalizing s with
  | zero => exact Advances.refl ps s
  | succ passes ih =>
    have hpass := drainPass_advances hshort (finRange reassemblySlots) .idle s
    rw [drainLoop]
    generalize drainPass (finRange reassemblySlots) .idle s = r at hpass
    obtain ⟨d, s'⟩ := r
    cases d with
    | failed => exact hpass
    | idle => exact hpass
    | progressed => exact hpass.trans (ih s')

variable {header : TcpHeader} {s₀ : Socket}

theorem tcpInput_advances (hshort : ps.Short) (hrst : header.rst = false)
    (hsyn : header.syn = false) (hcut : CutFrom ps header.sequence payload header.fin) :
    Advances ps s (tcpInput s header payload).2 := by
  have hqueue : Advances ps s (tcpQueuePayload s header.sequence payload header.fin).2 :=
    ⟨tcpQueuePayload_sameId s _ _ _, fun log h => h.queuePayload hshort hcut⟩
  unfold tcpInput
  simp only [hrst, hsyn, Bool.false_eq_true, false_and, if_false]
  split_ifs with hstate hold hfuture hfailed hdrained
  · exact Advances.refl ps s
  · exact Advances.refl ps s
  · split
    · exact Advances.refl ps s
    · next s' hs' => exact tcpHoldSegment_advances hcut hs'
  · exact hqueue
  · exact hqueue.trans (drainLoop_advances hshort _ _)
  · exact hqueue.trans (drainLoop_advances hshort _ _)
  · exact hqueue.trans (drainLoop_advances hshort _ _)

/-! ## Connections -/

/-- A table with the connection at one of its sockets, and all that was queued to it. -/
structure Connection where
  table : SocketTable
  log : List UInt8

variable {c : Connection}

/-- A segment arrives for the table, or the process takes a packet from the socket. -/
inductive TcpAct
  | segment (header : TcpHeader) (payload : Packet) (source : Nat)
  | take (capacity : Nat)

variable {i : Fin socketMax}

def tcpStep (i : Fin socketMax) (c : Connection) : TcpAct → Connection
  | .segment header payload source =>
    let table := (dispatchSegment c.table header payload source).2
    { table
      log := c.log ++ ((received (table i)).drop (received (c.table i)).length).flatten }
  | .take capacity =>
    { c with table := update c.table i (takePacket (c.table i) capacity).2.2 }

def tcpRun (i : Fin socketMax) (c : Connection) (acts : List TcpAct) : Connection :=
  acts.foldl (tcpStep i) c

def FromPeer (ps : PeerStream) (s : Socket) : TcpAct → Prop
  | .segment header payload source =>
    tcpMatches s header source = true →
      header.rst = false ∧ header.syn = false ∧ CutFrom ps header.sequence payload header.fin
  | .take _ => True

structure Established (s : Socket) (initial : UInt32) : Prop where
  state : s.tcp.state = .established
  acknowledgment : s.tcp.acknowledgment = initial
  head : s.receive.head = 0
  count : s.receive.count = 0
  reassembly : ∀ j, (s.reassembly j).used = false

theorem Established.inv (h : Established s ps.initial) : StreamInv ps s [] where
  head_lt := by
    rw [h.head]
    decide
  count_le := by
    rw [h.count]
    decide
  log_take := rfl
  log_le := Nat.zero_le _
  phase := .reading h.state (by simp [h.acknowledgment])
  held j hu := by simp [h.reassembly j] at hu

theorem tcpMatches_congr (hid : SameId s s') (header : TcpHeader) (source : Nat) :
    tcpMatches s' header source = tcpMatches s header source := by
  simp only [tcpMatches, hid.used, hid.type, hid.localPort, hid.peer]

theorem takePacket_inv (capacity : Nat) (h : StreamInv ps s log) :
    SameId s (takePacket s capacity).2.2 ∧ StreamInv ps (takePacket s capacity).2.2 log := by
  have hsame : SameId s s ∧ StreamInv ps s log := ⟨SameId.refl s, h⟩
  unfold takePacket
  dsimp only
  split_ifs
  · exact hsame
  · exact hsame
  · exact hsame
  · exact hsame
  have hle := h.count_le
  refine ⟨⟨rfl, rfl, rfl, rfl⟩, Nat.mod_lt _ (by decide), by dsimp only; omega, h.log_take,
    h.log_le, ?_, h.held⟩
  cases h.phase with
  | reading hstate hack => exact .reading hstate hack
  | finished hstate hended hlog hack => exact .finished hstate hended hlog hack

theorem tcpStep_inv (hshort : ps.Short) {a : TcpAct} (hid : SameId s₀ (c.table i))
    (h : StreamInv ps (c.table i) c.log) (ha : FromPeer ps s₀ a) :
    SameId s₀ ((tcpStep i c a).table i) ∧
      StreamInv ps ((tcpStep i c a).table i) (tcpStep i c a).log ∧
      c.log <+: (tcpStep i c a).log := by
  cases a with
  | take capacity =>
    obtain ⟨hid', h'⟩ := takePacket_inv capacity h
    simp only [tcpStep, update_self]
    exact ⟨hid.trans hid', h', prefix_refl _⟩
  | segment header payload source =>
  have hadv : Advances ps (c.table i) ((dispatchSegment c.table header payload source).2 i) := by
    unfold dispatchSegment
    cases hfind : (finRange socketMax).find? fun j =>
        tcpMatches (c.table j) header source with
    | none => exact Advances.refl ps _
    | some j =>
    by_cases hj : i = j
    · subst hj
      have hmatch : tcpMatches s₀ header source = true := by
        rw [← tcpMatches_congr hid]
        simpa using find?_some hfind
      obtain ⟨hrst, hsyn, hcut⟩ := ha hmatch
      simpa using tcpInput_advances hshort hrst hsyn hcut
    · simpa [update_of_ne hj] using Advances.refl ps (c.table i)
  obtain ⟨news, hnews, hinv⟩ := hadv.2 c.log h
  rw [tcpStep]
  rw [hnews, drop_left]
  exact ⟨hid.trans hadv.1, hinv, prefix_append _ _⟩

theorem tcpRun_inv (hshort : ps.Short) (acts : List TcpAct) (hid : SameId s₀ (c.table i))
    (h : StreamInv ps (c.table i) c.log) (hacts : ∀ a ∈ acts, FromPeer ps s₀ a) :
    SameId s₀ ((tcpRun i c acts).table i) ∧
      StreamInv ps ((tcpRun i c acts).table i) (tcpRun i c acts).log ∧
      c.log <+: (tcpRun i c acts).log := by
  induction acts generalizing c with
  | nil => exact ⟨hid, h, prefix_refl _⟩
  | cons a acts ih =>
    obtain ⟨hid', h', hle⟩ := tcpStep_inv hshort hid h (hacts a (by simp))
    obtain ⟨hid'', h'', hle'⟩ := ih hid' h' fun b hb => hacts b (by simp [hb])
    exact ⟨hid'', h'', hle.trans hle'⟩

/-- For a stream with fewer than 2^32 positions, what is queued is a prefix of it at all
times, the acknowledgment counts it (and the FIN), and after the FIN nothing is queued. -/
theorem tcp_queues_prefix (ps : PeerStream) (table : SocketTable) (i : Fin socketMax)
    (acts more : List TcpAct) (hshort : ps.Short) (hest : Established (table i) ps.initial)
    (hacts : ∀ a ∈ acts ++ more, FromPeer ps (table i) a) :
    (tcpRun i ⟨table, []⟩ acts).log <+: ps.bytes ∧
    ((tcpRun i ⟨table, []⟩ acts).table i).tcp.acknowledgment =
      ps.initial + UInt32.ofNat (tcpRun i ⟨table, []⟩ acts).log.length +
        (if ((tcpRun i ⟨table, []⟩ acts).table i).tcp.state = .closeWait then 1 else 0) ∧
    (((tcpRun i ⟨table, []⟩ acts).table i).tcp.state = .closeWait →
      (tcpRun i ⟨table, []⟩ (acts ++ more)).log = (tcpRun i ⟨table, []⟩ acts).log) := by
  obtain ⟨hid, h, -⟩ := tcpRun_inv hshort acts (c := ⟨table, []⟩) (SameId.refl _) hest.inv
    fun a ha => hacts a (by simp [ha])
  have hrun : tcpRun i ⟨table, []⟩ (acts ++ more) = tcpRun i (tcpRun i ⟨table, []⟩ acts) more := by
    simp [tcpRun, foldl_append]
  obtain ⟨-, h', hle⟩ := tcpRun_inv hshort more hid h fun a ha => hacts a (by simp [ha])
  rw [hrun]
  generalize tcpRun i ⟨table, []⟩ acts = c at h hle h'
  refine ⟨?_, ?_, fun hclosed => ?_⟩
  · rw [h.log_take]
    exact take_prefix _ _
  · cases h.phase with
    | reading hstate hack => simp [hstate, hack]
    | finished hstate _ hlog hack =>
      rw [hack, hlog, if_pos hstate, UInt32.ofNat_add, UInt32.add_assoc]
      rfl
  cases h.phase with
  | reading hstate => simp [hclosed] at hstate
  | finished _ _ hlog =>
  refine (hle.eq_of_length ?_).symm
  have hlen := hle.length_le
  have hbound := h'.log_le
  rw [hlog] at hlen ⊢
  omega

def freshSocket (initial : UInt32) : Socket where
  used := true
  connected := true
  nonblock := false
  shutRd := false
  type := .tcp
  localPort := 5000
  peer := ⟨1, 80⟩
  tcp := ⟨.established, 1, initial⟩
  receive := ⟨fun _ => [], fun _ => ⟨0, 0⟩, 0, 0⟩
  reassembly := fun _ => ⟨false, false, 0, []⟩

theorem freshSocket_established (initial : UInt32) : Established (freshSocket initial) initial :=
  ⟨rfl, rfl, rfl, rfl, fun _ => rfl⟩

def peerSegment (sequence : UInt32) (payload : Packet) (fin : Bool) : TcpAct :=
  .segment
    { sourcePort := 80, destinationPort := 5000, sequence, acknowledgment := 1, fin, syn := false
      rst := false } payload 1

/-- Three bytes and a FIN across the end of the sequence numbers, the first segment twice. -/
theorem tcp_queues_prefix_wrapping :
    (tcpRun 0 ⟨fun _ => freshSocket 0xfffffffe, []⟩
        [peerSegment 0xfffffffe [1, 2] false, peerSegment 0xfffffffe [1, 2] false,
          peerSegment 0 [3] true]).log = [1, 2, 3] ∧
      (tcpRun 0 ⟨fun _ => freshSocket 0xfffffffe, []⟩
        [peerSegment 0xfffffffe [1, 2] false, peerSegment 0xfffffffe [1, 2] false,
          peerSegment 0 [3] true]).log <+: [1, 2, 3] := by
  refine ⟨by decide +kernel, ?_⟩
  refine And.left <| tcp_queues_prefix ⟨[1, 2, 3], true, 0xfffffffe⟩
    (fun _ => freshSocket 0xfffffffe) 0
    [peerSegment 0xfffffffe [1, 2] false, peerSegment 0xfffffffe [1, 2] false,
      peerSegment 0 [3] true] [] (by unfold PeerStream.Short; decide) (freshSocket_established _) ?_
  intro a ha
  simp only [append_nil, mem_cons, not_mem_nil, or_false] at ha
  obtain rfl | rfl | rfl := ha
  · exact fun _ => ⟨rfl, rfl, 0, by decide, by decide, rfl, by decide⟩
  · exact fun _ => ⟨rfl, rfl, 0, by decide, by decide, rfl, by decide⟩
  · exact fun _ => ⟨rfl, rfl, 2, by decide, by decide, rfl, by decide⟩

/-- A stream of more bytes than there are sequence numbers: the segment behind the first turn of
the numbers, arriving first, is taken for the start of the stream. -/
theorem tcp_queues_beyond :
    ∃ (ps : PeerStream) (table : SocketTable) (acts : List TcpAct),
      Established (table 0) ps.initial ∧ (∀ a ∈ acts, FromPeer ps (table 0) a) ∧
        ¬(tcpRun 0 ⟨table, []⟩ acts).log <+: ps.bytes := by
  obtain ⟨n, hn⟩ : ∃ n, n = 2 ^ 32 := ⟨_, rfl⟩
  refine ⟨⟨replicate n 0 ++ [1], false, 0⟩, fun _ => freshSocket 0, [peerSegment 0 [1] false],
    freshSocket_established 0, fun a ha => ?_, fun hprefix => ?_⟩
  · obtain rfl := mem_singleton.1 ha
    refine fun _ => ⟨rfl, rfl, n, by rw [hn]; decide, by simp, ?_, by simp⟩
    rw [drop_left' length_replicate]
    rfl
  have hlog : (tcpRun 0 ⟨fun _ => freshSocket 0, []⟩ [peerSegment 0 [1] false]).log = [1] := by
    decide +kernel
  rw [hlog] at hprefix
  have hne : n ≠ 0 := by omega
  obtain ⟨l, hl⟩ := hprefix
  have hhead := congrArg head? hl
  simp [head?_append, head?_replicate, hne] at hhead

end RixuriOS.Net
