import RixuriOS.Lib.GuardedRun
import RixuriOS.Net.Socket

/-!
# The receive queue and the processes

All processes take packets from one queue. A call takes the packet at its front,
whoever it is for, and drops it when the table of the caller has no socket for it.
So it is its place in the queue that decides whether a packet for another process
stays.
-/

namespace RixuriOS.Net

open RingBuffer List

abbrev processMax : Nat := 128

scoped instance : NeZero processMax := ⟨by decide⟩

def wants (table : SocketTable) (packet : Packet) : Bool :=
  match ipv4Pull packet with
  | none => false
  | some (ip, body) =>
    if ip.protocol = protoTcp then
      match tcpPull body ip.source ip.destination with
      | none => false
      | some (header, _) =>
        (finRange socketMax).any fun i => tcpMatches (table i) header ip.source
    else if ip.protocol = protoUdp then
      match udpPull body ip.source ip.destination with
      | none => false
      | some (header, _) => (finRange socketMax).any fun i => udpMatches (table i) header
    else false

structure NetWorld where
  queue : RxQueue
  tables : Fin processMax → SocketTable

def netBoot (incoming : Fin rxQueueMax → Packet) (tables : Fin processMax → SocketTable) :
    NetWorld where
  queue := { incoming, head := 0, count := 0 }
  tables

/-- The calls of processes, with the frame that the device has for them. `upkeep` is the
poll of the kernel's main loop; `socketCall` stands for the calls that change the table of
their caller and leave the queue alone. -/
inductive NetAct
  | upkeep (frame : Option Packet)
  | socketCall (p : Fin processMax) (table : SocketTable)
  | poll (p : Fin processMax) (frame : Option Packet)
  | receive (p : Fin processMax) (descriptor : Int) (capacity : Nat) (frame : Option Packet)

def netStep (w : NetWorld) : NetAct → Option NetWorld
  | .upkeep frame => some { w with queue := stackPoll w.queue frame }
  | .socketCall p table => some { w with tables := Function.update w.tables p table }
  | .poll p frame =>
    let r := socketPoll w.queue (w.tables p) frame
    some { queue := r.2.1, tables := Function.update w.tables p r.2.2 }
  | .receive p descriptor capacity frame =>
    let r := socketReceive w.queue (w.tables p) descriptor capacity frame
    some { queue := r.2.2.1, tables := Function.update w.tables p r.2.2.2 }

def queued (q : RxQueue) : List Packet := contents q.incoming q.head q.count

def arrival (frame : Option Packet) : List Packet :=
  match frame.bind ethPull with
  | none => []
  | some (ethertype, packet) => if ethertype ≠ ethertypeIpv4 then [] else [packet]

theorem toNat_lt_max {d : Int} (h : 0 ≤ d ∧ d < socketMax) : d.toNat < socketMax := by omega

/-- The caller of an action that takes a packet from the queue, and its frame. -/
def NetAct.taker (w : NetWorld) : NetAct → Option (Fin processMax × Option Packet)
  | .upkeep _ | .socketCall _ _ => none
  | .poll p frame => some (p, frame)
  | .receive p descriptor capacity frame =>
    if h : 0 ≤ descriptor ∧ descriptor < socketMax then
      let s := w.tables p ⟨descriptor.toNat, toNat_lt_max h⟩
      if !s.used ∨ capacity = 0 ∨ s.shutRd ∨ s.receive.count ≠ 0 then none else some (p, frame)
    else none

def foreign (w : NetWorld) (p : Fin processMax) (packet : Packet) : Bool :=
  !wants (w.tables p) packet &&
    (finRange processMax).any fun q => q ≠ p && wants (w.tables q) packet

/-- How far from the front a packet has to be for a call that takes one: behind the second place
if a frame arrives at a full queue, and behind the first place otherwise. -/
def safePlace (q : RxQueue) (frame : Option Packet) : Nat :=
  if q.count = rxQueueMax ∧ arrival frame ≠ [] then 2 else 1

structure QueueOk (q : RxQueue) : Prop where
  head_lt : q.head < rxQueueMax
  count_le : q.count ≤ rxQueueMax

variable {q q' : RxQueue} {frame : Option Packet}

theorem queued_length (q : RxQueue) : (queued q).length = q.count := contents_length _ _ _

theorem stackTakeIpv4_queued {packet : Packet} (h : stackTakeIpv4 q = some (packet, q')) :
    queued q = packet :: queued q' := by
  unfold stackTakeIpv4 at h
  split_ifs at h with hcount
  cases h
  have hsucc : q.count = q.count - 1 + 1 := by omega
  unfold queued
  rw [hsucc, contents_succ]
  rfl

theorem stackPoll_queued (hok : QueueOk q) (frame : Option Packet) :
    queued (stackPoll q frame) =
      (queued q ++ arrival frame).drop ((queued q ++ arrival frame).length - rxQueueMax) := by
  have hle := hok.count_le
  have hzero : (queued q).length - rxQueueMax = 0 := by
    rw [queued_length]
    omega
  have hlen (packet : Packet) : (queued q ++ [packet]).length = q.count + 1 := by
    rw [length_append, queued_length, length_singleton]
  unfold stackPoll arrival
  cases frame.bind ethPull with
  | none => simp [hzero]
  | some r =>
  obtain ⟨ethertype, packet⟩ := r
  dsimp only
  by_cases htype : ethertype ≠ ethertypeIpv4
  · simp [htype, hzero]
  rw [if_neg htype, if_neg htype, hlen]
  by_cases hfull : rxQueueMax ≤ q.count
  · have hone : q.count + 1 - rxQueueMax = 1 := by omega
    have hcount : q.count - 1 + 1 = q.count :=
      Nat.sub_add_cancel (le_trans (by decide) hfull)
    have hroom : q.count - 1 < rxQueueMax := by omega
    have hqueued : queued q = q.incoming (Fin.ofNat rxQueueMax q.head) ::
        contents q.incoming ((q.head + 1) % rxQueueMax) (q.count - 1) := by
      rw [← contents_succ, hcount]
      rfl
    rw [if_pos hfull, hone, hqueued]
    exact contents_update q.incoming packet hroom
  have hnone : q.count + 1 - rxQueueMax = 0 := by omega
  rw [if_neg hfull, hnone]
  exact contents_update q.incoming packet (by omega)

theorem stackPoll_ok (hok : QueueOk q) (frame : Option Packet) : QueueOk (stackPoll q frame) := by
  obtain ⟨hhead, hcount⟩ := hok
  unfold stackPoll
  split
  · exact ⟨hhead, hcount⟩
  split_ifs with htype hfull
  · exact ⟨hhead, hcount⟩
  · exact ⟨Nat.mod_lt _ (by decide), by dsimp only; omega⟩
  · exact ⟨hhead, by dsimp only; omega⟩

theorem stackTakeIpv4_ok {packet : Packet} (hok : QueueOk q)
    (h : stackTakeIpv4 q = some (packet, q')) : QueueOk q' := by
  unfold stackTakeIpv4 at h
  split_ifs at h with hcount
  cases h
  have hle := hok.count_le
  exact ⟨Nat.mod_lt _ (by decide), by dsimp only; omega⟩

theorem safePlace_eq (hok : QueueOk q) (frame : Option Packet) :
    safePlace q frame = (queued q ++ arrival frame).length - rxQueueMax + 1 := by
  have hle := hok.count_le
  have hone : (arrival frame).length ≤ 1 := by
    unfold arrival
    split
    · exact Nat.zero_le 1
    · split_ifs <;> simp
  rw [safePlace, length_append, queued_length]
  split_ifs with hfull
  · have := length_pos_iff.2 hfull.2
    omega
  · rw [not_and_or, not_not, ← length_eq_zero_iff] at hfull
    omega

theorem dispatch_ok (hok : QueueOk q) (table : SocketTable) (frame : Option Packet) :
    QueueOk (dispatchExternalIpv4 q table frame).2.1 := by
  unfold dispatchExternalIpv4
  cases h : stackTakeIpv4 (stackPoll q frame) with
  | none => exact stackPoll_ok hok frame
  | some r => exact stackTakeIpv4_ok (stackPoll_ok hok frame) h

theorem dispatch_queued (hok : QueueOk q) (table : SocketTable) (frame : Option Packet) :
    queued (dispatchExternalIpv4 q table frame).2.1 =
      (queued q ++ arrival frame).drop
        ((queued q ++ arrival frame).length - rxQueueMax + 1) := by
  have hpoll := stackPoll_queued hok frame
  unfold dispatchExternalIpv4
  cases h : stackTakeIpv4 (stackPoll q frame) with
  | none =>
    have hempty : queued (stackPoll q frame) = [] := by
      unfold stackTakeIpv4 at h
      split_ifs at h with hcount
      rw [queued, hcount]
      rfl
    rw [← drop_drop, ← hpoll, hempty]
    rfl
  | some r =>
    obtain ⟨packet, q'⟩ := r
    rw [← drop_drop, ← hpoll, stackTakeIpv4_queued h]
    rfl

theorem netStep_queued {w w' : NetWorld} {a : NetAct} {p : Fin processMax} (hok : QueueOk w.queue)
    (ht : a.taker w = some (p, frame)) (hs : netStep w a = some w') :
    queued w'.queue = (queued w.queue ++ arrival frame).drop
      ((queued w.queue ++ arrival frame).length - rxQueueMax + 1) := by
  cases a with
  | upkeep | socketCall => simp [NetAct.taker] at ht
  | poll p' frame' =>
    cases ht
    cases hs
    exact dispatch_queued hok _ _
  | receive p' descriptor capacity frame' =>
  simp only [NetAct.taker] at ht
  split_ifs at ht with hd hskip
  cases ht
  cases hs
  simp only [not_or, Bool.not_eq_true', Bool.not_eq_false, ne_eq, not_not] at hskip
  obtain ⟨hused, hcap, hshut, hcount⟩ := hskip
  simp only [socketReceive, hd, hused, hcap, hshut, hcount]
  exact dispatch_queued hok _ _

theorem netStep_untaken {w w' : NetWorld} {a : NetAct} (ht : a.taker w = none)
    (hs : netStep w a = some w') : (∃ frame, a = .upkeep frame) ∨ w'.queue = w.queue := by
  cases a with
  | upkeep frame => exact .inl ⟨frame, rfl⟩
  | socketCall =>
    cases hs
    exact .inr rfl
  | poll => cases ht
  | receive p descriptor capacity frame =>
    cases hs
    refine .inr ?_
    simp only [NetAct.taker] at ht
    simp only [socketReceive]
    split_ifs at ht ⊢ <;> first | rfl | simp_all

theorem netStep_ok (w : NetWorld) (a : NetAct) (w' : NetWorld) (hok : QueueOk w.queue)
    (hs : netStep w a = some w') : QueueOk w'.queue := by
  cases a with
  | upkeep frame =>
    cases hs
    exact stackPoll_ok hok frame
  | socketCall p table =>
    cases hs
    exact hok
  | poll p frame =>
    cases hs
    exact dispatch_ok hok _ _
  | receive p descriptor capacity frame =>
  cases hs
  simp only [socketReceive]
  split_ifs
  · exact hok
  · exact hok
  · exact dispatch_ok hok _ _
  · exact hok
  · exact hok

/-- In every run, a packet in the queue that is for another process only stays there, with what is
behind it, if and only if a call that takes packets finds it in a safe place. Other calls of
processes leave the queue alone. -/
theorem foreign_packets_stay (incoming : Fin rxQueueMax → Packet)
    (tables : Fin processMax → SocketTable) (acts : List NetAct) (w w' : NetWorld) (a : NetAct)
    (hrun : GuardedRun.runIf netStep (fun _ _ => true) acts (netBoot incoming tables) = some w)
    (hs : netStep w a = some w') :
    match a.taker w with
    | none => (∃ frame, a = .upkeep frame) ∨ w'.queue = w.queue
    | some (p, frame) => ∀ before packet behind, queued w.queue = before ++ packet :: behind →
        foreign w p packet = true →
        ((∃ before', queued w'.queue = before' ++ packet :: (behind ++ arrival frame)) ↔
          safePlace w.queue frame ≤ before.length) := by
  have hok : QueueOk w.queue :=
    GuardedRun.runIf_invariant (P := fun w => QueueOk w.queue)
      (fun w a w' h _ hs => netStep_ok w a w' h hs)
      ⟨Nat.succ_pos 7, Nat.zero_le 8⟩ hrun
  cases ht : a.taker w with
  | none => exact netStep_untaken ht hs
  | some r =>
  obtain ⟨p, frame⟩ := r
  intro before packet behind hqueue _
  rw [netStep_queued hok ht hs, ← safePlace_eq hok, hqueue, append_assoc, cons_append]
  constructor
  · rintro ⟨before', heq⟩
    have hlen := congrArg length heq
    have hplace : 1 ≤ safePlace w.queue frame := by
      rw [safePlace]
      split_ifs <;> omega
    simp only [length_drop, length_append, length_cons] at hlen
    omega
  · intro hle
    exact ⟨before.drop (safePlace w.queue frame), drop_append_of_le_length hle⟩

def idleSocket : Socket where
  used := false
  connected := false
  nonblock := false
  shutRd := false
  type := .udp
  localPort := 0
  peer := ⟨0, 0⟩
  tcp := ⟨.closed, 0, 0⟩
  receive := ⟨fun _ => [], fun _ => ⟨0, 0⟩, 0, 0⟩
  reassembly := fun _ => ⟨false, false, 0, []⟩

/-- A datagram with one byte for the given port, in its frame. -/
def portFrame (hi lo : UInt8) : Packet :=
  [0, 0, 0, 0, 0, 0, 0, 0, 0, 0, 0, 0, 8, 0] ++
    [69, 0, 0, 29, 0, 0, 0, 0, 64, 17, 102, 206, 10, 0, 0, 1, 10, 0, 0, 2] ++
    [0, 1, hi, lo, 0, 9, 0, 0, 42]

def twoReceivers (p : Fin processMax) : SocketTable := fun i =>
  if p = 1 ∧ i = 0 then { idleSocket with used := true, localPort := 5000 }
  else if p = 2 ∧ i = 0 then { idleSocket with used := true, localPort := 6000 }
  else idleSocket

/-- Datagrams for both are queued, the one for process 2 first, and process 2 polls. -/
theorem foreign_packets_stay_twoReceivers :
    ∃ w w', GuardedRun.runIf netStep (fun _ _ => true)
        [.upkeep (some (portFrame 0x17 0x70)), .upkeep (some (portFrame 0x13 0x88))]
          (netBoot (fun _ => []) twoReceivers) = some w ∧
      netStep w (.poll 2 none) = some w' ∧
      ∃ before, queued w'.queue = before ++ [(portFrame 0x13 0x88).drop 14] := by
  refine ⟨_, _, rfl, rfl, ?_⟩
  exact (foreign_packets_stay (fun _ => []) twoReceivers
    [.upkeep (some (portFrame 0x17 0x70)), .upkeep (some (portFrame 0x13 0x88))] _ _
    (.poll 2 none) rfl rfl [(portFrame 0x17 0x70).drop 14] _ [] (by decide +kernel)
    (by decide +kernel)).2 (by decide +kernel)

/-- The datagram for process 1 is queued, and process 2 polls: the datagram is gone. -/
theorem foreign_packet_taken :
    ∃ w w' packet,
      GuardedRun.runIf netStep (fun _ _ => true) [.upkeep (some (portFrame 0x13 0x88))]
          (netBoot (fun _ => []) twoReceivers) = some w ∧
        netStep w (.poll 2 none) = some w' ∧ packet ∈ queued w.queue ∧
        foreign w 2 packet = true ∧ packet ∉ queued w'.queue := by
  refine ⟨_, _, (portFrame 0x13 0x88).drop 14, rfl, rfl, ?_, ?_, ?_⟩
  · decide +kernel
  · decide +kernel
  · decide +kernel

end RixuriOS.Net
