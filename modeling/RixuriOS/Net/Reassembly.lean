import RixuriOS.Lib.GuardedRun
import RixuriOS.Net.TcpStream

/-!
# The reassembly slots of a socket

A segment that is ahead of the acknowledgment waits in a slot until the
acknowledgment is exactly its sequence number. A segment that ends behind the start
of a waiting one moves the acknowledgment past it, and its slot is never free again.
A waiting segment for which the receive queue has no room any more keeps its slot as
well, at the acknowledgment.
-/

namespace RixuriOS.Net

open GuardedRun Tally List Function

abbrev Segment := TcpHeader × Packet

def ReassemblySlot.span (p : ReassemblySlot) : Nat := p.packet.length + p.fin.toNat

def Segment.slot (x : Segment) : ReassemblySlot := ⟨true, x.1.fin, x.1.sequence, x.2⟩

/-- The segment is the next one of the stream, and there is room for what it carries. -/
def Taken (s : Socket) (x : Segment) : Prop :=
  x.1.rst = false ∧ (s.tcp.state = .established ∨ s.tcp.state = .closeWait) ∧
    x.1.sequence = s.tcp.acknowledgment ∧
    (x.2.length = 0 ∨ x.2.length ≤ packetRoom ∧ s.receive.count < socketQueue)

/-- What there is of the stream when the segment arrives: itself, and what waits. -/
def Piece (s : Socket) (x : Segment) (p : ReassemblySlot) : Prop :=
  p = Segment.slot x ∨ ∃ i, (s.reassembly i).used = true ∧ p = s.reassembly i

/-- Pieces, each of them from the end of the one before it, lead from the acknowledgment to `b`.
They are `n` packets for the receive queue, and `f` of them have a FIN. -/
inductive Carried (s : Socket) (x : Segment) : UInt32 → Nat → Nat → Prop
  | start : Carried s x s.tcp.acknowledgment 0 0
  | piece {b n f p} : Carried s x b n f → Piece s x p → p.sequence = b →
      Carried s x (b + UInt32.ofNat p.span) (n + if p.packet.length = 0 then 0 else 1)
        (f + p.fin.toNat)

/-- A piece to which the stream leads goes into the queue: there is room, its FIN is the first one,
and no other piece starts inside it. -/
def Joins (s : Socket) (x : Segment) : Prop :=
  ∀ b n f p, Carried s x b n f → Piece s x p → p.sequence = b →
    b.toNat + p.span < 2 ^ 32 ∧
    (∀ q, Piece s x q → q.sequence ≤ b ∨ b.toNat + p.span ≤ q.sequence.toNat) ∧
    (p.packet.length = 0 ∨ s.receive.count + n < socketQueue) ∧
    (p.fin = true → s.tcp.state = .established ∧ f = 0)

/-- The dispatch of the segment leaves nothing behind the acknowledgment. A second FIN moves the
acknowledgment, and what waits is not looked at. -/
def Clear (s : Socket) (x : Segment) : Prop :=
  Taken s x → Joins s x ∨ x.1.fin = true ∧ s.tcp.state = .closeWait ∧
    ∀ i, (s.reassembly i).used = true →
      x.1.sequence + UInt32.ofNat (Segment.slot x).span < (s.reassembly i).sequence

/-- A socket that has been established; what waits differs in its sequence numbers. -/
structure Holds (s : Socket) : Prop where
  distinct : ∀ i j, (s.reassembly i).used = true → (s.reassembly j).used = true →
    (s.reassembly i).sequence = (s.reassembly j).sequence → i = j
  fits : ∀ i, (s.reassembly i).used = true → (s.reassembly i).packet.length ≤ packetRoom
  opened : s.tcp.state ≠ .synSent

def Ahead (s : Socket) : Prop :=
  ∀ i, (s.reassembly i).used = true → s.tcp.acknowledgment < (s.reassembly i).sequence

def NotBehind (s : Socket) : Prop :=
  ∀ i, (s.reassembly i).used = true → s.tcp.acknowledgment ≤ (s.reassembly i).sequence

variable {s s' s₀ : Socket} {x : Segment} {p : ReassemblySlot} {i : Fin reassemblySlots}

variable {sequence : UInt32} {packet : Packet} {fin : Bool}

/-! ## The payload of one piece -/

theorem payload_fits (hfit : packet.length = 0 ∨
    packet.length ≤ packetRoom ∧ s.receive.count < socketQueue) :
    ∃ s', (if packet.length = 0 then some s else queuePacket s packet s.peer) = some s' ∧
      s'.tcp = s.tcp ∧ s'.reassembly = s.reassembly ∧
      s'.receive.count = s.receive.count + if packet.length = 0 then 0 else 1 := by
  by_cases h0 : packet.length = 0
  · exact ⟨s, by simp [h0]⟩
  · obtain ⟨hlen, hroom⟩ := hfit.resolve_left h0
    simp [h0, queuePacket, packetCopy, hlen, Nat.not_le.2 hroom]

theorem tcpQueuePayload_eq (hseq : p.sequence = s.tcp.acknowledgment)
    (hlen : p.packet.length ≤ packetRoom)
    (hroom : p.packet.length = 0 ∨ s.receive.count < socketQueue)
    (hfin : p.fin = true → s.tcp.state = .established) :
    ∃ s', tcpQueuePayload s p.sequence p.packet p.fin = (true, s') ∧
      s'.tcp.acknowledgment = p.sequence + UInt32.ofNat p.span ∧ s'.reassembly = s.reassembly ∧
      s'.receive.count = s.receive.count + (if p.packet.length = 0 then 0 else 1) ∧
      s'.tcp.state = if p.fin then .closeWait else s.tcp.state := by
  have hsum : p.sequence + UInt32.ofNat p.packet.length + (if p.fin = true then 1 else 0) =
      p.sequence + UInt32.ofNat p.span := by
    rw [ReassemblySlot.span]
    cases p.fin <;> simp [UInt32.ofNat_add, UInt32.add_assoc]
  obtain ⟨s', hq, hs'⟩ := payload_fits (hroom.imp_right fun hroom => ⟨hlen, hroom⟩)
  unfold tcpQueuePayload
  rw [if_neg (not_not.2 hseq), hq]
  dsimp only
  cases hf : p.fin with
  | false =>
    rw [hf] at hsum
    exact ⟨_, rfl, hsum, hs'.2.1, hs'.2.2, by simp [hs'.1]⟩
  | true =>
    rw [hf] at hsum
    have hstate : s'.tcp.state = .established := by rw [hs'.1, hfin hf]
    rw [hstate]
    exact ⟨_, rfl, hsum, hs'.2.1, hs'.2.2, rfl⟩

theorem tcpQueuePayload_opened (h : s.tcp.state ≠ .synSent) (sequence : UInt32) (packet : Packet)
    (fin : Bool) :
    (tcpQueuePayload s sequence packet fin).2.tcp.state ≠ .synSent := by
  obtain hsame | ⟨-, s', hq, hres⟩ := tcpQueuePayload_cases s sequence packet fin
  · rwa [hsame]
  obtain ⟨-, -, htcp, -⟩ := payload_queued hq
  rw [hres, htcp]
  cases hst : s.tcp.state <;> cases fin <;> simp_all [takenControl, tcpTransition]

/-! ## Draining the slots -/

/-- The socket on its way from `s₀` through the pieces. -/
structure Trail (s₀ : Socket) (x : Segment) (s : Socket) : Prop where
  carried : ∃ n f, Carried s₀ x s.tcp.acknowledgment n f ∧
    s.receive.count = s₀.receive.count + n ∧ (f = 0 → s.tcp.state = s₀.tcp.state)
  slots : ∀ i, (s.reassembly i).used = true →
    (s₀.reassembly i).used = true ∧ s.reassembly i = s₀.reassembly i
  opened : s.tcp.state ≠ .synSent
  notBehind : NotBehind s

theorem Trail.holds (h₀ : Holds s₀) (h : Trail s₀ x s) : Holds s where
  distinct i j hi hj heq := by
    obtain ⟨hi₀, hi⟩ := h.slots i hi
    obtain ⟨hj₀, hj⟩ := h.slots j hj
    rw [hi, hj] at heq
    exact h₀.distinct i j hi₀ hj₀ heq
  fits i hi := by
    obtain ⟨hi₀, hi⟩ := h.slots i hi
    rw [hi]
    exact h₀.fits i hi₀
  opened := h.opened

/-- The piece at the acknowledgment is taken, and nothing that waits behind its start is passed. -/
theorem Trail.take (hjoin : Joins s₀ x) (h : Trail s₀ x s) (hp : Piece s₀ x p)
    (hseq : p.sequence = s.tcp.acknowledgment) (hlen : p.packet.length ≤ packetRoom) :
    ∃ s', tcpQueuePayload s p.sequence p.packet p.fin = (true, s') ∧
      s'.reassembly = s.reassembly ∧ ∀ slots : Fin reassemblySlots → ReassemblySlot,
        (∀ j, (slots j).used = true → (s.reassembly j).used = true ∧ slots j = s.reassembly j ∧
          (s.reassembly j).sequence ≠ s.tcp.acknowledgment) →
        Trail s₀ x { s' with reassembly := slots } := by
  obtain ⟨n, f, hcar, hcount, hstate⟩ := h.carried
  obtain ⟨hend, hapart, hroom, hfin⟩ := hjoin _ n f p hcar hp hseq
  obtain ⟨s', hq, hack, hre, hcount', hstate'⟩ := tcpQueuePayload_eq hseq hlen
    (hcount ▸ hroom) fun hf => by rw [hstate (hfin hf).2, (hfin hf).1]
  refine ⟨s', hq, hre, fun slots hslots => ⟨⟨n + if p.packet.length = 0 then 0 else 1,
    f + p.fin.toNat, ?_, ?_, ?_⟩, fun j hj => ?_, ?_, fun j hj => ?_⟩⟩
  · have hnext := hcar.piece hp hseq
    rw [← hseq, ← hack] at hnext
    exact hnext
  · change s'.receive.count = _
    rw [hcount', hcount, Nat.add_assoc]
  · intro hf
    have hnone : p.fin = false := by
      cases hpf : p.fin with
      | false => rfl
      | true => simp [hpf] at hf
    change s'.tcp.state = _
    rw [hstate', hnone]
    exact hstate (by omega)
  · obtain ⟨hj, hsame, -⟩ := hslots j hj
    exact ⟨(h.slots j hj).1, hsame.trans (h.slots j hj).2⟩
  · have := tcpQueuePayload_opened h.opened p.sequence p.packet p.fin
    rwa [hq] at this
  · obtain ⟨hj, hsame, hne⟩ := hslots j hj
    obtain ⟨hj₀, hsame₀⟩ := h.slots j hj
    change s'.tcp.acknowledgment ≤ (slots j).sequence
    have hle : s.tcp.acknowledgment.toNat + p.span ≤ (s.reassembly j).sequence.toNat := by
      refine (hapart (s.reassembly j) (.inr ⟨j, hj₀, hsame₀⟩)).resolve_left fun hle => hne ?_
      exact UInt32.le_antisymm hle (h.notBehind j hj)
    rw [hsame, hack, hseq, UInt32.le_iff_toNat_le, UInt32.toNat_add, UInt32.toNat_ofNat',
      Nat.mod_eq_of_lt (b := 2 ^ 32) (by omega), Nat.mod_eq_of_lt (by omega)]
    exact hle

theorem drainPass_trail (h₀ : Holds s₀) (hjoin : Joins s₀ x) (l : List (Fin reassemblySlots))
    (d : Drained) (h : Trail s₀ x s) (hd : d ≠ .failed) :
    (drainPass l d s).1 ≠ .failed ∧ Trail s₀ x (drainPass l d s).2 ∧
      ((drainPass l d s).1 = .idle → d = .idle ∧ (drainPass l d s).2 = s ∧
        ∀ i ∈ l, (s.reassembly i).used = true →
          (s.reassembly i).sequence ≠ s.tcp.acknowledgment) := by
  induction l generalizing d s with
  | nil => exact ⟨hd, h, fun hd => ⟨hd, rfl, by simp⟩⟩
  | cons i l ih =>
    simp only [drainPass]
    by_cases hskip : (!(s.reassembly i).used) = true ∨
        (s.reassembly i).sequence ≠ s.tcp.acknowledgment
    · rw [if_pos hskip]
      obtain ⟨hok, h', hidle⟩ := ih d h hd
      refine ⟨hok, h', fun hd => ⟨(hidle hd).1, (hidle hd).2.1, fun j hj hused => ?_⟩⟩
      rcases mem_cons.1 hj with rfl | hj
      · simpa [hused] using hskip
      · exact (hidle hd).2.2 j hj hused
    obtain ⟨hused, hseq⟩ : (s.reassembly i).used = true ∧
        (s.reassembly i).sequence = s.tcp.acknowledgment := by simpa using hskip
    obtain ⟨hused₀, hsame₀⟩ := h.slots i hused
    obtain ⟨s', hq, hre, htrail⟩ := h.take hjoin (.inr ⟨i, hused₀, hsame₀⟩) hseq
      ((h.holds h₀).fits i hused)
    rw [if_neg hskip, hq]
    obtain ⟨hok, h', hidle⟩ := ih .progressed
      (htrail (update s'.reassembly i { s.reassembly i with used := false }) fun j hj => by
        have hji : j ≠ i := by
          rintro rfl
          simp at hj
        rw [update_of_ne hji, hre] at hj ⊢
        exact ⟨hj, rfl, fun hack => hji ((h.holds h₀).distinct j i hj hused (hack.trans hseq.symm))⟩)
      (by simp)
    exact ⟨hok, h', fun hd => absurd (hidle hd).1 (by simp)⟩

theorem drainLoop_ahead (h₀ : Holds s₀) (hjoin : Joins s₀ x) (passes : Nat) (h : Trail s₀ x s)
    (hpasses : tally ReassemblySlot.used s.reassembly < passes) :
    Holds (drainLoop passes s).2 ∧ Ahead (drainLoop passes s).2 := by
  induction passes generalizing s with
  | zero => omega
  | succ passes ih =>
    have hpass := drainPass_trail h₀ hjoin (finRange reassemblySlots) .idle h nofun
    have hheld := drainPass_held (finRange reassemblySlots) .idle s
    rw [drainLoop]
    generalize drainPass (finRange reassemblySlots) .idle s = r at hpass hheld
    obtain ⟨d, s'⟩ := r
    obtain ⟨hok, h', hidle⟩ := hpass
    cases d with
    | failed => exact absurd rfl hok
    | idle =>
      obtain ⟨-, rfl, hnone⟩ := hidle rfl
      exact ⟨h'.holds h₀, fun i hi => UInt32.lt_of_le_of_ne (h'.notBehind i hi)
        (Ne.symm (hnone i (mem_finRange i) hi))⟩
    | progressed =>
      obtain hidle | hlt := hheld.2 rfl
      · cases hidle
      · dsimp only at hlt
        exact ih h' (by omega)

/-! ## Dispatching segments -/

theorem Holds.hold (h : Holds s) (hs : Ahead s) (hlt : s.tcp.acknowledgment < x.1.sequence)
    (hhold : tcpHoldSegment s x.1.sequence x.2 x.1.fin = some s') : Holds s' ∧ Ahead s' := by
  unfold tcpHoldSegment at hhold
  split_ifs at hhold with hany
  · cases hhold
    exact ⟨h, hs⟩
  split at hhold
  · simp at hhold
  obtain ⟨packet, hcopy, rfl⟩ := Option.map_eq_some_iff.1 hhold
  have hnew (j : Fin reassemblySlots) (hj : (s.reassembly j).used = true) :
      (s.reassembly j).sequence ≠ x.1.sequence := by
    simp only [any_eq_true, mem_finRange, true_and, Bool.and_eq_true, beq_iff_eq,
      not_exists, not_and] at hany
    exact hany j hj
  have hfit : packet.length ≤ packetRoom := by
    unfold packetCopy at hcopy
    split_ifs at hcopy with hroom
    cases hcopy
    exact hroom
  rename_i i _
  refine ⟨⟨fun j k hj hk heq => ?_, fun j hj => ?_, h.opened⟩, fun j hj => ?_⟩
  · by_cases hji : j = i <;> by_cases hki : k = i
    · rw [hji, hki]
    · subst hji
      simp only [update_self, update_of_ne hki] at hk heq
      exact absurd heq.symm (hnew k hk)
    · subst hki
      simp only [update_self, update_of_ne hji] at hj heq
      exact absurd heq (hnew j hj)
    · simp only [update_of_ne hji, update_of_ne hki] at hj hk heq
      exact h.distinct j k hj hk heq
  · by_cases hji : j = i
    · subst hji
      simpa using hfit
    · simp only [update_of_ne hji] at hj ⊢
      exact h.fits j hj
  · by_cases hji : j = i
    · subst hji
      simpa using hlt
    · simp only [update_of_ne hji] at hj ⊢
      exact hs j hj

theorem tcpQueuePayload_refused (hlen : ¬(packet.length = 0 ∨
    packet.length ≤ packetRoom ∧ s.receive.count < socketQueue)) :
    tcpQueuePayload s sequence packet fin = (false, s) := by
  have hfull : (if packet.length = 0 then some s else queuePacket s packet s.peer) = none := by
    rw [not_or, not_and_or] at hlen
    rw [if_neg hlen.1, queuePacket, packetCopy]
    split_ifs with hroom hfit
    · rfl
    · exact absurd hlen.2 (by omega)
    · rfl
  rw [tcpQueuePayload, hfull]
  simp

theorem tcpQueuePayload_second_fin (hseq : x.1.sequence = s.tcp.acknowledgment)
    (hfit : x.2.length = 0 ∨ x.2.length ≤ packetRoom ∧ s.receive.count < socketQueue)
    (hfin : x.1.fin = true) (hstate : s.tcp.state = .closeWait) :
    ∃ s', tcpQueuePayload s x.1.sequence x.2 x.1.fin = (false, s') ∧
      s'.reassembly = s.reassembly ∧
      s'.tcp.acknowledgment = x.1.sequence + UInt32.ofNat (Segment.slot x).span := by
  obtain ⟨s', hq, htcp, hre, -⟩ := payload_fits hfit
  have hclosing : s'.tcp.state = .closeWait := by rw [htcp, hstate]
  unfold tcpQueuePayload
  rw [if_neg (not_not.2 hseq), hq, hfin]
  dsimp only
  rw [hclosing]
  refine ⟨_, rfl, hre, ?_⟩
  simp [Segment.slot, ReassemblySlot.span, hfin, UInt32.ofNat_add, UInt32.add_assoc]

theorem tcpInput_ahead (h : Holds s) (hs : Ahead s) (hclear : Clear s x) :
    Holds (tcpInput s x.1 x.2).2 ∧ Ahead (tcpInput s x.1 x.2).2 := by
  unfold tcpInput
  by_cases hrst : x.1.rst = true
  · rw [if_pos hrst]
    refine ⟨⟨h.distinct, h.fits, ?_⟩, hs⟩
    cases hst : s.tcp.state <;> simp_all [tcpTransition]
  rw [if_neg hrst, if_neg fun hsyn => h.opened hsyn.2.1]
  by_cases hstate : s.tcp.state ≠ .established ∧ s.tcp.state ≠ .closeWait
  · simpa only [if_pos hstate] using ⟨h, hs⟩
  by_cases hold : x.1.sequence < s.tcp.acknowledgment
  · simpa only [if_neg hstate, if_pos hold] using ⟨h, hs⟩
  rw [if_neg hstate, if_neg hold]
  by_cases hfuture : s.tcp.acknowledgment < x.1.sequence
  · rw [if_pos hfuture]
    cases hhold : tcpHoldSegment s x.1.sequence x.2 x.1.fin with
    | none => exact ⟨h, hs⟩
    | some s' => exact h.hold hs hfuture hhold
  rw [if_neg hfuture]
  by_cases hfit : x.2.length = 0 ∨ x.2.length ≤ packetRoom ∧ s.receive.count < socketQueue
  swap
  · rw [tcpQueuePayload_refused hfit]
    exact ⟨h, hs⟩
  have hseq : x.1.sequence = s.tcp.acknowledgment :=
    UInt32.le_antisymm (UInt32.not_lt.1 hfuture) (UInt32.not_lt.1 hold)
  obtain hjoin | ⟨hfin, hclosing, hbeyond⟩ :=
    hclear ⟨by simpa using hrst, by tauto, hseq, hfit⟩
  · have htrail : Trail s x s :=
      ⟨⟨0, 0, .start, rfl, fun _ => rfl⟩, fun i hi => ⟨hi, rfl⟩, h.opened,
        fun i hi => UInt32.le_of_lt (hs i hi)⟩
    obtain ⟨s', hq, hre, htrail'⟩ := htrail.take (p := Segment.slot x) hjoin (.inl rfl) hseq
      (hfit.elim (fun h0 => h0.trans_le (Nat.zero_le _)) And.left)
    have hs' := htrail' s.reassembly fun j hj => ⟨hj, rfl, (UInt32.ne_of_lt (hs j hj)).symm⟩
    rw [← hre] at hs'
    have hslots : tally ReassemblySlot.used s'.reassembly < reassemblySlots + 1 :=
      Nat.lt_succ_of_le ((Finset.card_le_univ _).trans_eq (Fintype.card_fin _))
    have hdrain := drainLoop_ahead h hjoin _ hs' hslots
    have hq : tcpQueuePayload s x.1.sequence x.2 x.1.fin = (true, s') := hq
    rw [hq]
    simp only [Bool.not_true, Bool.false_eq_true, if_false]
    split_ifs <;> exact hdrain
  · obtain ⟨s', hq, hre, hack⟩ := tcpQueuePayload_second_fin hseq hfit hfin hclosing
    rw [hq]
    refine ⟨⟨?_, ?_, ?_⟩, fun i hi => ?_⟩
    · simpa [hre] using h.distinct
    · simpa [hre] using h.fits
    · have hopen := tcpQueuePayload_opened h.opened x.1.sequence x.2 x.1.fin
      rwa [hq] at hopen
    · change s'.tcp.acknowledgment < (s'.reassembly i).sequence
      rw [hre, hack]
      exact hbeyond i (hre ▸ hi)

/-- What happens to a socket: a segment arrives, or the program reads. -/
inductive SocketEvent
  | segment (x : Segment)
  | read (capacity : Nat)

def socketStep (s : Socket) : SocketEvent → Option Socket
  | .segment x => some (tcpInput s x.1 x.2).2
  | .read capacity => some (takePacket s capacity).2.2

def clearEvent (s : Socket) : SocketEvent → Prop
  | .segment x => Clear s x
  | .read _ => True

theorem takePacket_same (s : Socket) (capacity : Nat) :
    (takePacket s capacity).2.2.tcp = s.tcp ∧
      (takePacket s capacity).2.2.reassembly = s.reassembly := by
  unfold takePacket
  dsimp only
  split_ifs <;> exact ⟨rfl, rfl⟩

/-- An established socket with free slots: as long as every segment that is taken joins with what
waits, what waits in a slot has not been received. -/
theorem reassembly_ahead (hstate : s.tcp.state = .established)
    (hfree : ∀ i, (s.reassembly i).used = false) (hrun : Reaches socketStep clearEvent s s') :
    ∀ i, (s'.reassembly i).used = true → s'.tcp.acknowledgment < (s'.reassembly i).sequence := by
  have hall : Holds s' ∧ Ahead s' := by
    induction hrun with
    | refl =>
      refine ⟨⟨fun i j hi => ?_, fun i hi => ?_, by simp [hstate]⟩, fun i hi => ?_⟩
      all_goals simp [hfree] at hi
    | tail _ hclear hstep ih =>
      rename_i s₁ s₂ e _
      cases e with
      | segment x =>
        cases hstep
        exact tcpInput_ahead ih.1 ih.2 hclear
      | read capacity =>
        cases hstep
        obtain ⟨htcp, hre⟩ := takePacket_same s₁ capacity
        refine ⟨⟨?_, ?_, ?_⟩, ?_⟩
        all_goals first | rw [hre] | rw [htcp] | unfold Ahead; rw [hre, htcp]
        · exact ih.1.distinct
        · exact ih.1.fits
        · exact ih.1.opened
        · exact ih.2
  exact hall.2

def dataSegment (sequence : UInt32) (payload : Packet) : Segment :=
  ({ sourcePort := 80, destinationPort := 5000, sequence, acknowledgment := 1, fin := false
     syn := false, rst := false }, payload)

/-- The socket on which a packet waits that is two bytes ahead. -/
def waiting : Socket := (tcpInput (freshSocket 10) (dataSegment 12 [3]).1 (dataSegment 12 [3]).2).2

theorem waiting_joins : Joins waiting (dataSegment 10 [1, 2]) := by
  have hpiece : ∀ p, Piece waiting (dataSegment 10 [1, 2]) p →
      p = ⟨true, false, 10, [1, 2]⟩ ∨ p = ⟨true, false, 12, [3]⟩ := by
    rintro p (rfl | ⟨i, hused, rfl⟩)
    · exact .inl rfl
    · fin_cases i
      · exact .inr rfl
      all_goals exact absurd hused (by decide)
  have hcarried : ∀ b n f, Carried waiting (dataSegment 10 [1, 2]) b n f →
      (b = 10 ∧ n = 0 ∨ b = 12 ∧ n = 1 ∨ b = 13 ∧ n = 2) ∧ f = 0 := by
    intro b n f h
    induction h with
    | start => exact ⟨.inl ⟨rfl, rfl⟩, rfl⟩
    | piece _ hp hseq ih =>
      obtain ⟨⟨rfl, rfl⟩ | ⟨rfl, rfl⟩ | ⟨rfl, rfl⟩, rfl⟩ := ih <;>
        obtain rfl | rfl := hpiece _ hp <;>
        first | exact absurd hseq (by decide) | decide
  intro b n f p hb hp hseq
  obtain ⟨⟨rfl, rfl⟩ | ⟨rfl, rfl⟩ | ⟨rfl, rfl⟩, rfl⟩ := hcarried b n f hb <;>
    obtain rfl | rfl := hpiece p hp <;>
    first
    | exact absurd hseq (by decide)
    | refine ⟨by decide, fun q hq => ?_, .inr (by decide), nofun⟩
      obtain rfl | rfl := hpiece q hq <;> decide

theorem reassembly_ahead_waiting : ∃ s, Reaches socketStep clearEvent (freshSocket 10) s ∧
    received s = [[1, 2], [3]] ∧
    ∀ i, (s.reassembly i).used = true → s.tcp.acknowledgment < (s.reassembly i).sequence := by
  have hheld : Reaches socketStep clearEvent (freshSocket 10) waiting :=
    .tail (a := .segment (dataSegment 12 [3])) .refl (fun h => absurd h.2.2.1 (by decide)) rfl
  have hrun := hheld.tail (a := .segment (dataSegment 10 [1, 2])) (fun _ => .inl waiting_joins) rfl
  exact ⟨_, hrun, by decide, reassembly_ahead rfl (fun _ => rfl) hrun⟩

/-- The second segment ends behind the start of the first one, which stays in its slot. In a queue
with room for one packet, the first one stays at the acknowledgment. -/
theorem reassembly_behind :
    (∃ s, [dataSegment 12 [3], dataSegment 10 [1, 2, 3]].foldlM
        (fun s x => socketStep s (.segment x)) (freshSocket 10) = some s ∧
      (s.reassembly 0).used = true ∧ (s.reassembly 0).sequence < s.tcp.acknowledgment) ∧
    ∃ s, [dataSegment 12 [3], dataSegment 10 [1, 2]].foldlM (fun s x => socketStep s (.segment x))
        { freshSocket 10 with receive := { (freshSocket 10).receive with count := 7 } } = some s ∧
      (s.reassembly 0).used = true ∧ (s.reassembly 0).sequence = s.tcp.acknowledgment :=
  ⟨⟨_, rfl, by decide, by decide⟩, ⟨_, rfl, by decide, by decide⟩⟩

end RixuriOS.Net
