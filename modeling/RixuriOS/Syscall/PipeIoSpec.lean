import RixuriOS.Lib.GuardedRun
import RixuriOS.Syscall.PipeIo
import RixuriOS.Vfs.Edits

/-!
# What the readers and writers of a pipe observe

The ring of a pipe holds what was appended and not yet received. A `SYS_WRITE` that
meets a pipe with room for a part of a chunk appends that part and does not count
it; in runs in which this does not happen and in which readers pass buffers that
can be written, results and bytes agree.
-/

namespace RixuriOS.Syscall

open Ipc Vfs List Function Option Tables

variable {buf got : List UInt8} {rc : Int} {m task : Nat} {copyOk interrupted : Bool} {o : Outcome}

/-- The ring is well formed and holds what was appended and not received. -/
structure RingOk (c : Channel) (received appended : List UInt8) : Prop where
  head_lt : c.head < ipcCapacity
  count_le : c.count ≤ ipcCapacity
  tail_eq : c.tail = (c.head + c.count) % ipcCapacity
  bytes : received ++ RingBuffer.contents c.data c.head c.count = appended

variable {c c' : Channel} {received appended : List UInt8}

theorem RingOk.write (h : RingOk c received appended) (buf : List UInt8) :
    RingOk (ipcWrite c buf).2.2 received (appended ++ buf.take (ipcWrite c buf).2.1) := by
  unfold ipcWrite
  by_cases hclosed : c.closed = true
  · simpa [hclosed] using h
  simp only [hclosed, Bool.false_eq_true, if_false]
  generalize hm : min buf.length (ipcCapacity - c.count) = m
  have hle := h.count_le
  have hlen : (buf.take m).length = m := by
    rw [length_take]
    omega
  have hpush : RingBuffer.contents (RingBuffer.push c.data c.tail (buf.take m)) c.head
      (c.count + m) = RingBuffer.contents c.data c.head c.count ++ buf.take m := by
    have hfits : c.count + (buf.take m).length ≤ ipcCapacity := by omega
    have hp := RingBuffer.contents_push c.data h.head_lt hfits
    rwa [hlen, ← h.tail_eq] at hp
  refine ⟨h.head_lt, by dsimp only; omega, ?_, ?_⟩
  · dsimp only
    rw [h.tail_eq, Nat.mod_add_mod, Nat.add_assoc]
  · dsimp only
    rw [hpush, ← append_assoc, h.bytes]

theorem RingOk.read (h : RingOk c received appended) (n : Nat) :
    RingOk (ipcRead c n).2.2 (received ++ (ipcRead c n).2.1) appended := by
  unfold ipcRead
  generalize hm : min n c.count = m
  have hle := h.count_le
  have hsplit : c.count = m + (c.count - m) := by omega
  refine ⟨Nat.mod_lt _ (by decide), by dsimp only; omega, ?_, ?_⟩
  · dsimp only
    rw [Nat.mod_add_mod, h.tail_eq]
    congr 1
    omega
  dsimp only
  rw [RingBuffer.take_eq h.head_lt, RingBuffer.contents_mod, append_assoc,
    ← RingBuffer.contents_add, ← hsplit, h.bytes]

/-- Closing a channel leaves its ring alone. -/
structure SameRing (c c' : Channel) : Prop where
  data : c'.data = c.data
  head : c'.head = c.head
  tail : c'.tail = c.tail
  count : c'.count = c.count

theorem RingOk.congr (h : RingOk c received appended) (hs : SameRing c c') :
    RingOk c' received appended where
  head_lt := hs.head ▸ h.head_lt
  count_le := hs.count ▸ h.count_le
  tail_eq := by rw [hs.tail, hs.head, hs.count, h.tail_eq]
  bytes := by rw [hs.data, hs.head, hs.count, h.bytes]

/-! ## Calls on descriptors -/

/-- A slot in use afterwards was in use before, with the same ring. -/
def Fades (s s' : PipeSlot) : Prop :=
  s'.used = true → s.used = true ∧ SameRing s.pipe.channel s'.pipe.channel

theorem Fades.refl (s : PipeSlot) : Fades s s := fun hu => ⟨hu, rfl, rfl, rfl, rfl⟩

theorem Fades.trans {s₁ s₂ s₃ : PipeSlot} (h₁ : Fades s₁ s₂) (h₂ : Fades s₂ s₃) : Fades s₁ s₃ := by
  intro hu
  obtain ⟨hu₂, hs₂⟩ := h₂ hu
  obtain ⟨hu₁, hs₁⟩ := h₁ hu₂
  exact ⟨hu₁, hs₂.data.trans hs₁.data, hs₂.head.trans hs₁.head, hs₂.tail.trans hs₁.tail,
    hs₂.count.trans hs₁.count⟩

variable {s s' : PipeSlot} {w : Bool} {t : Tables} {n : Nat}

theorem retain_fades (h : s.retain w = .ok s') : Fades s s' := by
  unfold PipeSlot.retain at h
  cases w with
  | false =>
    simp only [Bool.false_eq_true, if_false, pipeRetainRead] at h
    split_ifs at h
    cases h
    exact fun hu => ⟨hu, rfl, rfl, rfl, rfl⟩
  | true =>
    simp only [if_true, pipeRetainWrite] at h
    split_ifs at h
    cases h
    exact fun hu => ⟨hu, rfl, rfl, rfl, rfl⟩

theorem release_fades (h : s.release w = some s') : Fades s s' := by
  unfold PipeSlot.release at h
  obtain ⟨p, hp, rfl⟩ := map_eq_some_iff.1 h
  intro hu
  rw [Bool.and_eq_true] at hu
  refine ⟨hu.1, ?_⟩
  cases w with
  | false =>
    simp only [Bool.false_eq_true, if_false, pipeCloseRead] at hp
    split_ifs at hp
    cases hp
    exact ⟨rfl, rfl, rfl, rfl⟩
  | true =>
    simp only [if_true, pipeCloseWrite] at hp
    split_ifs at hp <;> cases hp <;> exact ⟨rfl, rfl, rfl, rfl⟩

variable {i : Fin pipeMax}

theorem setSlot_fades (h : Fades (t.pipes i) s) (j : Fin pipeMax) :
    Fades (t.pipes j) ((t.setSlot i s).pipes j) := by
  by_cases hj : j = i
  · subst hj
    simpa [setSlot] using h
  · simpa [setSlot, hj] using Fades.refl (t.pipes j)

theorem edits_fades {t' : Tables} (h : Edits t t') (i : Fin pipeMax) :
    Fades (t.pipes i) (t'.pipes i) := by
  induction h with
  | refl => exact Fades.refl _
  | tail _ hstep ih =>
    refine ih.trans ?_
    cases hstep with
    | copy => exact Fades.refl _
    | clear => exact Fades.refl _
    | retain j w s hr => exact setSlot_fades (retain_fades hr) i
    | release j w s hr => exact setSlot_fades (release_fades hr) i

def Fresh (s s' : PipeSlot) : Prop :=
  s.used = false ∧ s'.pipe.channel.head = 0 ∧ s'.pipe.channel.tail = 0 ∧ s'.pipe.channel.count = 0

theorem vfsPipe_slots (t : Tables) (pid : Nat) (i : Fin pipeMax) :
    Fades (t.pipes i) ((vfsPipe t pid).2.2.pipes i) ∨
      Fresh (t.pipes i) ((vfsPipe t pid).2.2.pipes i) := by
  unfold vfsPipe
  cases pidSlot pid with
  | none => exact .inl (Fades.refl _)
  | some ps =>
  dsimp only
  cases freeFd t ps stdioReserved with
  | none => exact .inl (Fades.refl _)
  | some r =>
  dsimp only
  cases freeFd t ps (r + 1) with
  | none => exact .inl (Fades.refl _)
  | some w =>
  cases hj : (finRange pipeMax).find? fun i => !(t.pipes i).used with
  | none => exact .inl (Fades.refl _)
  | some j =>
  by_cases hij : i = j
  · subst hij
    have hfree : (t.pipes i).used = false := by simpa using find?_some hj
    exact .inr ⟨hfree, by simp [setFd, setSlot, pipeInit, channelInit]⟩
  · refine .inl ?_
    simpa [setFd, setSlot, hij] using Fades.refl (t.pipes i)

theorem openFd_pipes (t : Tables) (ps : Fin processMax) (type : FdType) (inode : Nat)
    (writable append cloexec : Bool) :
    (((openFd t ps type inode writable append cloexec).map Prod.snd).getD t).pipes = t.pipes := by
  unfold openFd
  cases freeFd t ps stdioReserved <;> rfl

theorem apply_slots (t : Tables) (call : Call) (hread : ∀ x n, call ≠ .read x n)
    (hwrite : ∀ x buf, call ≠ .write x buf) (i : Fin pipeMax) :
    Fades (t.pipes i) ((call.apply t).pipes i) ∨ Fresh (t.pipes i) ((call.apply t).pipes i) := by
  cases hc : call.edits with
  | true => exact .inl (edits_fades (apply_edits t call hc) i)
  | false =>
  cases call with
  | «open» ps type inode writable append cloexec =>
    left
    rw [Call.apply]
    split_ifs
    · rw [openFd_pipes]
      exact Fades.refl _
    · exact Fades.refl _
  | pipe pid => exact vfsPipe_slots t pid i
  | read x n => exact absurd rfl (hread x n)
  | write x buf => exact absurd rfl (hwrite x buf)
  | _ => simp [Call.edits] at hc

/-! ## Iterations of the loops -/

variable {t' : Tables} {pid fd : Nat}

def withChannel (t : Tables) (i : Fin pipeMax) (c : Channel) : Tables :=
  t.setSlot i { t.pipes i with pipe := { (t.pipes i).pipe with channel := c } }

theorem setSlot_self (t : Tables) (i : Fin pipeMax) : t.setSlot i (t.pipes i) = t := by
  simp [setSlot]

variable {x : Fin processMax × Fin fdMax}

theorem vfsWritePipe_cases (h : vfsWritePipe t x buf = some (rc, m, t')) :
    (t' = t ∧ m = 0 ∧ rc ≠ 0 ∧ rc ≠ -3) ∨
      ∃ i, (t.fds x).pipe = some i ∧
        t' = withChannel t i (ipcWrite (t.pipes i).pipe.channel buf).2.2 ∧
        rc = (ipcWrite (t.pipes i).pipe.channel buf).1 ∧
        m = (ipcWrite (t.pipes i).pipe.channel buf).2.1 := by
  unfold vfsWritePipe at h
  split at h
  · cases hp : (t.fds x).pipe with
    | none =>
      rw [hp] at h
      cases h
      simp
    | some i =>
      simp only [hp, pipeWrite] at h
      by_cases hw : (t.pipes i).pipe.writeOpen = true
      · by_cases hr : (t.pipes i).pipe.readOpen = true
        · simp only [hw, hr, Bool.not_true, Bool.false_eq_true, if_false] at h
          cases h
          exact .inr ⟨i, rfl, by simp [withChannel, hw, hr], rfl, rfl⟩
        simp only [hw, hr, Bool.not_true, Bool.not_false, Bool.false_eq_true, if_false, if_true] at h
        cases h
        exact .inl ⟨setSlot_self t i, rfl, by decide, by decide⟩
      simp only [hw, Bool.not_false, if_true] at h
      cases h
      exact .inl ⟨setSlot_self t i, rfl, by decide, by decide⟩
  · cases h

theorem vfsWrite_cases (h : vfsWrite t pid fd buf = some (rc, m, t')) :
    (t' = t ∧ m = 0 ∧ rc ≠ 0 ∧ rc ≠ -3) ∨
      ∃ i, slotOf t pid fd = some i ∧
        t' = withChannel t i (ipcWrite (t.pipes i).pipe.channel buf).2.2 ∧
        rc = (ipcWrite (t.pipes i).pipe.channel buf).1 ∧
        m = (ipcWrite (t.pipes i).pipe.channel buf).2.1 := by
  have hfail (e : Int) (he : e ≠ 0 ∧ e ≠ -3) (h : some (e, 0, t) = some (rc, m, t')) :
      t' = t ∧ m = 0 ∧ rc ≠ 0 ∧ rc ≠ -3 := by
    cases h
    exact ⟨rfl, rfl, he⟩
  unfold vfsWrite at h
  cases hx : entry pid fd with
  | none => exact .inl (hfail (-1) (by decide) (by simpa [hx] using h))
  | some x =>
  rw [hx] at h
  by_cases hu : (t.fds x).used = true
  · simp only [hu, Bool.not_true, Bool.false_eq_true, if_false] at h
    cases hw : vfsWritePipe t x buf with
    | none =>
      rw [hw] at h
      split_ifs at h
      exact .inl (hfail (-2) (by decide) h)
    | some r =>
      rw [hw] at h
      cases h
      obtain hfailed | ⟨i, hi, hring⟩ := vfsWritePipe_cases hw
      · exact .inl hfailed
      · exact .inr ⟨i, by simp [slotOf, hx, hi], hring⟩
  · exact .inl (hfail (-1) (by decide) (by simpa [hu] using h))

theorem vfsReadPipe_cases (h : vfsReadPipe t x n = some (rc, got, t')) :
    (t' = t ∧ got = []) ∨
      ∃ i, (t.fds x).pipe = some i ∧
        t' = withChannel t i (ipcRead (t.pipes i).pipe.channel n).2.2 ∧
        got = (ipcRead (t.pipes i).pipe.channel n).2.1 := by
  unfold vfsReadPipe at h
  split at h
  · cases hp : (t.fds x).pipe with
    | none =>
      rw [hp] at h
      cases h
      simp
    | some i =>
      simp only [hp, pipeRead] at h
      by_cases hr : (t.pipes i).pipe.readOpen = true
      · simp only [hr, Bool.not_true, Bool.false_eq_true, if_false] at h
        cases h
        exact .inr ⟨i, rfl, by simp [withChannel, hr], rfl⟩
      simp only [hr, Bool.not_false, if_true] at h
      cases h
      exact .inl ⟨setSlot_self t i, rfl⟩
  · cases h

theorem vfsRead_cases (h : vfsRead t pid fd n = some (rc, got, t')) :
    (t' = t ∧ got = []) ∨
      ∃ i, slotOf t pid fd = some i ∧
        t' = withChannel t i (ipcRead (t.pipes i).pipe.channel n).2.2 ∧
        got = (ipcRead (t.pipes i).pipe.channel n).2.1 := by
  have hfail (e : Int) (h : some (e, ([] : List UInt8), t) = some (rc, got, t')) :
      t' = t ∧ got = [] := by
    cases h
    exact ⟨rfl, rfl⟩
  unfold vfsRead at h
  cases hx : entry pid fd with
  | none => exact .inl (hfail (-1) (by simpa [hx] using h))
  | some x =>
  rw [hx] at h
  by_cases hu : (t.fds x).used = true
  · simp only [hu, Bool.not_true, Bool.false_eq_true, if_false] at h
    cases hr : vfsReadPipe t x n with
    | none =>
      rw [hr] at h
      split_ifs at h
      exact .inl (hfail (-2) h)
    | some r =>
      rw [hr] at h
      cases h
      obtain hfailed | ⟨i, hi, hring⟩ := vfsReadPipe_cases hr
      · exact .inl hfailed
      · exact .inr ⟨i, by simp [slotOf, hx, hi], hring⟩
  · exact .inl (hfail (-1) (by simpa [hu] using h))

/-- What an iteration of `SYS_WRITE` appends, whatever its outcome. -/
theorem writeIter_tables {c : WriteCall} (h : writeIter t c copyOk interrupted = some (o, m, t')) :
    (t' = t ∧ m = 0) ∨
      ∃ i, slotOf t c.pid c.fd = some i ∧
        t' = withChannel t i (ipcWrite (t.pipes i).pipe.channel c.chunk).2.2 ∧
        m = (ipcWrite (t.pipes i).pipe.channel c.chunk).2.1 := by
  unfold writeIter at h
  split_ifs at h with hdone hcopy
  · cases h
    exact .inl ⟨rfl, rfl⟩
  · cases h
    exact .inl ⟨rfl, rfl⟩
  obtain ⟨⟨wrc, wrote, t₁⟩, hw, h⟩ := map_eq_some_iff.1 h
  cases h
  obtain ⟨ht, hm, -⟩ | ⟨i, hi, ht, -, hm⟩ := vfsWrite_cases hw
  · exact .inl ⟨ht, hm⟩
  · exact .inr ⟨i, hi, ht, hm⟩

theorem chunk_length (c : WriteCall) : c.chunk.length = min ioChunk (c.buf.length - c.done) := by
  simp [WriteCall.chunk]

/-- With no room or enough room, an iteration of `SYS_WRITE` appends nothing or counts
all it appends. -/
theorem writeIter_outcome {c : WriteCall} (hle : c.done ≤ c.buf.length)
    (hroom : ∀ i, slotOf t c.pid c.fd = some i → ipcCapacity - (t.pipes i).pipe.channel.count = 0 ∨ c.chunk.length ≤ ipcCapacity - (t.pipes i).pipe.channel.count)
    (h : writeIter t c copyOk interrupted = some (o, m, t')) :
    (o = .again (c.done + m) ∧ m ≤ c.chunk.length) ∨
      (m = 0 ∧ ∃ e < 0, o = .ret (doneOr c.done e)) ∨
      (m = 0 ∧ c.done = c.buf.length ∧ o = .ret c.done) := by
  unfold writeIter at h
  split_ifs at h with hdone hcopy
  · cases h
    exact .inr (.inr ⟨rfl, by omega, rfl⟩)
  · cases h
    exact .inr (.inl ⟨rfl, _, by decide, rfl⟩)
  have hpos : 0 < c.chunk.length := by
    rw [chunk_length]
    unfold ioChunk
    omega
  obtain ⟨⟨wrc, wrote, t₁⟩, hw, h⟩ := map_eq_some_iff.1 h
  have hpart : (wrc ≠ 0 ∧ wrote = 0) ∨ (wrc = 0 ∧ wrote = c.chunk.length) := by
    obtain ⟨-, hm, hrc, -⟩ | ⟨i, hi, -, hrc, hm⟩ := vfsWrite_cases hw
    · exact .inl ⟨hrc, hm⟩
    unfold ipcWrite at hrc hm
    by_cases hclosed : (t.pipes i).pipe.channel.closed = true
    · simp only [hclosed, if_true] at hrc hm
      exact .inl ⟨by rw [hrc]; decide, hm⟩
    simp only [hclosed, Bool.false_eq_true, if_false] at hrc hm
    obtain hfull | hfits := hroom i hi
    · rw [hfull, Nat.min_zero] at hrc hm
      rw [if_neg (by omega)] at hrc
      exact .inl ⟨by rw [hrc]; decide, hm⟩
    · rw [Nat.min_eq_left hfits] at hrc hm
      exact .inr ⟨by simpa using hrc, hm⟩
  cases h
  unfold writeOutcome
  obtain ⟨hrc, rfl⟩ | ⟨rfl, rfl⟩ := hpart
  · split_ifs
    · exact .inr (.inl ⟨rfl, _, by decide, rfl⟩)
    · exact .inl ⟨rfl, by omega⟩
    · exact .inr (.inl ⟨rfl, _, by decide, rfl⟩)
    · exact .inr (.inl ⟨rfl, _, by decide, rfl⟩)
  · rw [if_neg (by omega), if_neg (by omega), if_neg (by simp), if_neg (lt_irrefl _)]
    exact .inl ⟨rfl, le_refl _⟩

theorem readIter_tables {c : ReadCall} (h : readIter t c copyOk interrupted = some (o, got, t')) :
    (t' = t ∧ got = []) ∨
      ∃ i n, slotOf t c.pid c.fd = some i ∧
        t' = withChannel t i (ipcRead (t.pipes i).pipe.channel n).2.2 ∧
        got = (ipcRead (t.pipes i).pipe.channel n).2.1 := by
  unfold readIter at h
  split_ifs at h with hdone
  · cases h
    exact .inl ⟨rfl, rfl⟩
  obtain ⟨⟨rc, bytes, t₁⟩, hr, h⟩ := map_eq_some_iff.1 h
  cases h
  obtain hfailed | ⟨i, hi, hring⟩ := vfsRead_cases hr
  · exact .inl hfailed
  · exact .inr ⟨i, _, hi, hring⟩

/-! ## Runs -/

/-- A negative result means that nothing was appended; any other is the number of bytes
appended, which are the first ones of the buffer. -/
structure ReturnOk (r : WriteReturn) : Prop where
  counted : 0 ≤ r.result → r.result = r.sent.length
  failed : r.result < 0 → r.sent = []
  of_buffer : r.sent = r.buf.take r.sent.length

/-- The rings, the calls under way and the results agree with what was appended. -/
structure IoOk (s : Io) : Prop where
  rings : ∀ i, (s.tables.pipes i).used = true →
    RingOk (s.tables.pipes i).pipe.channel (s.received i) (s.appended i)
  sent : ∀ task c, s.writers task = some c → c.sent = c.buf.take c.done
  done_le : ∀ task c, s.writers task = some c → c.done ≤ c.buf.length
  returns : ∀ r ∈ s.writeReturns, ReturnOk r

variable {s s' : Io}

theorem IoOk.boot (t : Tables) : IoOk (bootIo t) where
  rings i hu := by simp [bootIo, vfsInit] at hu
  sent := by simp [bootIo]
  done_le := by simp [bootIo]
  returns := by simp [bootIo]

theorem rings_withChannel {c : Channel} {received' appended' : Fin pipeMax → List UInt8}
    (h : IoOk s)
    (hslot : RingOk (s.tables.pipes i).pipe.channel (s.received i) (s.appended i) →
      RingOk c (received' i) (appended' i))
    (hr : ∀ j, j ≠ i → received' j = s.received j) (ha : ∀ j, j ≠ i → appended' j = s.appended j)
    (j : Fin pipeMax) (hu : ((withChannel s.tables i c).pipes j).used = true) :
    RingOk ((withChannel s.tables i c).pipes j).pipe.channel (received' j) (appended' j) := by
  by_cases hj : j = i
  · subst hj
    simp only [withChannel, setSlot, update_self] at hu ⊢
    exact hslot (h.rings j hu)
  simp only [withChannel, setSlot, update_of_ne hj] at hu ⊢
  rw [hr j hj, ha j hj]
  exact h.rings j hu

section

variable (log : Fin pipeMax → List UInt8)

theorem logBytes_nil (slot : Option (Fin pipeMax)) : logBytes log slot [] = log := by
  funext i
  simp [logBytes]

theorem logBytes_self (i : Fin pipeMax) (bytes : List UInt8) :
    logBytes log (some i) bytes i = log i ++ bytes := by
  simp [logBytes]

theorem logBytes_of_ne {j : Fin pipeMax} (hj : j ≠ i) (bytes : List UInt8) :
    logBytes log (some i) bytes j = log j := by
  simp [logBytes, Ne.symm hj]

end

theorem IoOk.rings_write (h : IoOk s) {c : WriteCall}
    (hw : writeIter s.tables c copyOk interrupted = some (o, m, t')) (i : Fin pipeMax)
    (hu : (t'.pipes i).used = true) :
    RingOk (t'.pipes i).pipe.channel (s.received i)
      (logBytes s.appended (slotOf s.tables c.pid c.fd) (c.chunk.take m) i) := by
  obtain ⟨rfl, rfl⟩ | ⟨j, hj, rfl, rfl⟩ := writeIter_tables hw
  · rw [take_zero, logBytes_nil]
    exact h.rings i hu
  rw [hj]
  refine rings_withChannel h (fun hring => ?_) (fun _ _ => rfl)
    (fun k hk => logBytes_of_ne _ hk _) i hu
  rw [logBytes_self]
  exact hring.write c.chunk

/-- The rings after an iteration of `SYS_READ` whose bytes reach the reader. -/
theorem IoOk.rings_read (h : IoOk s) {c : ReadCall}
    (hr : readIter s.tables c copyOk interrupted = some (o, got, t')) (i : Fin pipeMax)
    (hu : (t'.pipes i).used = true) :
    RingOk (t'.pipes i).pipe.channel
      (logBytes s.received (slotOf s.tables c.pid c.fd) got i) (s.appended i) := by
  obtain ⟨rfl, rfl⟩ | ⟨j, n, hj, rfl, rfl⟩ := readIter_tables hr
  · rw [logBytes_nil]
    exact h.rings i hu
  rw [hj]
  refine rings_withChannel h (fun hring => ?_) (fun k hk => logBytes_of_ne _ hk _)
    (fun _ _ => rfl) i hu
  rw [logBytes_self]
  exact hring.read n

theorem IoOk.call (h : IoOk s) (call : Call) (hread : ∀ x n, call ≠ .read x n)
    (hwrite : ∀ x buf, call ≠ .write x buf) :
    IoOk { s with
      tables := call.apply s.tables
      appended := renew s.tables (call.apply s.tables) s.appended
      received := renew s.tables (call.apply s.tables) s.received } := by
  refine ⟨fun i hu => ?_, h.sent, h.done_le, h.returns⟩
  dsimp only at hu ⊢
  obtain hfade | ⟨hunused, hhead, htail, hcount⟩ := apply_slots s.tables call hread hwrite i
  · obtain ⟨hused, hsame⟩ := hfade hu
    simp only [renew, hused, Bool.not_true, Bool.false_and, Bool.false_eq_true, if_false]
    exact (h.rings i hused).congr hsame
  simp only [renew, hunused, hu, Bool.not_false, Bool.and_self, if_true]
  exact ⟨by rw [hhead]; decide, by rw [hcount]; decide, by rw [htail, hhead, hcount]; rfl,
    by rw [hcount]; rfl⟩

theorem ReturnOk.refused (buf : List UInt8) : ReturnOk ⟨buf, eInval, []⟩ :=
  ⟨fun h => by simp [eInval] at h, fun _ => rfl, by simp⟩

theorem IoOk.addReturn (h : IoOk s) {r : WriteReturn} (hr : ReturnOk r) :
    ∀ r' ∈ s.writeReturns ++ [r], ReturnOk r' := by
  intro r' hr'
  obtain hr' | hr' := mem_append.1 hr'
  · exact h.returns r' hr'
  · obtain rfl := mem_singleton.1 hr'
    exact hr

theorem IoOk.sysWrite (h : IoOk s) (hs : sysWrite s task pid fd buf = some s') : IoOk s' := by
  unfold Syscall.sysWrite at hs
  split_ifs at hs
  · cases hs
    exact ⟨h.rings, h.sent, h.done_le, h.addReturn (.refused buf)⟩
  · cases hs
    exact ⟨h.rings, h.sent, h.done_le, h.addReturn (.refused buf)⟩
  cases hs
  refine ⟨h.rings, fun task' c hc => ?_, fun task' c hc => ?_, h.returns⟩ <;>
  · by_cases ht : task' = task
    · subst ht
      simp only [update_self] at hc
      cases hc
      simp
    simp only [update_of_ne ht] at hc
    first
      | exact h.sent task' c hc
      | exact h.done_le task' c hc

theorem IoOk.sysRead (h : IoOk s) {len : Nat} (hs : sysRead s task pid fd len = some s') :
    IoOk s' := by
  unfold Syscall.sysRead at hs
  split_ifs at hs <;> cases hs <;>
    exact ⟨h.rings, h.sent, h.done_le, h.returns⟩

theorem sent_chunk {c : WriteCall} (hsent : c.sent = c.buf.take c.done) (hm : m ≤ c.chunk.length) :
    c.sent ++ c.chunk.take m = c.buf.take (c.done + m) := by
  have hchunk : m ≤ ioChunk := by
    rw [chunk_length] at hm
    omega
  rw [hsent, WriteCall.chunk, take_take, Nat.min_eq_left hchunk, ← take_add]

theorem ReturnOk.done {c : WriteCall} {result : Int} (hsent : c.sent = c.buf.take c.done)
    (hle : c.done ≤ c.buf.length)
    (hres : (∃ e < 0, result = doneOr c.done e) ∨ result = c.done) :
    ReturnOk ⟨c.buf, result, c.sent⟩ := by
  have hlen : c.sent.length = c.done := by
    rw [hsent, length_take]
    omega
  have hcases : result = c.done ∨ (result < 0 ∧ c.done = 0) := by
    obtain ⟨e, he, rfl⟩ | rfl := hres
    · unfold doneOr
      split_ifs with hdone
      · exact .inl rfl
      · exact .inr ⟨he, by omega⟩
    · exact .inl rfl
  refine ⟨fun hnn => ?_, fun hneg => ?_, ?_⟩
  · dsimp only at hnn ⊢
    omega
  · refine eq_nil_of_length_eq_zero ?_
    dsimp only at hneg ⊢
    omega
  · dsimp only
    rw [hlen, hsent]

theorem IoOk.afterWrite (h : IoOk s) {c : WriteCall} {r : Outcome × Nat × Tables}
    (hc : s.writers task = some c)
    (hroom : ∀ i, slotOf s.tables c.pid c.fd = some i → ipcCapacity - (s.tables.pipes i).pipe.channel.count = 0 ∨ c.chunk.length ≤ ipcCapacity - (s.tables.pipes i).pipe.channel.count)
    (hr : writeIter s.tables c copyOk interrupted = some r) : IoOk (s.afterWrite task c r) := by
  obtain ⟨o, m, t'⟩ := r
  have hsent := h.sent task c hc
  have hle := h.done_le task c hc
  have hrings := h.rings_write hr
  obtain ⟨rfl, hm⟩ | hret := writeIter_outcome hle hroom hr
  · have hbound : c.done + m ≤ c.buf.length := by
      rw [chunk_length] at hm
      omega
    refine ⟨hrings, fun task' c' hc' => ?_, fun task' c' hc' => ?_, h.returns⟩ <;>
    · simp only [Io.afterWrite] at hc'
      by_cases ht : task' = task
      · subst ht
        simp only [update_self] at hc'
        cases hc'
        first
          | exact sent_chunk hsent hm
          | exact hbound
      rw [update_of_ne ht] at hc'
      first
        | exact h.sent task' c' hc'
        | exact h.done_le task' c' hc'
  obtain ⟨result, rfl, rfl, hres⟩ : ∃ result, m = 0 ∧ o = .ret result ∧
      ((∃ e < 0, result = doneOr c.done e) ∨ result = c.done) := by
    obtain ⟨hm, e, he, ho⟩ | ⟨hm, -, ho⟩ := hret
    · exact ⟨_, hm, ho, .inl ⟨e, he, rfl⟩⟩
    · exact ⟨_, hm, ho, .inr rfl⟩
  have hother task' c' (hc' : update s.writers task none task' = some c') :
      s.writers task' = some c' := by
    by_cases ht : task' = task
    · subst ht
      simp at hc'
    · rwa [update_of_ne ht] at hc'
  refine ⟨hrings, fun task' c' hc' => h.sent task' c' (hother task' c' hc'),
    fun task' c' hc' => h.done_le task' c' (hother task' c' hc'), h.addReturn ?_⟩
  simpa using ReturnOk.done hsent hle hres

theorem IoOk.afterRead (h : IoOk s) {c : ReadCall} {r : Outcome × List UInt8 × Tables}
    (hr : readIter s.tables c true interrupted = some r) : IoOk (s.afterRead task c true r) := by
  obtain ⟨o, got, t'⟩ := r
  have hrings := h.rings_read hr
  cases o with
  | again done => exact ⟨hrings, h.sent, h.done_le, h.returns⟩
  | ret result => exact ⟨hrings, h.sent, h.done_le, h.returns⟩

theorem ioStep_ok (s : Io) (a : IoAct) (s' : Io) (h : IoOk s) (hroom : roomOrFull s a = true)
    (hs : ioStep s a = some s') : IoOk s' := by
  cases a with
  | call c =>
    cases c with
    | read | write => simp [ioStep] at hs
    | _ =>
      cases hs
      exact h.call _ (by simp) (by simp)
  | sysWrite task pid fd buf =>
    rw [ioStep] at hs
    split_ifs at hs
    exact h.sysWrite hs
  | sysRead task pid fd len =>
    rw [ioStep] at hs
    split_ifs at hs
    exact h.sysRead hs
  | writeIter task copyOk interrupted =>
    obtain ⟨c, hc, hs⟩ := bind_eq_some_iff.1 hs
    obtain ⟨r, hr, rfl⟩ := map_eq_some_iff.1 hs
    refine h.afterWrite hc (fun i hi => ?_) hr
    simpa [roomOrFull, hc, hi] using hroom
  | readIter task copyOk interrupted =>
    obtain ⟨c, hc, hs⟩ := bind_eq_some_iff.1 hs
    obtain ⟨r, hr, rfl⟩ := map_eq_some_iff.1 hs
    obtain rfl : copyOk = true := hroom
    exact h.afterRead hr

/-- In every run in which no chunk meets a pipe with room for a part of it only, and in
which the buffers of readers can be written, each `SYS_WRITE` returns the number of bytes
it appended, and what readers received and what the ring holds is what was appended, in
order. -/
theorem sysWrite_counts_appended (t₀ : Tables) (acts : List IoAct) (s : Io)
    (hrun : GuardedRun.runIf ioStep roomOrFull acts (bootIo t₀) = some s) :
    (∀ r ∈ s.writeReturns,
      (0 ≤ r.result → r.result = r.sent.length) ∧ (r.result < 0 → r.sent = []) ∧
        r.sent = r.buf.take r.sent.length) ∧
    ∀ i, (s.tables.pipes i).used = true → s.received i ++ ring s.tables i = s.appended i := by
  have h : IoOk s := GuardedRun.runIf_invariant ioStep_ok (IoOk.boot t₀) hrun
  refine ⟨fun r hr => ?_, fun i hu => (h.rings i hu).bytes⟩
  obtain ⟨hcounted, hfailed, hbuffer⟩ := h.returns r hr
  exact ⟨hcounted, hfailed, hbuffer⟩

def zeroTables : Tables where
  fds _ := ⟨false, .none, false, false, false, 0, 0, none, false⟩
  pipes _ := ⟨⟨⟨fun _ => 0, 0, 0, 0, false⟩, false, false, 0, 0⟩, false, 0⟩

def shortTransfer : List IoAct :=
  [.call (.pipe 1), .sysWrite 0 1 4 [7, 8, 9], .writeIter 0 true false, .writeIter 0 true false,
    .sysRead 1 1 3 2, .readIter 1 true false, .readIter 1 true false]

theorem sysWrite_counts_appended_shortTransfer :
    ∃ s, GuardedRun.runIf ioStep roomOrFull shortTransfer (bootIo zeroTables) = some s ∧
      (s.writeReturns.map fun r => r.result) = [3] ∧ s.received 0 = [7, 8] ∧
      s.received 0 ++ ring s.tables 0 = s.appended 0 := by
  have hrun : (GuardedRun.runIf ioStep roomOrFull shortTransfer (bootIo zeroTables)).any (fun s =>
      (s.writeReturns.map fun r => r.result) = [3] && s.received 0 = [7, 8] &&
        (s.tables.pipes 0).used) = true := by
    decide +kernel
  obtain ⟨s, hs, hprops⟩ := (any_eq_true _ _).1 hrun
  simp only [Bool.and_eq_true, decide_eq_true_eq] at hprops
  exact ⟨s, hs, hprops.1.1, hprops.1.2,
    (sysWrite_counts_appended zeroTables shortTransfer s hs).2 0 hprops.2⟩

def overfullWrite : List IoAct :=
  [.call (.pipe 1), .sysWrite 0 1 4 (replicate 4095 0)] ++
    replicate 17 (.writeIter 0 true false) ++
    [.sysWrite 0 1 4 [1, 2], .writeIter 0 true false]

/-- The second write appends one byte and returns an error. -/
theorem sysWrite_uncounted :
    ∃ s, GuardedRun.runIf ioStep (fun _ _ => true) overfullWrite (bootIo zeroTables) = some s ∧
      ∃ r ∈ s.writeReturns, r.result < 0 ∧ r.sent ≠ [] := by
  have hrun : (GuardedRun.runIf ioStep (fun _ _ => true) overfullWrite (bootIo zeroTables)).any
      (fun s => s.writeReturns.any fun r => decide (r.result < 0) && decide (r.sent ≠ [])) =
        true := by
    decide +kernel
  obtain ⟨s, hs, hprops⟩ := (any_eq_true _ _).1 hrun
  obtain ⟨r, hr, hret⟩ := any_eq_true.1 hprops
  simp only [Bool.and_eq_true, decide_eq_true_eq] at hret
  exact ⟨s, hs, r, hr, hret⟩

end RixuriOS.Syscall
