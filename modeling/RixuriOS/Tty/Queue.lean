import RixuriOS.Lib.GuardedRun
import RixuriOS.Tty.Line

/-!
# The input ring and its line counter

`RingOk` relates the three indices of an input ring and its line counter to the bytes in
it. Three uses of a terminal break the relation. A newline that arrives or is read in
raw mode is not counted. And both `tty_discard_current_line` and the backspace of a
pseudo terminal take back `line_chars` bytes from the ring, whether the unfinished line
is there or not: a console holds it in its edit buffer, and a read in raw mode may have
taken it out. In runs without these uses the relation holds in every state.
-/

namespace RixuriOS.Tty

open RingBuffer GuardedRun List

variable {n : Nat} {ch : UInt8} {p : Pty} {s : Terminals}

/-- The ring is in order, and the counter counts the newlines in it. -/
structure RingOk (t : Term) : Prop where
  head : t.head < ttyInput
  count : t.count ≤ ttyInput
  tail : t.tail = (t.head + t.count) % ttyInput
  ready : t.canonicalReady = t.queue.count newline

def isEol (ch : UInt8) : Prop := ch = newline ∨ ch = carriageReturn

/-- Next to the ring, the buffers that a console fills it from. -/
structure ConsoleOk (t : Term) : Prop extends RingOk t where
  noReturn : carriageReturn ∉ t.queue
  edit : ∀ i, ¬isEol (t.editLine i)
  saved : ∀ r i, ¬isEol (t.history r i)

/-- The unfinished line is at the end of the ring. -/
def lineQueued (t : Term) : Bool :=
  decide (t.lineChars ≤ t.count ∧ newline ∉ t.queue.drop (t.count - t.lineChars))

def inputAllowed (t : Term) (ch : UInt8) : Bool :=
  if t.canonical && t.isig && isSignal ch then lineQueued t
  else t.canonical || (ch ≠ newline && ch ≠ carriageReturn)

/-- A read takes complete lines out of the ring in canonical mode only. -/
def readAllowed (t : Term) : Bool := t.canonical || t.canonicalReady = 0

def byteAllowed (t : Term) (ch : UInt8) : Bool :=
  if t.canonical && (t.isig && isSignal ch || (ch = backspace || ch = delete)) then lineQueued t
  else t.canonical || ch ≠ newline

def writeAllowed (hook : SignalHook) : List UInt8 → Pty → Bool
  | [], _ => true
  | ch :: rest, p => byteAllowed p.slave ch &&
      match masterByte hook p ch with
      | (.next, p) => writeAllowed hook rest p
      | _ => true

/-- The calls that keep the ring and its counter together. -/
def allowed (s : Terminals) : Act → Bool
  | .input id ch _ _ => inputAllowed (s.ttys id) ch
  | .read id _ => readAllowed (s.ttys id)
  | .masterWrite id src hook => writeAllowed hook src (s.ptys id)
  | .slaveRead id _ => readAllowed (s.ptys id).slave
  | _ => true

/-! ## The operations on the ring -/

theorem inc_of_lt (h : n < ttyInput) : inc n = n + 1 :=
  Nat.mod_eq_of_lt (by simp only [ttyInput] at h; omega)

theorem dec_of_pos (h0 : n ≠ 0) (h : n ≤ ttyInput) : dec n = n - 1 := by
  rw [ttyInput] at h
  rw [dec]
  omega

theorem queue_length (t : Term) : t.queue.length = t.count := contents_length _ _ _

variable {t t' : Term}

/-- What `RingOk` is about. -/
def Term.ring (t : Term) : (Fin ttyInput → UInt8) × Nat × Nat × Nat × Nat :=
  (t.input, t.head, t.tail, t.count, t.canonicalReady)

theorem queue_congr (hring : t'.ring = t.ring) : t'.queue = t.queue := by
  simp only [Term.ring, Prod.mk.injEq] at hring
  rw [Term.queue, Term.queue, hring.1, hring.2.1, hring.2.2.2.1]

theorem RingOk.congr (h : RingOk t) (hring : t'.ring = t.ring) : RingOk t' := by
  have hq := queue_congr hring
  simp only [Term.ring, Prod.mk.injEq] at hring
  obtain ⟨-, hhead, htail, hcount, hready⟩ := hring
  exact ⟨hhead ▸ h.head, hcount ▸ h.count, by rw [htail, hhead, hcount, h.tail],
    by rw [hready, hq, h.ready]⟩

section

variable (h : RingOk t)

include h

theorem RingOk.ready_le : t.canonicalReady ≤ t.count := by
  rw [h.ready, ← queue_length]
  exact count_le_length

theorem RingOk.queue_put (hc : t.count < ttyInput) (ch : UInt8) :
    (t.put ch).queue = t.queue ++ [ch] := by
  have hcell : Fin.ofNat ttyInput t.tail = Fin.ofNat ttyInput (t.head + t.count) := by
    ext
    simp [h.tail]
  rw [Term.queue, Term.put]
  rw [inc_of_lt hc, hcell]
  exact contents_update t.input ch hc

theorem RingOk.put (hc : t.count < ttyInput) {ready : Nat}
    (hready : ready = if ch = newline then t.canonicalReady + 1 else t.canonicalReady) (n : Nat) :
    RingOk { t.put ch with canonicalReady := ready, lineChars := n } := by
  have hcount : (t.put ch).count = t.count + 1 := inc_of_lt hc
  refine ⟨h.head, by dsimp only; omega, ?_, ?_⟩
  · show (t.tail + 1) % ttyInput = (t.head + (t.put ch).count) % ttyInput
    rw [hcount, h.tail, Nat.mod_add_mod, Nat.add_assoc]
  show ready = (t.put ch).queue.count newline
  rw [hready, h.queue_put hc, count_append, h.ready]
  split_ifs with hch
  · simp [hch]
  · simp [hch]

theorem RingOk.queue_cons (hc : t.count ≠ 0) :
    t.queue = t.input (Fin.ofNat ttyInput t.head) ::
      contents t.input ((t.head + 1) % ttyInput) (dec t.count) := by
  have hsucc : t.count = dec t.count + 1 := by
    rw [dec_of_pos hc h.count]
    omega
  have hcons := contents_succ t.input t.head (dec t.count)
  rw [← hsucc] at hcons
  exact hcons

theorem RingOk.get (hc : t.count ≠ 0) {ready : Nat}
    (hready : ready = if t.input (Fin.ofNat ttyInput t.head) = newline then t.canonicalReady - 1
      else t.canonicalReady) :
    RingOk { t with
      head := (t.head + 1) % ttyInput, count := dec t.count, canonicalReady := ready } := by
  have hle := h.count
  have hdec : dec t.count = t.count - 1 := dec_of_pos hc hle
  refine ⟨Nat.mod_lt _ (by decide), by dsimp only; omega, ?_, ?_⟩
  · have hsum : t.head + t.count = t.head + 1 + (t.count - 1) := by omega
    dsimp only
    rw [h.tail, hdec, Nat.mod_add_mod, hsum]
  rw [h.ready, h.queue_cons hc] at hready
  generalize t.input (Fin.ofNat ttyInput t.head) = raw at hready
  refine hready.trans ?_
  split_ifs with hnl
  · rw [hnl, count_cons_self]
    exact Nat.add_sub_cancel _ _
  · exact count_cons_of_ne hnl

theorem RingOk.retract (hn : n ≤ t.count) (hline : newline ∉ t.queue.drop (t.count - n))
    (chars : Nat) {t' : Term} (ht : t' = { t with
      tail := (t.head + (t.count - n)) % ttyInput, count := t.count - n, lineChars := chars }) :
    RingOk t' ∧ ∃ l, t.queue = t'.queue ++ l := by
  subst ht
  have hle := h.count
  have hq : t.queue =
      contents t.input t.head (t.count - n) ++ contents t.input (t.head + (t.count - n)) n := by
    rw [Term.queue, ← contents_add]
    congr 1
    omega
  refine ⟨⟨h.head, by dsimp only; omega, rfl, ?_⟩, _, hq⟩
  rw [hq, drop_left' (contents_length _ _ _)] at hline
  rw [h.ready, hq, count_append, count_eq_zero.2 hline, Nat.add_zero]
  rfl

end

theorem discardLoop_eq (htail : t.tail < ttyInput) (hl : t.lineChars = n) :
    discardLoop n t =
      { t with
        tail := (t.tail + (ttyInput - 1) * n) % ttyInput, count := t.count - n, lineChars := 0 } := by
  induction n generalizing t with
  | zero => rw [discardLoop, Nat.sub_zero, Nat.mul_zero, Nat.add_zero, Nat.mod_eq_of_lt htail, ← hl]
  | succ n ih =>
    have hcount : (if t.count = 0 then 0 else t.count - 1) - n = t.count - (n + 1) := by
      split_ifs <;> omega
    have htail' : ((t.tail + ttyInput - 1) % ttyInput + (ttyInput - 1) * n) % ttyInput =
        (t.tail + (ttyInput - 1) * (n + 1)) % ttyInput := by
      rw [ttyInput]
      omega
    rw [discardLoop, ih (Nat.mod_lt _ (by decide)) rfl]
    simp only [hcount, htail']

theorem RingOk.discard_eq (h : RingOk t) (hn : t.lineChars ≤ t.count) :
    discardCurrentLine t =
      { t with
        tail := (t.head + (t.count - t.lineChars)) % ttyInput, count := t.count - t.lineChars
        lineChars := 0 } := by
  have htail : t.tail < ttyInput := h.tail ▸ Nat.mod_lt _ (by decide)
  have hend := h.tail
  rw [discardCurrentLine, discardLoop_eq htail rfl]
  congr 1
  rw [ttyInput] at hend ⊢
  omega

theorem of_lineQueued (h : lineQueued t = true) :
    t.lineChars ≤ t.count ∧ newline ∉ t.queue.drop (t.count - t.lineChars) :=
  of_decide_eq_true h

theorem RingOk.discard (h : RingOk t) (hl : lineQueued t = true) :
    RingOk (discardCurrentLine t) ∧ ∃ l, t.queue = (discardCurrentLine t).queue ++ l := by
  obtain ⟨hn, hline⟩ := of_lineQueued hl
  rw [h.discard_eq hn]
  exact h.retract hn hline 0 rfl

theorem controlSignal_snd (hook : SignalHook) (t : Term) (ch : UInt8) :
    (controlSignal hook t ch).2 = discardCurrentLine t := by
  cases hook with
  | none => rfl
  | some send =>
    rw [controlSignal]
    split_ifs <;> rfl

theorem RingOk.readLoop {translate : Bool} (h : RingOk t)
    (hmode : t.canonical = true ∨ t.canonicalReady = 0)
    (hret : translate = true → carriageReturn ∉ t.queue) :
    RingOk (readLoop translate n t).2 ∧ ∃ l, t.queue = l ++ (readLoop translate n t).2.queue := by
  induction n generalizing t with
  | zero => exact ⟨h, [], rfl⟩
  | succ n ih =>
    rw [Tty.readLoop]
    split
    · exact ⟨h, [], rfl⟩
    rename_i hc
    have hq := h.queue_cons hc
    generalize hraw : t.input (Fin.ofNat ttyInput t.head) = raw at hq ⊢
    have hch : (if translate = true ∧ raw = carriageReturn then newline else raw) = raw := by
      refine if_neg fun hbad => hret hbad.1 ?_
      rw [hq, hbad.2]
      exact mem_cons_self
    simp only [hch]
    split_ifs with hend
    · -- a complete line was taken
      have hpos : t.canonicalReady ≠ 0 := by
        rw [h.ready, hq, hend.2]
        simp
      refine ⟨h.get hc ?_, [raw], by rw [hq, singleton_append, Term.queue]⟩
      rw [hraw, if_pos hend.2, dec_of_pos hpos (h.ready_le.trans h.count)]
    have hnot : raw ≠ newline := by
      intro hnl
      rcases hmode with hcanon | hzero
      · exact hend ⟨hcanon, hnl⟩
      · rw [h.ready, hq, hnl] at hzero
        simp at hzero
    obtain ⟨hfin, l, hl⟩ := ih (h.get hc (by rw [hraw, if_neg hnot])) hmode fun htr hm =>
      hret htr (hq ▸ mem_cons_of_mem raw hm)
    exact ⟨hfin, raw :: l, hq.trans (congrArg (raw :: ·) hl)⟩

/-! ## Consoles -/

namespace ConsoleOk

theorem congr (h : ConsoleOk t) (hring : t'.ring = t.ring) (hedit : ∀ i, ¬isEol (t'.editLine i))
    (hsaved : ∀ r i, ¬isEol (t'.history r i)) : ConsoleOk t' :=
  ⟨h.toRingOk.congr hring, queue_congr hring ▸ h.noReturn, hedit, hsaved⟩

section

variable (h : ConsoleOk t)

include h

theorem discard (hl : lineQueued t = true) : ConsoleOk (discardCurrentLine t) := by
  obtain ⟨hok, l, hq⟩ := h.toRingOk.discard hl
  have heq := h.toRingOk.discard_eq (of_lineQueued hl).1
  refine ⟨hok, fun hm => h.noReturn ?_, ?_, ?_⟩
  · rw [hq]
    exact mem_append_left l hm
  · rw [heq]
    exact h.edit
  · rw [heq]
    exact h.saved

theorem editLoad (direction : UInt8) : ConsoleOk (editLoad t direction) := by
  rw [Tty.editLoad]
  split
  · exact h
  dsimp only
  generalize (if direction = keyUp then t.historyCursor - 1
    else if t.historyCursor < t.historyCount then t.historyCursor + 1
    else t.historyCursor) = cursor
  split_ifs
  · exact h.congr rfl h.edit h.saved
  refine h.congr rfl (fun i => ?_) h.saved
  dsimp only
  split_ifs
  · exact h.saved cursor i
  · exact h.edit i

theorem editKey (ch : UInt8) : ConsoleOk (editKey t ch) := by
  rw [Tty.editKey]
  split_ifs
  · exact h.editLoad ch
  · exact h.congr rfl h.edit h.saved
  · exact h.congr rfl h.edit h.saved
  · exact h

theorem editErase : ConsoleOk (editErase t) := by
  rw [Tty.editErase]
  split_ifs
  · exact h
  refine h.congr rfl (fun i => ?_) h.saved
  dsimp only
  split_ifs
  · exact h.edit (i + 1)
  · exact h.edit i

theorem editInsert (hch : ¬isEol ch) : ConsoleOk (editInsert t ch) := by
  rw [Tty.editInsert]
  split_ifs
  · exact h
  refine h.congr rfl (fun i => ?_) h.saved
  dsimp only
  split_ifs
  · exact hch
  · exact h.edit (i - 1)
  · exact h.edit i

theorem historySave : ConsoleOk (historySave t) := by
  have hzero : ¬isEol 0 := by simp [isEol, newline, carriageReturn]
  rw [Tty.historySave]
  split_ifs with hlen
  · exact h
  refine h.congr rfl h.edit fun r i => ?_
  -- the rows before the new one is stored
  have hrows : ∀ r i, ¬isEol ((if t.historyCount = historyMax then fun r =>
      if r + 1 < historyMax then t.history (r + 1) else t.history r else t.history) r i) := by
    intro r i
    by_cases hfull : t.historyCount = historyMax
    · rw [if_pos hfull]
      split_ifs
      · exact h.saved (r + 1) i
      · exact h.saved r i
    · rw [if_neg hfull]
      exact h.saved r i
  dsimp only
  generalize (if t.historyCount = historyMax then fun r =>
    if r + 1 < historyMax then t.history (r + 1) else t.history r else t.history) = rows at hrows ⊢
  generalize (if t.historyCount = historyMax then t.historyCount - 1 else t.historyCount) = n
  by_cases hr : r = n
  · subst hr
    rw [Function.update_self]
    split_ifs
    · exact h.edit i
    · exact hzero
    · exact hrows r i
  · rw [Function.update_of_ne hr]
    exact hrows r i

theorem put (hc : t.count < ttyInput) (hch : ¬isEol ch) :
    ConsoleOk { t.put ch with lineChars := n } := by
  have hnl : ch ≠ newline := fun he => hch (.inl he)
  refine ⟨h.toRingOk.put hc (if_neg hnl).symm n, fun hm => ?_, h.edit, h.saved⟩
  have hm : carriageReturn ∈ (t.put ch).queue := hm
  rw [h.queue_put hc, mem_append, mem_singleton] at hm
  exact hm.elim h.noReturn fun he => hch (.inr he.symm)

end

theorem putAll {l : List UInt8} (h : ConsoleOk t) (hfits : t.count + l.length ≤ ttyInput)
    (hl : ∀ ch ∈ l, ¬isEol ch) :
    ConsoleOk (l.foldl Term.put t) ∧ (l.foldl Term.put t).count = t.count + l.length := by
  induction l generalizing t with
  | nil => exact ⟨h, rfl⟩
  | cons ch l ih =>
    rw [length_cons] at hfits
    have hc : t.count < ttyInput := by omega
    have hput : ConsoleOk (t.put ch) := h.put hc (hl ch mem_cons_self) (n := t.lineChars)
    have hcount : (t.put ch).count = t.count + 1 := inc_of_lt hc
    obtain ⟨hok, hlen⟩ := ih hput (by omega) fun c hc => hl c (mem_cons_of_mem _ hc)
    exact ⟨hok, by rw [foldl_cons, hlen, hcount, length_cons]; omega⟩

theorem commitLine (h : ConsoleOk t) (hfits : t.count + t.editLength + 1 ≤ ttyInput) :
    ConsoleOk (commitLine t) := by
  have hbytes : ∀ ch ∈ (range t.editLength).map t.editLine, ¬isEol ch := by
    intro ch hch
    obtain ⟨i, -, rfl⟩ := mem_map.1 hch
    exact h.edit i
  have hlen : ((range t.editLength).map t.editLine).length = t.editLength := by simp
  obtain ⟨hall, hcount⟩ := h.putAll (by rw [hlen]; omega) hbytes
  rw [Tty.commitLine]
  generalize ((range t.editLength).map t.editLine).foldl Term.put t = u at hall hcount
  rw [hlen] at hcount
  have hc : u.count < ttyInput := by omega
  have hready := hall.toRingOk.ready_le
  have hline : ConsoleOk { u.put newline with canonicalReady := inc u.canonicalReady } := by
    refine ⟨hall.toRingOk.put hc ((inc_of_lt (by omega)).trans (if_pos rfl).symm) u.lineChars,
      fun hm => ?_, hall.edit, hall.saved⟩
    have hm : carriageReturn ∈ (u.put newline).queue := hm
    rw [hall.queue_put hc, mem_append, mem_singleton] at hm
    exact hm.elim hall.noReturn (by decide)
  exact hline.historySave.congr rfl hline.historySave.edit hline.historySave.saved

theorem input (h : ConsoleOk t) (hallow : inputAllowed t ch = true) (hook : SignalHook)
    (echoed : Int) : ConsoleOk (consoleInput hook echoed t ch).2 := by
  have hle := h.count
  have hgo : ¬(t.canonical = true ∧ t.isig = true ∧ isSignal ch = true) →
      t.canonical = true ∨ ¬isEol ch := by
    intro hns
    rw [inputAllowed, if_neg (by simpa using hns)] at hallow
    simpa [isEol] using hallow
  simp only [consoleInput, apply_ite Prod.snd, controlSignal_snd]
  split_ifs with hsig hkey hcanon hfull hback heol hbig hins hfull' hend
  · rw [inputAllowed, if_pos (by simpa [and_assoc] using hsig)] at hallow
    exact h.discard hallow
  · exact h.editKey ch
  · exact h
  · exact h.put (by omega) ((hgo hsig).resolve_left hcanon) (n := t.lineChars)
  · exact h.editErase
  · exact h
  · exact h.commitLine (by omega)
  · exact h.editInsert fun he => heol ⟨hins, he⟩
  · exact h
  · exact absurd hend ((hgo hsig).resolve_left hins)
  · exact h.put (by omega) hend

end ConsoleOk

/-- A read changes nothing but the ring. -/
theorem readLoop_eq (translate : Bool) (n : Nat) (t : Term) :
    ∃ head count canonicalReady,
      (readLoop translate n t).2 = { t with head, count, canonicalReady } := by
  induction n generalizing t with
  | zero => exact ⟨_, _, _, rfl⟩
  | succ n ih =>
    rw [readLoop]
    split
    · exact ⟨_, _, _, rfl⟩
    dsimp only
    split_ifs
    all_goals first
      | exact ⟨_, _, _, rfl⟩
      | exact ih _

theorem ConsoleOk.read (h : ConsoleOk t) (hallow : readAllowed t = true) (n : Nat) :
    ConsoleOk (consoleRead t n).2.2 := by
  rw [consoleRead, readBytes]
  split_ifs
  · exact h
  have hmode : t.canonical = true ∨ t.canonicalReady = 0 := by simpa [readAllowed] using hallow
  obtain ⟨hok, l, hq⟩ := h.toRingOk.readLoop (n := n) hmode fun _ => h.noReturn
  obtain ⟨_, _, _, heq⟩ := readLoop_eq true n t
  refine ⟨hok, fun hm => h.noReturn ?_, fun i => ?_, fun r i => ?_⟩
  · rw [hq]
    exact mem_append_right l hm
  · simpa only [heq] using h.edit i
  · simpa only [heq] using h.saved r i

/-! ## Pseudo terminals -/

@[simp] theorem echoByte_slave (p : Pty) (ch : UInt8) : (p.echoByte ch).slave = p.slave := by
  rw [Pty.echoByte]
  split_ifs <;> rfl

theorem RingOk.eraseByte (h : RingOk t) (hl : lineQueued t = true) (hpos : t.lineChars ≠ 0) :
    RingOk { t with
      tail := (t.tail + ttyInput - 1) % ttyInput, count := dec t.count
      lineChars := t.lineChars - 1 } := by
  obtain ⟨hn, hline⟩ := of_lineQueued hl
  have hdec : dec t.count = t.count - 1 := dec_of_pos (by omega) h.count
  have htail : (t.tail + ttyInput - 1) % ttyInput = (t.head + (t.count - 1)) % ttyInput := by
    rw [h.tail]
    rw [ttyInput]
    omega
  have hlast : newline ∉ t.queue.drop (t.count - 1) := fun hm =>
    hline (drop_subset_drop_left _ (by omega) hm)
  rw [htail, hdec]
  exact (h.retract (by omega) hlast _ rfl).1

theorem RingOk.storeByte (h : RingOk t) (hc : t.count < ttyInput)
    (hnl : ch = newline → t.canonical = true) (n : Nat) :
    RingOk { t.put ch with
      canonicalReady := if ch = newline ∧ t.canonical then inc t.canonicalReady else t.canonicalReady
      lineChars := n } := by
  have hready := h.ready_le
  have hcount : (if ch = newline ∧ t.canonical then inc t.canonicalReady else t.canonicalReady) =
      if ch = newline then t.canonicalReady + 1 else t.canonicalReady := by
    by_cases he : ch = newline
    · rw [if_pos ⟨he, hnl he⟩, if_pos he, inc_of_lt (by omega)]
    · rw [if_neg fun hc => he hc.1, if_neg he]
  exact h.put hc hcount n

theorem RingOk.masterByte (h : RingOk p.slave) (hallow : byteAllowed p.slave ch = true)
    (hook : SignalHook) : RingOk (masterByte hook p ch).2.slave := by
  have hle := h.count
  rw [Tty.masterByte]
  by_cases hsig : p.slave.canonical ∧ p.slave.isig ∧ isSignal ch
  · rw [byteAllowed, if_pos (by simp [hsig])] at hallow
    rw [if_pos hsig]
    dsimp only
    rw [controlSignal_snd]
    exact (h.discard hallow).1
  rw [if_neg hsig]
  by_cases hback : p.slave.canonical ∧ (ch = backspace ∨ ch = delete)
  · rw [byteAllowed, if_pos (by simp [hback])] at hallow
    rw [if_pos hback]
    split_ifs with hzero
    · exact h
    · simp only [echoByte_slave]
      exact h.eraseByte hallow hzero
  rw [if_neg hback]
  split
  · exact h
  have hplain : p.slave.canonical = true ∨ ch ≠ newline := by
    rw [byteAllowed, if_neg (by
      simp only [Bool.and_eq_true, Bool.or_eq_true, decide_eq_true_eq]
      rintro ⟨hc, hs | hb⟩
      · exact hsig ⟨hc, hs⟩
      · exact hback ⟨hc, hb⟩)] at hallow
    simpa using hallow
  have hstore := h.storeByte (by omega) (fun he => hplain.resolve_right (not_not.2 he))
    (if ch = newline then 0 else inc p.slave.lineChars)
  rw [apply_ite Pty.slave, echoByte_slave, ite_self]
  exact hstore

theorem RingOk.masterLoop {hook : SignalHook} {src : List UInt8} {done : Nat} (h : RingOk p.slave)
    (hallow : writeAllowed hook src p = true) : RingOk (masterLoop hook src done p).2.2.slave := by
  induction src generalizing done p with
  | nil => exact h
  | cons ch rest ih =>
    rw [writeAllowed, Bool.and_eq_true] at hallow
    obtain ⟨hch, hrest⟩ := hallow
    have hbyte := h.masterByte hch hook
    rw [Tty.masterLoop]
    generalize Tty.masterByte hook p ch = r at hbyte hrest ⊢
    obtain ⟨outcome, p'⟩ := r
    cases outcome with
    | next => exact ih hbyte hrest
    | full => exact hbyte
    | failed code => exact hbyte

theorem RingOk.slaveRead (h : RingOk p.slave) (hallow : readAllowed p.slave = true) (n : Nat) :
    RingOk (slaveRead p n).2.2.slave := by
  have hmode : p.slave.canonical = true ∨ p.slave.canonicalReady = 0 := by
    simpa [readAllowed] using hallow
  simp only [Tty.slaveRead, readBytes, apply_ite Prod.snd, apply_ite Pty.slave]
  split_ifs
  · exact h
  · exact h
  · exact (h.readLoop hmode (by simp)).1

/-! ## All terminals -/

structure AllOk (s : Terminals) : Prop where
  ttys : ∀ id, ConsoleOk (s.ttys id)
  ptys : ∀ id, RingOk (s.ptys id).slave

theorem AllOk.onTty (h : AllOk s) {id : Fin 4} {f : Term → Term} (hf : ConsoleOk (f (s.ttys id))) :
    AllOk (s.onTty id f) :=
  ⟨(Function.forall_update_iff s.ttys fun _ t => ConsoleOk t).2 ⟨hf, fun j _ => h.ttys j⟩, h.ptys⟩

theorem AllOk.onPty (h : AllOk s) {id : Fin 4} {f : Pty → Pty} (hf : RingOk (f (s.ptys id)).slave) :
    AllOk (s.onPty id f) :=
  ⟨h.ttys, (Function.forall_update_iff s.ptys fun _ p => RingOk p.slave).2
    ⟨hf, fun j _ => h.ptys j⟩⟩

theorem ringOk_empty (hhead : t.head = 0) (htail : t.tail = 0) (hcount : t.count = 0)
    (hready : t.canonicalReady = 0) : RingOk t ∧ carriageReturn ∉ t.queue := by
  have hq : t.queue = [] := eq_nil_of_length_eq_zero (by rw [queue_length, hcount])
  refine ⟨⟨by simp [hhead], by simp [hcount], by simp [hhead, htail, hcount], ?_⟩, by simp [hq]⟩
  rw [hready, hq, count_nil]

theorem allOk_init : AllOk ttyInit := by
  have hzero : ¬isEol 0 := by simp [isEol, newline, carriageReturn]
  obtain ⟨hring, hret⟩ := ringOk_empty (t := Term.zero.reset) rfl rfl rfl rfl
  exact ⟨fun _ => ⟨hring, hret, fun _ => hzero, fun _ _ => hzero⟩, fun _ =>
    (ringOk_empty rfl rfl rfl rfl).1⟩

theorem setTermios_congr (t : Term) (lflag : BitVec 32) :
    (setTermios t lflag).2 = t ∨ ∃ c e i u, (setTermios t lflag).2 =
      { t with canonical := c, echo := e, isig := i, utf8 := u } := by
  rw [setTermios]
  split_ifs
  · exact .inl rfl
  · exact .inr ⟨_, _, _, _, rfl⟩

theorem AllOk.step (h : AllOk s) {a : Act} (hallow : allowed s a = true) : AllOk (step s a) := by
  rw [Tty.step.eq_def]
  cases a with
  | input id ch hook echoed =>
    exact h.onTty ((h.ttys id).input hallow hook echoed)
  | read id n =>
    exact h.onTty ((h.ttys id).read hallow n)
  | setCanonical id enabled =>
    have ht := h.ttys id
    exact h.onTty (ht.congr rfl ht.edit ht.saved)
  | setTermios id lflag =>
    have ht := h.ttys id
    refine h.onTty ?_
    rcases setTermios_congr (s.ttys id) lflag with heq | ⟨c, e, i, u, heq⟩
    · rw [heq]
      exact ht
    · rw [heq]
      exact ht.congr rfl ht.edit ht.saved
  | setForeground id pgrp =>
    have ht := h.ttys id
    exact h.onTty (ht.congr rfl ht.edit ht.saved)
  | recover id =>
    obtain ⟨hring, hret⟩ := ringOk_empty (t := recover (s.ttys id)) rfl rfl rfl rfl
    exact h.onTty ⟨hring, hret, (h.ttys id).edit, (h.ttys id).saved⟩
  | ptyOpen id =>
    refine h.onPty ?_
    split_ifs
    · exact h.ptys id
    · exact (ringOk_empty rfl rfl rfl rfl).1
  | ptyClose id =>
    exact h.onPty (h.ptys id)
  | ptySetTermios id lflag =>
    refine h.onPty ?_
    split_ifs
    · rcases setTermios_congr (s.ptys id).slave lflag with heq | ⟨c, e, i, u, heq⟩
      · simpa only [heq] using h.ptys id
      · rw [heq]
        exact (h.ptys id).congr rfl
    · exact h.ptys id
  | masterWrite id src hook =>
    refine h.onPty ?_
    rw [masterWrite]
    split_ifs
    · exact h.ptys id
    · exact (h.ptys id).masterLoop hallow
  | slaveRead id n =>
    exact h.onPty ((h.ptys id).slaveRead hallow n)

/-- In every run in which no newline arrives or is read in raw mode, and in which a line is
taken back only while it is in the ring, the ring of every console and of every
pseudo terminal is in order and its counter counts the lines in it. -/
theorem ring_counts_lines (acts : List Act) (s : Terminals)
    (hrun : runIf (fun s a => some (step s a)) allowed acts ttyInit = some s) :
    (∀ id, (s.ttys id).count ≤ ttyInput ∧
      (s.ttys id).tail = ((s.ttys id).head + (s.ttys id).count) % ttyInput ∧
      (s.ttys id).canonicalReady = (s.ttys id).queue.count newline) ∧
    ∀ id, (s.ptys id).slave.count ≤ ttyInput ∧
      (s.ptys id).slave.tail = ((s.ptys id).slave.head + (s.ptys id).slave.count) % ttyInput ∧
      (s.ptys id).slave.canonicalReady = (s.ptys id).slave.queue.count newline := by
  have hok : AllOk s := by
    refine runIf_invariant (fun s a s' h hallow hstep => ?_) allOk_init hrun
    cases hstep
    exact h.step hallow
  exact ⟨fun id => ⟨(hok.ttys id).count, (hok.ttys id).tail, (hok.ttys id).ready⟩,
    fun id => ⟨(hok.ptys id).count, (hok.ptys id).tail, (hok.ptys id).ready⟩⟩

def twoLines : List Act :=
  [.input 0 97 none 0, .input 0 10 none 0, .ptyOpen 0, .masterWrite 0 [98, 10] none]

theorem ring_counts_lines_two :
    let s := twoLines.foldl step ttyInit
    (s.ttys 0).canonicalReady = 1 ∧ (s.ttys 0).queue.count newline = 1 ∧
      (s.ptys 0).slave.canonicalReady = 1 ∧ (s.ptys 0).slave.queue.count newline = 1 := by
  have h := ring_counts_lines twoLines (twoLines.foldl step ttyInit) rfl
  have ht : ((twoLines.foldl step ttyInit).ttys 0).canonicalReady = 1 := by decide +kernel
  have hp : ((twoLines.foldl step ttyInit).ptys 0).slave.canonicalReady = 1 := by decide +kernel
  exact ⟨ht, (h.1 0).2.2.symm.trans ht, hp, (h.2 0).2.2.symm.trans hp⟩

/-- A pseudo terminal in raw mode gets a byte, which is read; back in canonical mode, a
backspace takes a byte out of the empty ring. -/
def eraseEmpty : List Act :=
  [.ptyOpen 0, .ptySetTermios 0 0, .masterWrite 0 [97] none, .slaveRead 0 1, .ptySetTermios 0 1,
    .masterWrite 0 [8] none]

def interrupted : List Act := [.input 0 97 none 0, .input 0 98 none 0, .input 0 3 none 0]

def rawNewline : List Act := [.setCanonical 0 false, .input 0 10 none 0]

/-- Each of the three relations fails in some run. -/
theorem ring_loses_count :
    let p := (eraseEmpty.foldl step ttyInit).ptys 0
    let t := (interrupted.foldl step ttyInit).ttys 0
    let r := (rawNewline.foldl step ttyInit).ttys 0
    ttyInput < p.slave.count ∧ t.tail ≠ (t.head + t.count) % ttyInput ∧
      r.canonicalReady ≠ r.queue.count newline := by
  decide +kernel

end RixuriOS.Tty
