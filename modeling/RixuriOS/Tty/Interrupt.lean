import RixuriOS.Tty.Queue

/-!
# An interrupt on a console

In canonical mode the unfinished line of a console is in its edit buffer. A signal
character is meant to discard that line. `tty_discard_current_line` moves the end of the
input ring back by `line_chars` bytes instead, where the lines are that have been
completed, and leaves the edit buffer as it is. What a program gets to read is as it
should be for everything that comes later just if there is no unfinished line.
-/

namespace RixuriOS.Tty

open RingBuffer GuardedRun List

/-- A key is pressed on a console, or a program reads or changes the mode. -/
inductive ConsoleEvent
  | key (ch : UInt8) (hook : SignalHook) (echoed : Int)
  | read (n : Nat)
  | setCanonical (enabled : Bool)

/-- What a program reads, and the console after that. -/
def consoleStep (t : Term) : ConsoleEvent → List UInt8 × Term
  | .key ch hook echoed => ([], (consoleInput hook echoed t ch).2)
  | .read n => (consoleRead t n).2
  | .setCanonical enabled => ([], { t with canonical := enabled })

/-- All that is read in the course of the events. -/
def delivered : List ConsoleEvent → Term → List UInt8
  | [], _ => []
  | e :: es, t => (consoleStep t e).1 ++ delivered es (consoleStep t e).2

/-- The console without its unfinished line. -/
def Term.dropLine (t : Term) : Term := { t with editLength := 0, editCursor := 0, lineChars := 0 }

/-- The console stays in canonical mode, and a signal character comes while there is no
unfinished line. -/
def idleInterrupt (t : Term) : ConsoleEvent → Bool
  | .key ch _ _ => !isSignal ch || t.editLength = 0 && t.lineChars = 0
  | .read _ => true
  | .setCanonical enabled => enabled

/-! ## Consoles in canonical mode -/

variable {t : Term} {n : Nat} {ch : UInt8} {hook : SignalHook} {echoed : Int}

structure Editing (t : Term) : Prop where
  canonical : t.canonical = true
  isig : t.isig = true
  chars : t.lineChars < lineMax
  short : t.editLength < lineMax
  cursor : t.editCursor ≤ t.editLength

theorem lineMax_pos : 0 < lineMax := by decide

theorem savedLength_lt (row : Nat → UInt8) : savedLength row < lineMax := by
  have hle := (takeWhile_sublist (l := range (lineMax - 1)) fun i => row i ≠ 0).length_le
  rw [length_range] at hle
  exact Nat.lt_of_le_of_lt hle (by decide)

theorem foldl_put_eq (l : List UInt8) (t : Term) :
    ∃ input tail, l.foldl Term.put t =
      { t with input, tail, count := (inc^[l.length]) t.count } := by
  induction l generalizing t with
  | nil => exact ⟨_, _, rfl⟩
  | cons ch l ih => exact ih (t.put ch)

theorem commitLine_eq (t : Term) : ∃ input tail canonicalReady history historyCount historyCursor,
    commitLine t = { t.dropLine with
      input, tail, count := (inc^[t.editLength + 1]) t.count, canonicalReady
      history, historyCount, historyCursor } := by
  obtain ⟨_, _, heq⟩ := foldl_put_eq ((range t.editLength).map t.editLine) t
  rw [length_map, length_range] at heq
  rw [commitLine, heq, historySave, Function.iterate_succ_apply']
  split_ifs <;> exact ⟨_, _, _, _, _, _, rfl⟩

namespace Editing

variable (h : Editing t)
include h

theorem editKey (ch : UInt8) : Editing (editKey t ch) := by
  have hcursor := h.cursor
  unfold Tty.editKey editLoad
  dsimp only
  split_ifs with _ _ _ _ _ hright
  all_goals first
    | exact h
    | exact ⟨h.canonical, h.isig, h.chars, lineMax_pos, Nat.le_refl 0⟩
    | exact ⟨h.canonical, h.isig, h.chars, savedLength_lt _, Nat.le_refl _⟩
    | exact ⟨h.canonical, h.isig, h.chars, h.short, by dsimp only; omega⟩

theorem editErase : Editing (editErase t) := by
  have hlength := h.short
  have hcursor := h.cursor
  unfold Tty.editErase
  split_ifs
  · exact h
  · refine ⟨h.canonical, h.isig, ?_, ?_, ?_⟩ <;> dsimp only <;> omega

theorem editInsert : Editing (editInsert t ch) := by
  have hcursor := h.cursor
  unfold Tty.editInsert
  split_ifs with hrefused
  · exact h
  · rw [not_or, not_or, Nat.not_le] at hrefused
    exact ⟨h.canonical, h.isig, hrefused.2.2, hrefused.2.2, Nat.succ_le_succ hcursor⟩

theorem step {e : ConsoleEvent} (he : idleInterrupt t e = true) : Editing (consoleStep t e).2 := by
  cases e with
  | setCanonical enabled => exact ⟨he, h.isig, h.chars, h.short, h.cursor⟩
  | read n =>
    rw [consoleStep, consoleRead, readBytes]
    split_ifs
    · exact h
    obtain ⟨_, _, _, heq⟩ := readLoop_eq true n t
    rw [heq]
    exact ⟨h.canonical, h.isig, h.chars, h.short, h.cursor⟩
  | key ch hook echoed =>
    simp only [consoleStep, consoleInput, h.canonical, h.isig, apply_ite Prod.snd,
      controlSignal_snd, true_and, if_true]
    split_ifs with hsig
    · have hidle : t.lineChars = 0 := by
        simp [idleInterrupt, hsig] at he
        exact he.2
      rwa [discardCurrentLine, hidle, discardLoop]
    · exact h.editKey ch
    · exact h.editErase
    · exact h
    · obtain ⟨_, _, _, _, _, _, heq⟩ := commitLine_eq t
      rw [heq]
      exact ⟨h.canonical, h.isig, lineMax_pos, lineMax_pos, Nat.le_refl 0⟩
    · exact h.editInsert

end Editing

theorem ConsoleOk.consoleStep (hok : ConsoleOk t) (h : Editing t) {e : ConsoleEvent}
    (he : idleInterrupt t e = true) : ConsoleOk (consoleStep t e).2 := by
  cases e with
  | setCanonical enabled => exact hok.congr rfl hok.edit hok.saved
  | read n => exact hok.read (by simp [readAllowed, h.canonical]) n
  | key ch hook echoed =>
    refine hok.input ?_ hook echoed
    unfold inputAllowed
    split_ifs with hsig
    · have hidle : t.lineChars = 0 := by
        simp [idleInterrupt, (Bool.and_eq_true_iff.1 hsig).2] at he
        exact he.2
      simp [lineQueued, hidle, ← queue_length]
    · simp [h.canonical]

/-! ## After an interrupt -/

/-- In raw mode a program can read all that is in the ring. -/
theorem readLoop_raw (translate : Bool) (n : Nat) {t : Term} (hraw : t.canonical = false)
    (hcount : t.count ≤ n) (hn : n ≤ ttyInput) : ∃ head canonicalReady,
      (readLoop translate n t).2 = { t with head, count := 0, canonicalReady } ∧
      (readLoop translate n t).1.length = t.count := by
  induction n generalizing t with
  | zero =>
    have hzero := Nat.le_zero.1 hcount
    exact ⟨t.head, t.canonicalReady, by rw [readLoop, ← hzero], by rw [readLoop, hzero, length_nil]⟩
  | succ n ih =>
    rw [readLoop]
    by_cases hzero : t.count = 0
    · rw [if_pos hzero]
      exact ⟨t.head, t.canonicalReady, by rw [← hzero], by rw [hzero, length_nil]⟩
    have hdec : dec t.count = t.count - 1 := dec_of_pos hzero (hcount.trans hn)
    obtain ⟨head, ready, heq, hlen⟩ := ih
      (t := { t with head := (t.head + 1) % ttyInput, count := dec t.count }) hraw
      (by dsimp only; omega) (by omega)
    rw [if_neg hzero]
    simp only [hraw, Bool.false_eq_true, false_and, if_false, length_cons]
    rw [hraw] at heq hlen
    refine ⟨head, ready, heq, ?_⟩
    rw [hlen]
    change dec t.count + 1 = t.count
    omega

def drain : List ConsoleEvent := [.setCanonical false, .read ttyInput]

theorem delivered_drain (es : List ConsoleEvent) (hcount : t.count ≤ ttyInput) :
    ∃ bytes head canonicalReady, bytes.length = t.count ∧ delivered (drain ++ es) t =
      bytes ++ delivered es { t with canonical := false, head, count := 0, canonicalReady } := by
  obtain ⟨head, ready, heq, hlen⟩ :=
    readLoop_raw true ttyInput (t := { t with canonical := false }) rfl hcount le_rfl
  refine ⟨_, head, ready, hlen, ?_⟩
  rw [drain, cons_append, singleton_append, delivered, delivered, ← heq]
  rfl

theorem length_delivered_drain (hcount : t.count ≤ ttyInput) :
    (delivered drain t).length = t.count := by
  obtain ⟨bytes, _, _, hlen, heq⟩ := delivered_drain [] hcount
  rw [append_nil, delivered, append_nil] at heq
  rw [heq, hlen]

theorem iterate_inc {k : Nat} (hk : k ≤ ttyInput) : inc^[k] 0 = k := by
  induction k with
  | zero => rfl
  | succ k ih => rw [Function.iterate_succ_apply', ih (by omega), inc_of_lt hk]

theorem consoleStep_newline (hcanonical : t.canonical = true) (hcount : t.count = 0)
    (hshort : t.editLength < lineMax) :
    consoleStep t (.key newline none 0) = ([], commitLine t) ∧
      (commitLine t).count = t.editLength + 1 := by
  rw [lineMax] at hshort
  have hfits : t.editLength + 1 ≤ ttyInput := by
    rw [ttyInput]
    omega
  obtain ⟨_, _, _, _, _, _, heq⟩ := commitLine_eq t
  constructor
  · simp [consoleStep, consoleInput, hcanonical, hcount, isSignal, newline, keyUp, backspace, delete,
      Nat.not_le_of_lt hfits]
  · rw [heq, hcount]
    exact iterate_inc hfits

/-- With the next newline the line that is edited gets into the ring. -/
theorem length_delivered_newline (hcount : t.count ≤ ttyInput) (hshort : t.editLength < lineMax) :
    (delivered (drain ++ (.setCanonical true :: .key newline none 0 :: drain)) t).length =
      t.count + (t.editLength + 1) := by
  obtain ⟨bytes, head, ready, hlen, heq⟩ :=
    delivered_drain (.setCanonical true :: .key newline none 0 :: drain) hcount
  obtain ⟨hstep, hline⟩ := consoleStep_newline
    (t := { t with canonical := true, head, count := 0, canonicalReady := ready }) rfl rfl hshort
  have hfits := hshort.trans (show lineMax < ttyInput by decide)
  have hafter := congrArg (fun r => r.1 ++ delivered drain r.2) hstep
  rw [heq, length_append, hlen]
  refine congrArg (t.count + ·) ((congrArg length hafter).trans ?_)
  exact (length_delivered_drain (hline.trans_le hfits)).trans hline

/-- The program reads less than what was there. -/
theorem interrupt_loses (hok : RingOk t) (hchars : t.lineChars ≠ 0) (hcount : t.count ≠ 0) :
    delivered drain (discardCurrentLine t) ≠ delivered drain t.dropLine := by
  have hle := hok.count
  have htail : t.tail < ttyInput := hok.tail ▸ Nat.mod_lt _ (by decide)
  intro heq
  have hcut : (discardCurrentLine t).count = t.count - t.lineChars := by
    rw [discardCurrentLine, discardLoop_eq htail rfl]
  have hless := length_delivered_drain (t := discardCurrentLine t) (by omega)
  have hall : _ = t.count := length_delivered_drain (t := t.dropLine) hle
  rw [heq] at hless
  omega

/-- The bytes that are read after the key `x`, when nothing was queued. -/
theorem delivered_key (hcount : t.count = 0) {x : UInt8} (hx : x = 97 ∨ x = 98) :
    delivered [.setCanonical false, .key x none 0, .read 1] t =
      [if (t.put x).input (Fin.ofNat ttyInput t.head) = carriageReturn then newline
        else (t.put x).input (Fin.ofNat ttyInput t.head)] := by
  have hinput : (consoleInput none 0 { t with canonical := false } x).2 =
      { t.put x with canonical := false, lineChars := inc t.lineChars } := by
    obtain rfl | rfl := hx <;>
      simp [consoleInput, hcount, Term.put, keyUp, newline, carriageReturn]
  have hone : (t.put x).count ≠ 0 := by simp [Term.put, hcount, inc]
  have hhead : (t.put x).head = t.head := rfl
  change (consoleRead (consoleInput none 0 { t with canonical := false } x).2 1).2.1 ++ [] = _
  rw [append_nil, hinput, consoleRead, readBytes, if_neg (by simp), readLoop, if_neg hone]
  simp [readLoop, hhead]

/-- With nothing queued, the end of the ring is no longer where the next byte is read from. -/
theorem interrupt_moves (hok : RingOk t) (hchars : t.lineChars ≠ 0) (hlt : t.lineChars < lineMax)
    (hcount : t.count = 0) : ∃ x, delivered [.setCanonical false, .key x none 0, .read 1]
      (discardCurrentLine t) ≠
        delivered [.setCanonical false, .key x none 0, .read 1] t.dropLine := by
  have htail : t.tail < ttyInput := hok.tail ▸ Nat.mod_lt _ (by decide)
  have hdiscard := discardLoop_eq htail rfl
  have hend := hok.tail
  rw [hcount, Nat.add_zero] at hend
  rw [lineMax] at hlt
  obtain ⟨x, hx, hnew⟩ : ∃ x : UInt8, (x = 97 ∨ x = 98) ∧
      t.input (Fin.ofNat ttyInput t.head) ≠ x := by
    by_cases h97 : t.input (Fin.ofNat ttyInput t.head) = 97
    · exact ⟨98, .inr rfl, by rw [h97]; decide⟩
    · exact ⟨97, .inl rfl, h97⟩
  have hright : (t.dropLine.put x).input (Fin.ofNat ttyInput t.dropLine.head) = x := by
    refine (Function.update_apply ..).trans (if_pos (Fin.ext ?_))
    change t.head % ttyInput = t.tail % ttyInput
    rw [hend, Nat.mod_mod]
  have hwrong : ((discardCurrentLine t).put x).input (Fin.ofNat ttyInput t.head) =
      t.input (Fin.ofNat ttyInput t.head) := by
    rw [discardCurrentLine, hdiscard]
    refine (Function.update_apply ..).trans (if_neg fun hsame => ?_)
    have hsame : t.head % ttyInput = (t.tail + (ttyInput - 1) * t.lineChars) % ttyInput % ttyInput :=
      Fin.ext_iff.1 hsame
    rw [ttyInput] at hend hsame
    omega
  refine ⟨x, ?_⟩
  have hhead : (discardCurrentLine t).head = t.head ∧ (discardCurrentLine t).count = 0 := by
    rw [discardCurrentLine, hdiscard, hcount]
    exact ⟨rfl, Nat.zero_sub _⟩
  rw [delivered_key hhead.2 hx, delivered_key (t := t.dropLine) hcount hx, hhead.1, hwrong, hright]
  have hplain : x ≠ carriageReturn ∧ newline ≠ x := by
    obtain rfl | rfl := hx <;> decide
  rw [if_neg hplain.1, ne_eq, singleton_inj]
  split_ifs
  · exact hplain.2
  · exact hnew

/-- After a signal character a program gets to read, for everything that comes later, what it
would if the unfinished line were discarded and nothing else, just if there is no such line. The
signal characters before found none either. -/
theorem interrupt_discards_line {es : List ConsoleEvent}
    (hrun : runIf (fun t e => some (consoleStep t e).2) idleInterrupt es Term.zero.reset = some t)
    (hsig : isSignal ch = true) (hook : SignalHook) (echoed : Int) :
    (∀ later, delivered later (consoleInput hook echoed t ch).2 = delivered later t.dropLine) ↔
      t.editLength = 0 ∧ t.lineChars = 0 := by
  obtain ⟨hok, h⟩ : ConsoleOk t ∧ Editing t := by
    refine runIf_invariant (P := fun t => ConsoleOk t ∧ Editing t) (fun u e _ hu he hs' => ?_)
      ⟨allOk_init.ttys 0, rfl, rfl, lineMax_pos, lineMax_pos, Nat.le_refl 0⟩ hrun
    cases hs'
    exact ⟨hu.1.consoleStep hu.2 he, hu.2.step he⟩
  have hstep : (consoleInput hook echoed t ch).2 = discardCurrentLine t := by
    rw [consoleInput, if_pos ⟨h.canonical, h.isig, hsig⟩, controlSignal_snd]
  rw [hstep]
  constructor
  · intro hall
    by_cases hchars : t.lineChars = 0
    · refine ⟨by_contra fun hlength => hlength ?_, hchars⟩
      have hlater := congrArg length
        (hall (drain ++ (.setCanonical true :: .key newline none 0 :: drain)))
      have hline := length_delivered_newline hok.count h.short
      have hnone : _ = t.count + (0 + 1) :=
        length_delivered_newline (t := t.dropLine) hok.count lineMax_pos
      rw [discardCurrentLine, hchars, discardLoop] at hlater
      omega
    · by_cases hcount : t.count = 0
      · obtain ⟨x, hne⟩ := interrupt_moves hok.toRingOk hchars h.chars hcount
        exact absurd (hall _) hne
      · exact absurd (hall _) (interrupt_loses hok.toRingOk hchars hcount)
  · rintro ⟨hlength, hchars⟩ later
    have hcursor : t.editCursor = 0 := Nat.le_zero.1 (hlength ▸ h.cursor)
    have hdrop : t.dropLine = t := by
      obtain ⟨⟩ := t
      simp_all [Term.dropLine]
    rw [discardCurrentLine, hchars, discardLoop, hdrop]

def keys (l : List UInt8) : List ConsoleEvent := l.map fun ch => .key ch none 0

theorem interrupt_discards_line_after : ∃ t,
    runIf (fun t e => some (consoleStep t e).2) idleInterrupt (keys [97, 10]) Term.zero.reset =
        some t ∧
      delivered [.read 9] (consoleInput none 0 t 3).2 = delivered [.read 9] t.dropLine := by
  refine ⟨_, rfl, ?_⟩
  exact (@interrupt_discards_line _ _ (keys [97, 10]) rfl rfl none 0).2 (by decide +kernel) _

/-- The line `ab`, then `c`, an interrupt, `d` and the end of the line: one line is read. -/
theorem interrupt_joins_lines :
    delivered (keys [97, 98, 10, 99, 3, 100, 10] ++ [.read 9]) Term.zero.reset =
      [97, 98, 99, 100, 10] := by
  decide +kernel

end RixuriOS.Tty
