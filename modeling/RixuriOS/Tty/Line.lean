import RixuriOS.Lib.RingBuffer

/-!
# Terminal input

The input side of `tty/tty.c`: the four consoles and the four pseudo terminals. Both
keep received bytes in a ring of 4096 cells, with a count of the complete lines in it.
A console in canonical mode collects a line in an edit buffer first and moves it to the
ring at its end; a pseudo terminal edits the unfinished line in the ring itself. What is
shown on the screen is not part of this model: what `echo_bytes` answers is an argument.
The `size_t` counters wrap at `2 ^ 64`.
-/

namespace RixuriOS.Tty

open RingBuffer Function

/-- `RIX_TTY_INPUT`, which is also `RIX_TTY_OUTPUT`. -/
abbrev ttyInput : Nat := 4096

scoped instance : NeZero ttyInput := ⟨by decide⟩

def lineMax : Nat := 256

def historyMax : Nat := 32

/-- `RIX_TTY_KEY_UP`, the first of the four arrow keys. -/
def keyUp : UInt8 := 0x80

def keyDown : UInt8 := 0x81

def keyLeft : UInt8 := 0x82

def keyRight : UInt8 := 0x83

def newline : UInt8 := 10

def carriageReturn : UInt8 := 13

def backspace : UInt8 := 8

def delete : UInt8 := 127

/-- The three bytes that `ISIG` turns into signals. -/
def isSignal (ch : UInt8) : Bool := ch = 0x03 || ch = 0x1a || ch = 0x1c

def inc (n : Nat) : Nat := (n + 1) % 2 ^ 64

def dec (n : Nat) : Nat := (n + (2 ^ 64 - 1)) % 2 ^ 64

structure Term where
  input : Fin ttyInput → UInt8
  head : Nat
  tail : Nat
  count : Nat
  lineChars : Nat
  canonicalReady : Nat
  canonical : Bool
  echo : Bool
  isig : Bool
  utf8 : Bool
  foregroundPgrp : Nat
  editLine : Nat → UInt8
  editLength : Nat
  editCursor : Nat
  history : Nat → Nat → UInt8
  historyCount : Nat
  historyCursor : Nat

def Term.zero : Term where
  input _ := 0
  head := 0
  tail := 0
  count := 0
  lineChars := 0
  canonicalReady := 0
  canonical := false
  echo := false
  isig := false
  utf8 := false
  foregroundPgrp := 0
  editLine _ := 0
  editLength := 0
  editCursor := 0
  history _ _ := 0
  historyCount := 0
  historyCursor := 0

def Term.reset (t : Term) : Term :=
  { t with
    head := 0, tail := 0, count := 0, lineChars := 0, canonicalReady := 0
    editLength := 0, editCursor := 0, historyCount := 0, historyCursor := 0
    canonical := true, echo := true, isig := true, utf8 := true, foregroundPgrp := 0 }

def Term.queue (t : Term) : List UInt8 := contents t.input t.head t.count

def Term.put (t : Term) (ch : UInt8) : Term :=
  { t with
    input := update t.input (Fin.ofNat ttyInput t.tail) ch
    tail := (t.tail + 1) % ttyInput
    count := inc t.count }

/-- `signal_hook`: what sending a signal to a process group answers. -/
abbrev SignalHook := Option (Nat → Nat → Int)

def discardLoop : Nat → Term → Term
  | 0, t => t
  | n + 1, t =>
    discardLoop n
      { t with
        tail := (t.tail + ttyInput - 1) % ttyInput
        count := if t.count = 0 then 0 else t.count - 1
        lineChars := n }

def discardCurrentLine (t : Term) : Term := discardLoop t.lineChars t

def controlSignal (hook : SignalHook) (t : Term) (ch : UInt8) : Int × Term :=
  let signal := if ch = 0x03 then 2 else if ch = 0x1a then 20 else 3
  let d := discardCurrentLine t
  match hook with
  | none => (0, d)
  | some send => if d.foregroundPgrp = 0 then (0, d) else (send d.foregroundPgrp signal, d)

/-! ## The edit buffer of a console -/

def historySave (t : Term) : Term :=
  if t.editLength = 0 then t
  else
    let full := t.historyCount = historyMax
    let rows := if full then fun i => if i + 1 < historyMax then t.history (i + 1) else t.history i
      else t.history
    let n := if full then t.historyCount - 1 else t.historyCount
    { t with
      history := update rows n fun j =>
        if j < t.editLength then t.editLine j else if j = t.editLength then 0 else rows n j
      historyCount := n + 1
      historyCursor := n + 1 }

def savedLength (row : Nat → UInt8) : Nat :=
  ((List.range (lineMax - 1)).takeWhile fun i => row i ≠ 0).length

def editLoad (t : Term) (direction : UInt8) : Term :=
  if t.historyCount = 0 then t
  else
    let cursor :=
      if direction = keyUp then t.historyCursor - 1
      else if t.historyCursor < t.historyCount then t.historyCursor + 1 else t.historyCursor
    if cursor = t.historyCount then
      { t with historyCursor := cursor, editLength := 0, editCursor := 0 }
    else
      let row := t.history cursor
      let n := savedLength row
      { t with
        historyCursor := cursor
        editLine := fun i => if i < n then row i else t.editLine i
        editLength := n
        editCursor := n }

def editKey (t : Term) (ch : UInt8) : Term :=
  if ch = keyUp ∨ ch = keyDown then editLoad t ch
  else if ch = keyLeft ∧ t.editCursor ≠ 0 then { t with editCursor := t.editCursor - 1 }
  else if ch = keyRight ∧ t.editCursor < t.editLength then { t with editCursor := t.editCursor + 1 }
  else t

def editErase (t : Term) : Term :=
  if t.editCursor = 0 then t
  else
    { t with
      editLine := fun i =>
        if t.editCursor ≤ i + 1 ∧ i + 1 < t.editLength then t.editLine (i + 1) else t.editLine i
      editCursor := t.editCursor - 1
      editLength := t.editLength - 1
      lineChars := t.editLength - 1 }

def editInsert (t : Term) (ch : UInt8) : Term :=
  if ch < 0x20 ∨ ch = delete ∨ lineMax ≤ t.editLength + 1 then t
  else
    { t with
      editLine := fun i =>
        if i = t.editCursor then ch
        else if t.editCursor < i ∧ i ≤ t.editLength then t.editLine (i - 1) else t.editLine i
      editCursor := t.editCursor + 1
      editLength := t.editLength + 1
      lineChars := t.editLength + 1 }

def commitLine (t : Term) : Term :=
  let t := ((List.range t.editLength).map t.editLine).foldl Term.put t
  let t := t.put newline
  let t := historySave { t with canonicalReady := inc t.canonicalReady }
  { t with editLength := 0, editCursor := 0, lineChars := 0 }

/-- `tty_input_nolock`, where `echoed` is what `echo_bytes` answers. -/
def consoleInput (hook : SignalHook) (echoed : Int) (t : Term) (ch : UInt8) : Int × Term :=
  if t.canonical ∧ t.isig ∧ isSignal ch then controlSignal hook t ch
  else if keyUp ≤ ch ∧ ch ≤ keyRight then
    if t.canonical then (0, editKey t ch)
    else if t.count = ttyInput then (-2, t)
    else (0, t.put ch)
  else if t.canonical ∧ (ch = backspace ∨ ch = delete) then (0, editErase t)
  else if t.canonical ∧ (ch = newline ∨ ch = carriageReturn) then
    if ttyInput < t.count + t.editLength + 1 then (-2, t)
    else (if t.echo then echoed else 0, commitLine t)
  else if t.canonical then (0, editInsert t ch)
  else if t.count = ttyInput then (-2, t)
  else
    let t := t.put ch
    let t := { t with
      lineChars := if ch = newline ∨ ch = carriageReturn then 0 else inc t.lineChars }
    (if t.echo then echoed else 0, t)

/-- At most `n` rounds of the loop of `tty_read_nolock`, when `translate` is set, and of
`tty_pty_slave_read`: the bytes that were read. Only a console reads a carriage return
as a newline. -/
def readLoop (translate : Bool) : Nat → Term → List UInt8 × Term
  | 0, t => ([], t)
  | n + 1, t =>
    if t.count = 0 then ([], t)
    else
      let raw := t.input (Fin.ofNat ttyInput t.head)
      let ch := if translate ∧ raw = carriageReturn then newline else raw
      let t := { t with head := (t.head + 1) % ttyInput, count := dec t.count }
      if t.canonical ∧ ch = newline then
        ([ch], { t with canonicalReady := dec t.canonicalReady })
      else
        let r := readLoop translate n t
        (ch :: r.1, r.2)

def readBytes (translate : Bool) (t : Term) (n : Nat) : Int × List UInt8 × Term :=
  if t.canonical ∧ t.canonicalReady = 0 then (-3, [], t)
  else
    let r := readLoop translate n t
    (if r.1 = [] then -3 else 0, r.1, r.2)

def consoleRead (t : Term) (n : Nat) : Int × List UInt8 × Term := readBytes true t n

/-- `tty_set_termios` and `tty_pty_set_termios`. -/
def setTermios (t : Term) (lflag : BitVec 32) : Int × Term :=
  if lflag &&& ~~~(0xf : BitVec 32) ≠ 0 then (-1, t)
  else
    (0, { t with
          canonical := lflag.getLsbD 0, echo := lflag.getLsbD 1, isig := lflag.getLsbD 2
          utf8 := lflag.getLsbD 3 })

def recover (t : Term) : Term :=
  { t with head := 0, tail := 0, count := 0, lineChars := 0, canonicalReady := 0 }

/-! ## Pseudo terminals -/

structure Pty where
  opened : Bool
  slave : Term
  masterOutput : Fin ttyInput → UInt8
  outputHead : Nat
  outputTail : Nat
  outputCount : Nat

def Pty.zero : Pty := ⟨false, .zero, fun _ => 0, 0, 0, 0⟩

/-- `pty_queue_put` on the output for the master. -/
def Pty.echoByte (p : Pty) (ch : UInt8) : Pty :=
  if p.outputCount = ttyInput then p
  else
    { p with
      masterOutput := update p.masterOutput (Fin.ofNat ttyInput p.outputTail) ch
      outputTail := (p.outputTail + 1) % ttyInput
      outputCount := p.outputCount + 1 }

/-- `tty_pty_open` of the slot `p`, if it is not in use. -/
def ptyOpen (p : Pty) : Pty :=
  { p with opened := true, slave := p.slave.reset, outputHead := 0, outputTail := 0, outputCount := 0 }

/-- How the loop of `tty_pty_master_write` goes on after a byte. -/
inductive ByteOutcome
  | next
  | full
  | failed (code : Int)

def masterByte (hook : SignalHook) (p : Pty) (ch : UInt8) : ByteOutcome × Pty :=
  let t := p.slave
  if t.canonical ∧ t.isig ∧ isSignal ch then
    let r := controlSignal hook t ch
    (if r.1 ≠ 0 then .failed r.1 else .next, { p with slave := r.2 })
  else if t.canonical ∧ (ch = backspace ∨ ch = delete) then
    if t.lineChars = 0 then (.next, p)
    else
      let t := { t with
        tail := (t.tail + ttyInput - 1) % ttyInput
        count := dec t.count
        lineChars := t.lineChars - 1 }
      (.next, ((({ p with slave := t }).echoByte backspace).echoByte 32).echoByte backspace)
  else if t.count = ttyInput then (.full, p)
  else
    let s := t.put ch
    let s := { s with
      canonicalReady := if ch = newline ∧ t.canonical then inc t.canonicalReady else t.canonicalReady
      lineChars := if ch = newline then 0 else inc t.lineChars }
    let p := { p with slave := s }
    (.next, if s.echo then p.echoByte ch else p)

/-- The loop of `tty_pty_master_write`, after `done` bytes: the return value and the number
of bytes written. -/
def masterLoop (hook : SignalHook) : List UInt8 → Nat → Pty → Int × Nat × Pty
  | [], done, p => (0, done, p)
  | ch :: rest, done, p =>
    match masterByte hook p ch with
    | (.next, p) => masterLoop hook rest (done + 1) p
    | (.full, p) => (-2, done, p)
    | (.failed code, p) => (code, 0, p)

def masterWrite (hook : SignalHook) (p : Pty) (src : List UInt8) : Int × Nat × Pty :=
  if p.opened = false then (-1, 0, p) else masterLoop hook src 0 p

def slaveRead (p : Pty) (n : Nat) : Int × List UInt8 × Pty :=
  if p.opened = false then (-1, [], p)
  else
    let r := readBytes false p.slave n
    (r.1, r.2.1, { p with slave := r.2.2 })

/-! ## All terminals -/

structure Terminals where
  ttys : Fin 4 → Term
  ptys : Fin 4 → Pty

def ttyInit : Terminals := ⟨fun _ => Term.zero.reset, fun _ => .zero⟩

inductive Act
  | input (id : Fin 4) (ch : UInt8) (hook : SignalHook) (echoed : Int)
  | read (id : Fin 4) (n : Nat)
  | setCanonical (id : Fin 4) (enabled : Bool)
  | setTermios (id : Fin 4) (lflag : BitVec 32)
  | setForeground (id : Fin 4) (pgrp : Nat)
  | recover (id : Fin 4)
  | ptyOpen (id : Fin 4)
  | ptyClose (id : Fin 4)
  | ptySetTermios (id : Fin 4) (lflag : BitVec 32)
  | masterWrite (id : Fin 4) (src : List UInt8) (hook : SignalHook)
  | slaveRead (id : Fin 4) (n : Nat)

def Terminals.onTty (s : Terminals) (id : Fin 4) (f : Term → Term) : Terminals :=
  { s with ttys := update s.ttys id (f (s.ttys id)) }

def Terminals.onPty (s : Terminals) (id : Fin 4) (f : Pty → Pty) : Terminals :=
  { s with ptys := update s.ptys id (f (s.ptys id)) }

def step (s : Terminals) : Act → Terminals
  | .input id ch hook echoed => s.onTty id fun t => (consoleInput hook echoed t ch).2
  | .read id n => s.onTty id fun t => (consoleRead t n).2.2
  | .setCanonical id enabled => s.onTty id fun t => { t with canonical := enabled }
  | .setTermios id lflag => s.onTty id fun t => (setTermios t lflag).2
  | .setForeground id pgrp => s.onTty id fun t => { t with foregroundPgrp := pgrp }
  | .recover id => s.onTty id recover
  | .ptyOpen id => s.onPty id fun p => if p.opened then p else ptyOpen p
  | .ptyClose id => s.onPty id fun p => { p with opened := false }
  | .ptySetTermios id lflag => s.onPty id fun p =>
    if p.opened then { p with slave := (setTermios p.slave lflag).2 } else p
  | .masterWrite id src hook => s.onPty id fun p => (masterWrite hook p src).2.2
  | .slaveRead id n => s.onPty id fun p => (slaveRead p n).2.2

end RixuriOS.Tty
