import RixuriOS.Vfs.Descriptors

/-!
# Reading and writing pipes through system calls

The loops of `SYS_READ` and `SYS_WRITE` in `syscall/syscall.c` over `vfs_read` and
`vfs_write`, for descriptors that are ends of pipes. A call goes through its loop
one iteration at a time, and the iterations of different tasks and the calls on
descriptors interleave in any order: a task that blocks and is woken again is one
whose next iteration comes later. The lists of appended and received bytes are
history; no function of the source reads them.
-/

namespace RixuriOS.Syscall

open Ipc Vfs Function

def maxIo : Nat := 4096

def ioChunk : Nat := 256

def eIntr : Int := -4
def eFault : Int := -14
def eInval : Int := -22
def ePipe : Int := -32
def eNosys : Int := -38

def asInt (fd : Nat) : Int := (fd : Int).bmod (2 ^ 32)

def entry (pid fd : Nat) : Option (Fin processMax × Fin fdMax) :=
  (pidSlot pid).bind fun ps => (fdIndex (asInt fd)).map fun i => (ps, i)

def vfsFdIsOpen (t : Tables) (pid fd : Nat) : Bool :=
  ((entry pid fd).map fun x => (t.fds x).used).getD false

/-- `vfs_write`, except for regular files (`none`). -/
def vfsWrite (t : Tables) (pid fd : Nat) (buf : List UInt8) : Option (Int × Nat × Tables) :=
  match entry pid fd with
  | none => some (-1, 0, t)
  | some x =>
    if !(t.fds x).used then some (-1, 0, t)
    else
      match vfsWritePipe t x buf with
      | some r => some r
      | none =>
        if !(t.fds x).writable ∨ (t.fds x).type ≠ .file then some (-2, 0, t) else none

/-- `vfs_read`, except for regular files (`none`). -/
def vfsRead (t : Tables) (pid fd : Nat) (n : Nat) : Option (Int × List UInt8 × Tables) :=
  match entry pid fd with
  | none => some (-1, [], t)
  | some x =>
    if !(t.fds x).used then some (-1, [], t)
    else
      match vfsReadPipe t x n with
      | some r => some r
      | none => if (t.fds x).type ≠ .file then some (-2, [], t) else none

/-- A `SYS_WRITE` under way; `sent` is history. -/
structure WriteCall where
  pid : Nat
  fd : Nat
  buf : List UInt8
  done : Nat
  sent : List UInt8

/-- A `SYS_READ` under way; `got` is history. -/
structure ReadCall where
  pid : Nat
  fd : Nat
  len : Nat
  done : Nat
  got : List UInt8

/-- What an iteration of a loop leads to: the next one, or the end of the call. -/
inductive Outcome
  | again (done : Nat)
  | ret (result : Int)
  deriving DecidableEq

def doneOr (done : Nat) (error : Int) : Int := if done ≠ 0 then (done : Int) else error

def WriteCall.chunk (c : WriteCall) : List UInt8 := (c.buf.drop c.done).take ioChunk

/-- How `SYS_WRITE` goes on after `vfs_write` returned `wrc` and wrote `wrote` bytes. -/
def writeOutcome (c : WriteCall) (interrupted : Bool) (wrc : Int) (wrote : Nat) : Outcome :=
  if wrc = -3 ∧ wrote = 0 then
    -- the pipe is full, and the task has been blocked
    if interrupted then .ret (doneOr c.done eIntr) else .again c.done
  else if wrc = -2 ∧ wrote = 0 then .ret (doneOr c.done ePipe)
  else if wrc ≠ 0 then .ret (doneOr c.done eInval)
  else if wrote < c.chunk.length then
    .ret (if c.done + wrote = c.buf.length then ((c.done + wrote : Nat) : Int) else eNosys)
  else .again (c.done + wrote)

/-- An iteration of the loop of `SYS_WRITE`: its outcome, the number of bytes appended,
and the tables. `copyOk` is the outcome of `copy_from_user`. -/
def writeIter (t : Tables) (c : WriteCall) (copyOk interrupted : Bool) :
    Option (Outcome × Nat × Tables) :=
  if c.buf.length ≤ c.done then some (.ret c.done, 0, t)
  else if !copyOk then some (.ret (doneOr c.done eFault), 0, t)
  else
    (vfsWrite t c.pid c.fd c.chunk).map fun r =>
      (writeOutcome c interrupted r.1 r.2.1, r.2.1, r.2.2)

def readReturn (len done : Nat) (result : Int) : Int :=
  if done = len ∨ len = 0 ∨ 0 < done then done else result

def ReadCall.want (c : ReadCall) : Nat := min ioChunk (c.len - c.done)

/-- How `SYS_READ` goes on after `vfs_read` returned `rc` and `got` bytes. -/
def readOutcome (c : ReadCall) (copyOk interrupted : Bool) (rc : Int) (got : Nat) : Outcome :=
  if rc = -3 ∧ got = 0 then
    if interrupted then .ret (readReturn c.len c.done (doneOr c.done eIntr)) else .again c.done
  else if rc = -2 ∧ got = 0 then .ret (readReturn c.len c.done c.done)
  else if rc ≠ 0 ∧ ¬(rc = -3 ∧ got ≠ 0) then
    .ret (readReturn c.len c.done (doneOr c.done eInval))
  else if got ≠ 0 ∧ !copyOk then .ret (readReturn c.len c.done (doneOr c.done eFault))
  else if got < c.want then
    .ret (readReturn c.len (c.done + got) ((c.done + got : Nat) : Int))
  else .again (c.done + got)

/-- An iteration of the loop of `SYS_READ`: its outcome, the bytes taken from the pipe, and
the tables. `copyOk` is the outcome of `copy_to_user`. -/
def readIter (t : Tables) (c : ReadCall) (copyOk interrupted : Bool) :
    Option (Outcome × List UInt8 × Tables) :=
  if c.len ≤ c.done then some (.ret (readReturn c.len c.done c.done), [], t)
  else
    (vfsRead t c.pid c.fd c.want).map fun r =>
      (readOutcome c copyOk interrupted r.1 r.2.1.length, r.2.1, r.2.2)

/-- A `SYS_WRITE` that has returned: its buffer, its result, and what it appended. -/
structure WriteReturn where
  buf : List UInt8
  result : Int
  sent : List UInt8

structure ReadReturn where
  result : Int
  got : List UInt8

/-- The tables, the calls of the tasks under way, and the history. `appended` and
`received` belong to the pipe that a slot holds at present. -/
structure Io where
  tables : Tables
  writers : Nat → Option WriteCall
  readers : Nat → Option ReadCall
  appended : Fin pipeMax → List UInt8
  received : Fin pipeMax → List UInt8
  writeReturns : List WriteReturn
  readReturns : List ReadReturn

def bootIo (t : Tables) : Io where
  tables := vfsInit t
  writers _ := none
  readers _ := none
  appended _ := []
  received _ := []
  writeReturns := []
  readReturns := []

def slotOf (t : Tables) (pid fd : Nat) : Option (Fin pipeMax) :=
  (entry pid fd).bind fun x => (t.fds x).pipe

def logBytes (log : Fin pipeMax → List UInt8) (slot : Option (Fin pipeMax)) (bytes : List UInt8) :
    Fin pipeMax → List UInt8 := fun i => if slot = some i then log i ++ bytes else log i

/-- The history starts again for a slot that a new pipe has taken. -/
def renew (t t' : Tables) (log : Fin pipeMax → List UInt8) : Fin pipeMax → List UInt8 :=
  fun i => if !(t.pipes i).used && (t'.pipes i).used then [] else log i

inductive IoAct
  | call (c : Call)
  | sysWrite (task pid fd : Nat) (buf : List UInt8)
  | writeIter (task : Nat) (copyOk interrupted : Bool)
  | sysRead (task pid fd len : Nat)
  | readIter (task : Nat) (copyOk interrupted : Bool)

/-- The entry of `SYS_WRITE`: the checks before the loop. Writes to the console (`none`)
do not concern pipes. -/
def sysWrite (s : Io) (task pid fd : Nat) (buf : List UInt8) : Option Io :=
  let refused := { s with writeReturns := s.writeReturns ++ [⟨buf, eInval, []⟩] }
  if maxIo < buf.length then some refused
  else if (fd = 1 ∨ fd = 2) ∧ !vfsFdIsOpen s.tables pid fd then none
  else if fd = 0 ∧ !vfsFdIsOpen s.tables pid fd then some refused
  else some { s with writers := update s.writers task (some ⟨pid, fd, buf, 0, []⟩) }

/-- The entry of `SYS_READ`. Reads of the console (`none`) do not concern pipes. -/
def sysRead (s : Io) (task pid fd len : Nat) : Option Io :=
  let returned (result : Int) := { s with readReturns := s.readReturns ++ [⟨result, []⟩] }
  if maxIo < len then some (returned eInval)
  else if len = 0 then some (returned 0)
  else if fd = 0 ∧ !vfsFdIsOpen s.tables pid fd then none
  else if fd ≤ 2 ∧ !vfsFdIsOpen s.tables pid fd then some (returned eInval)
  else some { s with readers := update s.readers task (some ⟨pid, fd, len, 0, []⟩) }

def Io.afterWrite (s : Io) (task : Nat) (c : WriteCall) (r : Outcome × Nat × Tables) : Io :=
  let bytes := c.chunk.take r.2.1
  let s' := { s with
    tables := r.2.2
    appended := logBytes s.appended (slotOf s.tables c.pid c.fd) bytes }
  match r.1 with
  | .again done =>
    { s' with
      writers := update s.writers task (some { c with done, sent := c.sent ++ bytes }) }
  | .ret result =>
    { s' with
      writers := update s.writers task none
      writeReturns := s.writeReturns ++ [⟨c.buf, result, c.sent ++ bytes⟩] }

/-- The state after an iteration of the call `c` of a task; bytes that could not be copied
to the reader are not received. -/
def Io.afterRead (s : Io) (task : Nat) (c : ReadCall) (copyOk : Bool)
    (r : Outcome × List UInt8 × Tables) : Io :=
  let bytes := if copyOk then r.2.1 else []
  let s' := { s with
    tables := r.2.2
    received := logBytes s.received (slotOf s.tables c.pid c.fd) bytes }
  match r.1 with
  | .again done =>
    { s' with
      readers := update s.readers task (some { c with done, got := c.got ++ bytes }) }
  | .ret result =>
    { s' with
      readers := update s.readers task none
      readReturns := s.readReturns ++ [⟨result, c.got ++ bytes⟩] }

/-- One step; `none` when the action is not possible or concerns the console or a
regular file. -/
def ioStep (s : Io) : IoAct → Option Io
  | .call c =>
    match c with
    | .read .. | .write .. => none
    | c =>
      let t' := c.apply s.tables
      some { s with
        tables := t'
        appended := renew s.tables t' s.appended
        received := renew s.tables t' s.received }
  | .sysWrite task pid fd buf =>
    if (s.writers task).isSome ∨ (s.readers task).isSome then none
    else sysWrite s task pid fd buf
  | .sysRead task pid fd len =>
    if (s.writers task).isSome ∨ (s.readers task).isSome then none
    else sysRead s task pid fd len
  | .writeIter task copyOk interrupted =>
    (s.writers task).bind fun c =>
      (writeIter s.tables c copyOk interrupted).map (s.afterWrite task c)
  | .readIter task copyOk interrupted =>
    (s.readers task).bind fun c =>
      (readIter s.tables c copyOk interrupted).map (s.afterRead task c copyOk)

def ring (t : Tables) (i : Fin pipeMax) : List UInt8 :=
  RingBuffer.contents (t.pipes i).pipe.channel.data (t.pipes i).pipe.channel.head
    (t.pipes i).pipe.channel.count

/-- The pipe that the next iteration of a `SYS_WRITE` writes to has no room, or room for the
whole chunk; and the buffer of a `SYS_READ` can be written. -/
def roomOrFull (s : Io) : IoAct → Bool
  | .writeIter task _ _ =>
    match s.writers task with
    | none => true
    | some c =>
      match slotOf s.tables c.pid c.fd with
      | none => true
      | some i =>
        let room := ipcCapacity - (s.tables.pipes i).pipe.channel.count
        room = 0 ∨ c.chunk.length ≤ room
  | .readIter _ copyOk _ => copyOk
  | _ => true

end RixuriOS.Syscall
