import RixuriOS.Lib.RingBuffer

/-!
# Pipes

`ipc/channel.c` and `ipc/pipe.c`: a ring of 4096 bytes with a flag for a closed
write side, and the two ends of a pipe with their reference counts. The locks
make every call one step. Buffers are lists of bytes; a count that a call returns
through a pointer is part of its result.
-/

namespace RixuriOS.Ipc

abbrev ipcCapacity : Nat := 4096

scoped instance : NeZero ipcCapacity := ⟨by decide⟩

structure Channel where
  data : Fin ipcCapacity → UInt8
  head : Nat
  tail : Nat
  count : Nat
  closed : Bool

/-- `ipc_channel_init`; the bytes of the ring stay what they were. -/
def channelInit (c : Channel) : Channel :=
  { c with head := 0, tail := 0, count := 0, closed := false }

/-- `ipc_write`: the return value and the number of bytes written. -/
def ipcWrite (c : Channel) (buf : List UInt8) : Int × Nat × Channel :=
  if c.closed then (-2, 0, c)
  else
    let m := min buf.length (ipcCapacity - c.count)
    (if m = buf.length then 0 else -3, m,
      { c with
        data := RingBuffer.push c.data c.tail (buf.take m)
        tail := (c.tail + m) % ipcCapacity
        count := c.count + m })

/-- `ipc_read` with a buffer of `n` bytes: the return value and the bytes read. -/
def ipcRead (c : Channel) (n : Nat) : Int × List UInt8 × Channel :=
  let m := min n c.count
  (if m = 0 ∧ c.closed then -2 else if m = n then 0 else -3,
    RingBuffer.take c.data c.head m,
    { c with head := (c.head + m) % ipcCapacity, count := c.count - m })

def ipcClose (c : Channel) : Channel := { c with closed := true }

/-- `rix_pipe_t`. The counts are of type `uint8_t`. -/
structure Pipe where
  channel : Channel
  readOpen : Bool
  writeOpen : Bool
  readRefs : Nat
  writeRefs : Nat

def uint8Max : Nat := 255

def pipeInit (p : Pipe) : Pipe where
  channel := channelInit p.channel
  readOpen := true
  writeOpen := true
  readRefs := 1
  writeRefs := 1

/-- `pipe_retain_read`; `none` for a return value of -1. -/
def pipeRetainRead (p : Pipe) : Option Pipe :=
  if !p.readOpen ∨ p.readRefs = uint8Max then none else some { p with readRefs := p.readRefs + 1 }

def pipeRetainWrite (p : Pipe) : Option Pipe :=
  if !p.writeOpen ∨ p.writeRefs = uint8Max then none
  else some { p with writeRefs := p.writeRefs + 1 }

def pipeRead (p : Pipe) (n : Nat) : Int × List UInt8 × Pipe :=
  if !p.readOpen then (-1, [], p)
  else
    let r := ipcRead p.channel n
    (r.1, r.2.1, { p with channel := r.2.2 })

def pipeWrite (p : Pipe) (buf : List UInt8) : Int × Nat × Pipe :=
  if !p.writeOpen then (-1, 0, p)
  else if !p.readOpen then (-2, 0, p)
  else
    let r := ipcWrite p.channel buf
    (r.1, r.2.1, { p with channel := r.2.2 })

def pipeCloseRead (p : Pipe) : Option Pipe :=
  if !p.readOpen ∨ p.readRefs = 0 then none
  else some { p with readRefs := p.readRefs - 1, readOpen := p.readRefs - 1 ≠ 0 }

def pipeCloseWrite (p : Pipe) : Option Pipe :=
  if !p.writeOpen ∨ p.writeRefs = 0 then none
  else if p.writeRefs - 1 = 0 then
    some { p with writeRefs := 0, writeOpen := false, channel := ipcClose p.channel }
  else some { p with writeRefs := p.writeRefs - 1 }

end RixuriOS.Ipc
