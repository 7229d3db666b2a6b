import Mathlib

/-!
# Wait queues

A wait queue is a bounded registry of waiters (`sync/waitqueue.c`). A waiter is
addressed through a handle, the slot it sits in together with the generation
the slot was taken at, so that a handle of a waiter that is gone does not reach
the next waiter of the same slot. Every operation runs under the queue's own
spin lock and is one step here.
-/

namespace RixuriOS.WaitQueue

abbrev maxWaiters : Nat := 64

scoped instance : NeZero maxWaiters := ⟨by decide⟩

inductive WaitState where
  | unused
  | ready
  | blocked
  | woken
  deriving DecidableEq, Repr

structure Waiter where
  id : Nat
  generation : Nat
  state : WaitState
  deriving DecidableEq, Repr

/-- `rix_wait_handle_t`; the index is the `uint32_t` a caller hands in, in
range or not. -/
structure WaitHandle where
  index : Nat
  generation : Nat
  deriving DecidableEq, Repr

def WaitHandle.none : WaitHandle := ⟨0, 0⟩

structure Queue where
  waiters : Fin maxWaiters → Waiter
  count : Nat
  generation : Nat

def init : Queue where
  waiters _ := ⟨0, 0, .unused⟩
  count := 0
  generation := 1

/-- The successor of the queue's generation counter: a `uint64_t` that skips 0. -/
def nextGeneration (g : Nat) : Nat :=
  if (g + 1) % 2 ^ 64 = 0 then 1 else (g + 1) % 2 ^ 64

def resolve (q : Queue) (h : WaitHandle) : Option (Fin maxWaiters) :=
  if hi : h.index < maxWaiters then
    let w := q.waiters ⟨h.index, hi⟩
    if w.state = .unused ∨ w.generation ≠ h.generation then none else some ⟨h.index, hi⟩
  else none

def prepare (q : Queue) (id : Nat) : Option (WaitHandle × Queue) :=
  match (List.finRange maxWaiters).find? fun i => (q.waiters i).state = .unused with
  | none => none
  | some i =>
    some (⟨i, q.generation⟩,
      { waiters := Function.update q.waiters i ⟨id, q.generation, .ready⟩
        count := (q.count + 1) % 2 ^ 32
        generation := nextGeneration q.generation })

def setState (q : Queue) (i : Fin maxWaiters) (st : WaitState) : Queue :=
  { q with waiters := Function.update q.waiters i { q.waiters i with state := st } }

/-- `rix_waitqueue_block`; a call that returns -1 changes nothing. -/
def block (q : Queue) (h : WaitHandle) : Queue :=
  match resolve q h with
  | none => q
  | some i => if (q.waiters i).state = .ready then setState q i .blocked else q

/-- `rix_waitqueue_take_wakeup`: 0 when a wakeup was consumed, 1 when none is
pending, -1 for a stale handle. -/
def takeWakeup (q : Queue) (h : WaitHandle) : Int × Queue :=
  match resolve q h with
  | none => (-1, q)
  | some i => if (q.waiters i).state = .woken then (0, setState q i .ready) else (1, q)

def firstBlocked (q : Queue) : Option (Fin maxWaiters) :=
  (List.finRange maxWaiters).find? fun i => (q.waiters i).state = .blocked

def wakeOne (q : Queue) : Queue :=
  match firstBlocked q with
  | none => q
  | some i => setState q i .woken

def wakeAll (q : Queue) : Queue :=
  { q with
    waiters := fun i =>
      if (q.waiters i).state = .blocked then { q.waiters i with state := .woken }
      else q.waiters i }

def remove (q : Queue) (h : WaitHandle) : Queue :=
  match resolve q h with
  | none => q
  | some i =>
    { q with
      waiters := Function.update q.waiters i { q.waiters i with id := 0, state := .unused }
      count := q.count - 1 }

end RixuriOS.WaitQueue
