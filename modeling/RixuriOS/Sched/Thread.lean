import Mathlib

/-!
# Thread objects

`sched/thread.c`: the bounded table of kernel threads. A thread names its owner
process; thread ids count up and are not reused. The table is guarded by the
scheduler lock, so every operation is one step of the holder. The process table
is another component, seen here through `process_lookup` only.
-/

namespace RixuriOS.Sched

abbrev threadMax : Nat := 64

inductive ProcState where
  | unused
  | running
  | sleeping
  | zombie
  deriving DecidableEq, Repr

/-- The fields of `rix_process_t` that the scheduler reads. -/
structure Process where
  state : ProcState
  pml4Phys : Nat
  kernelStack : Nat

abbrev ProcessLookup := Nat → Option Process

inductive ThreadState where
  | unused
  | active
  | detached
  deriving DecidableEq, Repr

structure Thread where
  tid : Nat
  ownerPid : Nat
  state : ThreadState
  deriving DecidableEq, Repr

structure ThreadTable where
  threads : Fin threadMax → Thread
  nextTid : Nat

def threadTableInit : ThreadTable where
  threads _ := ⟨0, 0, .unused⟩
  nextTid := 1

def findThread (t : ThreadTable) (tid : Nat) : Option (Fin threadMax) :=
  if tid = 0 then none
  else (List.finRange threadMax).find? fun i =>
    (t.threads i).state ≠ .unused ∧ (t.threads i).tid = tid

def ownerLive (procs : ProcessLookup) (pid : Nat) : Bool :=
  if pid = 0 then true
  else match procs pid with
    | none => false
    | some p => p.state ≠ .unused ∧ p.state ≠ .zombie

/-- A `uint64_t` counter read with `x++`, once more when it reads 0. Returns the
value taken and the counter afterwards. -/
def takeId (next : Nat) : Nat × Nat :=
  if next = 0 then (1, 2) else (next, (next + 1) % 2 ^ 64)

def threadAlloc (procs : ProcessLookup) (t : ThreadTable) (ownerPid : Nat) :
    Except Int Nat × ThreadTable :=
  if !ownerLive procs ownerPid then (.error (-1), t)
  else match (List.finRange threadMax).find? fun i => (t.threads i).state = .unused with
    | none => (.error (-2), t)
    | some i =>
      let tid := takeId t.nextTid
      (.ok tid.1,
        { threads := Function.update t.threads i ⟨tid.1, ownerPid, .active⟩
          nextTid := tid.2 })

def threadFree (t : ThreadTable) (tid : Nat) : ThreadTable :=
  match findThread t tid with
  | none => t
  | some i => { t with threads := Function.update t.threads i ⟨0, 0, .unused⟩ }

def threadDetachPid (t : ThreadTable) (pid : Nat) : ThreadTable :=
  { t with
    threads := fun i =>
      if (t.threads i).state = .active ∧ (t.threads i).ownerPid = pid then
        { t.threads i with state := .detached }
      else t.threads i }

end RixuriOS.Sched
