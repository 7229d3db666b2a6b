import Mathlib

/-!
# The process table

The part of `process/process.c` that hands out slots and pids and keeps the
credentials. The user and group ids that a process record does not hold live in
arrays of their own, indexed by the slot of the process, while callers name a
process by its pid. Every function runs under the table lock and is one step.

What the other subsystems answer is an argument of the call: whether the
descriptors and the address space of the parent could be copied, and how many
threads of a zombie are still active.
-/

namespace RixuriOS.ProcTable

open Function

abbrev processMax : Nat := 128

scoped instance : NeZero processMax := ⟨by decide⟩

def groupMax : Nat := 8

def nameMax : Nat := 32

/-- `(pid_t)-1`, the request for any child. -/
def anyPid : Nat := 2 ^ 64 - 1

abbrev Slot := Fin processMax

inductive ProcState
  | unused | running | sleeping | zombie
  deriving DecidableEq, Repr

abbrev Capabilities := BitVec 64

def capSetuid : Capabilities := 1 <<< 1

def capSetgid : Capabilities := 1 <<< 2

def capAuditAdmin : Capabilities := 1 <<< 7

def capDelegate : Capabilities := 1 <<< 8

def capAll : Capabilities := 0x1ff

/-- The fields of `rix_process_t` that these functions use. -/
structure Proc where
  pid : Nat
  parent : Nat
  state : ProcState
  uid : UInt32
  gid : UInt32
  capabilities : Capabilities
  exitStatus : Nat
  name : List UInt8
  deriving DecidableEq

def ascii (s : String) : List UInt8 := s.toList.map fun c => UInt8.ofNat c.toNat

def Proc.cleared : Proc where
  pid := 0
  parent := 0
  state := .unused
  uid := 0
  gid := 0
  capabilities := 0
  exitStatus := 0
  name := []

/-- `table`, the arrays of credentials next to it, and the two counters. -/
@[ext]
structure Table where
  table : Slot → Proc
  supplementaryGroups : Slot → Nat → UInt32
  supplementaryCounts : Slot → Nat
  realUids : Slot → UInt32
  savedUids : Slot → UInt32
  realGids : Slot → UInt32
  savedGids : Slot → UInt32
  auditUids : Slot → UInt32
  nextPid : Nat
  liveCount : Nat

namespace Table

def live (t : Table) (i : Slot) : Prop := (t.table i).state ≠ .unused

instance (t : Table) (i : Slot) : Decidable (t.live i) := inferInstanceAs (Decidable (_ ≠ _))

def setProc (t : Table) (i : Slot) (p : Proc) : Table :=
  { t with table := update t.table i p }

/-- The resets that `process_create_locked` and `wait_reap_locked` share. The groups
themselves stay where they are: only their number becomes zero. -/
def wipe (t : Table) (i : Slot) : Table :=
  { t with
    table := update t.table i .cleared
    supplementaryCounts := update t.supplementaryCounts i 0
    realUids := update t.realUids i 0
    savedUids := update t.savedUids i 0
    realGids := update t.realGids i 0
    savedGids := update t.savedGids i 0
    auditUids := update t.auditUids i 0 }

def inherit (t : Table) (i j : Slot) : Table :=
  { t with
    supplementaryGroups := update t.supplementaryGroups i fun g =>
      if g < t.supplementaryCounts j then t.supplementaryGroups j g else t.supplementaryGroups i g
    supplementaryCounts := update t.supplementaryCounts i (t.supplementaryCounts j)
    realUids := update t.realUids i (t.realUids j)
    savedUids := update t.savedUids i (t.savedUids j)
    realGids := update t.realGids i (t.realGids j)
    savedGids := update t.savedGids i (t.savedGids j)
    auditUids := update t.auditUids i (t.auditUids j) }

end Table

def processInit : Table where
  table i := if i = 0 then
      { Proc.cleared with state := .running, capabilities := capAll, name := ascii "kernel" }
    else .cleared
  supplementaryGroups _ _ := 0
  supplementaryCounts _ := 0
  realUids _ := 0
  savedUids _ := 0
  realGids _ := 0
  savedGids _ := 0
  auditUids _ := 0
  nextPid := 1
  liveCount := 1

/-- `process_lookup`, and `slot_of`, which runs the same loop: the first slot that holds
a process with this pid. -/
def lookup (t : Table) (pid : Nat) : Option Slot :=
  (List.finRange processMax).find? fun i => decide (t.live i ∧ (t.table i).pid = pid)

def pidAfter (next : Nat) : Nat := if processMax ≤ next + 1 then 1 else next + 1

/-- At most `n` rounds of the loop of `allocate_pid`: the pid, if one was found, and the
new `next_pid`. -/
def allocateLoop (t : Table) : Nat → Nat → Option Nat × Nat
  | 0, next => (none, next)
  | n + 1, next =>
    if next ≠ 0 ∧ lookup t next = none then (some next, pidAfter next)
    else allocateLoop t n (pidAfter next)

def allocatePid (t : Table) : Option Nat × Nat := allocateLoop t (processMax - 1) t.nextPid

def freeSlot (t : Table) : Option Slot :=
  (List.finRange processMax).find? fun i => decide (i ≠ 0 ∧ ¬t.live i)

def newProc (t : Table) (pid parent : Nat) (pp : Option Slot) (name : List UInt8) : Proc where
  pid := pid
  parent := parent
  state := .sleeping
  uid := (pp.map fun j => (t.table j).uid).getD 0
  gid := (pp.map fun j => (t.table j).gid).getD 0
  capabilities := (pp.map fun j => (t.table j).capabilities).getD (if parent = 0 then capAll else 0)
  exitStatus := 0
  name := name.take (nameMax - 1)

/-- The slot `i` with a new process in it. The audit id of a process without a parent is
its uid, which is zero like the entry that `wipe` leaves. -/
def birth (t : Table) (i : Slot) (pid parent : Nat) (name : List UInt8) : Table :=
  let pp := if parent = 0 then none else lookup t parent
  let w := t.wipe i
  let w := match pp with
    | some j => w.inherit i j
    | none => w
  w.setProc i (newProc t pid parent pp name)

/-- `process_create_locked`: the pid of the new process, or `none` for an error. When the
descriptors cannot be copied, only the record of the slot is cleared again. -/
def createLocked (t : Table) (name : List UInt8) (parent : Nat) (fdsCloned : Bool) :
    Option Nat × Table :=
  if name = [] ∨ (parent ≠ 0 ∧ lookup t parent = none) then (none, t)
  else
    match freeSlot t with
    | none => (none, t)
    | some i =>
      match allocatePid t with
      | (none, next) => (none, { t with nextPid := next })
      | (some pid, next) =>
        let b := birth { t with nextPid := next } i pid parent name
        if parent ≠ 0 ∧ fdsCloned = false then (none, b.setProc i .cleared)
        else (some pid, { b with liveCount := b.liveCount + 1 })

/-- What the other subsystems answer to a `process_fork`. -/
structure ForkAnswers where
  hasSpace : Bool
  fdsCloned : Bool
  spaceCloned : Bool
  stackAllocated : Bool

def processFork (t : Table) (parent rip rsp : Nat) (ans : ForkAnswers) : Option Nat × Table :=
  if rip = 0 ∨ rsp = 0 then (none, t)
  else if lookup t parent = none ∨ ans.hasSpace = false then (none, t)
  else
    match createLocked t (ascii "fork-child") parent ans.fdsCloned with
    | (none, t) => (none, t)
    | (some child, t) =>
      match lookup t child with
      | none => (none, t)
      | some i =>
        if ans.spaceCloned = false ∨ ans.stackAllocated = false then
          (none, { t.setProc i .cleared with liveCount := t.liveCount - 1 })
        else (some child, t.setProc i { t.table i with state := .sleeping })

def processSetuid (t : Table) (pid : Nat) (uid : UInt32) : Int × Table :=
  match lookup t pid with
  | none => (-1, t)
  | some i =>
    let p := t.table i
    if p.uid = 0 ∧ p.capabilities &&& capSetuid = 0 then (-1, t)
    else if p.uid = 0 then
      (0, { t.setProc i { p with
              uid := uid, capabilities := if uid ≠ 0 then 0 else p.capabilities } with
            realUids := update t.realUids i uid
            savedUids := update t.savedUids i uid })
    else if uid = t.realUids i ∨ uid = t.savedUids i then (0, t.setProc i { p with uid := uid })
    else (-1, t)

/-- `process_setgid`: it asks for the effective uid as well, and keeps the capabilities. -/
def processSetgid (t : Table) (pid : Nat) (gid : UInt32) : Int × Table :=
  match lookup t pid with
  | none => (-1, t)
  | some i =>
    let p := t.table i
    if p.uid = 0 ∧ p.capabilities &&& capSetgid = 0 then (-1, t)
    else if p.uid = 0 then
      (0, { t.setProc i { p with gid := gid } with
            realGids := update t.realGids i gid
            savedGids := update t.savedGids i gid })
    else if gid = t.realGids i ∨ gid = t.savedGids i then (0, t.setProc i { p with gid := gid })
    else (-1, t)

def processSetgroups (t : Table) (pid : Nat) (groups : List UInt32) : Int × Table :=
  match lookup t pid with
  | none => (-1, t)
  | some i =>
    let p := t.table i
    if p.uid ≠ 0 ∨ p.capabilities &&& capSetgid = 0 ∨ groupMax < groups.length then (-1, t)
    else
      (0, { t with
            supplementaryGroups := update t.supplementaryGroups i fun g =>
              groups.getD g (t.supplementaryGroups i g)
            supplementaryCounts := update t.supplementaryCounts i groups.length })

/-- `process_apply_exec_credentials`, for a file that belongs to `uid` and `gid`. -/
def applyExecCredentials (t : Table) (pid : Nat) (uid gid : UInt32) (setuidBit setgidBit : Bool) :
    Int × Table :=
  match lookup t pid with
  | none => (-1, t)
  | some i =>
    let p := t.table i
    (0, { t.setProc i { p with
            uid := if setuidBit then uid else p.uid
            gid := if setgidBit then gid else p.gid
            capabilities := if setuidBit ∨ setgidBit then 0 else p.capabilities } with
          savedUids := if setuidBit then update t.savedUids i uid else t.savedUids
          savedGids := if setgidBit then update t.savedGids i gid else t.savedGids })

def capabilityValid (mask : Capabilities) : Prop := mask ≠ 0 ∧ mask &&& ~~~capAll = 0

instance (mask : Capabilities) : Decidable (capabilityValid mask) :=
  inferInstanceAs (Decidable (_ ∧ _))

def hasCapability (t : Table) (pid : Nat) (capability : Capabilities) : Prop :=
  ∃ i, lookup t pid = some i ∧ capabilityValid capability ∧
    (t.table i).capabilities &&& capability = capability

instance (t : Table) (pid : Nat) (c : Capabilities) : Decidable (hasCapability t pid c) :=
  inferInstanceAs (Decidable (∃ _, _))

def dropCapabilities (t : Table) (pid : Nat) (mask : Capabilities) : Int × Table :=
  match lookup t pid with
  | none => (-1, t)
  | some i =>
    if ¬capabilityValid mask then (-1, t)
    else (0, t.setProc i
      { t.table i with capabilities := (t.table i).capabilities &&& ~~~mask })

def delegateCapabilities (t : Table) (parent child : Nat) (mask : Capabilities) : Int × Table :=
  match lookup t parent, lookup t child with
  | some i, some j =>
    let c := t.table j
    if parent = child ∨ c.state = .unused ∨ c.state = .zombie ∨ c.parent ≠ parent ∨
        ¬capabilityValid mask ∨ ¬hasCapability t parent capDelegate ∨
        ¬hasCapability t parent mask ∨ mask &&& capDelegate ≠ 0 ∨
        c.capabilities &&& mask ≠ 0 then (-1, t)
    else
      let t := t.setProc j { c with capabilities := c.capabilities ||| mask }
      (0, t.setProc i { t.table i with capabilities := (t.table i).capabilities &&& ~~~mask })
  | _, _ => (-1, t)

def setAuditUid (t : Table) (pid : Nat) (uid : UInt32) : Int × Table :=
  match lookup t pid with
  | none => (-1, t)
  | some i =>
    if ¬hasCapability t pid capAuditAdmin then (-1, t)
    else (0, { t with auditUids := update t.auditUids i uid })

def processExit (t : Table) (pid status : Nat) : Int × Table :=
  match lookup t pid with
  | none => (-1, t)
  | some i =>
    if pid = 0 ∨ (t.table i).state = .zombie then (-1, t)
    else (0, t.setProc i { t.table i with exitStatus := status, state := .zombie })

/-- The slots that the loop of `wait_find_locked` takes for children of `parent`. -/
def children (t : Table) (parent wanted : Nat) : List Slot :=
  (List.finRange processMax).filter fun i =>
    decide (i ≠ 0 ∧ t.live i ∧ (t.table i).parent = parent ∧
      (wanted = anyPid ∨ (t.table i).pid = wanted))

def waitFind (t : Table) (parent wanted : Nat) : Option Slot :=
  (children t parent wanted).find? fun i => decide ((t.table i).state = .zombie)

/-- What a wait call reports: its return value, and the status and the pid of the child
that was reaped. -/
structure WaitResult where
  code : Int
  child : Option (Nat × Nat)

def waitReap (t : Table) (i : Slot) (threads : Nat) : WaitResult × Table :=
  if threads ≠ 0 then (⟨1, none⟩, t)
  else
    (⟨0, some ((t.table i).exitStatus, (t.table i).pid)⟩,
      { t.wipe i with liveCount := t.liveCount - 1 })

def processWait (t : Table) (parent wanted threads : Nat) : WaitResult × Table :=
  if children t parent wanted = [] then (⟨2, none⟩, t)
  else
    match waitFind t parent wanted with
    | none => (⟨1, none⟩, t)
    | some i => waitReap t i threads

/-- `process_wait_blocking`: next to the result, whether the caller was marked blocked. -/
def processWaitBlocking (t : Table) (parent wanted threads : Nat) : WaitResult × Bool × Table :=
  if children t parent wanted = [] then (⟨2, none⟩, false, t)
  else
    match waitFind t parent wanted with
    | none => (⟨1, none⟩, true, t)
    | some i => ((waitReap t i threads).1, false, (waitReap t i threads).2)

inductive Act
  | create (name : List UInt8) (parent : Nat) (fdsCloned : Bool)
  | fork (parent rip rsp : Nat) (ans : ForkAnswers)
  | exec (pid : Nat) (uid gid : UInt32) (setuidBit setgidBit : Bool)
  | setuid (pid : Nat) (uid : UInt32)
  | setgid (pid : Nat) (gid : UInt32)
  | setgroups (pid : Nat) (groups : List UInt32)
  | drop (pid : Nat) (mask : Capabilities)
  | delegate (parent child : Nat) (mask : Capabilities)
  | setAudit (pid : Nat) (uid : UInt32)
  | exit (pid status : Nat)
  | wait (parent wanted threads : Nat)
  | waitBlocking (parent wanted threads : Nat)

def step (t : Table) : Act → Table
  | .create name parent fds => (createLocked t name parent fds).2
  | .fork parent rip rsp ans => (processFork t parent rip rsp ans).2
  | .exec pid uid gid su sg => (applyExecCredentials t pid uid gid su sg).2
  | .setuid pid uid => (processSetuid t pid uid).2
  | .setgid pid gid => (processSetgid t pid gid).2
  | .setgroups pid groups => (processSetgroups t pid groups).2
  | .drop pid mask => (dropCapabilities t pid mask).2
  | .delegate parent child mask => (delegateCapabilities t parent child mask).2
  | .setAudit pid uid => (setAuditUid t pid uid).2
  | .exit pid status => (processExit t pid status).2
  | .wait parent wanted threads => (processWait t parent wanted threads).2
  | .waitBlocking parent wanted threads => (processWaitBlocking t parent wanted threads).2.2

def reported (t : Table) : Act → Option (Nat × Nat)
  | .wait parent wanted threads =>
    (processWait t parent wanted threads).1.child.map fun c => (parent, c.2)
  | .waitBlocking parent wanted threads =>
    (processWaitBlocking t parent wanted threads).1.child.map fun c => (parent, c.2)
  | _ => none

def created (t : Table) : Act → Option (Nat × Nat)
  | .create name parent fds => (createLocked t name parent fds).1.map fun pid => (parent, pid)
  | .fork parent rip rsp ans => (processFork t parent rip rsp ans).1.map fun pid => (parent, pid)
  | _ => none

def Act.subjects : Act → List Nat
  | .exec pid .. | .setuid pid _ | .setgid pid _ | .setgroups pid _ | .drop pid _
  | .setAudit pid _ | .exit pid _ => [pid]
  | .delegate parent child _ => [parent, child]
  | .create .. | .fork .. | .wait .. | .waitBlocking .. => []

/-- A table with the history of its slots. Every process is numbered when it is created;
a slot keeps the number of its process and that of the process that created it. The
kernel has the number 0. -/
@[ext]
structure History where
  now : Table
  serial : Slot → Nat
  creator : Slot → Nat
  births : Nat

def History.start : History := ⟨processInit, fun _ => 0, fun _ => 0, 0⟩

/-- Record the birth of the process `pid` of `parent`, whose table is now `t`. -/
def History.record (h : History) (t : Table) (parent pid : Nat) : History :=
  match lookup t pid with
  | none => { h with now := t }
  | some i =>
    { now := t
      serial := update h.serial i (h.births + 1)
      creator := update h.creator i (((lookup h.now parent).map h.serial).getD 0)
      births := h.births + 1 }

def History.step (h : History) (a : Act) : History :=
  match created h.now a with
  | some (parent, pid) => h.record (ProcTable.step h.now a) parent pid
  | none => { h with now := ProcTable.step h.now a }

def History.run (h : History) (acts : List Act) : History := acts.foldl History.step h

end RixuriOS.ProcTable
