import RixuriOS.Lib.GuardedRun
import RixuriOS.Sched.Scheduler

/-!
# Stack switches

What `sched/scheduler.c` does once it has released `sched_lock`. A selection, in
`scheduler_yield` or in a round of `scheduler_ap_idle`, leaves its CPU with a
stack switch to perform. `rix_context_switch` (`sched/switch.S`) then stores the
stack pointer of the stack the CPU is on in one place and loads another one.
Other CPUs may take the lock between the two.

A stack pointer is the stack it points into and a depth. Every task slot has a
stack of its own, and every CPU has the stack its idle loop runs on; the stack of
slot 0 is the boot stack of the BSP. The log of a machine lists, newest first,
which task was created, switched in and switched out; no transition reads it.
-/

namespace RixuriOS.Sched

open Function

inductive Stack where
  | task (i : Slot)
  | idle (c : CpuId)
  deriving DecidableEq, Repr

structure StackPtr where
  stack : Stack
  depth : Nat
  deriving DecidableEq, Repr

inductive SaveArea where
  /-- `&tasks[old].rsp` -/
  | task (old : Slot)
  /-- `&cpu_idle_rsp[me]` -/
  | idleRsp
  /-- `&cpu_idle_tmp[me]` -/
  | idleTmp
  deriving DecidableEq, Repr

inductive LoadFrom where
  /-- `tasks[next].rsp`, read when the switch is made. -/
  | task (next : Slot)
  /-- A value read under the lock. -/
  | value (sp : StackPtr)
  deriving DecidableEq, Repr

structure PendingSwitch where
  save : SaveArea
  load : LoadFrom
  deriving DecidableEq, Repr

inductive Event where
  | created (i : Slot)
  | switchedIn (c : CpuId) (i : Slot) (sp : StackPtr)
  | switchedOut (c : CpuId) (i : Slot) (sp : StackPtr)
  deriving DecidableEq, Repr

/-- The scheduler with the saved stack pointers `tasks[i].rsp`, `cpu_idle_rsp` and
`cpu_idle_tmp`, the stack each CPU executes on and the switch it has to make. -/
structure Machine where
  sched : Scheduler
  rsp : Slot → StackPtr
  idleRsp : CpuId → StackPtr
  idleTmp : CpuId → StackPtr
  exec : CpuId → Stack
  pending : CpuId → Option PendingSwitch
  log : List Event

/-- The pointer that `task_init_stack` leaves: eight words below the top. -/
def freshSp (i : Slot) : StackPtr := ⟨.task i, 64⟩

/-- After `scheduler_init` on the CPU `boot`, with the other CPUs in their idle
loops. Null stack pointers are at depth 0. -/
def bootMachine (boot : CpuId) (procs : ProcessLookup) (mem : Scheduler) : Machine where
  sched := schedulerInit procs mem
  rsp i := ⟨.task i, 0⟩
  idleRsp c := ⟨.idle c, 0⟩
  idleTmp c := ⟨.idle c, 0⟩
  exec c := if c = boot then .task 0 else .idle c
  pending _ := none
  log := []

/-- The slot that `task_alloc` hands to a creator whose arguments pass. -/
def Action.takesSlot (procs : ProcessLookup) (s : Scheduler) : Action → Option Slot
  | .createKernelThread entry => if entry = 0 then none else taskAlloc s
  | .createUserProcess pid entry userStack | .createForkChild pid entry userStack =>
    if pid = 0 ∨ entry = 0 ∨ userStack = 0 ∨ !userProcess procs pid then none else taskAlloc s
  | .createForkChildContext pid context =>
    if pid = 0 ∨ context = 0 ∨ !userProcess procs pid then none else taskAlloc s
  | _ => none

def shouldYieldFromIrq (s : Scheduler) (me : CpuId) : Bool :=
  (s.cpus me).preemptDepth = 0 ∧ (s.cpus me).needResched ∧ !(s.cpus me).inIdle ∧
    (s.tasks (s.cpus me).current).state = .running ∧ 2 ≤ runnableCount s

def yieldSwitch (idle : StackPtr) : Switch → Option PendingSwitch
  | .stay => none
  | .toIdle => some ⟨.idleTmp, .value idle⟩
  | .toTask old next => some ⟨.task old, .task next⟩

def apIdleSwitch : Switch → Option PendingSwitch
  | .toTask _ next => some ⟨.idleRsp, .task next⟩
  | _ => none

namespace Machine

/-- The CPU executes a task and has no switch to make, so it can call into the
scheduler. -/
def inTask (m : Machine) (c : CpuId) : Bool :=
  (m.pending c).isNone && match m.exec c with
    | .task _ => true
    | .idle _ => false

def inIdleLoop (m : Machine) (c : CpuId) : Bool :=
  (m.pending c).isNone && m.exec c = .idle c

def select (m : Machine) (me : CpuId) (s : Scheduler) (w : Option PendingSwitch) : Machine :=
  { m with sched := s, pending := update m.pending me w }

def yieldSelect (m : Machine) (bsp : Int) (me : CpuId) : Option Machine :=
  (schedulerYield bsp m.sched me).map fun r =>
    m.select me r.2 (yieldSwitch (m.idleRsp me) r.1)

/-- A round of `scheduler_ap_idle` up to the stack switch. It publishes the
stack pointer of the loop first. -/
def apIdleSelect (m : Machine) (bsp : Int) (me : CpuId) (isBsp : Bool) : Option Machine :=
  (schedulerApIdle bsp m.sched me isBsp).map fun r =>
    { m.select me r.2 (apIdleSwitch r.1) with
      idleRsp := if isBsp then m.idleRsp else update m.idleRsp me ⟨.idle me, 0⟩ }

def initStack (m : Machine) : Option Slot → Machine
  | none => m
  | some i => { m with rsp := update m.rsp i (freshSp i), log := .created i :: m.log }

def plain (m : Machine) (bsp : Int) (procs : ProcessLookup) (a : Action) : Option Machine :=
  (step bsp m.sched (procs, a)).map fun s =>
    { m.initStack (a.takesSlot procs m.sched) with sched := s }

/-- The transitions under the lock. Those on the current task of a CPU are called
by that task, the rounds of the idle loop by that loop; wakes, the timer and what
names its task by an id come from anywhere. -/
def lockedStep (m : Machine) (bsp : Int) (procs : ProcessLookup) : Action → Option Machine
  | .yield me => if m.inTask me then m.yieldSelect bsp me else none
  | .apIdle me isBsp => if m.inIdleLoop me then m.apIdleSelect bsp me isBsp else none
  | .waitPrepare me wq => if m.inTask me then m.plain bsp procs (.waitPrepare me wq) else none
  | .blockCurrent me => if m.inTask me then m.plain bsp procs (.blockCurrent me) else none
  | .waitTake me => if m.inTask me then m.plain bsp procs (.waitTake me) else none
  | .waitAbort me => if m.inTask me then m.plain bsp procs (.waitAbort me) else none
  | .death me => if m.inTask me then m.plain bsp procs (.death me) else none
  | a => m.plain bsp procs a

def loaded (m : Machine) : LoadFrom → StackPtr
  | .task next => m.rsp next
  | .value sp => sp

def leaves (m : Machine) (c : CpuId) (depth : Nat) : List Event :=
  match m.exec c with
  | .task i => [.switchedOut c i ⟨.task i, depth⟩]
  | .idle _ => []

def enters (m : Machine) (c : CpuId) : LoadFrom → List Event
  | .task next => [.switchedIn c next (m.rsp next)]
  | .value _ => []

/-- `rix_context_switch` on a CPU whose stack is at the given depth. -/
def contextSwitch (m : Machine) (c : CpuId) (depth : Nat) (w : PendingSwitch) : Machine :=
  let saved : StackPtr := ⟨m.exec c, depth⟩
  { m with
    rsp := match w.save with
      | .task old => update m.rsp old saved
      | _ => m.rsp
    idleRsp := if w.save = .idleRsp then update m.idleRsp c saved else m.idleRsp
    idleTmp := if w.save = .idleTmp then update m.idleTmp c saved else m.idleTmp
    exec := update m.exec c (m.loaded w.load).stack
    pending := update m.pending c none
    log := m.enters c w.load ++ (m.leaves c depth ++ m.log) }

end Machine

inductive Act where
  /-- A transition under the lock, with the process table at that moment. -/
  | locked (procs : ProcessLookup) (a : Action)
  /-- The yield on return from an interrupt that hit the idle loop of `me`. -/
  | irqYield (me : CpuId)
  /-- The stack switch that `me` has to make. -/
  | switch (me : CpuId) (depth : Nat)

/-- One step of some CPU; `none` when the step cannot be taken in this state, or
when it halts the machine. -/
def machineStep (bsp : Int) (m : Machine) : Act → Option Machine
  | .locked procs a => m.lockedStep bsp procs a
  | .irqYield me =>
    if m.inIdleLoop me && shouldYieldFromIrq m.sched me then m.yieldSelect bsp me else none
  | .switch me depth => (m.pending me).map (m.contextSwitch me depth)

def Act.selector : Act → Option CpuId
  | .locked _ (.yield me) | .locked _ (.apIdle me _) | .irqYield me => some me
  | _ => none

/-- A step in which a selection and its stack switch are one, the switch at the
given depth. -/
def atomicStep (bsp : Int) (m : Machine) (a : Act × Nat) : Option Machine :=
  (machineStep bsp m a.1).map fun m' =>
    match a.1.selector with
    | none => m'
    | some me =>
      match m'.pending me with
      | none => m'
      | some w => m'.contextSwitch me a.2 w

/-! ## What the log is asked for -/

/-- The last entry about the task is its switch-in: its run is not over. -/
def underWay (i : Slot) : List Event → Bool
  | [] => false
  | .switchedIn _ j _ :: log => j = i || underWay i log
  | .switchedOut _ j _ :: log => j ≠ i && underWay i log
  | .created j :: log => j ≠ i && underWay i log

def SavedFirst : List Event → Prop
  | [] => True
  | .switchedIn _ i _ :: log => underWay i log = false ∧ SavedFirst log
  | _ :: log => SavedFirst log

/-- The stack pointer at the most recent switch-out of the task since it was
created; `none` for a fresh task. -/
def lastOut (i : Slot) : List Event → Option StackPtr
  | [] => none
  | .switchedIn _ _ _ :: log => lastOut i log
  | .switchedOut _ j sp :: log => if j = i then some sp else lastOut i log
  | .created j :: log => if j = i then none else lastOut i log

/-- Every switch-in of a task that is not fresh loads the pointer of its most
recent switch-out. -/
def ResumesSaved : List Event → Prop
  | [] => True
  | .switchedIn _ i sp :: log => (∀ q, lastOut i log = some q → sp = q) ∧ ResumesSaved log
  | _ :: log => ResumesSaved log

def Machine.Exclusive (m : Machine) : Prop :=
  ∀ c d i, m.exec c = .task i → m.exec d = .task i → c = d

end RixuriOS.Sched
