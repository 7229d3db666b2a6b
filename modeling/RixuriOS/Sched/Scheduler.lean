import RixuriOS.Sched.RunQueue
import RixuriOS.Sched.Thread
import RixuriOS.Sync.WaitQueue

/-!
# The scheduler

`sched/scheduler.c`: 32 task slots, a run queue per CPU and the transitions that
move tasks between them. Every transition runs under `sched_lock` and is one
step on the state `Scheduler`; what happens after the lock is released (the
stack switch, wakeup interprocessor interrupts, log output) is not part of it.
`bsp` is the value of `smp_bsp_index()`, negative while the CPU map is not set
up. A CPU argument is the value of `sched_cpu()` in the caller.

The mask of a CPU's run queue is a cache of which slots the CPU may pick. The
source compares cache and task table before every pick and halts the machine
when they differ; the transitions that do so return `none` for the halt.
-/

namespace RixuriOS.Sched

open WaitQueue (WaitHandle)
open Function

abbrev maxCpus : Nat := 64

scoped instance : NeZero maxCpus := ⟨by decide⟩

abbrev CpuId := Fin maxCpus

inductive TaskState where
  | unused
  | runnable
  | running
  | dead
  | blocked
  deriving DecidableEq, Repr

/-- `rix_task_t` without the saved register state and the entry parameters, which
no transition reads. -/
structure Task where
  id : Nat
  state : TaskState
  tid : Nat
  processPid : Nat
  apOk : Bool
  affinity : BitVec 64
  runCpu : Nat
  migrations : Nat
  prio : Nat
  runTicks : Nat
  stamp : Nat
  voluntary : Nat
  involuntary : Nat
  waitWq : Option Nat
  waitHandle : WaitHandle

/-- The per-CPU rows: `cpu_current`, `cpu_rq`, `cpu_need_resched`,
`cpu_quantum_left`, `cpu_preempt_depth`, `cpu_in_idle` and `cpu_idle_valid`. -/
structure Cpu where
  current : Slot
  rq : RunQueue
  needResched : Bool
  quantumLeft : Nat
  preemptDepth : Nat
  inIdle : Bool
  idleValid : Bool

structure Scheduler where
  ticks : Nat
  nextId : Nat
  tasks : Slot → Task
  cpus : CpuId → Cpu
  threads : ThreadTable
  /-- The wait queues by address. -/
  queues : Nat → WaitQueue.Queue

def neverRan : Nat := 2 ^ 32 - 1

def preemptQuantum : Nat := 10

def prioMax : Nat := 1

namespace Scheduler

def modTask (s : Scheduler) (i : Slot) (f : Task → Task) : Scheduler :=
  { s with tasks := update s.tasks i (f (s.tasks i)) }

def modCpu (s : Scheduler) (c : CpuId) (f : Cpu → Cpu) : Scheduler :=
  { s with cpus := update s.cpus c (f (s.cpus c)) }

def setRq (s : Scheduler) (c : CpuId) (rq : RunQueue) : Scheduler :=
  s.modCpu c fun p => { p with rq := rq }

end Scheduler

section Cache

variable (bsp : Int)

def rqCpuIsBsp (c : CpuId) : Bool := (c.val : Int) = bsp

def rqEligible (s : Scheduler) (c : CpuId) (i : Slot) : Bool :=
  if (s.tasks i).affinity &&& (1#64 <<< c.val) = 0 then false
  else if rqCpuIsBsp bsp c then true
  else i ≠ 0 ∧ (s.tasks i).processPid = 0 ∧ (s.tasks i).apOk

def rqAddEligible (s : Scheduler) (i : Slot) : Scheduler :=
  { s with
    cpus := fun c =>
      if rqEligible bsp s c i then { s.cpus c with rq := rqAdd (s.cpus c).rq i } else s.cpus c }

def rqRemoveAll (s : Scheduler) (i : Slot) : Scheduler :=
  { s with cpus := fun c => { s.cpus c with rq := rqRemove (s.cpus c).rq i } }

def rqResync (s : Scheduler) (i : Slot) : Scheduler :=
  let s := rqRemoveAll s i
  if (s.tasks i).state = .runnable then rqAddEligible bsp s i else s

/-- What bit `i` of the mask of `c` should be: the `want` of `rq_verify_locked`. -/
def rqWant (s : Scheduler) (c : CpuId) (i : Slot) : Bool :=
  (s.tasks i).state = .runnable ∧ rqEligible bsp s c i

/-- `rq_verify_locked`: true when it falls through, false when it finds a drift
and enters its halt loop. -/
def rqVerify (s : Scheduler) : Bool :=
  (List.finRange maxCpus).all fun c =>
    (List.finRange rqSlots).all fun i => rqContains (s.cpus c).rq i == rqWant bsp s c i

def himask (s : Scheduler) : BitVec 32 :=
  (List.finRange rqSlots).foldl (fun m i => if (s.tasks i).prio ≠ 0 then m ||| slotBit i else m) 0

/-- The first loop of `sched_pick_locked`, over the CPU's own run queue: a stale
bit is dropped and the pick repeated. -/
def pickOwn (me : CpuId) (hi : BitVec 32) : Nat → Scheduler → Option Slot × Scheduler
  | 0, s => (none, s)
  | n + 1, s =>
    let r := rqPick (s.cpus me).rq hi
    match r.1 with
    | none => (none, s.setRq me r.2)
    | some i =>
      if rqWant bsp s me i then (some i, s.setRq me r.2)
      else pickOwn me hi n (s.setRq me (rqRemove r.2 i))

def pickSteal (me : CpuId) (hi : BitVec 32) (s : Scheduler) :
    Nat → RunQueue → Option (Slot × RunQueue)
  | 0, _ => none
  | n + 1, tmp =>
    let r := rqPick tmp hi
    match r.1 with
    | none => none
    | some i =>
      if rqWant bsp s me i then some (i, r.2)
      else pickSteal me hi s n { r.2 with mask := r.2.mask &&& ~~~slotBit i }

def bspCpu : Option CpuId :=
  if h : 0 ≤ bsp ∧ bsp.toNat < maxCpus then some ⟨bsp.toNat, h.2⟩ else none

def schedPick (s : Scheduler) (me : CpuId) (old : Slot) : Slot × Scheduler :=
  let hi := himask s
  let own := pickOwn bsp me hi rqSlots s
  match own.1 with
  | some i => (i, own.2)
  | none =>
    let s := own.2
    if rqCpuIsBsp bsp me then (old, s)
    else match bspCpu bsp with
      | none => (old, s)
      | some b =>
        let tmp := { (s.cpus me).rq with mask := (s.cpus b).rq.mask }
        match pickSteal bsp me hi s rqSlots tmp with
        | none => (old, s)
        | some (i, rq) =>
          (i, s.setRq me
            { (s.cpus me).rq with cursor := rq.cursor, hipriStreak := rq.hipriStreak })

end Cache

section Transitions

variable (bsp : Int)

/-- The `uint64_t` length of a closed RUNNING interval, added to `run_ticks`. -/
def closeInterval (now : Nat) (t : Task) : Task :=
  { t with runTicks := (t.runTicks + (now + 2 ^ 64 - t.stamp)) % 2 ^ 64 }

/-- `scheduler_init`, over whatever the tables held before; the wait bindings are
not touched. -/
def schedulerInit (procs : ProcessLookup) (s : Scheduler) : Scheduler :=
  let threads := threadAlloc procs threadTableInit 0
  { ticks := 0
    nextId := 1
    tasks := fun i =>
      { s.tasks i with
        id := 0
        state := if i = 0 then .running else .unused
        tid := if i = 0 then threads.1.toOption.getD 0 else 0
        processPid := 0
        apOk := false
        affinity := BitVec.allOnes 64
        runCpu := neverRan
        migrations := 0
        prio := 0
        runTicks := 0
        stamp := 0
        voluntary := 0
        involuntary := 0 }
    cpus := fun _ =>
      { current := 0
        rq := rqInit
        needResched := false
        quantumLeft := preemptQuantum
        preemptDepth := 0
        inIdle := false
        idleValid := false }
    threads := threads.2
    queues := s.queues }

/-- `task_alloc`: the first unused or dead slot past slot 0. -/
def taskAlloc (s : Scheduler) : Option Slot :=
  (List.finRange rqSlots).find? fun i =>
    i ≠ 0 ∧ ((s.tasks i).state = .unused ∨ (s.tasks i).state = .dead)

/-- The fields that `task_alloc` and a creator set on the slot they take. -/
def freshTask (id pid : Nat) : Task where
  id := id
  state := .runnable
  tid := 0
  processPid := pid
  apOk := false
  affinity := BitVec.allOnes 64
  runCpu := neverRan
  migrations := 0
  prio := 0
  runTicks := 0
  stamp := 0
  voluntary := 0
  involuntary := 0
  waitWq := none
  waitHandle := .none

/-- The common part of the creators under the lock: take a slot, fill it, bind a
thread (`task_bind_thread_locked`) and join the masks. `full` is the creator's
error code for a full task table. -/
def createTask (procs : ProcessLookup) (s : Scheduler) (pid : Nat) (full : Int) :
    Except Int Nat × Scheduler :=
  match taskAlloc s with
  | none => (.error full, s)
  | some i =>
    let id := takeId s.nextId
    let s := { s.modTask i (fun _ => freshTask id.1 pid) with nextId := id.2 }
    let bound := threadAlloc procs s.threads pid
    let s := { s with threads := bound.2 }
    match bound.1 with
    | .error _ => (.error (-4), s.modTask i fun t => { t with state := .unused, tid := 0 })
    | .ok tid => (.ok id.1, rqAddEligible bsp (s.modTask i fun t => { t with tid := tid }) i)

/-- A process that can run user code: what the user-task creators check. -/
def userProcess (procs : ProcessLookup) (pid : Nat) : Bool :=
  match procs pid with
  | none => false
  | some p => p.pml4Phys ≠ 0 ∧ p.kernelStack ≠ 0

/-- `scheduler_create_kernel_thread`; `entry` is the address of the thread body. -/
def createKernelThread (procs : ProcessLookup) (s : Scheduler) (entry : Nat) :
    Except Int Nat × Scheduler :=
  if entry = 0 then (.error (-1), s) else createTask bsp procs s 0 (-1)

def createUserProcess (procs : ProcessLookup) (s : Scheduler) (pid entry userStack : Nat) :
    Except Int Nat × Scheduler :=
  if pid = 0 ∨ entry = 0 ∨ userStack = 0 then (.error (-1), s)
  else if !userProcess procs pid then (.error (-2), s)
  else createTask bsp procs s pid (-3)

def createForkChild (procs : ProcessLookup) (s : Scheduler) (pid entry userStack : Nat) :
    Except Int Nat × Scheduler :=
  if pid = 0 ∨ entry = 0 ∨ userStack = 0 then (.error (-1), s)
  else if !userProcess procs pid then (.error (-1), s)
  else createTask bsp procs s pid (-1)

def createForkChildContext (procs : ProcessLookup) (s : Scheduler) (pid context : Nat) :
    Except Int Nat × Scheduler :=
  if pid = 0 ∨ context = 0 then (.error (-1), s)
  else if !userProcess procs pid then (.error (-1), s)
  else createTask bsp procs s pid (-1)

def findTask (s : Scheduler) (id : Nat) : Option Slot :=
  (List.finRange rqSlots).find? fun i =>
    i ≠ 0 ∧ (s.tasks i).id = id ∧ (s.tasks i).state ≠ .unused

def taskAllowAp (s : Scheduler) (id : Nat) : Int × Scheduler :=
  if id = 0 then (-1, s)
  else match findTask s id with
    | none => (-1, s)
    | some i =>
      if (s.tasks i).processPid = 0 then
        (0, rqResync bsp (s.modTask i fun t => { t with apOk := true }) i)
      else (-1, s)

def setAffinity (s : Scheduler) (id : Nat) (mask : BitVec 64) : Int × Scheduler :=
  if id = 0 ∨ mask = 0 then (-1, s)
  else match bspCpu bsp with
    | none => (-1, s)
    | some b =>
      match findTask s id with
      | none => (-1, s)
      | some i =>
        let baseAllowed : BitVec 64 :=
          if (s.tasks i).processPid = 0 ∧ (s.tasks i).apOk then BitVec.allOnes 64
          else 1#64 <<< b.val
        if mask &&& baseAllowed = 0 then (-1, s)
        else (0, rqResync bsp (s.modTask i fun t => { t with affinity := mask }) i)

def setPriority (s : Scheduler) (id level : Nat) : Int × Scheduler :=
  if id = 0 ∨ level > prioMax then (-1, s)
  else match findTask s id with
    | none => (-1, s)
    | some i =>
      if level > 0 ∧ (s.tasks i).processPid ≠ 0 then (-1, s)
      else (0, s.modTask i fun t => { t with prio := level })

def noteClaim (me : CpuId) (t : Task) : Task :=
  { t with
    migrations :=
      if t.runCpu ≠ neverRan ∧ t.runCpu ≠ me then (t.migrations + 1) % 2 ^ 32 else t.migrations
    runCpu := me }

/-- The claim of a picked slot, shared by the yield and the AP idle loop: RUNNING,
current on `me`, in no mask, accounted and stamped. -/
def claim (s : Scheduler) (me : CpuId) (next : Slot) : Scheduler :=
  let s := s.modTask next fun t => { t with state := .running }
  let s := s.modCpu me fun p => { p with current := next }
  let s := rqRemoveAll s next
  let s := s.modTask next (noteClaim me)
  s.modTask next fun t => { t with stamp := s.ticks }

/-- What a CPU does once `scheduler_yield` has released the lock. -/
inductive Switch where
  | stay
  | toIdle
  | toTask (old next : Slot)
  deriving DecidableEq, Repr

/-- The yielding task rejoins the contending set before the pick. -/
def yieldOld (s : Scheduler) (old : Slot) : Scheduler :=
  if (s.tasks old).state = .running then
    rqAddEligible bsp
      (s.modTask old fun t => closeInterval s.ticks { t with state := .runnable }) old
  else s

/-- The `next == old` branch: a task that was flipped takes its slot back. -/
def reclaimOld (s : Scheduler) (old : Slot) : Scheduler :=
  let s := rqRemoveAll (s.modTask old fun t => { t with state := .running }) old
  s.modTask old fun t => { t with stamp := s.ticks }

def countYield (armed : Bool) (t : Task) : Task :=
  if armed then { t with involuntary := (t.involuntary + 1) % 2 ^ 32 }
  else { t with voluntary := (t.voluntary + 1) % 2 ^ 32 }

/-- `scheduler_yield` up to the release of the lock. -/
def schedulerYield (s : Scheduler) (me : CpuId) : Option (Switch × Scheduler) :=
  let armed := (s.cpus me).needResched
  let s := s.modCpu me fun p => { p with needResched := false, quantumLeft := preemptQuantum }
  let old := (s.cpus me).current
  let flipped := decide ((s.tasks old).state = .running)
  let s := yieldOld bsp s old
  if !rqVerify bsp s then none
  else
    let picked := schedPick bsp s me old
    let s := picked.2
    if picked.1 = old then
      let s := if flipped then reclaimOld s old else s
      if (s.tasks old).state = .running then some (.stay, s)
      else if (s.cpus me).idleValid then some (.toIdle, s)
      else some (.stay, s)
    else
      let s := if flipped then s.modTask old (countYield armed) else s
      some (.toTask old picked.1, claim s me picked.1)

/-- One round of the loop of `scheduler_ap_idle` up to the release of the lock;
`isBsp` is the flag of the caller's row of the CPU map, on which the source parks
for good. -/
def schedulerApIdle (s : Scheduler) (me : CpuId) (isBsp : Bool) : Option (Switch × Scheduler) :=
  if isBsp then some (.stay, s)
  else
    let s := s.modCpu me fun p => { p with idleValid := true, inIdle := false }
    let old := (s.cpus me).current
    if !rqVerify bsp s then none
    else
      let picked := schedPick bsp s me old
      let s := picked.2
      if picked.1 = old ∨ (s.tasks picked.1).state ≠ .runnable then
        some (.stay, s.modCpu me fun p => { p with inIdle := true })
      else
        some (.toTask old picked.1, claim s me picked.1)

def dropWaiter (s : Scheduler) (i : Slot) : Scheduler :=
  match (s.tasks i).waitWq with
  | none => s
  | some wq =>
    { s.modTask i (fun t => { t with waitWq := none, waitHandle := .none }) with
      queues := update s.queues wq
        (WaitQueue.remove (s.queues wq) (s.tasks i).waitHandle) }

def retire (now : Nat) (t : Task) : Task :=
  { (if t.state = .running then closeInterval now t else t) with state := .dead }

def dropThread (s : Scheduler) (i : Slot) : Scheduler :=
  if (s.tasks i).tid ≠ 0 then
    { s.modTask i (fun t => { t with tid := 0 }) with
      threads := threadFree s.threads (s.tasks i).tid }
  else s

def taskMarkDead (s : Scheduler) (i : Slot) : Scheduler :=
  rqRemoveAll (dropThread (dropWaiter (s.modTask i (retire s.ticks)) i) i) i

/-- `scheduler_wait_prepare` on the queue at `wq`. -/
def waitPrepare (s : Scheduler) (me : CpuId) (wq : Nat) : Int × Scheduler :=
  let i := (s.cpus me).current
  if (s.tasks i).waitWq.isSome then (-1, s)
  else match WaitQueue.prepare (s.queues wq) (s.tasks i).id with
    | none => (-1, s)
    | some (handle, q) =>
      (0, { s.modTask i (fun t => { t with waitWq := some wq, waitHandle := handle }) with
            queues := update s.queues wq q })

def blockCurrent (s : Scheduler) (me : CpuId) : Scheduler :=
  let i := (s.cpus me).current
  let s := s.modTask i fun t =>
    if t.state = .running then { closeInterval s.ticks t with state := .blocked }
    else if t.state = .runnable then { t with state := .blocked }
    else t
  rqRemoveAll s i

def waitTake (s : Scheduler) (me : CpuId) : Int × Scheduler :=
  let i := (s.cpus me).current
  match (s.tasks i).waitWq with
  | none => (1, s)
  | some wq =>
    let r := WaitQueue.takeWakeup (s.queues wq) (s.tasks i).waitHandle
    (r.1, dropWaiter { s with queues := update s.queues wq r.2 } i)

def wakeTask (s : Scheduler) (i : Slot) : Scheduler :=
  rqAddEligible bsp (s.modTask i fun t => { t with state := .runnable }) i

def waitAbort (s : Scheduler) (me : CpuId) : Scheduler :=
  let i := (s.cpus me).current
  let s := dropWaiter s i
  if (s.tasks i).state = .blocked then wakeTask bsp s i else s

/-- The loop shared by the two wakes: every blocked task that `sel` selects. -/
def wakeWhere (sel : Task → Bool) (s : Scheduler) : Scheduler :=
  (List.finRange rqSlots).foldl
    (fun s i => if (s.tasks i).state = .blocked ∧ sel (s.tasks i) then wakeTask bsp s i else s) s

def wakeQueue (s : Scheduler) (wq : Nat) : Scheduler :=
  wakeWhere bsp (fun t => t.waitWq = some wq)
    { s with queues := update s.queues wq (WaitQueue.wakeAll (s.queues wq)) }

def wakePid (s : Scheduler) (pid : Nat) : Scheduler :=
  wakeWhere bsp (fun t => t.processPid = pid) s

def schedulerTick (s : Scheduler) : Scheduler := { s with ticks := (s.ticks + 1) % 2 ^ 64 }

def runnableCount (s : Scheduler) : Nat :=
  (List.finRange rqSlots).countP fun i =>
    (s.tasks i).state = .runnable ∨ (s.tasks i).state = .running

def apEligibleRunnable (s : Scheduler) : Bool :=
  (List.finRange rqSlots).any fun i =>
    i ≠ 0 ∧ (s.tasks i).state = .runnable ∧ (s.tasks i).processPid = 0 ∧ (s.tasks i).apOk

/-- One quantum row of `scheduler_preempt_tick` with `preempt_arm_cpu`: count the
quantum down and, when it has run out, reload it and arm the CPU. -/
def tickCpu (s : Scheduler) (c : CpuId) : Scheduler :=
  s.modCpu c fun p =>
    if p.quantumLeft - 1 ≠ 0 then { p with quantumLeft := p.quantumLeft - 1 }
    else
      { p with
        quantumLeft := preemptQuantum
        needResched := if p.preemptDepth ≠ 0 ∨ runnableCount s < 2 then p.needResched else true }

def preemptTick (s : Scheduler) (me : CpuId) (online : List CpuId) : Scheduler :=
  if !rqCpuIsBsp bsp me then s
  else
    let s := tickCpu s me
    if online.length ≤ 1 ∨ !apEligibleRunnable s then s
    else (List.finRange maxCpus).foldl
      (fun s c => if rqCpuIsBsp bsp c ∨ c ∉ online then s else tickCpu s c) s

end Transitions

inductive Action where
  | createKernelThread (entry : Nat)
  | createUserProcess (pid entry userStack : Nat)
  | createForkChild (pid entry userStack : Nat)
  | createForkChildContext (pid context : Nat)
  | yield (me : CpuId)
  | apIdle (me : CpuId) (isBsp : Bool)
  | waitPrepare (me : CpuId) (wq : Nat)
  | blockCurrent (me : CpuId)
  | waitTake (me : CpuId)
  | waitAbort (me : CpuId)
  | wakeQueue (wq : Nat)
  | wakePid (pid : Nat)
  | allowAp (id : Nat)
  | setAffinity (id : Nat) (mask : BitVec 64)
  | setPriority (id level : Nat)
  | detachPid (pid : Nat)
  | death (me : CpuId)
  | tick
  | preemptTick (me : CpuId) (online : List CpuId)

/-- One transition, with the process table as it is at that moment. A halted
machine is `none`. -/
def step (bsp : Int) (s : Scheduler) : ProcessLookup × Action → Option Scheduler
  | (procs, .createKernelThread entry) => some (createKernelThread bsp procs s entry).2
  | (procs, .createUserProcess pid entry userStack) =>
    some (createUserProcess bsp procs s pid entry userStack).2
  | (procs, .createForkChild pid entry userStack) =>
    some (createForkChild bsp procs s pid entry userStack).2
  | (procs, .createForkChildContext pid context) =>
    some (createForkChildContext bsp procs s pid context).2
  | (_, .yield me) => (schedulerYield bsp s me).map Prod.snd
  | (_, .apIdle me isBsp) => (schedulerApIdle bsp s me isBsp).map Prod.snd
  | (_, .waitPrepare me wq) => some (waitPrepare s me wq).2
  | (_, .blockCurrent me) => some (blockCurrent s me)
  | (_, .waitTake me) => some (waitTake s me).2
  | (_, .waitAbort me) => some (waitAbort bsp s me)
  | (_, .wakeQueue wq) => some (wakeQueue bsp s wq)
  | (_, .wakePid pid) => some (wakePid bsp s pid)
  | (_, .allowAp id) => some (taskAllowAp bsp s id).2
  | (_, .setAffinity id mask) => some (setAffinity bsp s id mask).2
  | (_, .setPriority id level) => some (setPriority s id level).2
  | (_, .detachPid pid) => some { s with threads := threadDetachPid s.threads pid }
  | (_, .death me) => some (taskMarkDead s (s.cpus me).current)
  | (_, .tick) => some (schedulerTick s)
  | (_, .preemptTick me online) => some (preemptTick bsp s me online)

def run (bsp : Int) (s : Scheduler) (acts : List (ProcessLookup × Action)) : Option Scheduler :=
  acts.foldlM (step bsp) s

end RixuriOS.Sched
