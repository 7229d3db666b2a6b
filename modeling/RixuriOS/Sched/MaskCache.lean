import RixuriOS.Sched.Scheduler

/-!
# The run-queue masks are an exact cache

`MaskExact` says that bit `i` of the mask of CPU `c` is set exactly when slot
`i` is RUNNABLE and eligible on `c`. A transition first changes one slot's task
and then repairs that slot's bits, so the work is done by `ExactExcept i`,
exactness at every other slot: it survives any change of slot `i`, and the two
ways the source has of repairing slot `i` (drop its bits everywhere, or add the
eligible ones) bring exactness back.
-/

namespace RixuriOS.Sched

/-- The part of a task that its mask bits depend on. -/
structure Task.SameGate (t t' : Task) : Prop where
  state : t'.state = t.state
  processPid : t'.processPid = t.processPid
  apOk : t'.apOk = t.apOk
  affinity : t'.affinity = t.affinity

def SlotExact (bsp : Int) (s : Scheduler) (i : Slot) : Prop :=
  ∀ c, rqContains (s.cpus c).rq i = rqWant bsp s c i

def MaskExact (bsp : Int) (s : Scheduler) : Prop := ∀ i, SlotExact bsp s i

def ExactExcept (bsp : Int) (i : Slot) (s : Scheduler) : Prop := ∀ j, j ≠ i → SlotExact bsp s j

def Absent (i : Slot) (s : Scheduler) : Prop := ∀ c, rqContains (s.cpus c).rq i = false

variable {bsp : Int} {s s' : Scheduler} {i : Slot}

theorem rqVerify_iff : rqVerify bsp s = true ↔ MaskExact bsp s := by
  simp only [rqVerify, List.all_eq_true, List.mem_finRange, true_implies, beq_iff_eq, MaskExact,
    SlotExact]
  exact ⟨fun h i c => h c i, fun h c i => h i c⟩

theorem Task.SameGate.refl (t : Task) : Task.SameGate t t := ⟨rfl, rfl, rfl, rfl⟩

theorem rqWant_congr (hgate : (s.tasks i).SameGate (s'.tasks i)) (c : CpuId) :
    rqWant bsp s' c i = rqWant bsp s c i := by
  unfold rqWant rqEligible
  rw [hgate.state, hgate.processPid, hgate.apOk, hgate.affinity]

theorem SlotExact.congr (h : SlotExact bsp s i) (hgate : (s.tasks i).SameGate (s'.tasks i))
    (hbits : ∀ c, rqContains (s'.cpus c).rq i = rqContains (s.cpus c).rq i) :
    SlotExact bsp s' i := by
  intro c
  rw [hbits, h c, rqWant_congr hgate]

/-- A state with the same masks and gates everywhere: what a transition that only
does accounting leaves. -/
structure SameCache (s s' : Scheduler) : Prop where
  gate : ∀ i, (s.tasks i).SameGate (s'.tasks i)
  mask : ∀ c, (s'.cpus c).rq.mask = (s.cpus c).rq.mask

namespace SameCache

theorem refl (s : Scheduler) : SameCache s s := ⟨fun _ => .refl _, fun _ => rfl⟩

theorem trans {s₁ s₂ s₃ : Scheduler} (h : SameCache s₁ s₂) (h' : SameCache s₂ s₃) :
    SameCache s₁ s₃ where
  gate i := ⟨(h'.gate i).state.trans (h.gate i).state,
    (h'.gate i).processPid.trans (h.gate i).processPid,
    (h'.gate i).apOk.trans (h.gate i).apOk, (h'.gate i).affinity.trans (h.gate i).affinity⟩
  mask c := (h'.mask c).trans (h.mask c)

theorem rqContains (h : SameCache s s') (c : CpuId) (i : Slot) :
    rqContains (s'.cpus c).rq i = Sched.rqContains (s.cpus c).rq i := by
  rw [rqContains_eq, rqContains_eq, h.mask]

theorem maskExact (h : SameCache s s') (hs : MaskExact bsp s) : MaskExact bsp s' :=
  fun i => (hs i).congr (h.gate i) fun c => h.rqContains c i

theorem update {t : Task} (htasks : s'.tasks = Function.update s.tasks i t)
    (hgate : (s.tasks i).SameGate t) (hcpus : s'.cpus = s.cpus) : SameCache s s' where
  gate j := by
    rw [htasks]
    by_cases hj : j = i
    · subst hj
      simpa using hgate
    · simpa [hj] using .refl _
  mask c := by rw [hcpus]

theorem modCpu (c : CpuId) (f : Cpu → Cpu) (hf : (f (s.cpus c)).rq.mask = (s.cpus c).rq.mask) :
    SameCache s (s.modCpu c f) where
  gate _ := .refl _
  mask d := by
    by_cases hd : d = c
    · subst hd
      simpa [Scheduler.modCpu] using hf
    · simp [Scheduler.modCpu, hd]

end SameCache

theorem MaskExact.except (h : MaskExact bsp s) (i : Slot) : ExactExcept bsp i s := fun j _ => h j

theorem MaskExact.absent (h : MaskExact bsp s) (hi : (s.tasks i).state ≠ .runnable) :
    Absent i s := by
  intro c
  rw [h i c]
  simp [rqWant, hi]

theorem ExactExcept.modTask (h : ExactExcept bsp i s) (f : Task → Task) :
    ExactExcept bsp i (s.modTask i f) := by
  intro j hj
  refine (h j hj).congr ?_ fun _ => rfl
  simpa [Scheduler.modTask, hj] using .refl _

variable {c me : CpuId} {f : Cpu → Cpu} {rq : RunQueue}

theorem ExactExcept.modCpu (h : ExactExcept bsp i s) (hf : ∀ p, (f p).rq.mask = p.rq.mask) :
    ExactExcept bsp i (s.modCpu c f) := fun j hj =>
  (h j hj).congr (.refl _) fun d => (SameCache.modCpu c f (hf _)).rqContains d j

theorem MaskExact.modTask (h : MaskExact bsp s) {f : Task → Task}
    (hf : ∀ t, Task.SameGate t (f t)) : MaskExact bsp (s.modTask i f) :=
  SameCache.maskExact (s := s) (.update rfl (hf _) rfl) h

theorem MaskExact.modCpu (h : MaskExact bsp s) (hf : ∀ p, (f p).rq.mask = p.rq.mask) :
    MaskExact bsp (s.modCpu c f) :=
  (SameCache.modCpu c f (hf _)).maskExact h

/-- Dropping a slot that is not RUNNABLE from every mask restores exactness. -/
theorem ExactExcept.rqRemoveAll (h : ExactExcept bsp i s) (hi : (s.tasks i).state ≠ .runnable) :
    MaskExact bsp (rqRemoveAll s i) := by
  intro j
  by_cases hj : j = i
  · subst hj
    intro c
    simp [Sched.rqRemoveAll, rqContains_remove, rqWant, hi]
  · refine (h j hj).congr (.refl _) fun c => ?_
    simp [Sched.rqRemoveAll, rqContains_remove, hj]

/-- Adding a RUNNABLE slot that is in no mask to the eligible ones restores
exactness. -/
theorem ExactExcept.rqAddEligible (h : ExactExcept bsp i s) (habsent : Absent i s)
    (hi : (s.tasks i).state = .runnable) : MaskExact bsp (rqAddEligible bsp s i) := by
  intro j
  by_cases hj : j = i
  · subst hj
    intro c
    have hc := habsent c
    have hwant : rqWant bsp (Sched.rqAddEligible bsp s j) c j = rqEligible bsp s c j := by
      simp [rqWant, hi, rqEligible, Sched.rqAddEligible]
    rw [hwant]
    simp only [Sched.rqAddEligible]
    split_ifs with he
    · simp [rqContains_add, he]
    · simp [hc, he]
  refine (h j hj).congr (.refl _) fun c => ?_
  simp only [Sched.rqAddEligible]
  split_ifs with he
  · simp [rqContains_add, hj]
  · rfl

theorem rqRemoveAll_except (h : ExactExcept bsp i s) : ExactExcept bsp i (rqRemoveAll s i) := by
  intro j hj
  refine (h j hj).congr (.refl _) fun c => ?_
  simp [rqRemoveAll, rqContains_remove, hj]

theorem rqRemoveAll_absent : Absent i (rqRemoveAll s i) := by
  intro c
  simp [rqRemoveAll, rqContains_remove]

theorem ExactExcept.rqResync (h : ExactExcept bsp i s) : MaskExact bsp (rqResync bsp s i) := by
  rw [Sched.rqResync]
  split_ifs with hi
  · exact (rqRemoveAll_except h).rqAddEligible rqRemoveAll_absent hi
  · exact h.rqRemoveAll hi

/-! ## The pick -/

theorem setRq_sameCache (h : rq.mask = (s.cpus me).rq.mask) : SameCache s (s.setRq me rq) :=
  .modCpu me _ h

/-- With an exact cache the first pick from the own mask is good, so the loop over
stale bits ends at once and changes no mask. -/
theorem pickOwn_spec (h : MaskExact bsp s) (me : CpuId) (hi : BitVec 32) (n : Nat) :
    SameCache s (pickOwn bsp me hi n s).2 ∧
      ∀ j, (pickOwn bsp me hi n s).1 = some j → rqWant bsp s me j = true := by
  cases n with
  | zero => exact ⟨.refl s, fun j hj => by simp [pickOwn] at hj⟩
  | succ n =>
  rw [pickOwn]
  split
  · exact ⟨setRq_sameCache (rqPick_mask _ _), fun j hj => by simp at hj⟩
  rename_i j hj
  have hwant : rqWant bsp s me j = true := by
    rw [← h j me]
    exact rqPick_mem hj
  rw [if_pos hwant]
  refine ⟨setRq_sameCache (rqPick_mask _ _), fun k hk => ?_⟩
  cases hk
  exact hwant

theorem pickSteal_spec {hi : BitVec 32} {n : Nat} {tmp : RunQueue} {j : Slot}
    (h : pickSteal bsp me hi s n tmp = some (j, rq)) : rqWant bsp s me j = true := by
  induction n generalizing tmp with
  | zero => simp [pickSteal] at h
  | succ n ih =>
    rw [pickSteal] at h
    split at h
    · simp at h
    rename_i k hk
    split_ifs at h with hwant
    · obtain rfl : k = j := congrArg Prod.fst (Option.some.inj h)
      exact hwant
    · exact ih h

theorem schedPick_spec (h : MaskExact bsp s) (me : CpuId) (old : Slot) :
    SameCache s (schedPick bsp s me old).2 ∧
      ((schedPick bsp s me old).1 = old ∨
        rqWant bsp s me (schedPick bsp s me old).1 = true) := by
  obtain ⟨hown, hpick⟩ := pickOwn_spec h me (himask s) rqSlots
  simp only [schedPick]
  split
  · rename_i j hj
    exact ⟨hown, .inr (hpick j hj)⟩
  split_ifs with hbsp
  · exact ⟨hown, .inl rfl⟩
  split
  · exact ⟨hown, .inl rfl⟩
  split
  · exact ⟨hown, .inl rfl⟩
  rename_i j rq hsteal
  refine ⟨hown.trans (setRq_sameCache rfl), .inr ?_⟩
  rw [← rqWant_congr (hown.gate j)]
  exact pickSteal_spec hsteal

/-! ## Dropping what a task holds -/

theorem dropWaiter_state (s : Scheduler) (i : Slot) :
    ((dropWaiter s i).tasks i).state = (s.tasks i).state := by
  unfold dropWaiter
  split
  · rfl
  · simp [Scheduler.modTask]

theorem ExactExcept.dropWaiter (h : ExactExcept bsp i s) : ExactExcept bsp i (dropWaiter s i) := by
  unfold Sched.dropWaiter
  split
  · exact h
  · exact h.modTask fun t => { t with waitWq := none, waitHandle := .none }

theorem dropThread_state (s : Scheduler) (i : Slot) :
    ((dropThread s i).tasks i).state = (s.tasks i).state := by
  unfold dropThread
  split_ifs
  · simp [Scheduler.modTask]
  · rfl

theorem ExactExcept.dropThread (h : ExactExcept bsp i s) : ExactExcept bsp i (dropThread s i) := by
  unfold Sched.dropThread
  split_ifs
  · exact h.modTask fun t => { t with tid := 0 }
  · exact h

/-! ## Transitions that claim no task -/

/-- What decides on which CPUs a task may run. -/
structure Task.SamePlace (t t' : Task) : Prop where
  processPid : t'.processPid = t.processPid
  apOk : t'.apOk = t.apOk
  affinity : t'.affinity = t.affinity

theorem Task.SameGate.samePlace {t t' : Task} (h : t.SameGate t') : t.SamePlace t' :=
  ⟨h.processPid, h.apOk, h.affinity⟩

theorem closeInterval_samePlace (now : Nat) (t : Task) : t.SamePlace (closeInterval now t) := by
  unfold closeInterval
  exact ⟨rfl, rfl, rfl⟩

/-- Every CPU keeps its current slot, every task its place, and the dead stay dead. -/
structure Quiet (s s' : Scheduler) : Prop where
  current : ∀ c, (s'.cpus c).current = (s.cpus c).current
  place : ∀ i, (s.tasks i).SamePlace (s'.tasks i)
  dead : ∀ i, (s.tasks i).state = .dead → (s'.tasks i).state = .dead

namespace Quiet

theorem refl (s : Scheduler) : Quiet s s := ⟨fun _ => rfl, fun _ => ⟨rfl, rfl, rfl⟩, fun _ h => h⟩

theorem trans {s₁ s₂ s₃ : Scheduler} (h : Quiet s₁ s₂) (h' : Quiet s₂ s₃) : Quiet s₁ s₃ where
  current c := (h'.current c).trans (h.current c)
  place i := ⟨(h'.place i).processPid.trans (h.place i).processPid,
    (h'.place i).apOk.trans (h.place i).apOk, (h'.place i).affinity.trans (h.place i).affinity⟩
  dead i hi := h'.dead i (h.dead i hi)

theorem update {t : Task} (htasks : s'.tasks = Function.update s.tasks i t)
    (hcpus : s'.cpus = s.cpus) (hplace : (s.tasks i).SamePlace t)
    (hdead : (s.tasks i).state = .dead → t.state = .dead) : Quiet s s' where
  current c := by rw [hcpus]
  place j := by
    rw [htasks]
    by_cases hj : j = i
    · subst hj
      simpa using hplace
    · simpa [hj] using ⟨rfl, rfl, rfl⟩
  dead j hdj := by
    rw [htasks]
    by_cases hj : j = i
    · subst hj
      simpa using hdead hdj
    · simpa [hj] using hdj

theorem modCpu (c : CpuId) {f : Cpu → Cpu} (hf : (f (s.cpus c)).current = (s.cpus c).current) :
    Quiet s (s.modCpu c f) where
  current d := by
    by_cases hd : d = c
    · subst hd
      simpa [Scheduler.modCpu] using hf
    · simp [Scheduler.modCpu, hd]
  place _ := ⟨rfl, rfl, rfl⟩
  dead _ h := h

theorem rqAddEligible (s : Scheduler) (i : Slot) : Quiet s (rqAddEligible bsp s i) where
  current c := by
    simp only [Sched.rqAddEligible]
    split_ifs <;> rfl
  place _ := ⟨rfl, rfl, rfl⟩
  dead _ h := h

theorem rqRemoveAll (s : Scheduler) (i : Slot) : Quiet s (rqRemoveAll s i) :=
  ⟨fun _ => rfl, fun _ => ⟨rfl, rfl, rfl⟩, fun _ h => h⟩

end Quiet

/-- A transition that claims no task and keeps the cache exact. -/
structure Steady (bsp : Int) (s s' : Scheduler) : Prop where
  quiet : Quiet s s'
  exact : MaskExact bsp s → MaskExact bsp s'

namespace Steady

theorem trans {s₁ s₂ s₃ : Scheduler} (h : Steady bsp s₁ s₂) (h' : Steady bsp s₂ s₃) :
    Steady bsp s₁ s₃ := ⟨h.quiet.trans h'.quiet, fun hs => h'.exact (h.exact hs)⟩

theorem update {t : Task} (htasks : s'.tasks = Function.update s.tasks i t)
    (hgate : (s.tasks i).SameGate t) (hcpus : s'.cpus = s.cpus) : Steady bsp s s' where
  quiet := .update htasks hcpus hgate.samePlace fun hdead => hgate.state.trans hdead
  exact := (SameCache.update htasks hgate hcpus).maskExact

section

variable (bsp s)

theorem refl : Steady bsp s s := ⟨.refl s, fun hs => hs⟩

theorem dropWaiter (i : Slot) : Steady bsp s (dropWaiter s i) := by
  unfold Sched.dropWaiter
  split
  · exact .refl bsp s
  · exact .update rfl ⟨rfl, rfl, rfl, rfl⟩ rfl

theorem wakeTask (hi : (s.tasks i).state = .blocked) : Steady bsp s (wakeTask bsp s i) where
  quiet := by
    have hmark : Quiet s (s.modTask i fun t => { t with state := .runnable }) := by
      refine .update rfl rfl ⟨rfl, rfl, rfl⟩ fun hdead => ?_
      simp [hi] at hdead
    exact hmark.trans (.rqAddEligible _ i)
  exact hs := by
    have habsent : Absent i s := hs.absent (by simp [hi])
    exact ((hs.except i).modTask _).rqAddEligible habsent (by simp [Scheduler.modTask])

theorem wakeWhere (sel : Task → Bool) : Steady bsp s (wakeWhere bsp sel s) := by
  unfold Sched.wakeWhere
  refine List.foldlRecOn _ _ (refl bsp s) fun s' hs' i _ => ?_
  split_ifs with hsel
  · exact hs'.trans (wakeTask bsp s' hsel.1)
  · exact hs'

theorem wakeQueue (wq : Nat) : Steady bsp s (wakeQueue bsp s wq) := by
  unfold Sched.wakeQueue
  refine trans ?_ (wakeWhere bsp _ _)
  exact ⟨⟨fun _ => rfl, fun _ => ⟨rfl, rfl, rfl⟩, fun _ h => h⟩, fun hs => hs⟩

theorem waitAbort (me : CpuId) : Steady bsp s (waitAbort bsp s me) := by
  rw [Sched.waitAbort]
  split_ifs with hblocked
  · exact (dropWaiter bsp s _).trans (wakeTask bsp _ hblocked)
  · exact dropWaiter bsp s _

theorem waitPrepare (me : CpuId) (wq : Nat) : Steady bsp s (waitPrepare s me wq).2 := by
  rw [Sched.waitPrepare]
  split_ifs
  · exact .refl bsp s
  · split
    · exact .refl bsp s
    · exact .update rfl ⟨rfl, rfl, rfl, rfl⟩ rfl

theorem waitTake (me : CpuId) : Steady bsp s (waitTake s me).2 := by
  rw [Sched.waitTake]
  split
  · exact .refl bsp s
  · refine trans ?_ (dropWaiter bsp { s with queues := _ } _)
    exact ⟨⟨fun _ => rfl, fun _ => ⟨rfl, rfl, rfl⟩, fun _ h => h⟩, fun hs => hs⟩

theorem setPriority (id level : Nat) : Steady bsp s (setPriority s id level).2 := by
  unfold Sched.setPriority
  split_ifs
  · exact .refl bsp s
  split
  · exact .refl bsp s
  · split_ifs
    · exact .refl bsp s
    · exact .update rfl ⟨rfl, rfl, rfl, rfl⟩ rfl

theorem preemptTick (me : CpuId) (online : List CpuId) :
    Steady bsp s (preemptTick bsp s me online) := by
  have htick (s : Scheduler) (c : CpuId) : Steady bsp s (tickCpu s c) := by
    refine ⟨.modCpu c ?_, fun hs => hs.modCpu fun p => ?_⟩ <;> split_ifs <;> rfl
  simp only [Sched.preemptTick]
  split_ifs
  · exact .refl bsp s
  · exact htick s me
  refine List.foldlRecOn _ _ (htick s me) fun s' hs' c _ => ?_
  split_ifs
  · exact hs'
  · exact hs'.trans (htick s' c)

end

end Steady

/-! ## The transitions keep the cache exact -/

section Keep

variable (hs : MaskExact bsp s)

include hs

theorem maskExact_createTask (procs : ProcessLookup) (pid : Nat) (full : Int) :
    MaskExact bsp (createTask bsp procs s pid full).2 := by
  simp only [createTask]
  split
  · exact hs
  rename_i i hi
  -- the slot was unused or dead, so no mask holds it
  have hfree : (s.tasks i).state ≠ .runnable := by
    have hst := List.find?_some hi
    simp only [decide_eq_true_eq] at hst
    rcases hst.2 with hst | hst <;> simp [hst]
  have habsent := hs.absent hfree
  split
  · have hsame := ((hs.except i).modTask fun _ => freshTask (takeId s.nextId).1 pid).modTask
      fun t => { t with state := .unused, tid := 0 }
    intro j
    by_cases hj : j = i
    · subst hj
      intro c
      have hc := habsent c
      simpa [Scheduler.modTask, rqWant] using hc
    · exact hsame j hj
  refine ExactExcept.rqAddEligible ?_ habsent ?_
  · refine ExactExcept.modTask ?_ _
    exact (hs.except i).modTask fun _ => freshTask (takeId s.nextId).1 pid
  · simp [Scheduler.modTask, freshTask]

theorem maskExact_taskAllowAp (id : Nat) : MaskExact bsp (taskAllowAp bsp s id).2 := by
  rw [taskAllowAp]
  split_ifs
  · exact hs
  split
  · exact hs
  split_ifs
  · exact ((hs.except _).modTask _).rqResync
  · exact hs

theorem maskExact_setAffinity (id : Nat) (mask : BitVec 64) :
    MaskExact bsp (setAffinity bsp s id mask).2 := by
  unfold setAffinity
  by_cases hargs : id = 0 ∨ mask = 0
  · rwa [if_pos hargs]
  rw [if_neg hargs]
  split
  · exact hs
  split
  · exact hs
  simp only
  split_ifs
  all_goals first
    | exact hs
    | exact ((hs.except _).modTask _).rqResync

theorem maskExact_claim (me : CpuId) (next : Slot) : MaskExact bsp (claim s me next) := by
  rw [claim]
  refine MaskExact.modTask (MaskExact.modTask (ExactExcept.rqRemoveAll ?_ ?_) ?_) ?_
  · exact ((hs.except next).modTask _).modCpu fun _ => rfl
  · simp [Scheduler.modTask, Scheduler.modCpu]
  · exact fun _ => ⟨rfl, rfl, rfl, rfl⟩
  · exact fun _ => ⟨rfl, rfl, rfl, rfl⟩

theorem maskExact_yieldOld (old : Slot) : MaskExact bsp (yieldOld bsp s old) := by
  unfold yieldOld
  split_ifs with hrun
  · have habsent : Absent old s := hs.absent (by simp [hrun])
    refine ((hs.except old).modTask _).rqAddEligible habsent ?_
    simp [Scheduler.modTask, closeInterval]
  · exact hs

theorem maskExact_reclaimOld (old : Slot) : MaskExact bsp (reclaimOld s old) := by
  rw [reclaimOld]
  refine MaskExact.modTask (ExactExcept.rqRemoveAll ((hs.except old).modTask _) ?_) ?_
  · simp [Scheduler.modTask]
  · exact fun _ => ⟨rfl, rfl, rfl, rfl⟩

theorem schedulerYield_spec (me : CpuId) :
    ∃ r, schedulerYield bsp s me = some r ∧ MaskExact bsp r.2 := by
  have hstart : MaskExact bsp
      (s.modCpu me fun p => { p with needResched := false, quantumLeft := preemptQuantum }) :=
    hs.modCpu fun _ => rfl
  rw [schedulerYield]
  generalize (s.modCpu me fun p =>
    { p with needResched := false, quantumLeft := preemptQuantum }) = s₀ at hstart ⊢
  set old := (s₀.cpus me).current
  have hold := maskExact_yieldOld hstart old
  have hverify : (!rqVerify bsp (yieldOld bsp s₀ old)) = false := by simp [rqVerify_iff.2 hold]
  have hpicked := (schedPick_spec hold me old).1.maskExact hold
  rw [hverify]
  simp only [Bool.false_eq_true, if_false]
  split_ifs
  all_goals
    refine ⟨_, rfl, ?_⟩
    dsimp only
  · exact maskExact_reclaimOld hpicked old
  · exact maskExact_reclaimOld hpicked old
  · exact maskExact_reclaimOld hpicked old
  · exact hpicked
  · exact hpicked
  · exact hpicked
  · refine maskExact_claim (hpicked.modTask fun t => ?_) me _
    unfold countYield
    split_ifs <;> exact ⟨rfl, rfl, rfl, rfl⟩
  · exact maskExact_claim hpicked me _

theorem schedulerApIdle_spec (me : CpuId) (isBsp : Bool) :
    ∃ r, schedulerApIdle bsp s me isBsp = some r ∧ MaskExact bsp r.2 := by
  have hstart : MaskExact bsp
      (s.modCpu me fun p => { p with idleValid := true, inIdle := false }) :=
    hs.modCpu fun _ => rfl
  simp only [schedulerApIdle]
  generalize (s.modCpu me fun p => { p with idleValid := true, inIdle := false }) = s₀ at hstart ⊢
  have hverify : (!rqVerify bsp s₀) = false := by simp [rqVerify_iff.2 hstart]
  have hpicked := (schedPick_spec hstart me (s₀.cpus me).current).1.maskExact hstart
  rw [hverify]
  simp only [Bool.false_eq_true, if_false]
  split_ifs
  all_goals
    refine ⟨_, rfl, ?_⟩
    dsimp only
  · exact hs
  · exact hpicked.modCpu fun _ => rfl
  · exact maskExact_claim hpicked me _

theorem maskExact_blockCurrent (me : CpuId) : MaskExact bsp (blockCurrent s me) := by
  refine ((hs.except _).modTask _).rqRemoveAll ?_
  simp only [Scheduler.modTask, Function.update_self]
  split_ifs with hrun hrunnable
  · simp
  · simp
  · exact hrunnable

theorem maskExact_taskMarkDead (i : Slot) : MaskExact bsp (taskMarkDead s i) := by
  have hexcept : ExactExcept bsp i
      (dropThread (dropWaiter (s.modTask i (retire s.ticks)) i) i) :=
    ((hs.except i).modTask _).dropWaiter.dropThread
  refine hexcept.rqRemoveAll ?_
  rw [dropThread_state, dropWaiter_state]
  simp [Scheduler.modTask, retire]

end Keep

/-! ## Whole runs -/

theorem maskExact_schedulerInit (bsp : Int) (procs : ProcessLookup) (s : Scheduler) :
    MaskExact bsp (schedulerInit procs s) := by
  intro i c
  by_cases hi : i = 0 <;> simp [schedulerInit, rqWant, hi]

theorem step_spec (h : MaskExact bsp s) (act : ProcessLookup × Action) :
    ∃ s', step bsp s act = some s' ∧ MaskExact bsp s' := by
  obtain ⟨procs, act⟩ := act
  cases act with
  | createKernelThread entry =>
    refine ⟨_, rfl, ?_⟩
    unfold createKernelThread
    split_ifs
    · exact h
    · exact maskExact_createTask h procs _ _
  | createUserProcess pid entry userStack =>
    refine ⟨_, rfl, ?_⟩
    unfold createUserProcess
    split_ifs
    · exact h
    · exact h
    · exact maskExact_createTask h procs _ _
  | createForkChild pid entry userStack =>
    refine ⟨_, rfl, ?_⟩
    unfold createForkChild
    split_ifs
    · exact h
    · exact h
    · exact maskExact_createTask h procs _ _
  | createForkChildContext pid context =>
    refine ⟨_, rfl, ?_⟩
    unfold createForkChildContext
    split_ifs
    · exact h
    · exact h
    · exact maskExact_createTask h procs _ _
  | yield me =>
    obtain ⟨r, hr, hexact⟩ := schedulerYield_spec h me
    exact ⟨r.2, by simp [step, hr], hexact⟩
  | apIdle me isBsp =>
    obtain ⟨r, hr, hexact⟩ := schedulerApIdle_spec h me isBsp
    exact ⟨r.2, by simp [step, hr], hexact⟩
  | waitPrepare me wq => exact ⟨_, rfl, (Steady.waitPrepare bsp s me wq).exact h⟩
  | blockCurrent me => exact ⟨_, rfl, maskExact_blockCurrent h me⟩
  | waitTake me => exact ⟨_, rfl, (Steady.waitTake bsp s me).exact h⟩
  | waitAbort me => exact ⟨_, rfl, (Steady.waitAbort bsp s me).exact h⟩
  | wakeQueue wq => exact ⟨_, rfl, (Steady.wakeQueue bsp s wq).exact h⟩
  | wakePid pid => exact ⟨_, rfl, (Steady.wakeWhere bsp s _).exact h⟩
  | allowAp id => exact ⟨_, rfl, maskExact_taskAllowAp h id⟩
  | setAffinity id mask => exact ⟨_, rfl, maskExact_setAffinity h id mask⟩
  | setPriority id level => exact ⟨_, rfl, (Steady.setPriority bsp s id level).exact h⟩
  | detachPid pid => exact ⟨_, rfl, h⟩
  | death me => exact ⟨_, rfl, maskExact_taskMarkDead h _⟩
  | tick => exact ⟨_, rfl, h⟩
  | preemptTick me online => exact ⟨_, rfl, (Steady.preemptTick bsp s me online).exact h⟩

theorem run_spec (h : MaskExact bsp s) (acts : List (ProcessLookup × Action)) :
    ∃ s', run bsp s acts = some s' ∧ MaskExact bsp s' := by
  induction acts generalizing s with
  | nil => exact ⟨s, rfl, h⟩
  | cons act acts ih =>
    obtain ⟨s₁, hstep, h₁⟩ := step_spec h act
    obtain ⟨s₂, hrun, h₂⟩ := ih h₁
    refine ⟨s₂, ?_, h₂⟩
    simpa [run, hstep] using hrun

/-- For a fixed BSP index, whatever the tables hold when `scheduler_init` runs and
whatever interleaving of transitions on any CPUs follows: the machine never halts
in `rq_verify_locked`, and in the state reached bit `i` of the mask of CPU `c` is
set exactly when slot `i` is RUNNABLE and eligible on `c`. -/
theorem run_mask_exact (bsp : Int) (boot : ProcessLookup) (mem : Scheduler)
    (acts : List (ProcessLookup × Action)) :
    ∃ s, run bsp (schedulerInit boot mem) acts = some s ∧ rqVerify bsp s = true ∧
      ∀ (c : CpuId) (i : Slot), rqContains (s.cpus c).rq i = true ↔
        (s.tasks i).state = .runnable ∧ rqEligible bsp s c i = true := by
  obtain ⟨s, hrun, hexact⟩ := run_spec (maskExact_schedulerInit bsp boot mem) acts
  refine ⟨s, hrun, rqVerify_iff.2 hexact, fun c i => ?_⟩
  rw [hexact i c]
  simp [rqWant]

end RixuriOS.Sched
