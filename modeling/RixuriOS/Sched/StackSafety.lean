import RixuriOS.Sched.ContextSwitch
import RixuriOS.Sched.MaskCache

/-!
# Who executes on a task's stack

Two results about the stack switches. When every task may run on one CPU only,
no interleaving of selections, switches, blocks and wakes puts two CPUs on one
stack. When a selection and its switch are one step and only dead tasks are left
for the idle loop, a task always resumes from where it was switched out. Neither
holds without its condition: a yielding task can be picked by another CPU before
its stack pointer is stored, and the switch to the idle loop stores the pointer
of the task it leaves in a scratch slot.
-/

namespace RixuriOS.Sched

open GuardedRun List Function Scheduler Machine
open Option hiding or_assoc

variable {next : Slot} {sw : Switch} {isBsp : Bool} {c : CpuId} {w : PendingSwitch} {act : Action}

variable {bsp : Int} {s s' : Scheduler} {i : Slot} {me : CpuId}

namespace Quiet

theorem rqEligible (h : Quiet s s') (c : CpuId) (i : Slot) :
    rqEligible bsp s' c i = Sched.rqEligible bsp s c i := by
  unfold Sched.rqEligible
  rw [(h.place i).processPid, (h.place i).apOk, (h.place i).affinity]

theorem dropThread (s : Scheduler) (i : Slot) : Quiet s (dropThread s i) := by
  unfold Sched.dropThread
  split_ifs
  · exact .update rfl rfl ⟨rfl, rfl, rfl⟩ fun h => h
  · exact .refl s

theorem taskMarkDead (s : Scheduler) (i : Slot) : Quiet s (taskMarkDead s i) := by
  have hretire : Quiet s (s.modTask i (retire s.ticks)) := by
    refine .update rfl rfl ?_ fun _ => rfl
    have hclose := closeInterval_samePlace s.ticks (s.tasks i)
    unfold retire
    split_ifs
    · exact ⟨hclose.processPid, hclose.apOk, hclose.affinity⟩
    · exact ⟨rfl, rfl, rfl⟩
  exact ((hretire.trans (Steady.dropWaiter 0 _ i).quiet).trans (dropThread _ i)).trans (rqRemoveAll _ i)

theorem blockCurrent (s : Scheduler) (me : CpuId) : Quiet s (blockCurrent s me) := by
  unfold Sched.blockCurrent
  refine trans ?_ (rqRemoveAll _ _)
  refine .update rfl rfl ?_ fun hdead => ?_
  · have hclose := closeInterval_samePlace s.ticks (s.tasks (s.cpus me).current)
    beta_reduce
    split_ifs
    · exact ⟨hclose.processPid, hclose.apOk, hclose.affinity⟩
    · exact ⟨rfl, rfl, rfl⟩
    · exact ⟨rfl, rfl, rfl⟩
  · simp [hdead]

end Quiet

/-! ## The selections -/

/-- What a selection of `me` does: it leaves every current slot alone, or it makes
another slot current that `me` may run and that is not dead. -/
inductive Selected (bsp : Int) (s : Scheduler) (me : CpuId) : Switch → Scheduler → Prop
  | keep {sw : Switch} {s' : Scheduler} (hquiet : Quiet s s') (hsw : sw = .stay ∨ sw = .toIdle) :
      Selected bsp s me sw s'
  | take {next : Slot} {s₁ s' : Scheduler} (hquiet : Quiet s s₁)
      (hne : next ≠ (s.cpus me).current) (helig : rqEligible bsp s me next = true)
      (halive : (s.tasks next).state ≠ .dead) (hs' : s' = claim s₁ me next) :
      Selected bsp s me (.toTask (s.cpus me).current next) s'

section

variable (s me)

theorem claim_place (next i : Slot) : (s.tasks i).SamePlace ((claim s me next).tasks i) := by
  by_cases hi : i = next
  · subst hi
    simpa [claim, modTask, Scheduler.modCpu, rqRemoveAll, noteClaim] using
      ⟨rfl, rfl, rfl⟩
  · simpa [claim, modTask, Scheduler.modCpu, rqRemoveAll, hi] using ⟨rfl, rfl, rfl⟩

theorem claim_current (next : Slot) (c : CpuId) :
    ((claim s me next).cpus c).current = if c = me then next else (s.cpus c).current := by
  by_cases hc : c = me
  · subst hc
    simp [claim, modTask, Scheduler.modCpu, rqRemoveAll]
  · simp [claim, modTask, Scheduler.modCpu, rqRemoveAll, hc]

theorem claim_state_ne {i : Slot} (hi : i ≠ next) :
    ((claim s me next).tasks i).state = (s.tasks i).state := by
  simp [claim, modTask, Scheduler.modCpu, rqRemoveAll, hi]

end

section

variable {α : Type} {f : Cpu → α} (hf : ∀ p rq, f { p with rq := rq } = f p)

include hf

theorem setRq_field (s : Scheduler) (me : CpuId) (rq : RunQueue) (c : CpuId) :
    f ((s.setRq me rq).cpus c) = f (s.cpus c) := by
  by_cases hc : c = me
  · simp [setRq, Scheduler.modCpu, hc, hf]
  · simp [setRq, Scheduler.modCpu, hc]

theorem pickOwn_field (me : CpuId) (hi : BitVec 32) (n : Nat) (s : Scheduler) (c : CpuId) :
    f ((pickOwn bsp me hi n s).2.cpus c) = f (s.cpus c) := by
  induction n generalizing s with
  | zero => rfl
  | succ n ih =>
    rw [pickOwn]
    split
    · exact setRq_field hf s me _ c
    split_ifs
    · exact setRq_field hf s me _ c
    · rw [ih, setRq_field hf]

/-- A pick changes nothing of a CPU but its run queue. -/
theorem schedPick_field (s : Scheduler) (me : CpuId) (old : Slot) (c : CpuId) :
    f ((schedPick bsp s me old).2.cpus c) = f (s.cpus c) := by
  have hown : f ((pickOwn bsp me (himask s) rqSlots s).2.cpus c) = f (s.cpus c) :=
    pickOwn_field hf me _ _ s c
  simp only [schedPick]
  split
  · exact hown
  split_ifs
  · exact hown
  split
  · exact hown
  split
  · exact hown
  · rw [setRq_field hf, hown]

end

theorem schedPick_quiet (h : MaskExact bsp s) (me : CpuId) (old : Slot) :
    Quiet s (schedPick bsp s me old).2 where
  current := schedPick_field (fun _ _ => rfl) s me old
  place i := ((schedPick_spec h me old).1.gate i).samePlace
  dead i hi := by rw [((schedPick_spec h me old).1.gate i).state, hi]

theorem Quiet.yieldOld (bsp : Int) (s : Scheduler) (old : Slot) : Quiet s (yieldOld bsp s old) := by
  unfold Sched.yieldOld
  split_ifs with hrun
  · have hmark : Quiet s
        (s.modTask old fun t => closeInterval s.ticks { t with state := .runnable }) := by
      have hclose := closeInterval_samePlace s.ticks { s.tasks old with state := .runnable }
      refine .update rfl rfl ⟨hclose.processPid, hclose.apOk, hclose.affinity⟩ fun hdead => ?_
      simp [hrun] at hdead
    exact hmark.trans (.rqAddEligible _ old)
  · exact .refl s

theorem yieldOld_state (h : (s.tasks i).state = .running) :
    ((yieldOld bsp s i).tasks i).state = .runnable := by
  rw [yieldOld, if_pos h]
  simp [rqAddEligible, modTask, closeInterval]

theorem Quiet.countYield (s : Scheduler) (i : Slot) (armed : Bool) :
    Quiet s (s.modTask i (countYield armed)) := by
  refine .update rfl rfl ?_ fun hdead => ?_
  · unfold Sched.countYield
    split_ifs <;> exact ⟨rfl, rfl, rfl⟩
  · unfold Sched.countYield
    split_ifs <;> exact hdead

theorem Quiet.reclaimOld (hold : (s.tasks i).state ≠ .dead) : Quiet s (reclaimOld s i) := by
  have hmark : Quiet s (s.modTask i fun t => { t with state := .running }) :=
    .update rfl rfl ⟨rfl, rfl, rfl⟩ fun hdead => absurd hdead hold
  have hdrop := hmark.trans (.rqRemoveAll _ i)
  refine hdrop.trans (.update rfl rfl ⟨rfl, rfl, rfl⟩ fun h => h)

theorem rqWant_alive {s₁ : Scheduler} (h : Quiet s s₁) (hwant : rqWant bsp s₁ me next = true) :
    rqEligible bsp s me next = true ∧ (s.tasks next).state ≠ .dead := by
  rw [rqWant, decide_eq_true_eq] at hwant
  refine ⟨(h.rqEligible me next).symm.trans hwant.2, fun hdead => ?_⟩
  rw [h.dead next hdead] at hwant
  simp at hwant

theorem schedulerYield_selected (h : schedulerYield bsp s me = some (sw, s')) :
    Selected bsp s me sw s' := by
  rw [schedulerYield] at h
  have hstart : Quiet s
      (s.modCpu me fun p => { p with needResched := false, quantumLeft := preemptQuantum }) :=
    .modCpu me rfl
  generalize (s.modCpu me fun p =>
    { p with needResched := false, quantumLeft := preemptQuantum }) = s₀ at hstart h
  rw [hstart.current me] at h
  have hold := hstart.trans (.yieldOld bsp s₀ (s.cpus me).current)
  cases hverify : rqVerify bsp (yieldOld bsp s₀ (s.cpus me).current) with
  | false => simp [hverify] at h
  | true =>
  have hexact := rqVerify_iff.1 hverify
  have hpick := hold.trans (schedPick_quiet hexact me (s.cpus me).current)
  obtain ⟨hsame, hwant⟩ := schedPick_spec hexact me (s.cpus me).current
  simp only [hverify, Bool.not_true, Bool.false_eq_true, if_false] at h
  generalize schedPick bsp (yieldOld bsp s₀ (s.cpus me).current) me (s.cpus me).current = p
    at hpick hsame hwant h
  -- a task that was flipped is RUNNABLE at the pick, so it is not dead
  have hback : Quiet s
      (if decide ((s₀.tasks (s.cpus me).current).state = .running) = true then
        reclaimOld p.2 (s.cpus me).current else p.2) := by
    split_ifs with hflip
    · refine hpick.trans (.reclaimOld ?_)
      rw [(hsame.gate _).state, yieldOld_state (by simpa using hflip)]
      simp
    · exact hpick
  split at h
  · generalize (if decide ((s₀.tasks (s.cpus me).current).state = .running) = true then
      reclaimOld p.2 (s.cpus me).current else p.2) = s₂ at hback h
    split_ifs at h
    all_goals cases h
    · exact .keep hback (.inl rfl)
    · exact .keep hback (.inr rfl)
    · exact .keep hback (.inl rfl)
  rename_i hstay
  cases h
  obtain ⟨helig, halive⟩ := rqWant_alive hold (hwant.resolve_left hstay)
  refine .take ?_ hstay helig halive rfl
  split_ifs
  · exact hpick.trans (.countYield _ _ _)
  · exact hpick

theorem schedulerApIdle_selected (h : schedulerApIdle bsp s me isBsp = some (sw, s')) :
    Selected bsp s me sw s' := by
  simp only [schedulerApIdle] at h
  cases isBsp with
  | true =>
    cases h
    exact .keep (.refl _) (.inl rfl)
  | false =>
  have hstart : Quiet s (s.modCpu me fun p => { p with idleValid := true, inIdle := false }) :=
    .modCpu me rfl
  generalize (s.modCpu me fun p => { p with idleValid := true, inIdle := false }) = s₀
    at hstart h
  rw [hstart.current me] at h
  cases hverify : rqVerify bsp s₀ with
  | false => simp [hverify] at h
  | true =>
  have hexact := rqVerify_iff.1 hverify
  have hpick := hstart.trans (schedPick_quiet hexact me (s.cpus me).current)
  have hwant := (schedPick_spec hexact me (s.cpus me).current).2
  simp only [hverify, Bool.not_true, Bool.false_eq_true, if_false] at h
  split_ifs at h with hstay
  all_goals cases h
  · exact .keep (hpick.trans (.modCpu me rfl)) (.inl rfl)
  rw [not_or] at hstay
  obtain ⟨helig, halive⟩ := rqWant_alive hstart (hwant.resolve_left hstay.1)
  exact .take hpick hstay.1 helig halive rfl

/-! ## The stack discipline of the machine -/

/-- What the switch that `c` has to make relies on: it saves into the slot of the
stack it leaves, and it loads a stack that it is not on. -/
structure SwitchOk (m : Machine) (c : CpuId) (w : PendingSwitch) : Prop where
  saveTask : ∀ old, w.save = .task old → m.exec c = .task old
  saveIdle : w.save = .idleRsp → m.exec c = .idle c
  loadTask : ∀ next, w.load = .task next →
    m.exec c ≠ .task next ∧ (m.sched.cpus c).current = next
  loadValue : ∀ sp, w.load = .value sp → sp.stack = .idle c

/-- Every saved pointer is into the stack it was saved for, and a CPU that
executes a task has that task as its current one. -/
structure Stacked (m : Machine) : Prop where
  rsp : ∀ i, (m.rsp i).stack = .task i
  idleRsp : ∀ c, (m.idleRsp c).stack = .idle c
  current : ∀ c i, m.pending c = none → m.exec c = .task i → (m.sched.cpus c).current = i
  pending : ∀ c w, m.pending c = some w → SwitchOk m c w

variable {m m' : Machine} {procs : ProcessLookup} {a : Action}

theorem inTask_iff : m.inTask c = true ↔ m.pending c = none ∧ ∃ i, m.exec c = .task i := by
  unfold inTask
  cases hexec : m.exec c <;> simp

theorem inIdleLoop_iff : m.inIdleLoop c = true ↔ m.pending c = none ∧ m.exec c = .idle c := by
  simp [inIdleLoop]

/-- A selection by another CPU does not touch the switch that `c` has to make. -/
theorem SwitchOk.of_current (h : SwitchOk m c w) (hexec : m'.exec c = m.exec c)
    (hcur : (m'.sched.cpus c).current = (m.sched.cpus c).current) : SwitchOk m' c w where
  saveTask old hw := hexec.trans (h.saveTask old hw)
  saveIdle hw := hexec.trans (h.saveIdle hw)
  loadTask next hw := by
    rw [hexec, hcur]
    exact h.loadTask next hw
  loadValue := h.loadValue

theorem Stacked.of_current (h : Stacked m) (hrsp : ∀ i, (m'.rsp i).stack = .task i)
    (hidle : ∀ c, (m'.idleRsp c).stack = .idle c) (hexec : m'.exec = m.exec) (hpend : m'.pending = m.pending)
    (hcur : ∀ c, (m'.sched.cpus c).current = (m.sched.cpus c).current) : Stacked m' where
  rsp := hrsp
  idleRsp := hidle
  current c i hnone hi := by
    rw [hpend] at hnone
    rw [hexec] at hi
    rw [hcur, h.current c i hnone hi]
  pending c w hw := by
    rw [hpend] at hw
    exact (h.pending c w hw).of_current (by rw [hexec]) (hcur c)

theorem Selected.current_ne (h : Selected bsp s me sw s') (hc : c ≠ me) :
    (s'.cpus c).current = (s.cpus c).current := by
  cases h with
  | keep hquiet _ => exact hquiet.current c
  | take hquiet _ _ _ hs' =>
    subst hs'
    rw [claim_current, if_neg hc, hquiet.current]

theorem select_pending_self (m : Machine) (me : CpuId) (s : Scheduler)
    (p : Option PendingSwitch) : (m.select me s p).pending me = p := by
  simp [Machine.select]

/-- A selection of `me`, when the switch it leaves is one `me` can make. -/
theorem Stacked.select {w : Option PendingSwitch} (h : Stacked m)
    (hsel : Selected bsp m.sched me sw s') (hkeep : w = none → sw = .stay ∨ sw = .toIdle)
    (hw : ∀ w', w = some w' → SwitchOk (m.select me s' w) me w') (hfree : m.pending me = none) :
    Stacked (m.select me s' w) where
  rsp := h.rsp
  idleRsp := h.idleRsp
  current c i hnone hi := by
    by_cases hc : c = me
    · subst hc
      simp only [Machine.select, update_self] at hnone
      cases hsel with
      | keep hquiet _ =>
        exact (hquiet.current c).trans (h.current c i hfree hi)
      | take => simpa using hkeep hnone
    · simp only [Machine.select, update_of_ne hc] at hnone
      exact (hsel.current_ne hc).trans (h.current c i hnone hi)
  pending c w' hw' := by
    by_cases hc : c = me
    · subst hc
      simp only [Machine.select, update_self] at hw'
      exact hw w' hw'
    · simp only [Machine.select, update_of_ne hc] at hw'
      exact (h.pending c w' hw').of_current rfl (hsel.current_ne hc)

theorem Stacked.yieldSelect (h : Stacked m) (htask : m.inTask me = true)
    (hsel : Selected bsp m.sched me sw s') :
    Stacked (m.select me s' (yieldSwitch (m.idleRsp me) sw)) := by
  obtain ⟨hfree, i, hi⟩ := inTask_iff.1 htask
  have hcur := h.current me i hfree hi
  refine h.select hsel (fun hnone => ?_) (fun w hw => ?_) hfree
  · cases sw with
    | stay => exact .inl rfl
    | toIdle => exact .inr rfl
    | toTask old next => simp [yieldSwitch] at hnone
  cases hsel with
  | keep _ hsw =>
    obtain rfl | rfl := hsw
    · simp [yieldSwitch] at hw
    cases hw
    refine ⟨by simp, by simp, by simp, fun sp hsp => ?_⟩
    cases hsp
    exact h.idleRsp me
  | take hquiet hne helig halive hs' =>
    rename_i next s₁
    cases hw
    refine ⟨fun old hold => ?_, by simp, fun next' hnext => ?_, by simp⟩
    · cases hold
      exact hi.trans (congrArg Stack.task hcur.symm)
    cases hnext
    subst hs'
    refine ⟨fun heq => hne ?_, by simp [Machine.select, claim_current]⟩
    rw [hcur]
    exact Stack.task.inj (heq.symm.trans hi)

theorem Stacked.apIdleSelect (h : Stacked m) (hidle : m.inIdleLoop me = true)
    (hsel : Selected bsp m.sched me sw s') : Stacked (m.select me s' (apIdleSwitch sw)) := by
  obtain ⟨hfree, hexec⟩ := inIdleLoop_iff.1 hidle
  refine h.select hsel (fun hnone => ?_) (fun w hw => ?_) hfree
  · cases sw with
    | stay => exact .inl rfl
    | toIdle => exact .inr rfl
    | toTask old next => simp [apIdleSwitch] at hnone
  cases hsel with
  | keep _ hsw => obtain rfl | rfl := hsw <;> simp [apIdleSwitch] at hw
  | take hquiet hne helig halive hs' =>
  rename_i next s₁
  cases hw
  refine ⟨by simp, fun _ => hexec, fun next' hnext => ?_, by simp⟩
  cases hnext
  subst hs'
  refine ⟨fun heq => ?_, by simp [Machine.select, claim_current]⟩
  have himpossible := hexec.symm.trans heq
  simp at himpossible

theorem Stacked.exec_contextSwitch (h : Stacked m) (hw : m.pending c = some w) (depth : Nat) :
    (m.contextSwitch c depth w).exec c =
      match w.load with
      | .task next => .task next
      | .value _ => .idle c := by
  have hexec : (m.contextSwitch c depth w).exec c = (m.loaded w.load).stack := by
    simp [Machine.contextSwitch]
  rw [hexec]
  cases hload : w.load with
  | task next => exact h.rsp next
  | value sp => exact (h.pending c w hw).loadValue sp hload

theorem contextSwitch_exec_ne (m : Machine) {d : CpuId} (hd : d ≠ c) (depth : Nat)
    (w : PendingSwitch) : (m.contextSwitch c depth w).exec d = m.exec d := by
  simp [Machine.contextSwitch, hd]

theorem contextSwitch_pending_ne (m : Machine) {d : CpuId} (hd : d ≠ c) (depth : Nat)
    (w : PendingSwitch) : (m.contextSwitch c depth w).pending d = m.pending d := by
  simp [Machine.contextSwitch, hd]

theorem contextSwitch_pending_self (m : Machine) (c : CpuId) (depth : Nat) (w : PendingSwitch) :
    (m.contextSwitch c depth w).pending c = none := by
  simp [Machine.contextSwitch]

theorem SwitchOk.rsp (h : SwitchOk m c w) (depth : Nat) (i : Slot) :
    (m.contextSwitch c depth w).rsp i =
      if w.save = .task i then ⟨.task i, depth⟩ else m.rsp i := by
  cases hsave : w.save with
  | task old =>
    by_cases hi : i = old
    · subst hi
      simp [Machine.contextSwitch, hsave, h.saveTask i hsave]
    · simp [Machine.contextSwitch, hsave, hi, Ne.symm hi]
  | idleRsp => simp [Machine.contextSwitch, hsave]
  | idleTmp => simp [Machine.contextSwitch, hsave]

theorem Stacked.contextSwitch (h : Stacked m) (hw : m.pending c = some w) (depth : Nat) :
    Stacked (m.contextSwitch c depth w) where
  rsp i := by
    rw [(h.pending c w hw).rsp]
    split_ifs
    · rfl
    · exact h.rsp i
  idleRsp d := by
    simp only [Machine.contextSwitch]
    split_ifs with hsave
    · by_cases hd : d = c
      · subst hd
        simpa using (h.pending d w hw).saveIdle hsave
      · simpa [hd] using h.idleRsp d
    · exact h.idleRsp d
  current d i hnone hi := by
    by_cases hd : d = c
    · subst hd
      rw [h.exec_contextSwitch hw] at hi
      cases hload : w.load with
      | task next =>
        rw [hload] at hi
        obtain rfl : next = i := Stack.task.inj hi
        exact ((h.pending d w hw).loadTask next hload).2
      | value sp => simp [hload] at hi
    rw [contextSwitch_exec_ne m hd] at hi
    rw [contextSwitch_pending_ne m hd] at hnone
    exact h.current d i hnone hi
  pending d w' hw' := by
    by_cases hd : d = c
    · subst hd
      simp [contextSwitch_pending_self] at hw'
    · rw [contextSwitch_pending_ne m hd] at hw'
      exact (h.pending d w' hw').of_current (contextSwitch_exec_ne m hd depth w) rfl

theorem lockedStep_cases (h : m.lockedStep bsp procs a = some m') :
    (∃ me, a = .yield me ∧ m.inTask me = true ∧ m.yieldSelect bsp me = some m') ∨
    (∃ me isBsp, a = .apIdle me isBsp ∧ m.inIdleLoop me = true ∧
      m.apIdleSelect bsp me isBsp = some m') ∨
    ((Act.locked procs a).selector = none ∧ m.plain bsp procs a = some m') := by
  cases a with
  | yield me =>
    rw [lockedStep] at h
    split_ifs at h with htask
    exact .inl ⟨me, rfl, htask, h⟩
  | apIdle me isBsp =>
    rw [lockedStep] at h
    split_ifs at h with hidle
    exact .inr (.inl ⟨me, isBsp, rfl, hidle, h⟩)
  | waitPrepare | blockCurrent | waitTake | waitAbort | death =>
    rw [lockedStep] at h
    split_ifs at h
    exact .inr (.inr ⟨rfl, h⟩)
  | _ => exact .inr (.inr ⟨rfl, h⟩)

/-! ## Tasks that may run on one CPU only -/

/-- The steps that neither create a task nor change where one may run, and no
yield out of the idle loop. -/
def Act.interleaved : Act → Bool
  | .locked _ (.createKernelThread _) | .locked _ (.createUserProcess _ _ _) => false
  | .locked _ (.createForkChild _ _ _) | .locked _ (.createForkChildContext _ _) => false
  | .locked _ (.allowAp _) | .locked _ (.setAffinity _ _) => false
  | .irqYield _ => false
  | _ => true

/-- Each task is eligible on at most one CPU, and a CPU that executes a task is
the only one the task is eligible on. -/
structure Pinned (bsp : Int) (m : Machine) : Prop where
  single : ∀ i c d, rqEligible bsp m.sched c i = true → rqEligible bsp m.sched d i = true → c = d
  home : ∀ c i, m.exec c = .task i → ∀ d, rqEligible bsp m.sched d i = true → d = c

/-- A machine to start from: no CPU is about to switch, each executes its current
task or its idle loop, no two the same task, and the log agrees with that. -/
structure Settled (m : Machine) : Prop where
  stacked : Stacked m
  pending : ∀ c, m.pending c = none
  exclusive : m.Exclusive
  running : ∀ i, underWay i m.log = true → ∃ c, m.exec c = .task i
  saved : SavedFirst m.log

structure PinnedInv (bsp : Int) (m : Machine) : Prop where
  stacked : Stacked m
  pinned : Pinned bsp m
  target : ∀ c w next, m.pending c = some w → w.load = .task next →
    rqEligible bsp m.sched c next = true
  exclusive : m.Exclusive
  running : ∀ i, underWay i m.log = true → ∃ c, m.exec c = .task i
  saved : SavedFirst m.log

theorem step_quiet (hact : (Act.locked procs act).interleaved = true)
    (hsel : (Act.locked procs act).selector = none) (h : step bsp s (procs, act) = some s') :
    Quiet s s' ∧ act.takesSlot procs s = none := by
  cases act
  case createKernelThread | createUserProcess | createForkChild | createForkChildContext
    | allowAp | setAffinity => simp [Act.interleaved] at hact
  case yield | apIdle => simp [Act.selector] at hsel
  all_goals
    obtain rfl := some.inj h
    refine ⟨?_, rfl⟩
  case waitPrepare me wq => exact (Steady.waitPrepare bsp s me wq).quiet
  case blockCurrent me => exact .blockCurrent s me
  case waitTake me => exact (Steady.waitTake bsp s me).quiet
  case waitAbort me => exact (Steady.waitAbort bsp s me).quiet
  case wakeQueue wq => exact (Steady.wakeQueue bsp s wq).quiet
  case wakePid pid => exact (Steady.wakeWhere bsp s _).quiet
  case setPriority id level => exact (Steady.setPriority bsp s id level).quiet
  case detachPid | tick => exact ⟨fun _ => rfl, fun _ => ⟨rfl, rfl, rfl⟩, fun _ h => h⟩
  case death me => exact .taskMarkDead s _
  case preemptTick me online => exact (Steady.preemptTick bsp s me online).quiet

theorem Selected.rqEligible (h : Selected bsp s me sw s') (c : CpuId) (i : Slot) :
    rqEligible bsp s' c i = Sched.rqEligible bsp s c i := by
  cases h with
  | keep hquiet _ => exact hquiet.rqEligible c i
  | take hquiet hne helig halive hs' =>
  rename_i next s₁
  subst hs'
  have hclaim := claim_place s₁ me next i
  rw [← hquiet.rqEligible c i]
  unfold Sched.rqEligible
  rw [hclaim.processPid, hclaim.apOk, hclaim.affinity]

theorem yieldSelect_eq (h : m.yieldSelect bsp me = some m') :
    ∃ sw s', schedulerYield bsp m.sched me = some (sw, s') ∧
      m' = m.select me s' (yieldSwitch (m.idleRsp me) sw) := by
  obtain ⟨⟨sw, s'⟩, hyield, rfl⟩ := map_eq_some_iff.1 h
  exact ⟨sw, s', hyield, rfl⟩

theorem apIdleSelect_eq (h : m.apIdleSelect bsp me isBsp = some m') :
    ∃ sw s', schedulerApIdle bsp m.sched me isBsp = some (sw, s') ∧
      m' = { m.select me s' (apIdleSwitch sw) with
        idleRsp := if isBsp then m.idleRsp else update m.idleRsp me ⟨.idle me, 0⟩ } := by
  obtain ⟨⟨sw, s'⟩, hidle, rfl⟩ := map_eq_some_iff.1 h
  exact ⟨sw, s', hidle, rfl⟩

theorem Stacked.publish (h : Stacked m) (me : CpuId) (isBsp : Bool) :
    Stacked { m with
      idleRsp := if isBsp then m.idleRsp else update m.idleRsp me ⟨.idle me, 0⟩ } := by
  refine h.of_current h.rsp (fun c => ?_) rfl rfl fun _ => rfl
  split_ifs
  · exact h.idleRsp c
  by_cases hc : c = me
  · subst hc
    simp
  · simpa [hc] using h.idleRsp c

namespace PinnedInv

theorem of_settled (h : Settled m) (hpin : Pinned bsp m) : PinnedInv bsp m where
  stacked := h.stacked
  pinned := hpin
  target c w _ hw := by simp [h.pending c] at hw
  exclusive := h.exclusive
  running := h.running
  saved := h.saved

variable (h : PinnedInv bsp m)

include h

theorem of_eligible (hstacked : Stacked m') (hexec : m'.exec = m.exec) (hlog : m'.log = m.log)
    (helig : ∀ c i, rqEligible bsp m'.sched c i = rqEligible bsp m.sched c i)
    (htarget : ∀ c w next, m'.pending c = some w → w.load = .task next →
      rqEligible bsp m.sched c next = true) : PinnedInv bsp m' where
  stacked := hstacked
  pinned := {
    single := fun i c d hc hd => by
      rw [helig] at hc hd
      exact h.pinned.single i c d hc hd
    home := fun c i hi d hd => by
      rw [hexec] at hi
      rw [helig] at hd
      exact h.pinned.home c i hi d hd }
  target c w next hw hload := by
    rw [helig]
    exact htarget c w next hw hload
  exclusive c d i hc hd := by
    rw [hexec] at hc hd
    exact h.exclusive c d i hc hd
  running i hi := by
    rw [hlog] at hi
    rw [hexec]
    exact h.running i hi
  saved := by
    rw [hlog]
    exact h.saved

theorem select_target {p : Option PendingSwitch} (hsel : Selected bsp m.sched me sw s')
    (hload : ∀ w next, p = some w → w.load = .task next → ∃ old, sw = .toTask old next) (c : CpuId)
    (w : PendingSwitch) (next : Slot) (hw : (m.select me s' p).pending c = some w)
    (hnext : w.load = .task next) : rqEligible bsp m.sched c next = true := by
  by_cases hc : c = me
  · subst hc
    simp only [Machine.select, update_self] at hw
    obtain ⟨old, rfl⟩ := hload w next hw hnext
    cases hsel with
    | keep _ hsw => simp at hsw
    | take _ _ helig _ _ => exact helig
  · simp only [Machine.select, update_of_ne hc] at hw
    exact h.target c w next hw hnext

theorem plain (hact : (Act.locked procs act).interleaved = true)
    (hsel : (Act.locked procs act).selector = none) (hstep : m.plain bsp procs act = some m') :
    PinnedInv bsp m' := by
  obtain ⟨s', hs', rfl⟩ := map_eq_some_iff.1 hstep
  obtain ⟨hquiet, htakes⟩ := step_quiet hact hsel hs'
  rw [htakes]
  refine h.of_eligible ?_ rfl rfl hquiet.rqEligible h.target
  exact h.stacked.of_current h.stacked.rsp h.stacked.idleRsp rfl rfl hquiet.current

theorem yieldSelect (htask : m.inTask me = true) (hstep : m.yieldSelect bsp me = some m') :
    PinnedInv bsp m' := by
  obtain ⟨sw, s', hyield, rfl⟩ := yieldSelect_eq hstep
  have hsel := schedulerYield_selected hyield
  refine h.of_eligible (h.stacked.yieldSelect htask hsel) rfl rfl hsel.rqEligible
    (h.select_target hsel fun w next hw hnext => ?_)
  cases sw with
  | stay => simp [yieldSwitch] at hw
  | toIdle =>
    cases hw
    simp at hnext
  | toTask old next' =>
    cases hw
    exact ⟨old, by rw [LoadFrom.task.inj hnext]⟩

theorem apIdleSelect (hidle : m.inIdleLoop me = true)
    (hstep : m.apIdleSelect bsp me isBsp = some m') : PinnedInv bsp m' := by
  obtain ⟨sw, s', hround, rfl⟩ := apIdleSelect_eq hstep
  have hsel := schedulerApIdle_selected hround
  refine h.of_eligible ((h.stacked.apIdleSelect hidle hsel).publish me isBsp) rfl rfl
    hsel.rqEligible (h.select_target hsel fun w next hw hnext => ?_)
  cases sw with
  | stay => simp [apIdleSwitch] at hw
  | toIdle => simp [apIdleSwitch] at hw
  | toTask old next' =>
    cases hw
    exact ⟨old, by rw [LoadFrom.task.inj hnext]⟩

/-- While `c` is about to load a task, no CPU executes it. -/
theorem target_idle (hw : m.pending c = some w) (hnext : w.load = .task next) (d : CpuId) :
    m.exec d ≠ .task next := by
  intro hd
  have helig := h.target c w next hw hnext
  obtain rfl := h.pinned.home d next hd c helig
  exact ((h.stacked.pending c w hw).loadTask next hnext).1 hd

/-- Once `c` has left its stack, a run that is under way is one of another CPU. -/
theorem running_leaves {depth : Nat} {i : Slot}
    (hi : underWay i (m.leaves c depth ++ m.log) = true) : ∃ d, d ≠ c ∧ m.exec d = .task i := by
  unfold Machine.leaves at hi
  cases hexec : m.exec c with
  | task j =>
    rw [hexec, cons_append, nil_append, underWay, Bool.and_eq_true, decide_eq_true_eq] at hi
    obtain ⟨d, hd⟩ := h.running i hi.2
    refine ⟨d, ?_, hd⟩
    rintro rfl
    exact hi.1 (Stack.task.inj (hexec.symm.trans hd))
  | idle k =>
    rw [hexec, nil_append] at hi
    obtain ⟨d, hd⟩ := h.running i hi
    refine ⟨d, ?_, hd⟩
    rintro rfl
    simp [hexec] at hd

theorem savedFirst_leaves (c : CpuId) (depth : Nat) : SavedFirst (m.leaves c depth ++ m.log) := by
  unfold Machine.leaves
  cases m.exec c <;> exact h.saved

theorem contextSwitch (hw : m.pending c = some w) (depth : Nat) :
    PinnedInv bsp (m.contextSwitch c depth w) := by
  have hexec := h.stacked.exec_contextSwitch hw depth
  -- the CPU that switched is the only one its new task may run on
  have hhome (i : Slot) (hi : (m.contextSwitch c depth w).exec c = .task i) :
      w.load = .task i ∧ rqEligible bsp m.sched c i = true := by
    rw [hexec] at hi
    cases hload : w.load with
    | task next =>
      rw [hload] at hi
      obtain rfl : next = i := Stack.task.inj hi
      exact ⟨rfl, h.target c w next hw hload⟩
    | value sp => simp [hload] at hi
  refine ⟨h.stacked.contextSwitch hw depth, ⟨h.pinned.single, fun d i hi e he => ?_⟩,
    fun d w' next hw' hnext => ?_, fun d e i hd he => ?_, fun i hi => ?_, ?_⟩
  · by_cases hd : d = c
    · subst hd
      exact h.pinned.single i e d he (hhome i hi).2
    · rw [contextSwitch_exec_ne m hd] at hi
      exact h.pinned.home d i hi e he
  · by_cases hd : d = c
    · subst hd
      simp [contextSwitch_pending_self] at hw'
    · rw [contextSwitch_pending_ne m hd] at hw'
      exact h.target d w' next hw' hnext
  · by_cases hdc : d = c <;> by_cases hec : e = c
    · rw [hdc, hec]
    · subst hdc
      rw [contextSwitch_exec_ne m hec] at he
      exact absurd he (h.target_idle hw (hhome i hd).1 e)
    · subst hec
      rw [contextSwitch_exec_ne m hdc] at hd
      exact absurd hd (h.target_idle hw (hhome i he).1 d)
    rw [contextSwitch_exec_ne m hdc] at hd
    rw [contextSwitch_exec_ne m hec] at he
    exact h.exclusive d e i hd he
  · have hleaves (hi : underWay i (m.leaves c depth ++ m.log) = true) :
        ∃ d, (m.contextSwitch c depth w).exec d = .task i := by
      obtain ⟨d, hdc, hd⟩ := h.running_leaves hi
      exact ⟨d, by rw [contextSwitch_exec_ne m hdc, hd]⟩
    cases hload : w.load with
    | task next =>
      simp only [Machine.contextSwitch, Machine.enters, hload, cons_append,
        nil_append, underWay, Bool.or_eq_true, decide_eq_true_eq] at hi
      obtain rfl | hi := hi
      · exact ⟨c, by rw [hexec, hload]⟩
      · exact hleaves hi
    | value sp =>
      simp only [Machine.contextSwitch, Machine.enters, hload, nil_append] at hi
      exact hleaves hi
  cases hload : w.load with
  | task next =>
    simp only [Machine.contextSwitch, Machine.enters, hload, cons_append, nil_append, SavedFirst]
    refine ⟨?_, h.savedFirst_leaves c depth⟩
    rw [Bool.eq_false_iff]
    intro hunder
    obtain ⟨d, -, hd⟩ := h.running_leaves hunder
    exact h.target_idle hw hload d hd
  | value sp =>
    simp only [Machine.contextSwitch, Machine.enters, hload, nil_append]
    exact h.savedFirst_leaves c depth

theorem machineStep {act : Act} (hact : act.interleaved = true)
    (hstep : machineStep bsp m act = some m') : PinnedInv bsp m' := by
  cases act with
  | locked procs act =>
    obtain ⟨me, rfl, htask, hsel⟩ | ⟨me, isBsp, rfl, hidle, hsel⟩ | ⟨hsel, hplain⟩ :=
      lockedStep_cases hstep
    · exact h.yieldSelect htask hsel
    · exact h.apIdleSelect hidle hsel
    · exact h.plain hact hsel hplain
  | irqYield me => simp [Act.interleaved] at hact
  | switch me depth =>
    obtain ⟨w, hw, rfl⟩ := map_eq_some_iff.1 hstep
    exact h.contextSwitch hw depth

end PinnedInv

/-- When every task is eligible on one CPU only, whatever interleaving of
selections, stack switches, blocks, wakes, deaths and timer ticks on any CPUs
follows: no two CPUs execute on one task's stack, and no task was switched in
before its previous run was switched out. -/
theorem stacks_exclusive {boot : CpuId} (hstart : Settled m) (hpin : Pinned boot.val m)
    {acts : List Act}
    (hrun : runIf (machineStep boot.val) (fun _ act => act.interleaved) acts m = some m') :
    m'.Exclusive ∧ SavedFirst m'.log := by
  have hinv : PinnedInv boot.val m' :=
    runIf_invariant (fun _ _ _ h hact hstep => h.machineStep hact hstep)
      (PinnedInv.of_settled hstart hpin) hrun
  exact ⟨hinv.exclusive, hinv.saved⟩

def blankScheduler : Scheduler where
  ticks := 0
  nextId := 0
  tasks _ := { freshTask 0 0 with state := .unused }
  cpus _ := ⟨0, rqInit, false, 0, 0, false, false⟩
  threads := threadTableInit
  queues _ := WaitQueue.init

/-- Slot 1 is a kernel thread that only CPU 1 may run. -/
def pinnedMachine : Machine :=
  let m := bootMachine 0 (fun _ => none) blankScheduler
  { m with
    sched := rqAddEligible 0
      (m.sched.modTask 1 fun _ => { freshTask 1 0 with apOk := true, affinity := 2 }) 1 }

theorem bootMachine_exec {boot : CpuId} {mem : Scheduler}
    (h : (bootMachine boot procs mem).exec c = .task i) : c = boot ∧ i = 0 := by
  simp only [bootMachine] at h
  split_ifs at h with hc
  exact ⟨hc, (Stack.task.inj h).symm⟩

theorem settled_bootMachine (boot : CpuId) (procs : ProcessLookup) (mem : Scheduler) :
    Settled (bootMachine boot procs mem) where
  stacked := {
    rsp := fun _ => rfl
    idleRsp := fun _ => rfl
    current := fun _ _ _ hi => (bootMachine_exec hi).2.symm
    pending := fun _ _ hw => by simp [bootMachine] at hw }
  pending _ := rfl
  exclusive _ _ _ hc hd := (bootMachine_exec hc).1.trans (bootMachine_exec hd).1.symm
  running _ hi := by simp [bootMachine, underWay] at hi
  saved := trivial

theorem settled_pinnedMachine : Settled pinnedMachine := by
  have hboot := settled_bootMachine 0 (fun _ => none) blankScheduler
  refine ⟨hboot.stacked.of_current hboot.stacked.rsp hboot.stacked.idleRsp rfl rfl ?_,
    hboot.pending, hboot.exclusive, hboot.running, hboot.saved⟩
  exact (Quiet.rqAddEligible _ 1).current

theorem pinnedMachine_eligible (h : rqEligible 0 pinnedMachine.sched c i = true) :
    c.val = if i = 1 then 1 else 0 := by
  by_cases hi : i = 1
  · subst hi
    revert c
    decide +kernel
  rw [if_neg hi]
  have hap : (pinnedMachine.sched.tasks i).apOk = false := by
    simp [pinnedMachine, bootMachine, rqAddEligible, modTask, schedulerInit, hi]
  rw [rqEligible, hap] at h
  split_ifs at h with _ hbsp
  · simpa [rqCpuIsBsp] using hbsp
  · simp at h

theorem pinned_pinnedMachine : Pinned 0 pinnedMachine where
  single i c d hc hd := by
    rw [Fin.ext_iff, pinnedMachine_eligible hc, pinnedMachine_eligible hd]
  home c i hi d hd := by
    have hboot : (bootMachine 0 (fun _ => none) blankScheduler).exec c = .task i := hi
    obtain ⟨rfl, rfl⟩ := bootMachine_exec hboot
    rw [Fin.ext_iff, pinnedMachine_eligible hd]
    rfl

/-- CPU 1 takes its thread and both CPUs yield. -/
theorem stacks_exclusive_pinnedMachine :
    ∃ acts m, runIf (machineStep (0 : CpuId).val) (fun _ act => act.interleaved) acts
        pinnedMachine = some m ∧ m.exec 0 = .task 0 ∧ m.exec 1 = .task 1 ∧
      m.Exclusive ∧ SavedFirst m.log := by
  have hexec : ((runIf (machineStep (0 : CpuId).val) (fun _ act => act.interleaved)
      [.locked (fun _ => none) (.apIdle 1 false), .locked (fun _ => none) (.yield 0),
        .switch 1 0, .locked (fun _ => none) (.yield 1)] pinnedMachine).map
        fun m => (m.exec 0, m.exec 1)) = some (.task 0, .task 1) := by
    decide +kernel
  obtain ⟨m, hm, hboth⟩ := map_eq_some_iff.1 hexec
  obtain ⟨h0, h1⟩ := Prod.mk.inj hboth
  exact ⟨_, m, hm, h0, h1, stacks_exclusive settled_pinnedMachine pinned_pinnedMachine hm⟩

/-- Thread 1 may run on any CPU. CPU 0 runs it and yields, and CPU 1 loads it
before CPU 0 has switched away: both execute on its stack. -/
theorem stacks_shared :
    ∃ acts m, runIf (machineStep (0 : CpuId).val) (fun _ _ => true) acts
        (bootMachine 0 (fun _ => none) blankScheduler) = some m ∧
      m.exec 0 = .task 1 ∧ m.exec 1 = .task 1 ∧ ¬ SavedFirst m.log := by
  have hexec : ((runIf (machineStep (0 : CpuId).val) (fun _ _ => true)
      [.locked (fun _ => none) (.createKernelThread 1), .locked (fun _ => none) (.allowAp 1),
        .locked (fun _ => none) (.yield 0), .locked (fun _ => none) (.yield 0), .switch 0 8,
        .locked (fun _ => none) (.yield 0), .locked (fun _ => none) (.apIdle 1 false),
        .switch 1 8] (bootMachine 0 (fun _ => none) blankScheduler)).map
        fun m => (m.exec 0, m.exec 1, m.log)) =
      some (.task 1, .task 1, [.switchedIn 1 1 (freshSp 1), .switchedIn 0 1 (freshSp 1),
        .switchedOut 0 0 ⟨.task 0, 8⟩, .created 1]) := by
    decide +kernel
  obtain ⟨m, hm, hall⟩ := map_eq_some_iff.1 hexec
  obtain ⟨h0, hrest⟩ := Prod.mk.inj hall
  obtain ⟨h1, hlog⟩ := Prod.mk.inj hrest
  refine ⟨_, m, hm, h0, h1, ?_⟩
  rw [hlog]
  simp [SavedFirst, underWay]

/-! ## Selection and switch as one step -/

/-- A task that yields on a CPU with an idle loop is RUNNING or DEAD, or another task is next in the
run queue of the CPU; and no yield comes out of the idle loop. -/
def leavesOnlyDead (m : Machine) : Act → Bool
  | .locked _ (.yield me) =>
    let cpu := m.sched.cpus me
    let state := (m.sched.tasks cpu.current).state
    !cpu.idleValid || state = .running || state = .dead ||
      (rqPick cpu.rq (himask m.sched)).1.any (· ≠ cpu.current)
  | .irqYield _ => false
  | _ => true

/-- With exact masks a pick takes the next task of the run queue. -/
theorem schedPick_of_rqPick (h : MaskExact bsp s)
    (hpick : (rqPick (s.cpus me).rq (himask s)).1 = some next) (old : Slot) :
    (schedPick bsp s me old).1 = next := by
  have hwant : rqWant bsp s me next = true := by
    rw [← h next me]
    exact rqPick_mem hpick
  have hown : (pickOwn bsp me (himask s) rqSlots s).1 = some next := by
    rw [show rqSlots = 31 + 1 from rfl, pickOwn]
    simp only [hpick, if_pos hwant]
  simp only [schedPick, hown]

/-- A yield that goes to the idle loop has found no other task. -/
theorem schedulerYield_toIdle (h : schedulerYield bsp s me = some (.toIdle, s')) :
    (s.cpus me).idleValid = true ∧ (s.tasks (s.cpus me).current).state ≠ .running ∧
      ∀ j, (rqPick (s.cpus me).rq (himask s)).1 = some j → j = (s.cpus me).current := by
  rw [schedulerYield] at h
  obtain ⟨s₀, hs₀⟩ : ∃ s₀, s.modCpu me (fun p =>
    { p with needResched := false, quantumLeft := preemptQuantum }) = s₀ := ⟨_, rfl⟩
  have hcpu : s₀.cpus me =
      { s.cpus me with needResched := false, quantumLeft := preemptQuantum } := by
    rw [← hs₀]
    exact update_self ..
  have htasks : s₀.tasks = s.tasks := by
    rw [← hs₀]
    rfl
  have hhi : himask s₀ = himask s := by
    rw [himask, htasks]
    rfl
  rw [hs₀, hcpu] at h
  simp only at h
  generalize hcur : (s.cpus me).current = old at h ⊢
  by_cases hrunning : (s.tasks old).state = .running
  · -- a task that was RUNNING takes its slot back
    have hback : ∀ p : Scheduler, ((reclaimOld p old).tasks old).state = .running := by
      intro p
      simp [reclaimOld, modTask, rqRemoveAll]
    simp only [htasks, hrunning, decide_true, if_true, hback] at h
    split_ifs at h <;> simp at h
  have hyield : yieldOld bsp s₀ old = s₀ := if_neg (htasks ▸ hrunning)
  simp only [hyield, htasks, hrunning, decide_false, Bool.false_eq_true, if_false] at h
  split_ifs at h with hverify hold hrun hvalid
  all_goals try simp at h
  rw [schedPick_field (f := Cpu.idleValid) (fun _ _ => rfl), hcpu] at hvalid
  refine ⟨hvalid, hrunning, fun j hj => ?_⟩
  rw [← hold]
  refine (schedPick_of_rqPick (rqVerify_iff.1 (by simpa using hverify)) ?_ old).symm
  rw [hcpu, hhi]
  exact hj

/-- What atomic steps keep: the pointer of every live task is the one of its last
switch-out. -/
structure TracedInv (m : Machine) : Prop where
  stacked : Stacked m
  pending : ∀ c, m.pending c = none
  last : ∀ i q, lastOut i m.log = some q → m.rsp i = q ∨ (m.sched.tasks i).state = .dead
  resumes : ResumesSaved m.log

/-- Every CPU keeps its current slot, and a dead slot stays dead unless a new task
took it. -/
structure Calm (taken : Option Slot) (s s' : Scheduler) : Prop where
  current : ∀ c, (s'.cpus c).current = (s.cpus c).current
  dead : ∀ i, taken ≠ some i → (s.tasks i).state = .dead → (s'.tasks i).state = .dead

theorem Calm.refl (taken : Option Slot) (s : Scheduler) : Calm taken s s :=
  ⟨fun _ => rfl, fun _ _ h => h⟩

theorem Quiet.calm (h : Quiet s s') (taken : Option Slot) : Calm taken s s' :=
  ⟨h.current, fun i _ => h.dead i⟩

theorem createTask_calm (procs : ProcessLookup) (s : Scheduler) (pid : Nat) (full : Int) :
    Calm (taskAlloc s) s (createTask bsp procs s pid full).2 := by
  rw [createTask]
  cases halloc : taskAlloc s with
  | none => exact .refl _ s
  | some j =>
  simp only
  cases (threadAlloc procs _ pid).1 with
  | error e =>
    refine ⟨fun _ => rfl, fun i hne hdead => ?_⟩
    have hij : i ≠ j := fun heq => hne (by rw [heq])
    simpa [modTask, hij] using hdead
  | ok tid =>
    refine ⟨fun c => (Quiet.rqAddEligible _ j).current c, fun i hne hdead => ?_⟩
    have hij : i ≠ j := fun heq => hne (by rw [heq])
    simpa [modTask, hij, rqAddEligible] using hdead

theorem Calm.replace {f : Task → Task} (hf : ∀ t, (f t).state = t.state) (taken : Option Slot)
    (s : Scheduler) (i : Slot) : Calm taken s (rqResync bsp (s.modTask i f) i) := by
  have hresync : Quiet (s.modTask i f) (rqResync bsp (s.modTask i f) i) := by
    rw [rqResync]
    split_ifs
    · exact (Quiet.rqRemoveAll _ i).trans (.rqAddEligible _ i)
    · exact .rqRemoveAll _ i
  refine ⟨fun c => hresync.current c, fun j _ hdead => hresync.dead j ?_⟩
  by_cases hj : j = i
  · subst hj
    simpa [modTask, hf] using hdead
  · simpa [modTask, hj] using hdead

/-- A creation for a process is refused for bad arguments and for a process without user code. -/
theorem Calm.guarded {α : Type} {bad no : Prop} [Decidable bad] [Decidable no] {user : Bool}
    {taken : Option Slot} {e₁ e₂ : α} {r : α × Scheduler} (h : Calm taken s r.2)
    (hno : no ↔ bad ∨ (!user) = true) : Calm (if no then none else taken) s
      (if bad then (e₁, s) else if !user then (e₂, s) else r).2 := by
  by_cases hbad : bad
  · simpa [hbad] using Calm.refl _ s
  cases user with
  | false => simpa [hbad] using Calm.refl _ s
  | true => simpa [hno, hbad] using h

/-- A transition other than a selection revives a dead slot only by handing it to
a new task. -/
theorem step_calm (hsel : (Act.locked procs act).selector = none)
    (h : step bsp s (procs, act) = some s') : Calm (act.takesSlot procs s) s s' := by
  by_cases hact : (Act.locked procs act).interleaved = true
  · exact (step_quiet hact hsel h).1.calm _
  cases act
  case createKernelThread entry =>
    cases h
    rw [createKernelThread, Action.takesSlot]
    split_ifs
    · exact .refl _ s
    · exact createTask_calm procs s _ _
  case createUserProcess | createForkChild | createForkChildContext =>
    cases h
    exact (createTask_calm procs s _ _).guarded (by simp only [or_assoc])
  case allowAp id =>
    cases h
    rw [taskAllowAp]
    split_ifs
    · exact .refl _ s
    split
    · exact .refl _ s
    split_ifs
    · exact .replace (by exact fun _ => rfl) _ s _
    · exact .refl _ s
  case setAffinity id mask =>
    cases h
    unfold setAffinity
    split_ifs with hargs
    · exact .refl _ s
    split
    · exact .refl _ s
    split
    · exact .refl _ s
    simp only
    split_ifs
    all_goals first
      | exact .refl _ s
      | exact .replace (by exact fun _ => rfl) _ s _
  all_goals simp [Act.interleaved] at hact

theorem Selected.dead (h : Selected bsp s me sw s') (hi : (s.tasks i).state = .dead) :
    (s'.tasks i).state = .dead := by
  cases h with
  | keep hquiet _ => exact hquiet.dead i hi
  | take hquiet hne helig halive hs' =>
  rename_i next s₁
  have hnext : i ≠ next := fun heq => halive (heq ▸ hi)
  subst hs'
  rw [claim_state_ne s₁ me hnext, hquiet.dead i hi]

theorem lastOut_leaves_ne (depth : Nat) (hi : m.exec c ≠ .task i) :
    lastOut i (m.leaves c depth ++ m.log) = lastOut i m.log := by
  unfold Machine.leaves
  cases hexec : m.exec c with
  | task j =>
    have hji : j ≠ i := fun heq => hi (by rw [hexec, heq])
    simp [lastOut, hji]
  | idle _ => rfl

theorem lastOut_leaves_self (depth : Nat) (hi : m.exec c = .task i) :
    lastOut i (m.leaves c depth ++ m.log) = some ⟨.task i, depth⟩ := by
  simp [Machine.leaves, hi, lastOut]

theorem lastOut_enters (c : CpuId) (load : LoadFrom) (i : Slot) (log : List Event) :
    lastOut i (m.enters c load ++ log) = lastOut i log := by
  cases load <;> rfl

theorem resumesSaved_leaves (c : CpuId) (depth : Nat) (h : ResumesSaved m.log) :
    ResumesSaved (m.leaves c depth ++ m.log) := by
  unfold Machine.leaves
  cases m.exec c <;> exact h

namespace TracedInv

theorem of_boot (boot : CpuId) (procs : ProcessLookup) (mem : Scheduler) :
    TracedInv (bootMachine boot procs mem) where
  stacked := (settled_bootMachine boot procs mem).stacked
  pending _ := rfl
  last _ _ hq := by simp [bootMachine, lastOut] at hq
  resumes := trivial

variable (h : TracedInv m)

include h

/-- A creator gives the slot it takes a fresh stack; nothing else moves a pointer. -/
theorem plain (hsel : (Act.locked procs act).selector = none)
    (hstep : m.plain bsp procs act = some m') : TracedInv m' := by
  obtain ⟨s', hs', rfl⟩ := map_eq_some_iff.1 hstep
  have hcalm := step_calm hsel hs'
  cases htakes : act.takesSlot procs m.sched with
  | none =>
    rw [htakes] at hcalm
    refine ⟨h.stacked.of_current h.stacked.rsp h.stacked.idleRsp rfl rfl hcalm.current,
      h.pending, fun i q hq => ?_, h.resumes⟩
    exact (h.last i q hq).imp_right (hcalm.dead i (by simp))
  | some j =>
    rw [htakes] at hcalm
    refine ⟨h.stacked.of_current (fun i => ?_) h.stacked.idleRsp rfl rfl hcalm.current,
      h.pending, fun i q hq => ?_, h.resumes⟩
    · by_cases hi : i = j
      · subst hi
        simp [initStack, freshSp]
      · simpa [initStack, hi] using h.stacked.rsp i
    rw [initStack, lastOut] at hq
    split_ifs at hq with hi
    have hij : i ≠ j := Ne.symm hi
    have hlast := h.last i q hq
    simp only [initStack, update_of_ne hij]
    exact hlast.imp_right (hcalm.dead i (by simpa using hi))

theorem select_pending_ne (s' : Scheduler) (p : Option PendingSwitch) (c : CpuId)
    (hc : c ≠ me) : (m.select me s' p).pending c = none := by
  simpa [Machine.select, hc] using h.pending c

theorem of_selected (hsel : Selected bsp m.sched me sw s')
    (hstacked : Stacked (m.select me s' none)) : TracedInv (m.select me s' none) where
  stacked := hstacked
  pending c := by
    by_cases hc : c = me
    · rw [hc, select_pending_self]
    · exact h.select_pending_ne s' none c hc
  last i q hq := (h.last i q hq).imp_right hsel.dead
  resumes := h.resumes

/-- A selection of `me` followed by its switch: the task that is left is saved in
its own slot or dead, and the task that is loaded is not dead. -/
theorem switched {m₁ : Machine} (hstacked : Stacked m₁) (hrsp : m₁.rsp = m.rsp)
    (hlog : m₁.log = m.log) (hw : m₁.pending me = some w)
    (hother : ∀ c, c ≠ me → m₁.pending c = none)
    (hdead : ∀ i, (m.sched.tasks i).state = .dead → (m₁.sched.tasks i).state = .dead)
    (hleave : ∀ i, m₁.exec me = .task i → w.save = .task i ∨ (m₁.sched.tasks i).state = .dead)
    (hload : ∀ next, w.load = .task next → (m.sched.tasks next).state ≠ .dead) (depth : Nat) :
    TracedInv (m₁.contextSwitch me depth w) := by
  have hok := hstacked.pending me w hw
  -- a task that `me` was not on keeps its pointer and its last switch-out
  have hlast (i : Slot) (hi : m₁.exec me ≠ .task i) (q : StackPtr)
      (hq : lastOut i (m₁.leaves me depth ++ m₁.log) = some q) :
      m₁.rsp i = q ∨ (m.sched.tasks i).state = .dead := by
    rw [lastOut_leaves_ne depth hi, hlog] at hq
    rw [hrsp]
    exact h.last i q hq
  refine ⟨hstacked.contextSwitch hw depth, fun c => ?_, fun i q hq => ?_, ?_⟩
  · by_cases hc : c = me
    · rw [hc, contextSwitch_pending_self]
    · rw [contextSwitch_pending_ne m₁ hc, hother c hc]
  · have hq' : lastOut i (m₁.leaves me depth ++ m₁.log) = some q :=
      (lastOut_enters me w.load i _).symm.trans hq
    rw [hok.rsp]
    by_cases hi : m₁.exec me = .task i
    · rw [lastOut_leaves_self depth hi] at hq'
      obtain hsave | hgone := hleave i hi
      · rw [if_pos hsave]
        exact .inl (some.inj hq')
      · exact .inr hgone
    · rw [if_neg fun hsave => hi (hok.saveTask i hsave)]
      exact (hlast i hi q hq').imp_right (hdead i)
  have hbefore : ResumesSaved (m₁.leaves me depth ++ m₁.log) := by
    refine resumesSaved_leaves me depth ?_
    rw [hlog]
    exact h.resumes
  rw [Machine.contextSwitch]
  cases hnext : w.load with
  | task next =>
    refine ⟨fun q hq => ?_, hbefore⟩
    exact (hlast next (hok.loadTask next hnext).1 q hq).resolve_right (hload next hnext)
  | value sp => exact hbefore

theorem yieldStep (htask : m.inTask me = true)
    (hok : leavesOnlyDead m (.locked procs (.yield me)) = true)
    (hstep : m.yieldSelect bsp me = some m') (depth : Nat) :
    TracedInv (match m'.pending me with
      | none => m'
      | some w => m'.contextSwitch me depth w) := by
  obtain ⟨hfree, i, hi⟩ := inTask_iff.1 htask
  have hcur := h.stacked.current me i hfree hi
  obtain ⟨sw, s', hyield, rfl⟩ := yieldSelect_eq hstep
  have hsel := schedulerYield_selected hyield
  have hstacked := h.stacked.yieldSelect htask hsel
  rw [select_pending_self]
  cases sw with
  | stay => exact h.of_selected hsel hstacked
  | toIdle =>
    refine h.switched hstacked rfl rfl (select_pending_self m me s' _)
      (h.select_pending_ne s' _) (fun j => hsel.dead)
      (fun j hj => .inr (hsel.dead ?_)) (fun next hnext => by simp at hnext) depth
    cases hi.symm.trans hj
    obtain ⟨hvalid, hrunning, hnext⟩ := schedulerYield_toIdle hyield
    rw [hcur] at hrunning hnext
    simp only [leavesOnlyDead, hvalid, hrunning, hcur, Bool.not_true, decide_false, Bool.false_or,
      Bool.or_eq_true, decide_eq_true_eq] at hok
    refine hok.resolve_right fun hany => ?_
    cases hpick : (rqPick (m.sched.cpus me).rq (himask m.sched)).1 with
    | none => simp [hpick] at hany
    | some j => simp [hpick, hnext j hpick] at hany
  | toTask old next =>
  cases hsel with
  | keep _ hsw => simp at hsw
  | take hquiet hne helig halive hs' =>
  refine h.switched hstacked rfl rfl (select_pending_self m me s' _)
    (h.select_pending_ne s' _) (fun j => ?_)
    (fun j hj => .inl ?_) (fun next' hnext => ?_) depth
  · exact (Selected.take hquiet hne helig halive hs').dead
  · cases hi.symm.trans hj
    exact congrArg SaveArea.task hcur
  · cases hnext
    exact halive

theorem apIdleStep (hidle : m.inIdleLoop me = true) (hstep : m.apIdleSelect bsp me isBsp = some m')
    (depth : Nat) :
    TracedInv (match m'.pending me with
      | none => m'
      | some w => m'.contextSwitch me depth w) := by
  obtain ⟨hfree, hexec⟩ := inIdleLoop_iff.1 hidle
  obtain ⟨sw, s', hround, rfl⟩ := apIdleSelect_eq hstep
  have hsel := schedulerApIdle_selected hround
  have hstacked := (h.stacked.apIdleSelect hidle hsel).publish me isBsp
  rw [select_pending_self]
  cases sw with
  | stay | toIdle =>
    have hplain := h.of_selected hsel (h.stacked.apIdleSelect hidle hsel)
    exact ⟨hstacked, hplain.pending, hplain.last, hplain.resumes⟩
  | toTask old next =>
  refine h.switched hstacked rfl rfl (select_pending_self m me s' _) (h.select_pending_ne s' _)
    (fun j => hsel.dead) (fun j hj => ?_) (fun next' hnext => ?_) depth
  · simp [Machine.select, hexec] at hj
  cases hnext
  cases hsel with
  | keep _ hsw => simp at hsw
  | take _ _ _ halive _ => exact halive

theorem atomicStep {act : Act × Nat} (hok : leavesOnlyDead m act.1 = true)
    (hstep : atomicStep bsp m act = some m') : TracedInv m' := by
  obtain ⟨act, depth⟩ := act
  obtain ⟨m₁, hm₁, rfl⟩ := map_eq_some_iff.1 hstep
  cases act with
  | locked procs act =>
    obtain ⟨me, rfl, htask, hyield⟩ | ⟨me, isBsp, rfl, hidle, hround⟩ | ⟨hsel, hplain⟩ :=
      lockedStep_cases hm₁
    · exact h.yieldStep htask hok hyield depth
    · exact h.apIdleStep hidle hround depth
    · rw [hsel]
      exact h.plain hsel hplain
  | irqYield me => simp [leavesOnlyDead] at hok
  | switch me depth' =>
    obtain ⟨w, hw, rfl⟩ := map_eq_some_iff.1 hm₁
    simp [h.pending me] at hw

end TracedInv

/-- From boot, when a selection and its switch are one step and a yield goes to the
idle loop only from a dead task: every task that has been switched out resumes
with the stack pointer of its most recent switch-out. -/
theorem switch_in_resumes_saved (boot : CpuId) (procs : ProcessLookup) (mem : Scheduler)
    {acts : List (Act × Nat)}
    (hrun : runIf (atomicStep boot.val) (fun m act => leavesOnlyDead m act.1) acts
      (bootMachine boot procs mem) = some m') : ResumesSaved m'.log := by
  have hinv : TracedInv m' :=
    runIf_invariant (fun _ _ _ h hok hstep => h.atomicStep hok hstep)
      (TracedInv.of_boot boot procs mem) hrun
  exact hinv.resumes

/-- CPU 0 runs thread 1, returns to slot 0 and resumes thread 1. -/
theorem switch_in_resumes_saved_boot :
    ∃ acts m, runIf (atomicStep (0 : CpuId).val)
        (fun m act => leavesOnlyDead m act.1) acts
        (bootMachine 0 (fun _ => none) blankScheduler) = some m ∧
      m.log.head? = some (.switchedIn 0 1 ⟨.task 1, 96⟩) ∧ ResumesSaved m.log := by
  have hlog : ((runIf (atomicStep (0 : CpuId).val)
      (fun m act => leavesOnlyDead m act.1)
      [(.locked (fun _ => none) (.createKernelThread 1), 0),
        (.locked (fun _ => none) (.yield 0), 0), (.locked (fun _ => none) (.yield 0), 8),
        (.locked (fun _ => none) (.yield 0), 96), (.locked (fun _ => none) (.yield 0), 8)]
      (bootMachine 0 (fun _ => none) blankScheduler)).map fun m => m.log.head?) =
      some (some (.switchedIn 0 1 ⟨.task 1, 96⟩)) := by
    decide +kernel
  obtain ⟨m, hm, hhead⟩ := map_eq_some_iff.1 hlog
  exact ⟨_, m, hm, hhead, switch_in_resumes_saved 0 _ _ hm⟩

/-- Thread 1 blocks on CPU 1 with nothing else to run there, and CPU 1 returns to
its idle loop. Woken, the thread is loaded by CPU 0 with the pointer it was
created with. -/
theorem switch_in_stale :
    ∃ acts m, runIf (atomicStep (0 : CpuId).val) (fun _ _ => true) acts
        (bootMachine 0 (fun _ => none) blankScheduler) = some m ∧ ¬ ResumesSaved m.log := by
  have hlog : ((runIf (atomicStep (0 : CpuId).val) (fun _ _ => true)
      [(.locked (fun _ => none) (.createKernelThread 1), 0),
        (.locked (fun _ => none) (.allowAp 1), 0), (.locked (fun _ => none) (.apIdle 1 false), 8),
        (.locked (fun _ => none) (.blockCurrent 1), 0), (.locked (fun _ => none) (.yield 1), 96),
        (.locked (fun _ => none) (.wakePid 0), 0), (.locked (fun _ => none) (.yield 0), 0),
        (.locked (fun _ => none) (.yield 0), 8)]
      (bootMachine 0 (fun _ => none) blankScheduler)).map fun m => m.log) =
      some [.switchedIn 0 1 (freshSp 1), .switchedOut 0 0 ⟨.task 0, 8⟩,
        .switchedOut 1 1 ⟨.task 1, 96⟩, .switchedIn 1 1 (freshSp 1), .created 1] := by
    decide +kernel
  obtain ⟨m, hm, hm'⟩ := map_eq_some_iff.1 hlog
  refine ⟨_, m, hm, ?_⟩
  rw [hm']
  intro hresumes
  have hstale : freshSp 1 = ⟨.task 1, 96⟩ := hresumes.1 _ rfl
  simp [freshSp] at hstale

end RixuriOS.Sched
