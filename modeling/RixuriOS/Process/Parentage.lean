import RixuriOS.Lib.GuardedRun
import RixuriOS.Process.Credentials

/-!
# Parents and the reuse of pids

A record names its parent by a pid. When the parent is reaped before its children, the
pid goes back to `allocate_pid`, and once it is handed out again the new process is
taken for the parent of the old children: `wait` reports them to it. As long as no
process is reaped before its children, the process that a record names is the one that
created it.
-/

namespace RixuriOS.ProcTable

open GuardedRun

variable {h : History} {a : Act} {k : Nat}

/-- The zombie without threads that a wait call finds is not the parent of another process. -/
def leavesNoOrphan (t : Table) : Act → Bool
  | .wait parent wanted threads | .waitBlocking parent wanted threads =>
    threads ≠ 0 || (waitFind t parent wanted).all fun i =>
      decide (∀ j, t.live j → (t.table j).parent ≠ (t.table i).pid)
  | _ => true

theorem not_parent_of_reported {t : Table} (hguard : leavesNoOrphan t a = true) {parent pid : Nat}
    (hrep : reported t a = some (parent, pid)) : ∀ j, t.live j → (t.table j).parent ≠ pid := by
  cases a with
  | wait p w n | waitBlocking p w n =>
    simp only [reported, processWait, processWaitBlocking, waitReap] at hrep
    cases hfind : waitFind t p w with
    | none => grind
    | some i =>
      by_cases hn : n = 0
      · simp only [leavesNoOrphan, hn, hfind, ne_eq, not_true_eq_false, decide_false,
          Bool.false_or, Option.all_some, decide_eq_true_eq] at hguard
        grind
      · grind
  | _ => cases hrep

def orderlyRun (acts : List Act) : Option History :=
  runIf (fun h a => some (h.step a)) (fun h a => leavesNoOrphan h.now a) acts History.start

/-- The parent of every process is in the table, and it is the process that created it. -/
structure Lineage (h : History) : Prop where
  ok : h.now.Ok
  present : ∀ i, h.now.live i → ∃ j, h.now.live j ∧ (h.now.table j).pid = (h.now.table i).parent
  creator : ∀ i j, h.now.live i → h.now.live j →
    (h.now.table i).parent = (h.now.table j).pid → h.creator i = h.serial j

theorem lineage_start : Lineage History.start := by
  have hlive : ∀ i, History.start.now.live i → i = 0 := by
    intro i hi
    by_contra hne
    exact hi (by simp [History.start, processInit, hne, Proc.cleared])
  refine ⟨ok_processInit, fun i hi => ⟨0, ok_processInit.kernel.1, ?_⟩, fun i j _ _ _ => rfl⟩
  rw [hlive i hi]
  rfl

/-- A creation: the pid of the new process is nobody's parent yet. -/
theorem Lineage.born (hl : Lineage h) {parent pid : Nat} {k : Slot}
    (hb : Born h.now parent pid k (step h.now a)) (hc : created h.now a = some (parent, pid)) :
    Lineage (h.step a) := by
  have hok' : (h.step a).now.Ok := by
    rw [History.now_step]
    exact hl.ok.step a
  have hk : lookup (step h.now a) pid = some k := by
    rw [History.now_step] at hok'
    exact hok'.lookup_eq.2 ⟨hb.live, hb.proc_pid⟩
  have hstep : h.step a = ⟨step h.now a, Function.update h.serial k (h.births + 1),
      Function.update h.creator k (((lookup h.now parent).map h.serial).getD 0),
      h.births + 1⟩ := by
    rw [History.step, hc]
    simp [History.record, hk]
  have hfresh := lookup_eq_none.1 hb.fresh
  obtain ⟨p, hp⟩ : ∃ p, lookup h.now parent = some p := by
    by_cases h0 : parent = 0
    · exact ⟨0, hl.ok.lookup_eq.2 ⟨hl.ok.kernel.1, h0 ▸ hl.ok.kernel.2⟩⟩
    · obtain ⟨p, hp, -⟩ := hb.inherits h0
      exact ⟨p, hp⟩
  obtain ⟨hplive, hppid⟩ := of_lookup hp
  have hpk : p ≠ k := fun he => hb.slot.2 (he ▸ hplive)
  have hold : ∀ i, i ≠ k → (step h.now a).live i → h.now.live i := fun i hi =>
    (hb.others i hi).live.1
  rw [hstep] at hok' ⊢
  refine ⟨hok', fun i hi => ?_, fun i j hi hj hij => ?_⟩
  · by_cases hik : i = k
    · subst hik
      refine ⟨p, (hb.others p hpk).live.2 hplive, ?_⟩
      rw [(hb.others p hpk).proc, hppid, hb.proc_parent]
    obtain ⟨j, hj, hjpid⟩ := hl.present i (hold i hik hi)
    have hjk : j ≠ k := fun he => hb.slot.2 (he ▸ hj)
    refine ⟨j, (hb.others j hjk).live.2 hj, ?_⟩
    rw [(hb.others j hjk).proc, (hb.others i hik).proc, hjpid]
  dsimp only at hi hj hij ⊢
  have hjk : j ≠ k := by
    rintro rfl
    rw [hb.proc_pid] at hij
    by_cases hij' : i = j
    · subst hij'
      rw [hb.proc_parent] at hij
      exact hfresh p hplive (hppid.trans hij)
    obtain ⟨q, hq, hqpid⟩ := hl.present i (hold i hij' hi)
    rw [(hb.others i hij').proc] at hij
    exact hfresh q hq (hqpid.trans hij)
  rw [Function.update_of_ne hjk]
  rw [(hb.others j hjk).proc] at hij
  by_cases hik : i = k
  · subst hik
    rw [hb.proc_parent] at hij
    obtain rfl : p = j := hl.ok.unique p j hplive (hold j hjk hj) (hppid.trans hij)
    rw [Function.update_self, hp]
    rfl
  rw [Function.update_of_ne hik]
  rw [(hb.others i hik).proc] at hij
  exact hl.creator i j (hold i hik hi) (hold j hjk hj) hij

theorem History.step_of_not_created (hc : created h.now a = none) :
    h.step a = { h with now := ProcTable.step h.now a } := by rw [History.step, hc]

theorem Lineage.step (hl : Lineage h) (hguard : leavesNoOrphan h.now a = true) :
    Lineage (h.step a) := by
  have hok' : (h.step a).now.Ok := by
    rw [History.now_step]
    exact hl.ok.step a
  rcases (step_outcome h.now a).born_or_carried with ⟨_, _, _, hb, hc⟩ | ⟨hc, gone, hk, hgone⟩
  · exact hl.born hb hc
  rw [History.step_of_not_created hc] at hok' ⊢
  refine ⟨hok', fun i hi => ?_, fun i j hi hj hij => ?_⟩
  · obtain ⟨hi₀, -, hpar⟩ := hk.old i hi
    obtain ⟨j, hj, hpid⟩ := hl.present i hi₀
    -- a process that is gone was reaped, and the guard says that it is nobody's parent
    have hj' := hk.stays j hj fun hm => by
      obtain ⟨_, parent, hrep⟩ := hgone j hm
      exact not_parent_of_reported hguard hrep i hi₀ hpid.symm
    exact ⟨j, hj', by rw [(hk.old j hj').2.1, hpid, hpar]⟩
  obtain ⟨hi₀, -, hpar⟩ := hk.old i hi
  obtain ⟨hj₀, hpid, -⟩ := hk.old j hj
  exact hl.creator i j hi₀ hj₀ (by rw [← hpar, hij, hpid])

theorem Lineage.of_run {acts : List Act} (hrun : orderlyRun acts = some h) : Lineage h := by
  refine runIf_invariant (fun h a h' hl hguard hstep => ?_) lineage_start hrun
  cases hstep
  exact hl.step hguard

/-- If no process is reaped before its children, then a process appears as the parent only
of processes it has created, and both wait calls report to their caller only children
that this incarnation of the caller has created. -/
theorem wait_reports_own_children (acts : List Act) (h : History)
    (hrun : orderlyRun acts = some h) :
    (∀ i j, h.now.live i → h.now.live j → (h.now.table i).parent = (h.now.table j).pid →
      h.creator i = h.serial j) ∧
    ∀ a caller child, reported h.now a = some (caller, child) →
      ∀ j, h.now.live j → (h.now.table j).pid = caller →
        ∃ i, h.now.live i ∧ (h.now.table i).pid = child ∧ h.creator i = h.serial j := by
  have hl := Lineage.of_run hrun
  refine ⟨hl.creator, fun a caller child hrep j hj hpid => ?_⟩
  have hnone : reported h.now a ≠ none := by rw [hrep]; simp
  cases step_outcome h.now a with
  | untouched _ _ hr => exact absurd hr hnone
  | born _ _ _ _ _ hr => exact absurd hr hnone
  | edited _ _ _ _ _ hr => exact absurd hr hnone
  | delegated _ _ _ _ _ hr => exact absurd hr hnone
  | reaped parent i hreap hp _ hr =>
    cases hr.symm.trans hrep
    exact ⟨i, hreap.live, rfl, hl.creator i j hreap.live hj (hp.trans hpid.symm)⟩

def family : History :=
  History.start.run [.create [105] 0 true, .create [115] 1 true, .exit 2 7]

theorem wait_reports_own_children_family :
    reported family.now (.wait 1 anyPid 0) = some (1, 2) ∧
      ∃ i, family.now.live i ∧ (family.now.table i).pid = 2 ∧ family.creator i = family.serial 1 :=
  ⟨by decide +kernel,
    (wait_reports_own_children [.create [105] 0 true, .create [115] 1 true, .exit 2 7] family
      rfl).2 (.wait 1 anyPid 0) 1 2 (by decide +kernel) 1 (by decide +kernel)
      (by decide +kernel)⟩

/-! ## A pid that is used again

The first process creates all others except the process 3, which is a child of 2. -/

def crowdParent (pid : Nat) : Nat := if pid = 1 then 0 else if pid = 3 then 2 else 1

/-- All pids are handed out; then 2 exits and is reaped, its pid goes to a new child of the
first process, and 3 exits. -/
def reuse : List Act :=
  ((List.range 127).map fun k => .create [105] (crowdParent (k + 1)) true) ++
    [.exit 2 0, .wait 1 2 0, .create [105] 1 true, .exit 3 0]

/-- The process 3 was created by the first process with the pid 2. The second one appears
as its parent, and a wait reports it to that one. -/
theorem wait_reports_foreign_child :
    let h := History.start.run reuse
    h.now.live 3 ∧ h.now.live 2 ∧ (h.now.table 3).parent = (h.now.table 2).pid ∧
      h.creator 3 ≠ h.serial 2 ∧ reported h.now (.wait 2 anyPid 0) = some (2, 3) ∧
      reported h.now (.waitBlocking 2 anyPid 0) = some (2, 3) := by
  decide +kernel

end RixuriOS.ProcTable
