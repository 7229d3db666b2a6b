import RixuriOS.Lib.GuardedRun
import RixuriOS.Lib.Tally
import RixuriOS.Sync.WaitQueue

/-!
# Handles of a wait queue

Generations tell the waiters of a slot apart, as long as the queue is not
initialised again: `vfs_pipe` initialises the queues of a pipe slot that it takes,
and the generations then start from 1 once more, while a task that was waiting on
the old pipe may still hold its handle. A waiter that is removed takes a wakeup that it
was given and has not yet taken with it.
-/

namespace RixuriOS.WaitQueue

open GuardedRun Tally List Function

inductive WaitCall
  | prepare (id : Nat)
  | block (h : WaitHandle)
  | wakeOne
  | wakeAll
  | takeWakeup (h : WaitHandle)
  | remove (h : WaitHandle)
  | reinit

/-- A queue with its history: the handles that were given out with the ids of the tasks, those
that were removed, and for each handle how often its waiter was woken and how often it has taken a
wakeup. -/
structure Traced where
  queue : Queue
  issued : List (WaitHandle × Nat)
  removed : List WaitHandle
  wakes : WaitHandle → Nat
  takes : WaitHandle → Nat

def boot : Traced := ⟨init, [], [], fun _ => 0, fun _ => 0⟩

def isBlocked (q : Queue) (i : Fin maxWaiters) : Bool := (q.waiters i).state = .blocked

/-- A wakeup that the waiter of the handle has been given is still to be taken. -/
def isPending (q : Queue) (h : WaitHandle) : Bool :=
  (resolve q h).any fun i => (q.waiters i).state = .woken

/-- The history when the waiters with `p` are woken. -/
def Traced.woken (t : Traced) (p : Fin maxWaiters → Bool) (h : WaitHandle) : Nat :=
  t.wakes h + ((resolve t.queue h).any p).toNat

def step (t : Traced) : WaitCall → Traced
  | .prepare id =>
    match prepare t.queue id with
    | none => t
    | some (h, q) => { t with queue := q, issued := (h, id) :: t.issued }
  | .block h => { t with queue := block t.queue h }
  | .wakeOne =>
    { t with queue := wakeOne t.queue, wakes := t.woken fun i => firstBlocked t.queue = some i }
  | .wakeAll => { t with queue := wakeAll t.queue, wakes := t.woken (isBlocked t.queue) }
  | .takeWakeup h =>
    let r := takeWakeup t.queue h
    { t with
      queue := r.2
      takes := if r.1 = 0 then update t.takes h (t.takes h + 1) else t.takes }
  | .remove h =>
    { t with
      queue := remove t.queue h
      removed := if (resolve t.queue h).isSome then h :: t.removed else t.removed }
  | .reinit => { t with queue := init }

/-- Fewer than `2^32 - 1` handles are given out, the queue is not initialised again once one is,
and no waiter is removed that has a wakeup to take. -/
def orderly (t : Traced) : WaitCall → Bool
  | .prepare _ => t.issued.length + 1 < 2 ^ 32 - 1
  | .reinit => t.issued = []
  | .remove h => !isPending t.queue h
  | _ => true

def inUse (w : Waiter) : Bool := w.state ≠ .unused

structure HandlesOk (t : Traced) : Prop where
  generation : t.queue.generation = t.issued.length + 1
  issued_lt : ∀ h ∈ t.issued, h.1.generation < t.queue.generation
  distinct : ∀ h ∈ t.issued, ∀ h' ∈ t.issued, h.1.generation = h'.1.generation → h = h'
  waiter : ∀ i, inUse (t.queue.waiters i) = true →
    (⟨i, (t.queue.waiters i).generation⟩, (t.queue.waiters i).id) ∈ t.issued ∧
      ⟨i, (t.queue.waiters i).generation⟩ ∉ t.removed
  removed_lt : ∀ h ∈ t.removed, h.generation < t.queue.generation
  count : t.queue.count = tally inUse t.queue.waiters
  wakes : ∀ h, t.wakes h = t.takes h + (isPending t.queue h).toNat

variable {t : Traced}

variable {q : Queue} {i : Fin maxWaiters}

theorem resolve_eq_some {h : WaitHandle} :
    resolve q h = some i ↔ inUse (q.waiters i) = true ∧ h = ⟨i, (q.waiters i).generation⟩ := by
  obtain ⟨index, generation⟩ := h
  simp only [resolve, inUse]
  split_ifs with hlt hbad
  · refine ⟨by simp, fun ⟨huse, heq⟩ => ?_⟩
    cases heq
    simp_all
  · rw [not_or, not_not] at hbad
    constructor
    · intro hres
      cases hres
      simp [hbad.1, hbad.2]
    rintro ⟨-, heq⟩
    cases heq
    rfl
  refine ⟨by simp, fun ⟨_, heq⟩ => absurd ?_ hlt⟩
  rw [(WaitHandle.mk.inj heq).1]
  exact i.isLt

theorem isPending_iff {h : WaitHandle} : isPending q h = true ↔
    ∃ i, (inUse (q.waiters i) = true ∧ h = ⟨i, (q.waiters i).generation⟩) ∧
      (q.waiters i).state = .woken := by
  simp only [isPending, Option.any_eq_true, resolve_eq_some, decide_eq_true_eq]

/-- A slot gets another waiter, and neither the old one nor the new one has a wakeup to take. -/
theorem isPending_update {w : Waiter} {count generation : Nat} {h : WaitHandle}
    (hold : (q.waiters i).state ≠ .woken) (hnew : w.state ≠ .woken) :
    isPending ⟨update q.waiters i w, count, generation⟩ h = isPending q h := by
  rw [Bool.eq_iff_iff, isPending_iff, isPending_iff]
  refine exists_congr fun j => ?_
  by_cases hji : j = i
  · subst hji
    simp [hold, hnew]
  · simp [hji]

/-- The queues have the same waiters, perhaps in other states. -/
structure SameWaiters (q q' : Queue) : Prop where
  generation : q'.generation = q.generation
  count : q'.count = q.count
  handle : ∀ i, (q'.waiters i).generation = (q.waiters i).generation
  id : ∀ i, (q'.waiters i).id = (q.waiters i).id
  used : ∀ i, inUse (q'.waiters i) = inUse (q.waiters i)

theorem SameWaiters.resolve {q' : Queue} (hsame : SameWaiters q q') (h : WaitHandle) :
    WaitQueue.resolve q' h = WaitQueue.resolve q h := by
  ext i
  rw [resolve_eq_some, resolve_eq_some, hsame.used, hsame.handle]

section

variable (hok : HandlesOk t)

include hok

variable {takes wakes : WaitHandle → Nat}

namespace HandlesOk

theorem of_sameWaiters (hsame : SameWaiters t.queue q)
    (hwakes : ∀ h, wakes h = takes h + (isPending q h).toNat) :
    HandlesOk { t with queue := q, wakes, takes } where
  generation := hsame.generation.trans hok.generation
  issued_lt h hh := hsame.generation ▸ hok.issued_lt h hh
  distinct := hok.distinct
  waiter i hi := by
    rw [hsame.used] at hi
    rw [hsame.handle, hsame.id]
    exact hok.waiter i hi
  removed_lt h hh := hsame.generation ▸ hok.removed_lt h hh
  count := by
    rw [hsame.count, hok.count]
    exact (tally_congr hsame.used).symm
  wakes := hwakes

theorem setState {st : WaitState} {h₀ : WaitHandle} (hres : resolve t.queue h₀ = some i)
    (hst : st ≠ .unused) (hother : ∀ h, h ≠ h₀ → wakes h = t.wakes h ∧ takes h = t.takes h)
    (hi : wakes h₀ = takes h₀ + if st = .woken then 1 else 0) :
    HandlesOk { t with queue := setState t.queue i st, wakes, takes } := by
  obtain ⟨huse, rfl⟩ := resolve_eq_some.1 hres
  have hsame : SameWaiters t.queue (WaitQueue.setState t.queue i st) := by
    refine ⟨rfl, rfl, fun j => ?_, fun j => ?_, fun j => ?_⟩
    all_goals by_cases hji : j = i
    all_goals simp_all [WaitQueue.setState, inUse]
  refine hok.of_sameWaiters hsame fun h => ?_
  rw [isPending, hsame.resolve]
  by_cases heq : h = ⟨i, (t.queue.waiters i).generation⟩
  · subst heq
    rw [hi, hres]
    by_cases hw : st = .woken <;> simp [WaitQueue.setState, hw]
  · rw [(hother h heq).1, (hother h heq).2, hok.wakes h, isPending]
    cases hj : resolve t.queue h with
    | none => rfl
    | some j =>
      have hji : j ≠ i := by
        rintro rfl
        exact heq (resolve_eq_some.1 hj).2
      simp [WaitQueue.setState, hji]

theorem prepare (id : Nat) (hfew : t.issued.length + 1 < 2 ^ 32 - 1) :
    HandlesOk (step t (.prepare id)) := by
  rw [step, WaitQueue.prepare]
  cases hfind : (finRange maxWaiters).find? fun i => (t.queue.waiters i).state = .unused with
  | none => exact hok
  | some i =>
  have hfree : (t.queue.waiters i).state = .unused := by simpa using find?_some hfind
  have hgen : nextGeneration t.queue.generation = t.queue.generation + 1 := by
    rw [nextGeneration, hok.generation, Nat.mod_eq_of_lt (by omega), if_neg (by omega)]
  have hcount := tally_update inUse t.queue.waiters i ⟨id, t.queue.generation, .ready⟩
  have hle : tally inUse t.queue.waiters ≤ 64 :=
    (Finset.card_le_univ _).trans_eq (Fintype.card_fin _)
  refine ⟨?_, ?_, ?_, ?_, ?_, ?_, fun h => ?_⟩
  · rw [hgen, hok.generation, length_cons]
  · intro h hh
    rw [hgen]
    rcases mem_cons.1 hh with rfl | hh
    · exact Nat.lt_succ_self _
    · exact Nat.lt_succ_of_lt (hok.issued_lt h hh)
  · intro h hh h' hh' heq
    rcases mem_cons.1 hh with rfl | hh <;> rcases mem_cons.1 hh' with rfl | hh'
    · rfl
    · exact absurd (hok.issued_lt h' hh') (by rw [← heq]; exact Nat.lt_irrefl _)
    · exact absurd (hok.issued_lt h hh) (by rw [heq]; exact Nat.lt_irrefl _)
    · exact hok.distinct h hh h' hh' heq
  · intro j hj
    by_cases hji : j = i
    · subst hji
      simp only [update_self]
      exact ⟨mem_cons_self, fun hmem => absurd (hok.removed_lt _ hmem) (Nat.lt_irrefl _)⟩
    · simp only [update_of_ne hji] at hj ⊢
      exact ⟨mem_cons_of_mem _ (hok.waiter j hj).1, (hok.waiter j hj).2⟩
  · intro h hh
    rw [hgen]
    exact Nat.lt_succ_of_lt (hok.removed_lt h hh)
  · rw [show inUse (t.queue.waiters i) = false by simp [inUse, hfree], Bool.toNat_false,
      show inUse ⟨id, t.queue.generation, .ready⟩ = true from rfl, Bool.toNat_true] at hcount
    simp only [hok.count]
    omega
  · rw [hok.wakes h, isPending_update (by simp [hfree]) (by simp)]

theorem remove (h : WaitHandle) (hidle : isPending t.queue h = false) :
    HandlesOk (step t (.remove h)) := by
  rw [step, WaitQueue.remove]
  cases hres : resolve t.queue h with
  | none => simpa using hok
  | some i =>
  obtain ⟨huse, rfl⟩ := resolve_eq_some.1 hres
  have hcount := tally_update inUse t.queue.waiters i
    { t.queue.waiters i with id := 0, state := .unused }
  have hgone {j : Fin maxWaiters} (hj : inUse (update t.queue.waiters i
      { t.queue.waiters i with id := 0, state := .unused } j) = true) : j ≠ i := by
    rintro rfl
    simp [inUse] at hj
  refine ⟨hok.generation, hok.issued_lt, hok.distinct, fun j hj => ?_, fun h hh => ?_, ?_,
    fun h => ?_⟩
  · have hji := hgone hj
    simp only [update_of_ne hji] at hj ⊢
    refine ⟨(hok.waiter j hj).1, ?_⟩
    simp only [Option.isSome_some, if_true, mem_cons, not_or]
    exact ⟨fun heq => hji (Fin.ext (WaitHandle.mk.inj heq).1), (hok.waiter j hj).2⟩
  · simp only [Option.isSome_some, if_true, mem_cons] at hh
    rcases hh with rfl | hh
    · exact hok.issued_lt _ (hok.waiter i huse).1
    · exact hok.removed_lt h hh
  · rw [huse, Bool.toNat_true] at hcount
    simp only [hok.count]
    simp [inUse] at hcount
    omega
  · rw [hok.wakes h, isPending_update ?_ (by simp)]
    simpa [isPending, hres] using hidle

theorem block (h : WaitHandle) : HandlesOk (step t (.block h)) := by
  rw [step, WaitQueue.block]
  cases hres : resolve t.queue h with
  | none => exact hok
  | some i =>
  dsimp only
  split_ifs with hready
  · refine hok.setState hres (by simp) (fun _ _ => ⟨rfl, rfl⟩) ?_
    simpa [isPending, hres, hready] using hok.wakes h
  · exact hok

theorem wakeOne : HandlesOk (step t .wakeOne) := by
  rw [step, WaitQueue.wakeOne]
  cases hfind : firstBlocked t.queue with
  | none =>
    have hwakes : t.woken (fun _ => false) = t.wakes := by
      funext h
      simp [Traced.woken]
    simpa [hwakes] using hok
  | some i =>
  have hblocked : (t.queue.waiters i).state = .blocked := by simpa using find?_some hfind
  have hres : resolve t.queue ⟨i, (t.queue.waiters i).generation⟩ = some i :=
    resolve_eq_some.2 ⟨by simp [inUse, hblocked], rfl⟩
  refine hok.setState hres (by simp) (fun h hne => ⟨?_, rfl⟩) ?_
  · cases hj : resolve t.queue h with
    | none => simp [Traced.woken, hj]
    | some j =>
      have hji : i ≠ j := by
        rintro rfl
        exact hne (resolve_eq_some.1 hj).2
      simp [Traced.woken, hj, hji]
  · simpa [Traced.woken, isPending, hres, hblocked] using
      hok.wakes ⟨i, (t.queue.waiters i).generation⟩

theorem wakeAll : HandlesOk (step t .wakeAll) := by
  have hsame : SameWaiters t.queue (WaitQueue.wakeAll t.queue) := by
    refine ⟨rfl, rfl, fun j => ?_, fun j => ?_, fun j => ?_⟩
    all_goals by_cases hblocked : (t.queue.waiters j).state = .blocked
    all_goals simp [WaitQueue.wakeAll, inUse, hblocked]
  refine hok.of_sameWaiters hsame fun h => ?_
  rw [Traced.woken, hok.wakes h, isPending, isPending, hsame.resolve]
  cases hj : resolve t.queue h with
  | none => rfl
  | some j =>
    by_cases hblocked : (t.queue.waiters j).state = .blocked
    all_goals simp [WaitQueue.wakeAll, isBlocked, hblocked]

theorem takeWakeup (h : WaitHandle) : HandlesOk (step t (.takeWakeup h)) := by
  cases hres : resolve t.queue h with
  | none => simpa [WaitQueue.step, WaitQueue.takeWakeup, hres] using hok
  | some i =>
  by_cases hwoken : (t.queue.waiters i).state = .woken
  · simp only [WaitQueue.step, WaitQueue.takeWakeup, hres, hwoken, if_true]
    refine hok.setState hres (by simp) (fun h' hne => ⟨rfl, update_of_ne hne _ _⟩) ?_
    simpa [isPending, hres, hwoken] using hok.wakes h
  · simpa [WaitQueue.step, WaitQueue.takeWakeup, hres, hwoken] using hok

end HandlesOk

end

theorem HandlesOk.boot : HandlesOk boot where
  generation := rfl
  issued_lt := by simp [WaitQueue.boot]
  distinct := by simp [WaitQueue.boot]
  waiter i hi := by simp [WaitQueue.boot, init, inUse] at hi
  removed_lt := by simp [WaitQueue.boot]
  count := (tally_eq_zero fun _ => rfl).symm
  wakes h := by simp [WaitQueue.boot, isPending, init, resolve]

/-- While no handle is given out, the queue is still as it was initialised. -/
theorem HandlesOk.reinit (hok : HandlesOk t) (hnone : t.issued = []) :
    HandlesOk (WaitQueue.step t .reinit) := by
  have hgen : t.queue.generation = 1 := by rw [hok.generation, hnone, length_nil]
  refine ⟨by simp [WaitQueue.step, init, hnone], by simp [WaitQueue.step, hnone],
    by simp [WaitQueue.step, hnone], fun i hi => by simp [WaitQueue.step, init, inUse] at hi,
    fun h hh => (hok.removed_lt h hh).trans_eq hgen, HandlesOk.boot.count, fun h => ?_⟩
  have hidle : isPending t.queue h = false := by
    rw [← Bool.not_eq_true, isPending_iff]
    rintro ⟨i, ⟨huse, -⟩, -⟩
    simpa [hnone] using (hok.waiter i huse).1
  change t.wakes h = t.takes h + (isPending init h).toNat
  rw [hok.wakes h, hidle]
  simp [isPending, resolve, init]

theorem HandlesOk.step {call : WaitCall} (hok : HandlesOk t) (hcall : orderly t call = true) :
    HandlesOk (step t call) := by
  cases call with
  | prepare id => exact hok.prepare id (of_decide_eq_true hcall)
  | block h => exact hok.block h
  | wakeOne => exact hok.wakeOne
  | wakeAll => exact hok.wakeAll
  | takeWakeup h => exact hok.takeWakeup h
  | remove h => exact hok.remove h (Bool.not_eq_true' _ ▸ hcall)
  | reinit => exact hok.reinit (of_decide_eq_true hcall)

/-- In an orderly run a handle resolves only to the waiter of the task that it was given to, and not
after that waiter was removed; the count is the number of slots in use; and every wakeup of a
waiter, be it removed since or not, has been taken once or is the one that is pending. -/
theorem handles_sound {calls : List WaitCall} {t : Traced}
    (hrun : runIf (fun t c => some (step t c)) orderly calls boot = some t) :
    (∀ h id i, (h, id) ∈ t.issued → resolve t.queue h = some i →
      (t.queue.waiters i).id = id ∧ h ∉ t.removed) ∧
      t.queue.count = tally inUse t.queue.waiters ∧
      ∀ h, t.wakes h = t.takes h + (isPending t.queue h).toNat := by
  have hok : HandlesOk t := runIf_invariant
    (fun _ _ _ hok hcall hs' => Option.some.inj hs' ▸ hok.step hcall) .boot hrun
  refine ⟨fun h id i hissued hres => ?_, hok.count, hok.wakes⟩
  obtain ⟨huse, rfl⟩ := resolve_eq_some.1 hres
  obtain ⟨hmem, hkept⟩ := hok.waiter i huse
  exact ⟨(Prod.mk.inj (hok.distinct _ hmem _ hissued rfl)).2, hkept⟩

def secondWaiter : List WaitCall :=
  [.reinit, .prepare 7, .block ⟨0, 1⟩, .wakeAll, .takeWakeup ⟨0, 1⟩, .remove ⟨0, 1⟩, .prepare 9]

theorem handles_sound_second :
    ∃ t, runIf (fun t c => some (step t c)) orderly secondWaiter boot = some t ∧
      (⟨0, 1⟩, 7) ∈ t.issued ∧ t.wakes ⟨0, 1⟩ = 1 ∧ t.queue.count = tally inUse t.queue.waiters :=
  ⟨_, rfl, by decide, by decide, (@handles_sound secondWaiter _ rfl).2.1⟩

/-- The queue is initialised again while the task 7 holds a handle; the task 9 gets the same
handle, and what the task 7 removes is the waiter of the task 9. A waiter that is removed when it
has been woken leaves a wakeup that nobody takes. -/
theorem handle_reaches_other_task :
    (let t := [WaitCall.prepare 7, .reinit, .prepare 9].foldl step boot
    (⟨0, 1⟩, 7) ∈ t.issued ∧ resolve t.queue ⟨0, 1⟩ = some 0 ∧ (t.queue.waiters 0).id = 9 ∧
      inUse ((remove t.queue ⟨0, 1⟩).waiters 0) = false) ∧
    let t := [WaitCall.prepare 7, .block ⟨0, 1⟩, .wakeOne, .remove ⟨0, 1⟩].foldl step boot
    t.wakes ⟨0, 1⟩ = 1 ∧ t.takes ⟨0, 1⟩ = 0 ∧ resolve t.queue ⟨0, 1⟩ = none := by
  decide

end RixuriOS.WaitQueue
