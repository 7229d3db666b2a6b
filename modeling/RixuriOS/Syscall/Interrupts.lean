import RixuriOS.Syscall.PipeIo

/-!
# System calls that a signal interrupts

The loops in which calls of `syscall/syscall.c` wait, one iteration at a time. What
the rest of the kernel answers in an iteration is its environment, and `signal` says
whether `syscall_interrupted` takes a signal in it. A call whose result depends on
the signal of its last iteration has given up because of it; it then has to return
`-EINTR`, or the number of bytes transferred before.
-/

namespace RixuriOS.Syscall

def ttyReturn (result : Int) (got : Nat) (copyOk : Bool) : Int :=
  if result = eInval then eInval else if got ≠ 0 ∧ !copyOk then eFault else got

/-- `SYS_READ` on the terminal: `tty_read_blocking` returns `rc` and `got` bytes. -/
def ttyReadIter : Int × Nat × Bool → Bool → Outcome
  | (rc, got, copyOk), signal =>
    if rc = 0 then .ret (ttyReturn eNosys got copyOk)
    else if rc = -3 ∧ got = 0 then
      if signal then .ret (ttyReturn eIntr got copyOk) else .again 0
    else .ret (ttyReturn eInval got copyOk)

/-- `SYS_WAIT`, and `SYS_WAITPID` with or without `RIX_WAITPID_NOHANG`: `process_wait_blocking`
returns `rc`. -/
def waitIter (nohang : Bool) : Int × Nat × Bool → Bool → Outcome
  | (rc, child, copyOk), signal =>
    if rc = 1 then
      if nohang then .ret 0 else if signal then .ret eIntr else .again 0
    else if rc = 2 ∨ rc < 0 then .ret eInval
    else if !copyOk then .ret eFault
    else .ret child

/-- `SYS_NANOSLEEP`: the deadline has passed at the start of the iteration, or behind a successful
`scheduler_wait_prepare`. -/
def nanosleepIter : Bool × Bool → Bool → Outcome
  | (expired, expiredLater), signal =>
    if expired then .ret 0
    else if signal then .ret eIntr
    else if expiredLater then .ret 0
    else .again 0

/-- `SYS_POLL`: the result of `poll_scan`, and whether the time is up. -/
def pollIter : Option Nat × Bool → Bool → Outcome
  | (none, _), _ => .ret eFault
  | (some ready, late), signal =>
    if ready ≠ 0 ∨ late then .ret ready else if signal then .ret eIntr else .again 0

/-- The two halves of an iteration of `SYS_CONNECT`, before and after the pause. A signal in the
pause itself only ends the pause. -/
def connectIter : Bool ⊕ Bool × Int → Bool → Outcome
  | .inl expired, signal =>
    if signal then .ret eIntr else if expired then .ret (-110) else .again 0
  | .inr (found, rc), signal =>
    if signal then .ret eIntr
    else if !found then .ret eIntr
    else if rc ≠ -2 then .ret rc
    else .again 0

variable {ε : Type} {iter : Nat → ε → Bool → Outcome}

/-- A call after some iterations: the bytes it had transferred before the last one, and its
outcome. -/
def runCall (iter : Nat → ε → Bool → Outcome) : List (ε × Bool) → Nat → Nat × Outcome
  | [], done => (done, .again done)
  | (e, signal) :: rest, done =>
    match iter done e signal with
    | .again done' => runCall iter rest done'
    | .ret result => (done, .ret result)

/-- A call that gives up because of a signal, having transferred `done` bytes, returns
`law done`. -/
def GivesUp (iter : Nat → ε → Bool → Outcome) (law : Nat → Int) : Prop :=
  ∀ rounds e done result, runCall iter (rounds ++ [(e, true)]) 0 = (done, .ret result) →
    runCall iter (rounds ++ [(e, false)]) 0 ≠ (done, .ret result) → result = law done

/-- A call that gives up because of a signal reports what it has done, or `-EINTR`. -/
def Interruptible (iter : Nat → ε → Bool → Outcome) : Prop := GivesUp iter (doneOr · eIntr)

theorem givesUp_of_iter {law : Nat → Int} (P : Nat → Prop) (h0 : P 0)
    (hagain : ∀ done e signal done', P done → iter done e signal = .again done' → P done')
    (hlaw : ∀ done e result, P done → iter done e true = .ret result →
      iter done e false ≠ .ret result → result = law done) : GivesUp iter law := by
  intro rounds
  generalize 0 = start at h0 ⊢
  induction rounds generalizing start with
  | nil =>
    intro e done result hret hother
    simp only [List.nil_append, runCall] at hret hother
    cases htrue : iter start e true with
    | again done' => simp [htrue] at hret
    | ret r =>
    rw [htrue, Prod.mk.injEq, Outcome.ret.injEq] at hret
    obtain ⟨rfl, rfl⟩ := hret
    refine hlaw start e r h0 htrue fun hfalse => hother ?_
    rw [hfalse]
  | cons x rounds ih =>
    intro e done result hret hother
    rw [List.cons_append, runCall] at hret hother
    cases hx : iter start x.1 x.2 with
    | again done' =>
      rw [hx] at hret hother
      exact ih done' (hagain start x.1 x.2 done' h0 hx) e done result hret hother
    | ret r =>
      rw [hx] at hret hother
      exact absurd hret hother

theorem givesUp_of_idle {iter : ε → Bool → Outcome} {law : Nat → Int}
    (hagain : ∀ e signal done, iter e signal = .again done → done = 0)
    (hlaw : ∀ e result, iter e true = .ret result → iter e false ≠ .ret result → result = law 0) :
    GivesUp (fun _ => iter) law := by
  refine givesUp_of_iter (· = 0) rfl (fun _ e signal done _ => hagain e signal done) ?_
  rintro _ e result rfl
  exact hlaw e result

/-- Every call that waits for something else than the terminal is interrupted as it should be. A
read of the terminal that gives up always returns 0: the code behind the loop overwrites
`-EINTR`. -/
theorem calls_interruptible (r : ReadCall) (w : WriteCall) (nohang : Bool) :
    (r.len ≠ 0 → Interruptible fun done (e : Int × Nat × Bool) signal =>
      readOutcome { r with done } e.2.2 signal e.1 e.2.1) ∧
    (Interruptible fun done (e : Int × Nat) signal =>
      writeOutcome { w with done } signal e.1 e.2) ∧
    (Interruptible fun _ => waitIter nohang) ∧ (Interruptible fun _ => nanosleepIter) ∧
    (Interruptible fun _ => pollIter) ∧ (Interruptible fun _ => connectIter) ∧
    GivesUp (fun _ => ttyReadIter) fun _ => 0 := by
  refine ⟨fun hlen => ?_, ?_, ?_, ?_, ?_, ?_, ?_⟩
  · refine givesUp_of_iter (fun _ => True) trivial (fun _ _ _ _ _ _ => trivial) ?_
    intro done e result _ hret hother
    rw [readOutcome] at hret hother
    by_cases hwait : e.1 = -3 ∧ e.2.1 = 0
    · simp only [if_pos hwait, if_true, Outcome.ret.injEq] at hret
      rw [← hret, readReturn, doneOr]
      split_ifs <;> omega
    · rw [if_neg hwait] at hret hother
      exact absurd hret hother
  · refine givesUp_of_iter (fun _ => True) trivial (fun _ _ _ _ _ _ => trivial) ?_
    intro done e result _ hret hother
    rw [writeOutcome] at hret hother
    by_cases hwait : e.1 = -3 ∧ e.2 = 0
    · simp only [if_pos hwait, if_true, Outcome.ret.injEq] at hret
      exact hret.symm
    · rw [if_neg hwait] at hret hother
      exact absurd hret hother
  · exact givesUp_of_idle (by grind [waitIter]) (by grind [waitIter, doneOr])
  · exact givesUp_of_idle (by grind [nanosleepIter]) (by grind [nanosleepIter, doneOr])
  · exact givesUp_of_idle (by rintro ⟨_ | _, _⟩ <;> grind [pollIter])
      (by rintro ⟨_ | _, _⟩ <;> grind [pollIter, doneOr])
  · exact givesUp_of_idle (by grind [connectIter]) (by grind [connectIter, doneOr])
  · exact givesUp_of_idle (by grind [ttyReadIter]) (by grind [ttyReadIter, ttyReturn, eIntr, eInval])

theorem ttyReadIter_returns_zero :
    runCall (fun _ => ttyReadIter) [((-3, 0, true), true)] 0 = (0, .ret 0) ∧
      runCall (fun _ => ttyReadIter) [((-3, 0, true), false)] 0 = (0, .again 0) := by
  decide

end RixuriOS.Syscall
