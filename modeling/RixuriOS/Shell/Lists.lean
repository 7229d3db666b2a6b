import RixuriOS.Shell.Pipeline

/-!
# Command lists

`rix_shell_execute_pipeline_indexed` runs the commands of a line one by one, with
`run_pipeline_command` as its runner. `&&` and `||` skip the next command only, so that a
later stage of the skipped pipeline has no pipe to read from. An exit status is the `int`
that the runner returns, and a negative one ends the line. A command is known by its
index, and `status` gives what `wait` reports for it.
-/

namespace RixuriOS.Shell

open List

/-- `rix_shell_execution_t` in the foreground: whether a pipe waits to be read, the children
to wait for, and the commands that were started. -/
structure Execution where
  input : Bool
  pids : List Nat
  ran : List Nat
  deriving DecidableEq

/-- The cast of `wait_for_execution`. -/
def exitCode (childStatus : UInt64) : Int := childStatus.toUInt32.toInt32.toInt

def runPipelineCommand (status : Nat → UInt64) (i : Nat) (fromPipe toPipe : Bool) (e : Execution) :
    Int × Execution :=
  let e := if i = 0 then { e with input := false, pids := [] } else e
  if maxCommands ≤ i ∨ fromPipe ∧ e.input = false then (-1, e)
  else
    let e := { e with input := toPipe, ran := e.ran ++ [i] }
    if maxCommands ≤ e.pids.length then (-1, e)
    else if toPipe then (0, { e with pids := e.pids ++ [i] })
    else (exitCode (status i), { e with input := false, pids := [] })

def isConnector (t : TokenType) : Bool := t = .pipe || t = .and || t = .or || t = .semi

def skipped (before : Option TokenType) (last : Int) : Bool :=
  before = some .and && last ≠ 0 || before = some .or && last = 0

section

variable (status : Nat → UInt64)

/-- The loop at the command `i`, between the connector before it and those after it: the
return value, the status and the execution. -/
def executeLoop : List TokenType → Nat → Option TokenType → Int → Execution →
    Int × Int × Execution
  | after, i, before, last, e =>
    if skipped before last then
      match after with
      | [] => (0, last, e)
      | c :: after => executeLoop after (i + 1) (some c) last e
    else if before.all isConnector = false ∨ after.head?.all isConnector = false then (-2, -2, e)
    else
      match runPipelineCommand status i (before = some .pipe) (after.head? = some .pipe) e with
      | (rc, e) =>
        if rc < 0 then (rc, rc, e)
        else
          match after with
          | [] => (0, rc, e)
          | c :: after => executeLoop after (i + 1) (some c) rc e

inductive Joint
  | and | or | semi

/-- A list: the number of further stages of its first pipeline, then each joint with the
number of further stages of the pipeline behind it. -/
structure CommandList where
  stages : Nat
  rest : List (Joint × Nat)

def Joint.token : Joint → TokenType
  | .and => .and
  | .or => .or
  | .semi => .semi

/-- What a list runs, the status of the last pipeline executed, and whether the loop is cut off:
a pipeline is run behind one with a negative status, or one of several commands is skipped behind
one with a status that is not negative. -/
structure Outcome where
  ran : List Nat
  status : Int
  cut : Bool

/-- The joints associate to the left. The command `i` is the first one behind `o`. -/
def listRest : List (Joint × Nat) → Nat → Outcome → Outcome
  | [], _, o => o
  | (j, n) :: rest, i, o =>
    if skipped j.token o.status then
      listRest rest (i + n + 1) { o with cut := o.cut || (n ≠ 0 && 0 ≤ o.status) }
    else
      listRest rest (i + n + 1)
        { ran := o.ran ++ range' i (n + 1)
          status := exitCode (status (i + n))
          cut := o.cut || o.status < 0 }

def CommandList.run (l : CommandList) : Outcome :=
  listRest status l.rest (l.stages + 1) ⟨range' 0 (l.stages + 1), exitCode (status l.stages), false⟩

/-! ## The loop -/

def follow (after : List TokenType) (i : Nat) (last : Int) (e : Execution) : Int × Int × Execution :=
  match after with
  | [] => (0, last, e)
  | c :: after => executeLoop status after (i + 1) (some c) last e

/-- The loop when the runner has returned. -/
def settle (after : List TokenType) (i : Nat) (rc : Int) (e : Execution) : Int × Int × Execution :=
  if rc < 0 then (rc, rc, e) else follow status after i rc e

section

variable {i : Nat} {before : Option TokenType} {last : Int} {e : Execution}
  (hs : skipped before last = false) (hbefore : before.all isConnector = true)
  (hin : before = some .pipe → i ≠ 0 ∧ e.input = true) (hpids : e.pids.length ≤ i)
include hs hbefore hin hpids

end

end

end RixuriOS.Shell
