import Ish.Epsh.Eval

/-!
# Programs

The model of `run_program_outcome` and `run_pending_traps` in
`crates/epsh/src/eval.rs`: the commands of a program one after the other, with the
traps of the signals that came in between, and the `EXIT` trap at its end.
-/

namespace Ish.Epsh

open Ish.Lib

variable {W : Type}

/-- A stopped program may leave a job behind, which is not part of the model. -/
inductive ProgramOutcome where
  | Completed (status : ExitStatus)
  | Stopped (status : ExitStatus)
deriving DecidableEq

section

variable (out : Outside W) (eval : Command → ShellM W ExitStatus)

/-- The traps of the given signals; an empty action is skipped. -/
def runSignalTraps : List Text → ShellM W Unit
  | [] => return ()
  | sig_name :: names => do
    match (← getShell).traps.lookup sig_name with
    | some (c :: action) => do
      runAction out eval sig_name (c :: action)
      runSignalTraps names
    | _ => runSignalTraps names

/-- `run_pending_traps` -/
def runPendingTraps : ShellM W Unit := do
  runSignalTraps out eval (← outside out.takePending)

/-- A program ends with the status that has been set, after its `EXIT` trap. -/
def completeProgram : ShellM W ProgramOutcome := do
  noteEnd (← getShell).exit_status
  runExitTrap out eval
  return .Completed (← getShell).exit_status

/-- `kill_children` -/
def killChildren : ShellM W Unit := do
  let m ← get
  modify fun m => { m with ended := [] }
  outside fun w => ((), out.killChildren (m.ended.map (·.1)) w)

/-- A program is interrupted with `status`. -/
def interruptProgram (status : ExitStatus) : ShellM W Unit := do
  setExitStatus status
  noteEnd status

/-- What becomes of a program when one of its commands ends with an error. -/
def endProgram : ShellError → ShellM W ProgramOutcome
  | .Exit status => do
    setExitStatus status
    completeProgram out eval
  | .Cancelled | .TimedOut => do
    interruptProgram (.fromSignal 2)
    killChildren out
    return .Completed (.fromSignal 2)
  | .Stopped .. => do
    interruptProgram (.ofInt 148)
    return .Stopped (.ofInt 148)
  | e => do
    errMsg out ("epsh: ".toList ++ e.display)
    setExitStatus .MISUSE
    completeProgram out eval

/-- The loop of `run_program_outcome` over the commands. -/
def runCommands : List Command → ShellM W ProgramOutcome
  | [] => completeProgram out eval
  | cmd :: commands => do
    match ← Process.attempt (eval cmd) with
    | .ok status => do
      setExitStatus status
      runPendingTraps out eval
      runCommands commands
    | .error e => endProgram out eval e

end

/-- `run_program_outcome`; `none` when the fuel does not suffice. -/
def runProgramOutcome (out : Outside W) (n : Nat) (program : Program) :
    ShellM W ProgramOutcome :=
  runCommands out (evalCommand out n) program.commands

end Ish.Epsh
