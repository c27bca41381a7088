import Ish.Epsh.Lawful

/-!
# What each construct does to its context

One equation for each construct that changes the context of the part it evaluates:
the machine the part starts from, and what becomes of the machine it stops in.
-/

namespace Ish.Epsh

open Ish.Lib
open Process (attempt_run bind_run)

variable {W : Type} {m : Machine W} {α : Type}

/-- An error leaves a construct of one kind. -/
def Step.breaks (p : Part) : Step → Bool
  | .broke q _ => q == p
  | _ => false

/-- The machine inside a construct. -/
def Machine.inside (m : Machine W) (frame : Frame) : Machine W :=
  { m with frames := frame :: m.frames }

/-- The machine outside a construct that was entered from `frames`. -/
def Machine.backIn (m : Machine W) (frames : List Frame) : Machine W := { m with frames }

def Machine.withShell (m : Machine W) (f : Shell → Shell) : Machine W :=
  { m with shell := f m.shell }

theorem within_run (frame : Frame) (x : ShellM W α) (m : Machine W) :
    within frame x m = match x (m.inside frame) with
      | some (e, u) => some (e, u.backIn m.frames)
      | none => none := rfl

theorem part_run (p : Part) (x : ShellM W α) (m : Machine W) :
    part p x m = match x m with
      | some (.ok a, u) => some (.ok a, u)
      | some (.error e, u) => some (.error e, u.note (.broke p e))
      | some (.quit q, u) => some (.quit q, u)
      | none => none := by
  unfold part
  rw [bind_run, attempt_run]
  rcases x m with _ | ⟨_ | _ | _, _⟩ <;> rfl

theorem part_within_run (p : Part) (frame : Frame) (x : ShellM W α) (m : Machine W) :
    part p (within frame x) m = match x (m.inside frame) with
      | some (.ok a, u) => some (.ok a, u.backIn m.frames)
      | some (.error e, u) => some (.error e, (u.backIn m.frames).note (.broke p e))
      | some (.quit q, u) => some (.quit q, u.backIn m.frames)
      | none => none := by
  rw [part_run, within_run]
  rcases x (m.inside frame) with _ | ⟨_ | _ | _, _⟩ <;> rfl

/-- A condition is evaluated with `tested` set, which an error leaves set. -/
theorem evalCondition_run (x : ShellM W ExitStatus) (m : Machine W) :
    evalCondition x m =
      match x ((m.withShell fun sh => { sh with tested := true }).inside .condition) with
      | some (.ok status, u) => some (.ok status, (u.backIn m.frames).withShell fun sh =>
        { sh with tested := m.shell.tested, exit_status := status })
      | some (.error e, u) => some (.error e, (u.backIn m.frames).note (.broke .condition e))
      | some (.quit q, u) => some (.quit q, u.backIn m.frames)
      | none => none := by
  have hrun : evalCondition x m = (part .condition (within .condition x) >>= fun status =>
      (do setTested m.shell.tested; setExitStatus status; return status : ShellM W ExitStatus))
        (m.withShell fun sh => { sh with tested := true }) := rfl
  rw [hrun, bind_run, part_within_run]
  rcases x _ with _ | ⟨_ | _ | _, _⟩ <;> rfl

/-- `!` evaluates what it negates with `tested` set and puts it back. -/
theorem withTested_run (bang : Bool) (x : ShellM W α) (m : Machine W) :
    withTested bang x m =
      match (if bang then
          x ((m.withShell fun sh => { sh with tested := true }).inside .condition)
        else x m) with
      | some (.quit q, u) => some (.quit q, u.backIn (if bang then m.frames else u.frames))
      | some (e, u) => some (e, (u.backIn (if bang then m.frames else u.frames)).withShell
          fun sh => { sh with tested := m.shell.tested })
      | none => none := by
  cases bang with
  | false =>
    have hrun : withTested false x m = (Process.attempt x >>= fun result =>
        (do setTested m.shell.tested; Process.ofExcept result : ShellM W α)) m := rfl
    rw [hrun, bind_run, attempt_run]
    rcases x _ with _ | ⟨_ | _ | _, _⟩ <;> rfl
  | true =>
    have hrun : withTested true x m = (Process.attempt (within .condition x) >>= fun result =>
        (do setTested m.shell.tested; Process.ofExcept result : ShellM W α))
          (m.withShell fun sh => { sh with tested := true }) := rfl
    rw [hrun, bind_run, attempt_run, within_run]
    rcases x _ with _ | ⟨_ | _ | _, _⟩ <;> rfl

theorem withPlacement_run (f : PlacementContext → PlacementContext) (x : ShellM W α)
    (m : Machine W) :
    withPlacement f x m =
      match x (m.withShell fun sh => { sh with placement_context := f sh.placement_context }) with
      | some (.quit q, u) => some (.quit q, u)
      | some (e, u) => some (e, u.withShell fun sh =>
        { sh with placement_context := m.shell.placement_context })
      | none => none := by
  have hrun : withPlacement f x m = (Process.attempt x >>= fun result =>
      (do modifyShell fun sh => { sh with placement_context := m.shell.placement_context }
          Process.ofExcept result : ShellM W α))
        (m.withShell fun sh => { sh with placement_context := f sh.placement_context }) := rfl
  rw [hrun, bind_run, attempt_run]
  rcases x _ with _ | ⟨_ | _ | _, _⟩ <;> rfl

/-- A loop is counted while its rounds are evaluated; where they stop with an error
of their own or at a variable that cannot be assigned, it stays counted. -/
theorem inLoop_run (out : Outside W) (rounds : ShellM W LoopEnd) (m : Machine W) :
    inLoop out rounds m =
      match rounds ((m.withShell fun sh =>
          { sh with loop_depth := sh.loop_depth + 1 }).inside .loop) with
      | some (.ok (.finished status), u) => some (.ok status, (u.backIn m.frames).withShell
          fun sh => { sh with loop_depth := sh.loop_depth - 1 })
      | some (.ok (.left e), u) => some (.error e, (u.backIn m.frames).withShell
          fun sh => { sh with loop_depth := sh.loop_depth - 1 })
      | some (.ok (.abandoned msg), u) =>
        (do errMsg out msg; return ExitStatus.FAILURE : ShellM W ExitStatus)
          ((u.backIn m.frames).note (.broke .loop (.Runtime msg {})))
      | some (.error e, u) => some (.error e, (u.backIn m.frames).note (.broke .loop e))
      | some (.quit q, u) => some (.quit q, u.backIn m.frames)
      | none => none := by
  have hcount : (modifyShell fun sh => { sh with loop_depth := sh.loop_depth + 1 } : ShellM W Unit)
      m = some (.ok (), m.withShell fun sh => { sh with loop_depth := sh.loop_depth + 1 }) := rfl
  rw [inLoop, Process.bind_ok hcount, bind_run, part_within_run]
  rcases rounds _ with _ | ⟨ending, u⟩
  · rfl
  · cases ending with
    | ok loop_end => cases loop_end <;> rfl
    | error e => rfl
    | quit q => rfl

/-- The shell of a function call. -/
def Shell.enterCall (sh : Shell) (args : List Text) : Shell :=
  { sh with vars := { sh.vars with positional := args.tail.map strToBytes }.pushScope }

/-- A call that comes to an end pops its scope and restores the positional
parameters; one whose preparation fails does neither. -/
theorem inCall_run (args : List Text) (x : ShellM W (Except ShellError ExitStatus))
    (m : Machine W) :
    inCall args x m =
      match x ((m.withShell fun sh => sh.enterCall args).inside (.call (args.head?.getD []))) with
      | some (.ok result, u) => Process.ofExcept result ((u.backIn m.frames).withShell fun sh =>
        { sh with vars := { sh.vars.popScope with positional := m.shell.vars.positional } })
      | some (.error e, u) => some (.error e, (u.backIn m.frames).note (.broke .call e))
      | some (.quit q, u) => some (.quit q, u.backIn m.frames)
      | none => none := by
  have hrun : inCall args x m = (part .call (within (.call (args.head?.getD [])) x) >>=
      fun result =>
        (do modifyVars fun v => { v.popScope with positional := m.shell.vars.positional }
            Process.ofExcept result : ShellM W ExitStatus))
        (m.withShell fun sh => sh.enterCall args) := rfl
  rw [hrun, bind_run, part_within_run]
  rcases x _ with _ | ⟨_ | _ | _, _⟩ <;> rfl

/-- The status is set, noted for a command that `set -e` looks at, and ends the
evaluation where it has to. -/
theorem checkStatus_run (cmd : Command) (status : ExitStatus) (m : Machine W) :
    checkStatus cmd status m =
      let set := m.withShell fun sh => { sh with exit_status := status }
      let stopped := m.shell.stopsOn cmd status
      some (if stopped then .error (.Exit status) else .ok status,
        if cmd.isLeaf then set.note (.checked status m.shell.opts.errexit cmd.isBang stopped)
        else set) := by
  have hrun : checkStatus cmd status m = (do
      if cmd.isLeaf then
        record (.checked status m.shell.opts.errexit cmd.isBang (m.shell.stopsOn cmd status))
      if m.shell.stopsOn cmd status then Process.fail (.Exit status)
      return status : ShellM W ExitStatus)
        (m.withShell fun sh => { sh with exit_status := status }) := rfl
  rw [hrun]
  cases cmd.isLeaf <;> cases m.shell.stopsOn cmd status <;> rfl

end Ish.Epsh
