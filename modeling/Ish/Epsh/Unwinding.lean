import Ish.Epsh.Context

/-!
# What is waiting for an evaluation

`break` and `continue` are errors that travel outwards through the constructs that
are being evaluated. `Enters` says which evaluation waits for which other one in the
same shell environment, and what it undoes when an error comes through;
`EntersBody` and `EntersCondition` say the same of the loops.
-/

namespace Ish.Epsh

open Ish.Lib
open Process (attempt_run bind_error bind_ok)

variable {W : Type}

/-! ## Jumps -/

/-- The builtins that leave or resume a loop. -/
inductive Flow where
  | Break
  | Continue
deriving DecidableEq

namespace Flow

/-- The error that names the loop to leave or to resume. -/
def leave : Flow → Nat → ShellError
  | Break => .Break
  | Continue => .Continue

def builtin : Flow → Builtin
  | Break => .break
  | Continue => .continue

theorem outlives (flow : Flow) (k : Nat) : (flow.leave k).outlivesCleanup = true := by
  cases flow <;> rfl

theorem callResult_leave (flow : Flow) (k : Nat) :
    callResult (.error (flow.leave k)) = .error (flow.leave k) := by
  cases flow <;> rfl

end Flow

/-! ## What is undone -/

/-- Redirections undone after a jump: a failing cleanup is only reported. -/
def Machine.afterCleanup (out : Outside W) (op : DescriptorOp) (t : Machine W) : Machine W :=
  match out.descriptor op t.world with
  | (.ok (), w) => { t with world := w }
  | (.error cleanup, w) => (errMsg out ("epsh: ".toList ++ cleanup.message)
      { t with world := w }).elim t (·.2)

theorem finishRedirections_jump {α : Type} (out : Outside W) (flow : Flow) (k : Nat)
    (saved : List Int) (t : Machine W) :
    finishRedirections (α := α) out (.error (flow.leave k)) saved t =
      some (.error (flow.leave k), t.afterCleanup out (.restore saved)) := by
  have hrun : finishRedirections (α := α) out (.error (flow.leave k)) saved t =
      combineRedirectionCleanup out (.error (flow.leave k)) (out.descriptor (.restore saved) t.world).1
        { t with world := (out.descriptor (.restore saved) t.world).2 } := rfl
  rw [hrun, Machine.afterCleanup]
  generalize out.descriptor (.restore saved) t.world = result
  obtain ⟨cleanup | ⟨⟨⟩⟩, w⟩ := result
  · unfold combineRedirectionCleanup
    dsimp only
    rw [if_pos (flow.outlives k)]
    rfl
  · rfl

theorem finishSavedRedirections_jump {α : Type} (out : Outside W) (flow : Flow) (k : Nat)
    (saved : List Int) (t : Machine W) :
    finishSavedRedirections (α := α) out (.error (flow.leave k)) saved t =
      some (.error (flow.leave k), t.afterCleanup out (.keep saved)) := by
  have hrun : finishSavedRedirections (α := α) out (.error (flow.leave k)) saved t =
      combineRedirectionCleanup out (.error (flow.leave k)) (out.descriptor (.keep saved) t.world).1
        { t with world := (out.descriptor (.keep saved) t.world).2 } := rfl
  rw [hrun, Machine.afterCleanup]
  generalize out.descriptor (.keep saved) t.world = result
  obtain ⟨cleanup | ⟨⟨⟩⟩, w⟩ := result
  · unfold combineRedirectionCleanup
    dsimp only
    rw [if_pos (flow.outlives k)]
    rfl
  · rfl

/-- A condition, evaluated from `m`, is left with an error. -/
def Machine.outOfCondition (m : Machine W) (e : ShellError) (t : Machine W) : Machine W :=
  (t.backIn m.frames).note (.broke .condition e)

/-- The machine a condition is evaluated from. -/
def Machine.inCondition (m : Machine W) : Machine W :=
  (m.withShell fun sh => { sh with tested := true }).inside .condition

def Machine.withTested (m : Machine W) (tested : Bool) : Machine W :=
  m.withShell fun sh => { sh with tested }

def Machine.withPlacement (m : Machine W) (placement_context : PlacementContext) : Machine W :=
  m.withShell fun sh => { sh with placement_context }

/-- A function call, made from `m`, is left: its scope is popped, and the positional
parameters are those of `m` again. -/
def Machine.outOfCall (m t : Machine W) : Machine W :=
  (t.backIn m.frames).withShell fun sh =>
    { sh with vars := { sh.vars.popScope with positional := m.shell.vars.positional } }

/-- A loop is left: it is no longer counted. -/
def Machine.outOfLoop (t : Machine W) (frames : List Frame) : Machine W :=
  (t.backIn frames).withShell fun sh => { sh with loop_depth := sh.loop_depth - 1 }

/-- The machine the rounds of a loop begin with. -/
def Machine.inLoop (m : Machine W) : Machine W :=
  (m.withShell fun sh => { sh with loop_depth := sh.loop_depth + 1 }).inside .loop

theorem evalCondition_error {x : ShellM W ExitStatus}
    (h : x m.inCondition = some (.error e, t)) :
    evalCondition x m = some (.error e, m.outOfCondition e t) := by
  rw [evalCondition_run]
  unfold Machine.inCondition at h
  rw [h]
  rfl

/-! ## Beginning a command -/

section

variable (out : Outside W)

/-- The evaluation of `cmd` from `m` is past what precedes every command, in `t`. -/
def Starts (cmd : Command) (m t : Machine W) : Prop :=
  ∃ u, checkCancel out m = some (.ok (), u) ∧ u.shell.opts.noexec = false ∧
    resetEvExit cmd u = some (.ok (), t)

/-- Something that is being evaluated, with the fuel left for it. -/
inductive Task where
  | command (n : Nat) (cmd : Command)
  | words (n : Nat) (assigns : List Assignment) (args : List Text) (span : Span)
  | builtin (n depth : Nat) (args : List Text) (span : Span)

/-- The evaluation of a task from `m` stops with the error `e` in `t`. -/
def Task.Fails : Task → Machine W → ShellError → Machine W → Prop
  | .command n cmd, m, e, t => evalCommand out n cmd m = some (.error e, t)
  | .words n assigns args span, m, e, t =>
    dispatch out (evalCommand out n) n assigns args span m = some (.error e, t)
  | .builtin n depth args span, m, e, t =>
    tryBuiltin out (commandSubst out (evalCommand out n)) (evalCommand out n) n depth args span m =
      some (.error e, t)

variable {out} {n : Nat} {cmd : Command} {m t u v : Machine W} {e : ShellError}

/-- A command goes on, once it has begun, with what it is made of. -/
theorem Starts.run (h : Starts out cmd m t) (hne : ∀ bang span, cmd ≠ .Pipeline [] bang span)
    (hx : evalCommandInner out (evalCommand out n) n cmd = (resetEvExit cmd >>= fun _ => x)) :
    evalCommand out (n + 1) cmd m = (x >>= checkStatus cmd) t := by
  obtain ⟨u, hcancel, hexec, hreset⟩ := h
  have hcmd : evalCommand out (n + 1) cmd =
      (checkCancel out >>= fun _ => getShell >>= fun sh => if sh.opts.noexec then return .SUCCESS
        else evalCommandInner out (evalCommand out n) n cmd >>= checkStatus cmd) := by
    rw [evalCommand]
    unfold evalCommandWith
    split
    · exact absurd rfl (hne _ _)
    · rfl
  rw [hcmd, bind_ok hcancel, getShell_bind, hexec, if_neg Bool.false_ne_true, hx,
    bind_assoc, bind_ok hreset]

theorem Starts.fails (h : Starts out cmd m t) (hne : ∀ bang span, cmd ≠ .Pipeline [] bang span)
    (hx : evalCommandInner out (evalCommand out n) n cmd = (resetEvExit cmd >>= fun _ => x))
    (he : x t = some (.error e, u)) : (Task.command (n + 1) cmd).Fails out m e u := by
  rw [Task.Fails, h.run hne hx, bind_error he]

end

/-! ## One evaluation inside another -/

/-- What is evaluated with `tested` set before a command decides how to go on. -/
def Command.condition? : Command → Option Command
  | .And left _ | .Or left _ => some left
  | .If cond _ _ => some cond
  | _ => none

/-- How a command goes on after its condition. -/
def Command.branch? (status : ExitStatus) : Command → Option Command
  | .And _ right => if status.success then some right else none
  | .Or _ right => if status.success then none else some right
  | .If _ then_part else_part => if status.success then some then_part else else_part
  | _ => none

section

variable (out : Outside W) (eval : Command → ShellM W ExitStatus) (n : Nat)

/-- What a simple command does with its words before it runs them. -/
def prepareWords (assigns : List Assignment) (args : List Text) (redirs : List Redir)
    (span : Span) : ShellM W (List Int) := do
  checkCommandPolicyForDispatch out args span
  preflightExternal out args
  preflightRedirects out redirs
  traceCommand out eval n assigns args
  setupRedirections out (commandSubst out eval) n redirs

/-- The arm of a `case` whose body is evaluated, and the machine it is evaluated from. -/
inductive ChoosesArm (expanded : Text) :
    List CaseArm → Machine W → Command → Machine W → Prop where
  | found {arm : CaseArm} {arms : List CaseArm} {body : Command} {m t : Machine W}
      (hmatch : matchesArm out eval n expanded arm.patterns m = some (.ok true, t))
      (hbody : arm.body = some body) : ChoosesArm expanded (arm :: arms) m body t
  | next {arm : CaseArm} {arms : List CaseArm} {body : Command} {m t u : Machine W}
      (hmatch : matchesArm out eval n expanded arm.patterns m = some (.ok false, t))
      (hrest : ChoosesArm expanded arms t body u) : ChoosesArm expanded (arm :: arms) m body u

/-- The command of a program that is evaluated after those before it. -/
def ReachesCommand (program : Program) (m : Machine W) (cmd : Command) (t : Machine W) : Prop :=
  ∃ before after status, program.commands = before ++ cmd :: after ∧
    runInlineLoop eval before .SUCCESS m = some (.ok status, t)

end

/-- A builtin has been found, and noted. -/
def Machine.ran (m : Machine W) (args : List Text) : Machine W :=
  m.note (.runs .builtin args [] m.shell.vars.vars)

theorem ran_bind {α : Type} (args : List Text) (f : Unit → ShellM W α) (m : Machine W) :
    (recordRun .builtin args [] >>= f) m = f () (m.ran args) := rfl

theorem ran_shell (m : Machine W) (args : List Text) : (m.ran args).shell = m.shell := rfl

section

variable (out : Outside W)

/-- The first task, evaluated from the first machine, waits for the second one, which is
evaluated from the second machine in the same shell environment; the function is what
the first task undoes when an error comes through. Loops are left out. -/
inductive Enters : Task → Machine W → (ShellError → Machine W → Machine W) → Task →
    Machine W → Prop where
  | sequenceLeft {n : Nat} {left right : Command} {m t : Machine W}
      (h : Starts out (.Sequence left right) m t) :
      Enters (.command (n + 1) (.Sequence left right)) m (fun _ v => v) (.command n left) t
  | sequenceRight {n : Nat} {left right : Command} {status : ExitStatus} {m t u : Machine W}
      (h : Starts out (.Sequence left right) m t)
      (hleft : evalCommand out n left t = some (.ok status, u)) :
      Enters (.command (n + 1) (.Sequence left right)) m (fun _ v => v) (.command n right)
        (u.withShell fun sh => { sh with exit_status := status })
  | condition {n : Nat} {cmd cond : Command} {m t : Machine W} (h : Starts out cmd m t)
      (hcond : cmd.condition? = some cond) :
      Enters (.command (n + 1) cmd) m t.outOfCondition (.command n cond) t.inCondition
  | branch {n : Nat} {cmd cond branch : Command} {status : ExitStatus} {m t u : Machine W}
      (h : Starts out cmd m t) (hcond : cmd.condition? = some cond)
      (hstatus : evalCondition (evalCommand out n cond) t = some (.ok status, u))
      (hbranch : cmd.branch? status = some branch) :
      Enters (.command (n + 1) cmd) m (fun _ v => v) (.command n branch) u
  | negation {n : Nat} {cmd : Command} {m t : Machine W} (h : Starts out (.Not cmd) m t) :
      Enters (.command (n + 1) (.Not cmd)) m
        (fun _ v => (v.backIn t.frames).withTested t.shell.tested) (.command n cmd) t.inCondition
  | pipeline {n : Nat} {cmd : Command} {bang : Bool} {span : Span} {m t u v : Machine W}
      (h : Starts out (.Pipeline [cmd] bang span) m t)
      (hinside : (if bang then t.inCondition else t) = u)
      (hterminal : ensureTerminalDescriptor out (u.withPlacement
        (if [cmd].length > 1 || !bang then { u.shell.placement_context with
            pipeline_depth := u.shell.placement_context.pipeline_depth + 1 }
          else u.shell.placement_context)) = some (.ok (), v)) :
      Enters (.command (n + 1) (.Pipeline [cmd] bang span)) m
        (fun _ w => ((w.withPlacement u.shell.placement_context).backIn
          (if bang then t.frames else w.frames)).withTested t.shell.tested) (.command n cmd) v
  | group {n : Nat} {body : Command} {redirs : List Redir} {saved : List Int} {m t u : Machine W}
      (h : Starts out (.BraceGroup body redirs) m t)
      (hsetup : setupRedirections out (commandSubst out (evalCommand out n)) n redirs t =
        some (.ok saved, u)) :
      Enters (.command (n + 1) (.BraceGroup body redirs)) m
        (fun _ v => v.afterCleanup out (.restore saved)) (.command n body) u
  | arm {n : Nat} {word : Word} {arms : List CaseArm} {body : Command} {text : Text}
      {m t u v : Machine W} (h : Starts out (.Case word arms) m t)
      (hword : expandString out (commandSubst out (evalCommand out n)) n word t =
        some (.ok text, u))
      (harm : ChoosesArm out (evalCommand out n) n (removeGlobEscapes text) arms u body v) :
      Enters (.command (n + 1) (.Case word arms)) m (fun _ w => w) (.command n body) v
  | simple {n : Nat} {assigns : List Assignment} {words : List Word} {redirs : List Redir}
      {span : Span} {args : List Text} {saved : List Int} {m t u v : Machine W}
      (h : Starts out (.Simple assigns words redirs span) m t)
      (hargs : expandArgs out (evalCommand out n) n words ((t.note (.begins span)).inside .simple) =
        some (.ok args, u)) (hne : args ≠ [])
      (hallowed : parentProcessRefusal out.host u.shell args = none)
      (hready : prepareWords out (evalCommand out n) n assigns args redirs span u =
        some (.ok saved, v)) :
      Enters (.command (n + 1) (.Simple assigns words redirs span)) m
        (fun _ w => (w.afterCleanup out
          (if isExec args.length args then .keep saved else .restore saved)).backIn t.frames)
        (.words n assigns args span) v
  | builtin {n : Nat} {assigns : List Assignment} {args : List Text} {span : Span} {m : Machine W} :
      Enters (.words n assigns args span) m (fun _ v => v) (.builtin n args.length args span) m
  | call {n : Nat} {assigns : List Assignment} {args : List Text} {span : Span} {body : Command}
      {saved : List Int} {m t u v : Machine W}
      (hnone : tryBuiltin out (commandSubst out (evalCommand out n)) (evalCommand out n) n
        args.length args span m = some (.ok none, t))
      (hbody : t.shell.functions.lookup (args.head?.getD []) = some body)
      (hassign : assignLocals out (evalCommand out n) n assigns
        ((t.withShell fun sh => { sh with ev_exit := false }.enterCall args).inside
          (.call (args.head?.getD []))) = some (.ok (), u))
      (hsetup : setupRedirections out (commandSubst out (evalCommand out n)) n [] u =
        some (.ok saved, v)) :
      Enters (.words n assigns args span) m
        (fun _ w => t.outOfCall (w.afterCleanup out (.restore saved))) (.command n body)
        (v.note (.runs .function args [] v.shell.vars.vars))
  | nested {n depth : Nat} {args new_args : List Text} {span : Span} {m t : Machine W}
      (hname : Builtin.named (args.head?.getD []) = some .command)
      (haction : commandAction args = .Execute new_args)
      (hallowed : parentProcessRefusal out.host m.shell new_args = none)
      (hpolicy : checkCommandPolicyForDispatch out new_args span (m.ran args) = some (.ok (), t)) :
      Enters (.builtin n (depth + 1) args span) m (fun _ v => v) (.builtin n depth new_args span) t
  | eval {n depth : Nat} {args : List Text} {span : Span} {program : Program} {cmd : Command}
      {m t : Machine W} (hname : Builtin.named (args.head?.getD []) = some .eval)
      (hlen : 1 < args.length) (hparse : out.parse (joinWords args.tail) = .ok program)
      (hcmd : ReachesCommand (evalCommand out n) program (m.ran args) cmd t) :
      Enters (.builtin n (depth + 1) args span) m (fun _ v => v) (.command n cmd) t
  | dot {n depth : Nat} {args operands : List Text} {filename : Text} {bytes : ShellBytes}
      {span : Span} {program : Program} {cmd : Command} {m t : Machine W} {w : W}
      (hname : Builtin.named (args.head?.getD []) = some .dot)
      (hargs : args.tail = filename :: operands)
      (hfile : out.readFile (joinPath m.shell.cwd (strToBytes filename)) m.world = (.ok bytes, w))
      (hparse : out.parse (bytesToStr bytes) = .ok program)
      (hcmd : ReachesCommand (evalCommand out n) program { m.ran args with world := w } cmd t) :
      Enters (.builtin n (depth + 1) args span) m (fun _ v => v) (.command n cmd) t

end

/-! ## A jump comes through -/

section

variable {out : Outside W} {eval : Command → ShellM W ExitStatus} {n : Nat} {m t u v : Machine W}
  {e : ShellError}

theorem runInlineLoop_append (eval : Command → ShellM W ExitStatus) (before after : List Command)
    (status : ExitStatus) : runInlineLoop eval (before ++ after) status =
      (runInlineLoop eval before status >>= fun status => runInlineLoop eval after status) := by
  induction before generalizing status with
  | nil => rfl
  | cons cmd before ih =>
    have hcons (commands : List Command) : runInlineLoop eval (cmd :: commands) status =
        (eval cmd >>= fun status => setExitStatus status >>= fun _ =>
          runInlineLoop eval commands status) := rfl
    rw [List.cons_append, hcons, hcons, bind_assoc]
    refine bind_congr fun status => ?_
    rw [bind_assoc]
    exact bind_congr fun _ => ih status

theorem ReachesCommand.fails
    (hparse : out.parse source = .ok program) (h : ReachesCommand eval program m cmd t)
    (he : eval cmd t = some (.error e, u)) : runInline out eval source m = some (.error e, u) := by
  obtain ⟨before, after, status, hcommands, hbefore⟩ := h
  have hcons : runInlineLoop eval (cmd :: after) status = (eval cmd >>= fun status =>
      setExitStatus status >>= fun _ => runInlineLoop eval after status) := rfl
  unfold runInline
  rw [hparse]
  dsimp only
  rw [hcommands, runInlineLoop_append, bind_ok hbefore, hcons, bind_error he]

theorem ChoosesArm.fails
    (h : ChoosesArm out eval n expanded arms m body t) (he : eval body t = some (.error e, u)) :
    evalArms out eval n expanded arms m = some (.error e, u) := by
  induction h with
  | found hmatch hbody =>
    rw [evalArms, bind_ok hmatch, if_pos rfl, hbody]
    exact he
  | next hmatch _ ih =>
    rw [evalArms, bind_ok hmatch, if_neg Bool.false_ne_true]
    exact ih he

theorem condition_fails {cmd cond} (hcond : cmd.condition? = some cond)
    (h : Starts out cmd m t) (he : evalCondition (evalCommand out n cond) t = some (.error e, u)) :
    (Task.command (n + 1) cmd).Fails out m e u := by
  cases cmd with
  | And left right | Or left right | If cond then_part else_part =>
    cases hcond
    exact h.fails nofun rfl (bind_error he)
  | _ => cases hcond

theorem branch_fails {cmd cond branch status}
    (hcond : cmd.condition? = some cond) (hbranch : cmd.branch? status = some branch)
    (h : Starts out cmd m t)
    (hstatus : evalCondition (evalCommand out n cond) t = some (.ok status, u))
    (he : evalCommand out n branch u = some (.error e, v)) :
    (Task.command (n + 1) cmd).Fails out m e v := by
  cases cmd with
  | And left right =>
    cases hcond
    rw [Command.branch?] at hbranch
    refine h.fails nofun rfl ((bind_ok hstatus).trans ?_)
    split_ifs at hbranch with hsuccess
    cases hbranch
    rw [if_pos hsuccess]
    exact he
  | Or left right =>
    cases hcond
    rw [Command.branch?] at hbranch
    refine h.fails nofun rfl ((bind_ok hstatus).trans ?_)
    split_ifs at hbranch with hsuccess
    cases hbranch
    rw [if_neg hsuccess]
    exact he
  | If cond then_part else_part =>
    cases hcond
    rw [Command.branch?] at hbranch
    refine h.fails nofun rfl ((bind_ok hstatus).trans ?_)
    split_ifs at hbranch with hsuccess
    · cases hbranch
      rw [if_pos hsuccess]
      exact he
    · rw [if_neg hsuccess, hbranch]
      exact he
  | _ => cases hcond

variable {span : Span}

theorem nested_fails
    (hname : Builtin.named (args.head?.getD []) = some .command)
    (haction : commandAction args = .Execute new_args)
    (hallowed : parentProcessRefusal out.host m.shell new_args = none)
    (hpolicy : checkCommandPolicyForDispatch out new_args span (m.ran args) = some (.ok (), t))
    (he : (Task.builtin n depth new_args span).Fails out t e u) :
    (Task.builtin n (depth + 1) args span).Fails out m e u := by
  rw [Task.Fails, tryBuiltin, hname]
  dsimp only
  rw [haction]
  rw [ran_bind]
  dsimp only
  rw [getShell_bind, ran_shell, hallowed]
  dsimp only
  rw [bind_ok hpolicy]
  exact bind_error he

theorem eval_fails (hname : Builtin.named (args.head?.getD []) = some .eval)
    (hlen : 1 < args.length) (hparse : out.parse (joinWords args.tail) = .ok program)
    (hcmd : ReachesCommand (evalCommand out n) program (m.ran args) cmd t)
    (he : evalCommand out n cmd t = some (.error e, u)) :
    (Task.builtin n (depth + 1) args span).Fails out m e u := by
  rw [Task.Fails, tryBuiltin, hname]
  dsimp only
  rw [ran_bind, builtinEval, if_neg (by omega), map_eq_pure_bind]
  exact bind_error (hcmd.fails hparse he)

/-- A file that is run ends a `return`, and lets a jump through. -/
theorem dot_fails {depth k : Nat} {flow : Flow} {args operands : List Text} {filename : Text}
    (hname : Builtin.named (args.head?.getD []) = some .dot)
    (hargs : args.tail = filename :: operands)
    (hfile : out.readFile (joinPath m.shell.cwd (strToBytes filename)) m.world = (.ok bytes, w))
    (hparse : out.parse (bytesToStr bytes) = .ok program)
    (hcmd : ReachesCommand (evalCommand out n) program { m.ran args with world := w } cmd t)
    (he : evalCommand out n cmd t = some (.error (flow.leave k), u)) :
    (Task.builtin n (depth + 1) args span).Fails out m (flow.leave k) u := by
  have hread : outside (out.readFile (joinPath m.shell.cwd (strToBytes filename))) (m.ran args) =
      some (.ok (.ok bytes), { m.ran args with world := w }) := by
    have hrun : outside (out.readFile (joinPath m.shell.cwd (strToBytes filename))) (m.ran args) =
        some (.ok (out.readFile (joinPath m.shell.cwd (strToBytes filename)) m.world).1,
          { m.ran args with world :=
              (out.readFile (joinPath m.shell.cwd (strToBytes filename)) m.world).2 }) := rfl
    rw [hrun, hfile]
  have hattempt : Process.attempt (runInline out (evalCommand out n) (bytesToStr bytes))
      { m.ran args with world := w } = some (.ok (.error (flow.leave k)), u) := by
    rw [attempt_run, hcmd.fails hparse he]
  rw [Task.Fails, tryBuiltin, hname]
  dsimp only
  rw [ran_bind, builtinDot, hargs]
  dsimp only
  rw [map_eq_pure_bind]
  refine bind_error ?_
  rw [getShell_bind, ran_shell, bind_ok hread]
  dsimp only
  rw [bind_ok hattempt]
  cases flow <;> rfl

theorem simple_fails {flow : Flow} {k : Nat} {assigns : List Assignment} {words : List Word}
    (h : Starts out (.Simple assigns words redirs span) m t)
    (hargs : expandArgs out (evalCommand out n) n words ((t.note (.begins span)).inside .simple) =
      some (.ok args, u)) (hne : args ≠ [])
    (hallowed : parentProcessRefusal out.host u.shell args = none)
    (hready : prepareWords out (evalCommand out n) n assigns args redirs span u =
      some (.ok saved, v)) (he : (Task.words n assigns args span).Fails out v (flow.leave k) w) :
    (Task.command (n + 1) (.Simple assigns words redirs span)).Fails out m (flow.leave k)
      ((w.afterCleanup out
        (if isExec args.length args then .keep saved else .restore saved)).backIn t.frames) := by
  have hwords : evalWords out (evalCommand out n) n assigns args redirs span u =
      (prepareWords out (evalCommand out n) n assigns args redirs span >>= fun saved =>
        Process.attempt (dispatch out (evalCommand out n) n assigns args span) >>= fun result =>
          if isExec args.length args then finishSavedRedirections out result saved
          else finishRedirections out result saved) u := by
    rw [evalWords, getShell_bind, hallowed, prepareWords]
    simp only [bind_assoc]
  have hattempt : Process.attempt (dispatch out (evalCommand out n) n assigns args span) v =
      some (.ok (.error (flow.leave k)), w) := by
    have hdispatch : dispatch out (evalCommand out n) n assigns args span v =
      some (.error (flow.leave k), w) := he
    rw [attempt_run, hdispatch]
  have hrun : evalWords out (evalCommand out n) n assigns args redirs span u =
      some (.error (flow.leave k), w.afterCleanup out
        (if isExec args.length args then .keep saved else .restore saved)) := by
    rw [hwords, bind_ok hready, bind_ok hattempt]
    split_ifs
    · exact finishSavedRedirections_jump out flow k saved w
    · exact finishRedirections_jump out flow k saved w
  have hinner : evalSimpleInner out (evalCommand out n) n assigns words redirs span
      ((t.note (.begins span)).inside .simple) = some (.error (flow.leave k), w.afterCleanup out
        (if isExec args.length args then .keep saved else .restore saved)) := by
    unfold evalSimpleInner
    rw [getShell_bind, bind_ok hargs, if_neg (by simpa using hne)]
    exact hrun
  have hrecord : (record (.begins span) : ShellM W Unit) t =
    some (.ok (), t.note (.begins span)) := rfl
  refine h.fails (by rintro _ _ ⟨⟩) rfl ((bind_ok hrecord).trans ?_)
  rw [within_run, hinner]
  rfl

theorem call_fails {flow : Flow} {k : Nat} {assigns : List Assignment}
    (hnone : tryBuiltin out (commandSubst out (evalCommand out n)) (evalCommand out n) n
      args.length args span m = some (.ok none, t))
    (hbody : t.shell.functions.lookup (args.head?.getD []) = some body)
    (hassign : assignLocals out (evalCommand out n) n assigns
      ((t.withShell fun sh => { sh with ev_exit := false }.enterCall args).inside
        (.call (args.head?.getD []))) = some (.ok (), u))
    (hsetup : setupRedirections out (commandSubst out (evalCommand out n)) n [] u =
      some (.ok saved, v))
    (he : evalCommand out n body (v.note (.runs .function args [] v.shell.vars.vars)) =
      some (.error (flow.leave k), w)) :
    (Task.words n assigns args span).Fails out m (flow.leave k)
      (t.outOfCall (w.afterCleanup out (.restore saved))) := by
  have hran : (recordRun .function args [] : ShellM W Unit) v =
    some (.ok (), v.note (.runs .function args [] v.shell.vars.vars)) := rfl
  have hattempt : Process.attempt (evalCommand out n body)
      (v.note (.runs .function args [] v.shell.vars.vars)) =
        some (.ok (.error (flow.leave k)), w) := by
    rw [attempt_run, he]
  have hfinish : Process.attempt (finishRedirections out (callResult (.error (flow.leave k))) saved)
      w = some (.ok (.error (flow.leave k)), w.afterCleanup out (.restore saved)) := by
    rw [flow.callResult_leave, attempt_run, finishRedirections_jump]
  have hcall : callBody out (evalCommand out n) n body args assigns
      ((t.withShell fun sh => { sh with ev_exit := false }.enterCall args).inside
        (.call (args.head?.getD []))) =
      some (.ok (.error (flow.leave k)), w.afterCleanup out (.restore saved)) := by
    unfold callBody
    rw [bind_ok hassign, bind_ok hsetup, bind_ok hran,
      bind_ok hattempt]
    exact hfinish
  have hfunction : evalFunction out (evalCommand out n) n body args assigns
      (t.withShell fun sh => { sh with ev_exit := false }) =
      some (.error (flow.leave k), t.outOfCall (w.afterCleanup out (.restore saved))) := by
    rw [evalFunction, inCall_run]
    have hinto : ((t.withShell fun sh => { sh with ev_exit := false }).withShell fun sh =>
        sh.enterCall args).inside (.call (args.head?.getD [])) =
      (t.withShell fun sh => { sh with ev_exit := false }.enterCall args).inside
        (.call (args.head?.getD [])) := rfl
    rw [hinto, hcall]
    rfl
  rw [Task.Fails, dispatch, bind_ok hnone]
  dsimp only
  rw [getShell_bind, hbody]
  exact hfunction

theorem negation_fails (h : Starts out (.Not cmd) m t)
    (he : evalCommand out n cmd t.inCondition = some (.error e, u)) :
    (Task.command (n + 1) (.Not cmd)).Fails out m e
      ((u.backIn t.frames).withTested t.shell.tested) := by
  have hrun : withTested true (evalCommand out n cmd) t =
      some (.error e, (u.backIn t.frames).withTested t.shell.tested) := by
    rw [withTested_run, if_pos rfl]
    unfold Machine.inCondition at he
    rw [he]
    rfl
  exact h.fails nofun rfl (bind_error hrun)

theorem pipeline_fails
    (h : Starts out (.Pipeline [cmd] bang span) m t)
    (hinside : (if bang then t.inCondition else t) = u)
    (hterminal : ensureTerminalDescriptor out (u.withPlacement
      (if [cmd].length > 1 || !bang then { u.shell.placement_context with
          pipeline_depth := u.shell.placement_context.pipeline_depth + 1 }
        else u.shell.placement_context)) = some (.ok (), v))
    (he : evalCommand out n cmd v = some (.error e, w)) :
    (Task.command (n + 1) (.Pipeline [cmd] bang span)).Fails out m e
      (((w.withPlacement u.shell.placement_context).backIn
        (if bang then t.frames else w.frames)).withTested t.shell.tested) := by
  have hpipeline : evalPipeline out (evalCommand out n) [cmd] (u.withPlacement
      (if [cmd].length > 1 || !bang then { u.shell.placement_context with
          pipeline_depth := u.shell.placement_context.pipeline_depth + 1 }
        else u.shell.placement_context)) = some (.error e, w) := by
    unfold evalPipeline
    rw [bind_ok hterminal]
    exact he
  have hplacement : withPlacement (fun c => if [cmd].length > 1 || !bang then
        { c with pipeline_depth := c.pipeline_depth + 1 } else c)
      (evalPipeline out (evalCommand out n) [cmd]) u =
      some (.error e, w.withPlacement u.shell.placement_context) := by
    rw [withPlacement_run]
    unfold Machine.withPlacement at hpipeline
    unfold Machine.withShell
    unfold Machine.withShell at hpipeline
    rw [hpipeline]
    rfl
  refine h.fails nofun rfl (bind_error ?_)
  rw [withTested_run]
  cases bang with
  | false =>
    rw [if_neg Bool.false_ne_true] at hinside
    subst hinside
    rw [if_neg Bool.false_ne_true, hplacement]
    rfl
  | true =>
    rw [if_pos rfl] at hinside
    subst hinside
    rw [if_pos rfl]
    unfold Machine.inCondition at hplacement
    rw [hplacement]
    rfl

/-- **A jump comes through** whatever waits for it in the same shell environment, but
for a loop: it is not changed, and each construct undoes what it did. -/
theorem Enters.fails {flow : Flow} {k : Nat} {task inner s} (h : Enters out task m undo inner s)
    (he : inner.Fails out s (flow.leave k) u) :
    task.Fails out m (flow.leave k) (undo (flow.leave k) u) := by
  cases h with
  | sequenceLeft hstart => exact hstart.fails nofun rfl (bind_error he)
  | sequenceRight hstart hleft =>
    refine hstart.fails nofun rfl ((bind_ok hleft).trans ?_)
    exact he
  | condition hstart hcond => exact condition_fails hcond hstart (evalCondition_error he)
  | branch hstart hcond hstatus hbranch => exact branch_fails hcond hbranch hstart hstatus he
  | negation hstart => exact negation_fails hstart he
  | pipeline hstart hinside hterminal => exact pipeline_fails hstart hinside hterminal he
  | @group n body redirs saved m t s hstart hsetup =>
    have hbody : Process.attempt (evalCommand out n body) s =
        some (.ok (.error (flow.leave k)), u) := by
      have hrun : evalCommand out n body s = some (.error (flow.leave k), u) := he
      rw [attempt_run, hrun]
    refine hstart.fails nofun rfl ((bind_ok hsetup).trans ?_)
    rw [bind_ok hbody]
    exact finishRedirections_jump out flow k saved u
  | arm hstart hword harm =>
    exact hstart.fails nofun rfl ((bind_ok hword).trans (harm.fails he))
  | simple hstart hargs hne hallowed hready =>
    exact simple_fails hstart hargs hne hallowed hready he
  | builtin => exact bind_error he
  | call hnone hbody hassign hsetup => exact call_fails hnone hbody hassign hsetup he
  | nested hname haction hallowed hpolicy => exact nested_fails hname haction hallowed hpolicy he
  | eval hname hlen hparse hcmd => exact eval_fails hname hlen hparse hcmd he
  | dot hname hargs hfile hparse hcmd => exact dot_fails hname hargs hfile hparse hcmd he

end

end Ish.Epsh
