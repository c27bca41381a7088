import Ish.Epsh.Builtins

/-!
# Evaluation of commands

The model of `eval_command` and what it calls in `crates/epsh/src/eval.rs`. Every
function takes the evaluation of a command (`eval`) and fuel for its loops;
`evalCommand` ties the knot. A forked child is evaluated on a copy of the machine
with a world of its own, and what parent and child see of each other is decided
outside, so that one choice of the outside is one interleaving.
-/

namespace Ish.Epsh

open Ish.Lib Process

variable {W : Type}

/-! ## Child processes -/

/-- A child that has ended, with the world as it left it. -/
structure Forked (W : Type) where
  pid : Nat
  ending : ChildEnd
  machine : Machine W

/-- The machine of a new child: a copy of its parent's, its history included. -/
def Machine.child (m : Machine W) (kind : ChildKind) (w : W) : Machine W where
  shell := { m.shell with in_forked_child := true }
  world := w
  reporter := some none
  frames := .child kind :: m.frames
  history := m.history

/-- `exit_child`; a child's body catches every error. -/
def childExit : Ending ExitStatus ShellError ExitStatus → ExitStatus
  | .ok status | .quit status => status
  | .error _ => .FAILURE

/-- The children with their process ids and worlds, one after the other. -/
def runChildren (kind : ChildKind) (started : Nat → Nat × W) (m : Machine W) :
    Nat → List (ShellM W ExitStatus) → Option (List (Forked W))
  | _, [] => some []
  | i, body :: bodies =>
    match body (m.child kind (started i).2) with
    | none => none
    | some (e, t) =>
      (runChildren kind started m (i + 1) bodies).map fun rest =>
        ⟨(started i).1, ⟨childExit e, t.reporter.join⟩, t⟩ :: rest

/-- Fork a child for each of the bodies. -/
def fork (out : Outside W) (kind : ChildKind) (bodies : List (ShellM W ExitStatus)) :
    ShellM W (List (Forked W)) := fun m =>
  match out.start kind bodies.length m.world with
  | (.error e, w) => some (.error e, { m with world := w })
  | (.ok started, w) =>
    (runChildren kind started m 0 bodies).map fun children =>
      (.ok children, { m with
        world := out.join w (children.map fun c => c.machine.world)
        others := m.others ++
          children.flatMap fun c => c.machine.history :: c.machine.others })

/-- `ForegroundJob::result` -/
def jobStatus (pipefail : Bool) (statuses : List ExitStatus) : ExitStatus :=
  let last := (statuses.getLast?).getD .FAILURE
  if pipefail then (statuses.reverse.find? fun s => !s.success).getD last else last

/-- `wait_foreground`: a member's refusal ends the wait when it is seen. -/
def waitForeground (pipefail : Bool) (ends : List ChildEnd) :
    Waited → Except ShellError ExitStatus
  | .stopped pid pgid => .error (.Stopped pid pgid)
  | .failed e => .error (.Io e)
  | .interrupted cause => .error cause.error
  | .exited signals =>
    match ends.findSome? (·.refusal) with
    | some e => .error (reportedError e)
    | none => .ok (jobStatus pipefail
        (ends.mapIdx fun i ending => ending.statusAfter (signals[i]?.join)))

/-- Wait for the one child of a construct. -/
def waitForked (out : Outside W) (children : List (Forked W)) : ShellM W ExitStatus := do
  let waited ← outside (out.waitFor (children.map (·.pid)))
  match children with
  | [child] => ofExcept (waitChild child.ending waited)
  | _ => fail noChild

/-- Run a child's body once `enter_forked_child` has succeeded. -/
def childBody (out : Outside W) (kind : ChildKind) (body : ShellM W ExitStatus) :
    ShellM W ExitStatus := do
  if ← outside (out.enter kind) then body else return .FAILURE

/-- What a child makes of the end of its command; `other` is its status for an
error that is neither an exit nor a refusal. -/
def childStatus (out : Outside W) (other : ExitStatus) (result : Except ShellError ExitStatus) :
    ShellM W ExitStatus := do
  match result with
  | .ok status => return status
  | .error (.Exit status) => return status
  | .error e => do
    reportChildRefusal e
    errMsg out ("epsh: ".toList ++ e.display)
    return if e.isRefusal then .MISUSE else other

section

variable (out : Outside W) (eval : Command → ShellM W ExitStatus)

/-! ## Traps -/

/-- `eval_trap_program`: only a refusal stops it. -/
def evalTrapProgram : List Command → ShellM W Unit
  | [] => return ()
  | command :: commands => do
    match ← attempt (part .trapCommand (eval command)) with
    | .ok _ => evalTrapProgram commands
    | .error e =>
      if e.isRefusal then do
        reportChildRefusal e
        errMsg out ("epsh: ".toList ++ e.display)
      else evalTrapProgram commands

/-- Run the action of a trap; one that does not parse is skipped. -/
def runAction (name action : Text) : ShellM W Unit := do
  let before := (← getShell).exit_status
  match out.parse action with
  | .ok program => within (.trap name) (evalTrapProgram out eval program.commands)
  | .error _ => return ()
  record (.trapped name before (← getShell).exit_status)

/-- `run_exit_trap` -/
def runExitTrap : ShellM W Unit := do
  let sh ← getShell
  match sh.traps.lookup "EXIT".toList with
  | none => return ()
  | some action => do
    setTrap "EXIT".toList none
    runAction out eval "EXIT".toList action
    setExitStatus sh.exit_status

/-- A shell environment ends. -/
def noteEnd (status : ExitStatus) : ShellM W Unit := do
  record (.leaves status ((← getShell).traps.lookup "EXIT".toList))

/-- Evaluate a child's command and end; not every child runs its `EXIT` action. -/
def evalChild (other : ExitStatus) (runs_exit_trap : Bool) (x : ShellM W ExitStatus) :
    ShellM W ExitStatus := do
  let result ← attempt x
  let status ← childStatus out other result
  noteEnd status
  if runs_exit_trap then runExitTrap out eval
  return status

/-! ## Subshells, pipelines and substitutions -/

def withPlacement {α : Type} (f : PlacementContext → PlacementContext) (x : ShellM W α) :
    ShellM W α := do
  let previous_context := (← getShell).placement_context
  modifyShell fun sh => { sh with placement_context := f sh.placement_context }
  let result ← attempt x
  modifyShell fun sh => { sh with placement_context := previous_context }
  ofExcept result

/-- Evaluate what a `!` negates, when there is one: `tested` is put back however
the evaluation stops. -/
def withTested {α : Type} (bang : Bool) (x : ShellM W α) : ShellM W α := do
  let saved := (← getShell).tested
  if bang then setTested true
  let result ← attempt (if bang then within .condition x else x)
  setTested saved
  ofExcept result

/-- `eval_in_command_substitution` -/
def evalInCommandSubstitution (cmd : Command) : ShellM W ExitStatus :=
  withPlacement
    (fun c => { c with command_substitution_depth := c.command_substitution_depth + 1 })
    (eval cmd)

/-- What the child of a command substitution does. -/
def substitutionChild (cmd : Command) : ShellM W ExitStatus :=
  childBody out .CommandSubst do
    setTrap "EXIT".toList none
    evalChild out eval .MISUSE true (evalInCommandSubstitution eval cmd)

/-- `command_subst`: the output of the child without its last newlines. -/
def commandSubst (cmd : Command) : ShellM W Text := do
  let children ← fork out .CommandSubst [substitutionChild out eval cmd]
  let raw ← outside fun w => out.substituted
    ((children.head?.map fun c => c.machine.world).getD w) w
  let waited ← attempt (waitForked out children)
  let raw_output ← ofExcept raw
  let status ← ofExcept waited
  modifyShell fun sh =>
    { sh with exit_status := status, substitution_count := sh.substitution_count + 1 }
  return ((bytesToStr raw_output).reverse.dropWhile (· == '\n')).reverse

variable (n : Nat)

/-- What the child of a subshell or of a background command does: only the
subshell runs its own `EXIT` action. -/
def subshellChild (kind : ChildKind) (body : Command) (redirs : List Redir)
    (runs_exit_trap : Bool) : ShellM W ExitStatus :=
  childBody out kind do
    setTrap "EXIT".toList none
    match ← attempt (setupRedirections out (commandSubst out eval) n redirs) with
    | .error e => do
      reportChildRefusal e
      errMsg out ("epsh: ".toList ++ e.display)
      return .FAILURE
    | .ok _ => evalChild out eval .FAILURE runs_exit_trap (eval body)

/-- `eval_in_subshell` -/
def evalInSubshell (body : Command) (redirs : List Redir) : ShellM W ExitStatus := do
  let children ← fork out .Subshell [subshellChild out eval n .Subshell body redirs true]
  waitForked out children

/-- `eval_background` -/
def evalBackground (cmd : Command) (redirs : List Redir) : ShellM W ExitStatus := do
  let children ← fork out .Background [subshellChild out eval n .Background cmd redirs false]
  modify fun m => { m with ended := m.ended ++ children.map fun c => (c.pid, c.ending) }
  modifyShell fun sh => { sh with last_bg_pid := children.getLast?.map (·.pid) }
  return .SUCCESS

/-- What the child of a pipeline member does. -/
def memberChild (cmd : Command) : ShellM W ExitStatus :=
  childBody out .Pipeline do
    modifyShell fun sh => { sh with ev_exit := true }
    evalChild out eval .FAILURE false (eval cmd)

/-- `eval_pipeline` -/
def evalPipeline (commands : List Command) : ShellM W ExitStatus := do
  ensureTerminalDescriptor out
  match commands with
  | [cmd] => eval cmd
  | commands => do
    let children ← fork out .Pipeline (commands.map (memberChild out eval))
    let waited ← outside (out.waitFor (children.map (·.pid)))
    ofExcept
      (waitForeground (← getShell).opts.pipefail (children.map (·.ending)) waited)

/-! ## Functions -/

/-- Evaluate the body of a function call in a scope of its own with its own
positional parameters; an error of `x` itself, unlike one it returns, leaves both
behind. -/
def inCall (args : List Text) (x : ShellM W (Except ShellError ExitStatus)) :
    ShellM W ExitStatus := do
  let saved_positional := (← getShell).vars.positional
  setPositional args.tail
  modifyVars Variables.pushScope
  let result ← part .call (within (.call (args.head?.getD [])) x)
  modifyVars fun v => { v.popScope with positional := saved_positional }
  ofExcept result

/-- The prefix assignments of a function call: local to it, and never refused. -/
def assignLocals : List Assignment → ShellM W Unit
  | [] => return ()
  | assign :: assigns => do
    let value ← expandString out (commandSubst out eval) n assign.value
    record (.assigns assign.name value)
    makeLocal assign.name
    let _ ← setShell assign.name value
    assignLocals assigns

/-- What a function call returns for the end of its body. -/
def callResult : Except ShellError ExitStatus → Except ShellError ExitStatus
  | .error (.Return status) => .ok status
  | result => result

/-- `eval_function` between pushing and popping the scope. -/
def callBody (body : Command) (args : List Text) (assigns : List Assignment) :
    ShellM W (Except ShellError ExitStatus) := do
  assignLocals out eval n assigns
  let saved_fds ← setupRedirections out (commandSubst out eval) n []
  recordRun .function args []
  let result ← attempt (eval body)
  attempt (finishRedirections out (callResult result) saved_fds)

/-- `eval_function` -/
def evalFunction (body : Command) (args : List Text) (assigns : List Assignment) :
    ShellM W ExitStatus :=
  inCall args (callBody out eval n body args assigns)

/-! ## Simple commands -/

/-- Separate a word from the trace before it. -/
def traceWord (trace word : Text) : Text :=
  (if trace.getLast? = some ' ' then trace else trace ++ [' ']) ++ word

/-- `xtrace_prefix` -/
def xtracePrefix (vars : Variables) : Text := (vars.getShell "PS4".toList).getD "+ ".toList

/-- The assignments of a command without words, one after the other. -/
def assignVariables (span : Span) : List Assignment → Text → ShellM W Text
  | [], trace => return trace
  | assign :: assigns, trace => do
    let value ← expandString out (commandSubst out eval) n assign.value
    record (.assigns assign.name value)
    let trace := if (← getShell).opts.xtrace then
      traceWord trace (assign.name ++ '=' :: value) else trace
    match ← setShell assign.name value with
    | .ok () => assignVariables span assigns trace
    | .error msg => fail (.Runtime msg span)

/-- A command without words: its status is that of its last substitution. -/
def evalAssignments (assigns : List Assignment) (span : Span)
    (substitutions_before : UInt64) : ShellM W ExitStatus := do
  let trace ← assignVariables out eval n span assigns (xtracePrefix (← getShell).vars)
  let sh ← getShell
  if sh.opts.xtrace && !assigns.isEmpty then writeErr out (trace ++ ['\n'])
  return if sh.substitution_count = substitutions_before then .SUCCESS else sh.exit_status

/-- The prefix assignments in the trace of a command: an expansion that fails is
left out. -/
def traceAssigns : List Assignment → Text → ShellM W Text
  | [], trace => return trace
  | assign :: assigns, trace => do
    match ← attempt (expandString out (commandSubst out eval) n assign.value) with
    | .ok value => do
      record (.assigns assign.name value)
      traceAssigns assigns (traceWord trace (assign.name ++ '=' :: value))
    | .error _ => traceAssigns assigns trace

def traceCommand (assigns : List Assignment) (args : List Text) : ShellM W Unit := do
  let sh ← getShell
  if sh.opts.xtrace then
    let trace ← traceAssigns out eval n assigns (xtracePrefix sh.vars)
    writeErr out (args.foldl traceWord trace ++ ['\n'])

/-- Whether a command is `exec` once `command` is unwrapped. -/
def isExec : Nat → List Text → Bool
  | 0, _ => false
  | _, [] => false
  | k + 1, name :: rest =>
    if name = "command".toList then
      match commandAction (name :: rest) with
      | .Execute args => isExec k args
      | _ => false
    else name == "exec".toList

/-- Run what the first word names. -/
def dispatch (assigns : List Assignment) (args : List Text) (span : Span) :
    ShellM W ExitStatus := do
  match ← tryBuiltin out (commandSubst out eval) eval n args.length args span with
  | some status => return status
  | none =>
    let name := args.head?.getD []
    match (← getShell).functions.lookup name with
    | some func_body => do
      modifyShell fun sh => { sh with ev_exit := false }
      evalFunction out eval n func_body args assigns
    | none =>
      if hasExternalHandler out.host name then
        callExternalHandler out (commandSubst out eval) n args assigns
      else evalExternal out (commandSubst out eval) n args assigns []

def expandArgs : List Word → ShellM W (List Text)
  | [] => return []
  | arg :: args => do
    let fields ← expandFields out (commandSubst out eval) n arg
    return fields ++ (← expandArgs args)

/-- `eval_simple` once its words are expanded. -/
def evalWords (assigns : List Assignment) (args : List Text) (redirs : List Redir)
    (span : Span) : ShellM W ExitStatus := do
  match parentProcessRefusal out.host (← getShell) args with
  | some diagnostic => do
    errMsg out diagnostic
    return .MISUSE
  | none => do
    checkCommandPolicyForDispatch out args span
    preflightExternal out args
    preflightRedirects out redirs
    traceCommand out eval n assigns args
    let saved_fds ← setupRedirections out (commandSubst out eval) n redirs
    let result ← attempt (dispatch out eval n assigns args span)
    if isExec args.length args then finishSavedRedirections out result saved_fds
    else finishRedirections out result saved_fds

/-- `eval_simple` between its first and its last step. -/
def evalSimpleInner (assigns : List Assignment) (args : List Word) (redirs : List Redir)
    (span : Span) : ShellM W ExitStatus := do
  let substitutions_before := (← getShell).substitution_count
  let expanded_args ← expandArgs out eval n args
  if expanded_args.isEmpty then
    let saved ← setupRedirections out (commandSubst out eval) n redirs
    let result ← attempt (evalAssignments out eval n assigns span substitutions_before)
    finishRedirections out result saved
  else evalWords out eval n assigns expanded_args redirs span

/-- `eval_simple` -/
def evalSimple (assigns : List Assignment) (args : List Word) (redirs : List Redir)
    (span : Span) : ShellM W ExitStatus := do
  record (.begins span)
  within .simple (evalSimpleInner out eval n assigns args redirs span)

/-! ## Compound commands -/

/-- Evaluate the left operand of a list or the condition of a compound command:
`tested` is put back only when it returns a status. -/
def evalCondition (x : ShellM W ExitStatus) : ShellM W ExitStatus := do
  let saved := (← getShell).tested
  setTested true
  let status ← part .condition (within .condition x)
  setTested saved
  setExitStatus status
  return status

/-- How the rounds of a loop end. -/
inductive LoopEnd where
  | finished (status : ExitStatus)
  | left (error : ShellError)
  | abandoned (msg : Text)

/-- A loop's end as what the loop itself comes to. -/
def LoopEnd.result : LoopEnd → Except ShellError ExitStatus
  | .finished status => .ok status
  | .left e => .error e
  | .abandoned _ => .ok .FAILURE

/-- What the end of a loop's body means for the loop: the last status it goes on
with, or its end. -/
def roundEnd (last_status : ExitStatus) : Except ShellError ExitStatus → ExitStatus ⊕ LoopEnd
  | .ok status => .inl status
  | .error (.Break 1) => .inr (.finished last_status)
  | .error (.Break (k + 2)) => .inr (.left (.Break (k + 1)))
  | .error (.Continue 1) => .inl last_status
  | .error (.Continue (k + 2)) => .inr (.left (.Continue (k + 1)))
  | .error e => .inr (.left e)

/-- The rounds of `while`, and with `until_` those of `until`. -/
def whileRounds (until_ : Bool) (cond body : Command) : Nat → ExitStatus → ShellM W LoopEnd
  | 0, _ => diverge
  | k + 1, last_status => do
    checkCancel out
    let cond_status ← evalCondition (eval cond)
    if cond_status.success == until_ then return .finished last_status
    else
      match roundEnd last_status (← attempt (eval body)) with
      | .inl last_status => whileRounds until_ cond body k last_status
      | .inr loop_end => return loop_end

/-- The rounds of `for`: a variable that cannot be assigned ends them. -/
def forRounds (var : Text) (body : Command) : List Text → ExitStatus → ShellM W LoopEnd
  | [], last_status => return .finished last_status
  | value :: values, last_status => do
    checkCancel out
    match ← setShell var value with
    | .error msg => return .abandoned msg
    | .ok () =>
      match roundEnd last_status (← attempt (eval body)) with
      | .inl last_status => forRounds var body values last_status
      | .inr loop_end => return loop_end

def leaveLoop : ShellM W Unit :=
  modifyShell fun sh => { sh with loop_depth := sh.loop_depth - 1 }

/-- Count a loop while its rounds are evaluated. An error of the rounds themselves
and a variable that cannot be assigned leave it counted. -/
def inLoop (rounds : ShellM W LoopEnd) : ShellM W ExitStatus := do
  modifyShell fun sh => { sh with loop_depth := sh.loop_depth + 1 }
  match ← part .loop (within .loop rounds) with
  | .finished status => do
    leaveLoop
    return status
  | .left e => do
    leaveLoop
    fail e
  | .abandoned msg => do
    record (.broke .loop (.Runtime msg {}))
    errMsg out msg
    return .FAILURE

/-- The values of a `for` loop: without words, the positional parameters. -/
def forWords (words : Option (List Word)) : ShellM W (List Text) :=
  match words with
  | some words => expandArgs out eval n words
  | none => do return (← getShell).vars.positionalShellStrings

/-- Whether one of the patterns of a `case` arm matches. -/
def matchesArm (expanded : Text) : List Word → ShellM W Bool
  | [] => return false
  | pattern :: patterns => do
    let pat ← expandPattern out (commandSubst out eval) n pattern.parts
    if out.fnmatch pat expanded then return true else matchesArm expanded patterns

def evalArms (expanded : Text) : List CaseArm → ShellM W ExitStatus
  | [] => return .SUCCESS
  | arm :: arms => do
    if ← matchesArm out eval n expanded arm.patterns then
      match arm.body with
      | some body => eval body
      | none => return .SUCCESS
    else evalArms expanded arms

/-- Only a simple command may take the place of its process. -/
def resetEvExit (cmd : Command) : ShellM W Unit :=
  if cmd.isSimple then return () else modifyShell fun sh => { sh with ev_exit := false }

/-- `eval_command_inner` -/
def evalCommandInner (cmd : Command) : ShellM W ExitStatus := do
  resetEvExit cmd
  match cmd with
  | .Simple assigns args redirs span => evalSimple out eval n assigns args redirs span
  | .Pipeline commands bang _ => do
    let status ← withTested bang (withPlacement
      (fun c => if commands.length > 1 || !bang then
        { c with pipeline_depth := c.pipeline_depth + 1 } else c)
      (evalPipeline out eval commands))
    return if bang then status.inverted else status
  | .And left right => do
    let status ← evalCondition (eval left)
    if status.success then eval right else return status
  | .Or left right => do
    let status ← evalCondition (eval left)
    if status.success then return status else eval right
  | .Sequence left right => do
    let status ← eval left
    setExitStatus status
    eval right
  | .Subshell body redirs => evalInSubshell out eval n body redirs
  | .BraceGroup body redirs => do
    let saved ← setupRedirections out (commandSubst out eval) n redirs
    let result ← attempt (eval body)
    finishRedirections out result saved
  | .If cond then_part else_part => do
    let cond_status ← evalCondition (eval cond)
    if cond_status.success then eval then_part
    else
      match else_part with
      | some else_part => eval else_part
      | none => return .SUCCESS
  | .While cond body => inLoop out (whileRounds out eval false cond body n .SUCCESS)
  | .Until cond body => inLoop out (whileRounds out eval true cond body n .SUCCESS)
  | .For var words body => do
    let word_list ← forWords out eval n words
    inLoop out (forRounds out eval var body word_list .SUCCESS)
  | .Case word arms => do
    let expanded := removeGlobEscapes (← expandString out (commandSubst out eval) n word)
    evalArms out eval n expanded arms
  | .FuncDef name body => do
    modifyShell fun sh => { sh with functions := sh.functions.insert name body }
    return .SUCCESS
  | .Not cmd => do return (← withTested true (eval cmd)).inverted
  | .Background cmd redirs => evalBackground out eval n cmd redirs

/-- Whether `set -e` ends the shell after a command. -/
def Shell.stopsOn (sh : Shell) (cmd : Command) (status : ExitStatus) : Bool :=
  sh.opts.errexit && cmd.isLeaf && !sh.tested && !cmd.isBang && !status.success

/-- A command has returned `status`. -/
def checkStatus (cmd : Command) (status : ExitStatus) : ShellM W ExitStatus := do
  setExitStatus status
  let sh ← getShell
  if cmd.isLeaf then
    record (.checked status sh.opts.errexit cmd.isBang (sh.stopsOn cmd status))
  if sh.stopsOn cmd status then fail (.Exit status)
  return status

/-- `eval_command`, given the evaluation of the commands inside. -/
def evalCommandWith (cmd : Command) : ShellM W ExitStatus := do
  match cmd with
  | .Pipeline [] _ span => fail (.Runtime "empty pipeline".toList span)
  | cmd => do
    checkCancel out
    if (← getShell).opts.noexec then return .SUCCESS
    checkStatus cmd (← evalCommandInner out eval n cmd)

end

/-- `eval_command`; `none` when the fuel does not suffice. -/
def evalCommand (out : Outside W) : Nat → Command → ShellM W ExitStatus
  | 0, _ => diverge
  | n + 1, cmd => evalCommandWith out (evalCommand out n) n cmd

/-! ## An idle outside -/

/-- An outside in which nothing happens, every call succeeds and children come and
go at once. -/
def Outside.idle : Outside Unit where
  host := {}
  parse _ := .error []
  fnmatch pattern text := pattern == text
  hasGlobChars _ := false
  checkCancel w := (none, w)
  write _ _ w := w
  descriptor _ w := (.ok (), w)
  glob _ _ w := ([], w)
  readFile _ w := (.error ⟨.NotFound, []⟩, w)
  readLine _ w := (([], true), w)
  resolveCd _ _ dir w := (.ok (dir, true), w)
  findProgram _ _ _ w := (none, w)
  utility _ _ _ w := (.SUCCESS, w)
  signal _ _ w := (.ok (), w)
  takePending w := ([], w)
  start _ _ w := (.ok (fun i => (i + 2, w)), w)
  enter _ w := (true, w)
  join w _ := w
  substituted _ w := (.ok [], w)
  waitFor _ w := (.exited [], w)
  killChildren _ w := w
  spawn _ w := (.finished .SUCCESS, w)
  exec _ w := (.replaced .SUCCESS, w)

/-- A new shell in the idle outside. -/
def Machine.idle : Machine Unit := { shell := { vars := Variables.newClean }, world := () }

/-- A simple command of literal words. -/
def Command.ofWords (words : List Text) : Command :=
  .Simple [] (words.map fun word => ⟨[.Literal (ShellBytes.ofText word)]⟩) [] {}

end Ish.Epsh
