import Ish.Epsh.Redirect

/-!
# From names to programs

How a command name is checked and reaches what it names: the table of builtins
and the options of `command` (`crates/epsh/src/builtins.rs`), the policy and
placement checks, and the execution of handlers and external programs
(`eval.rs`).
-/

namespace Ish.Epsh

open Ish.Lib

variable {W : Type}

/-! ## Builtins and `command` -/

inductive Builtin where
  | colon | true | false | echo | printf | cd | pwd | exit | return | break | continue
  | export | readonly | unset | set | shift | eval | dot | test | read | local | exec
  | command | type | wait | trap | kill | umask | getopts
deriving DecidableEq

/-- `BUILTIN_NAMES`, with what each name runs. -/
def builtinNames : List (Text × Builtin) :=
  [(":".toList, .colon), ("true".toList, .true), ("false".toList, .false),
    ("echo".toList, .echo), ("printf".toList, .printf), ("cd".toList, .cd),
    ("pwd".toList, .pwd), ("exit".toList, .exit), ("return".toList, .return),
    ("break".toList, .break), ("continue".toList, .continue), ("export".toList, .export),
    ("readonly".toList, .readonly), ("unset".toList, .unset), ("set".toList, .set),
    ("shift".toList, .shift), ("eval".toList, .eval), (".".toList, .dot),
    ("source".toList, .dot), ("test".toList, .test), ("[".toList, .test),
    ("read".toList, .read), ("local".toList, .local), ("exec".toList, .exec),
    ("command".toList, .command), ("type".toList, .type), ("wait".toList, .wait),
    ("trap".toList, .trap), ("kill".toList, .kill), ("umask".toList, .umask),
    ("getopts".toList, .getopts)]

def Builtin.named (name : Text) : Option Builtin :=
  (builtinNames.find? fun entry => entry.1 == name).map (·.2)

/-- `is_builtin` -/
def isBuiltin (name : Text) : Bool := (Builtin.named name).isSome

inductive CommandAction where
  | Empty
  | Describe (verbose : Bool) (names : List Text)
  | Execute (args : List Text)
deriving DecidableEq

/-- The options of `command`: the mode the last `-v` or `-V` set, and the rest. -/
def commandOptions : Option Bool → List Text → Option Bool × List Text
  | mode, [] => (mode, [])
  | mode, arg :: args =>
    if arg = "-v".toList then commandOptions (some false) args
    else if arg = "-V".toList then commandOptions (some true) args
    else if arg = "-p".toList then commandOptions mode args
    else if arg = "--".toList then (mode, args)
    else (mode, arg :: args)

/-- `command_action` -/
def commandAction (args : List Text) : CommandAction :=
  match commandOptions none args.tail with
  | (_, []) => .Empty
  | (some verbose, names) => .Describe verbose names
  | (none, rest) => .Execute rest

theorem length_commandOptions (mode : Option Bool) (args : List Text) :
    (commandOptions mode args).2.length ≤ args.length := by
  induction args generalizing mode with
  | nil => exact Nat.le_refl _
  | cons arg args ih =>
    rw [commandOptions]
    split_ifs
    · exact Nat.le_succ_of_le (ih _)
    · exact Nat.le_succ_of_le (ih _)
    · exact Nat.le_succ_of_le (ih _)
    · exact Nat.le_succ _
    · exact Nat.le_refl _

/-- What `command` runs is shorter than its own arguments. -/
theorem length_execute {args nested} (h : commandAction args = .Execute nested)
    (hne : args ≠ []) : nested.length < args.length := by
  have hle := length_commandOptions none args.tail
  have htail : args.tail.length < args.length := by
    cases args with
    | nil => exact absurd rfl hne
    | cons arg args => exact Nat.lt_succ_self _
  rw [commandAction] at h
  rcases hopt : commandOptions none args.tail with ⟨_ | _, _ | ⟨arg, rest⟩⟩ <;>
    rw [hopt] at h hle <;> cases h
  exact Nat.lt_of_le_of_lt hle htail

/-! ## Policies -/

/-- `escape_command_name` -/
def escapeCommandName (bytes : ShellBytes) : Text :=
  bytes.flatMap fun byte =>
    if byte = 0x5C then ['\\', '\\']
    else if 0x20 ≤ byte ∧ byte ≤ 0x7E then [Char.ofNat byte.toNat]
    else '\\' :: 'x' :: [Nat.digitChar (byte.toNat / 16), Nat.digitChar (byte.toNat % 16)]

def refuse {α : Type} (diagnostic : Text) (span : Span) : ShellM W α :=
  Process.fail (.CommandRefused diagnostic span)

/-- `builtin_allowlist` -/
def builtinAllowed (host : Host W) (target : Text) : Bool :=
  match host.builtin_allowlist with
  | some allowed => !isBuiltin target || allowed.contains (strToBytes target)
  | none => .true

/-- `check_command_policy` -/
def checkCommandPolicy (out : Outside W) (target : Text) (span : Span) : ShellM W Unit := do
  match out.host.command_policy with
  | none => return ()
  | some policy => do
    checkCallback policy .CommandPolicy
    match ← outside (policy.callback (strToBytes target)) with
    | some diagnostic => refuse diagnostic span
    | none => return ()

def checkArgvPolicy (out : Outside W) (args : List Text) (span : Span) : ShellM W Unit := do
  match out.host.command_argv_policy with
  | none => return ()
  | some policy => do
    checkCallback policy .CommandPolicy
    match ← outside (policy.callback (args.map strToBytes)) with
    | some diagnostic => refuse diagnostic span
    | none => return ()

def checkAllowlist (out : Outside W) (target : Text) (span : Span) : ShellM W Unit :=
  if builtinAllowed out.host target then return ()
  else refuse (target ++ ": builtin is not available".toList) span

/-- The rule for a command comes before the policy on names. -/
def checkRule (out : Outside W) (target : Text) (args : List Text) (span : Span) :
    ShellM W Unit :=
  match out.host.command_rules.lookup (strToBytes target) with
  | some rule =>
    match rule.validateArguments (args.map strToBytes) with
    | .ok () => checkCommandPolicy out target span
    | .error diagnostic => refuse diagnostic span
  | none => checkCommandPolicy out target span

/-- The checks of one argument vector, in the order they are made. -/
def checkArgv (out : Outside W) (target : Text) (args : List Text) (span : Span) :
    ShellM W Unit := do
  checkAllowlist out target span
  checkRule out target args span
  checkArgvPolicy out args span

/-- `check_command_policy_for_dispatch`; every round shortens the arguments. -/
def checkPolicyLoop (out : Outside W) (span : Span) : Nat → List Text → ShellM W Unit
  | 0, _ => return ()
  | _, [] => return ()
  | n + 1, target :: rest => do
    checkArgv out target (target :: rest) span
    record (.accepts (target :: rest))
    if target = "command".toList then
      match commandAction (target :: rest) with
      | .Execute nested => checkPolicyLoop out span n nested
      | _ => return ()

def checkCommandPolicyForDispatch (out : Outside W) (args : List Text) (span : Span) :
    ShellM W Unit :=
  checkPolicyLoop out span args.length args

/-- Whether the process or the context a name runs in is not the original shell's. -/
def Shell.isForkedContext (sh : Shell) : Bool :=
  sh.in_forked_child || decide (0 < sh.placement_context.pipeline_depth) ||
    decide (0 < sh.placement_context.command_substitution_depth)

def placementLoop (host : Host W) (sh : Shell) : Nat → List Text → Option Text
  | 0, _ => none
  | _, [] => none
  | n + 1, target :: rest =>
    if host.command_placements.contains (strToBytes target) && sh.isForkedContext then
      some (escapeCommandName (strToBytes target) ++
        " requires the original shell process and cannot run in a forked context".toList)
    else if target = "command".toList then
      match commandAction (target :: rest) with
      | .Execute nested => placementLoop host sh n nested
      | _ => none
    else none

/-- `parent_process_refusal` -/
def parentProcessRefusal (host : Host W) (sh : Shell) (args : List Text) : Option Text :=
  placementLoop host sh args.length args

/-- `has_external_handler` -/
def hasExternalHandler (host : Host W) (target : Text) : Bool :=
  host.external_handler.isSome ||
    (host.external_dispatcher.any fun d => d.1.contains (strToBytes target))

/-- The callback an external name would reach must be allowed here. -/
def checkHandler (host : Host W) (name : Text) : ShellM W Unit :=
  match host.external_dispatcher with
  | some (names, dispatcher) =>
    if names.contains (strToBytes name) then checkCallback dispatcher .External
    else match host.external_handler with
      | some handler => checkCallback handler .External
      | none => return ()
  | none =>
    match host.external_handler with
    | some handler => checkCallback handler .External
    | none => return ()

/-- `preflight_external`: what `command` names is not looked up as a function. -/
def preflightLoop (out : Outside W) : Nat → Bool → List Text → ShellM W Unit
  | 0, _, _ => return ()
  | _, _, [] => return ()
  | n + 1, bypass_functions, name :: rest => do
    if name = "command".toList then
      match commandAction (name :: rest) with
      | .Execute nested => preflightLoop out n .true nested
      | _ => return ()
    else
      let sh ← getShell
      if isBuiltin name || (!bypass_functions && (sh.functions.lookup name).isSome) then
        return ()
      else checkHandler out.host name

def preflightExternal (out : Outside W) (args : List Text) : ShellM W Unit :=
  preflightLoop out args.length .false args

/-! ## External programs and handlers -/

/-- `handle_exec_error` -/
def handleExecError (out : Outside W) (e : ExecError) (cmd_name : Text) :
    ShellM W ExitStatus := do
  match e.bad_interpreter with
  | some msg => do
    errMsg out msg
    return .NOT_EXECUTABLE
  | none =>
    match e.error.kind with
    | .NotFound => do
      errMsg out (cmd_name ++ ": not found".toList)
      return .NOT_FOUND
    | .PermissionDenied => do
      errMsg out (cmd_name ++ ": permission denied".toList)
      return .NOT_EXECUTABLE
    | _ => Process.fail (.Io e.error)

section

variable (out : Outside W) (subst : Command → ShellM W Text) (n : Nat)

/-- Expand prefix assignments for an environment, left to right. -/
def expandAssigns : List Assignment → ShellM W (List (Text × ShellBytes))
  | [] => return []
  | assign :: assigns => do
    let value ← expandString out subst n assign.value
    record (.assigns assign.name value)
    return (assign.name, strToBytes value) :: (← expandAssigns assigns)

/-- The program a process runs: in place of the shell when nothing is left to do. -/
def runProgram (args : List Text) (env : List (ShellBytes × ShellBytes)) :
    ShellM W ExitStatus := do
  let sh ← getShell
  let request : ExecRequest := { cwd := sh.cwd, argv := args.map strToBytes, env }
  recordRun .program args env
  if sh.ev_exit then
    match ← outside (out.exec request) with
    | .replaced status => Process.quit status
    | .failed e => handleExecError out e (args.head?.getD [])
    | .noDirectory e | .unsaved e => Process.fail (.Io e)
  else
    match ← outside (out.spawn request) with
    | .finished status => return status
    | .failed e => handleExecError out e (args.head?.getD [])
    | .error e => Process.fail e

/-- `eval_external_prepared` -/
def evalExternalPrepared (args : List Text) (assigns : List Assignment) (redirs : List Redir)
    (environment : Option (List (ShellBytes × ShellBytes))) : ShellM W ExitStatus := do
  checkCancel out
  let saved ← setupRedirections out subst n redirs
  let assign_bytes ← expandAssigns out subst n assigns
  let env := environment.getD ((← getShell).vars.envForCommandOs assign_bytes)
  let result ← Process.attempt (runProgram out args env)
  finishRedirections out result saved

/-- `eval_external` -/
def evalExternal (args : List Text) (assigns : List Assignment) (redirs : List Redir) :
    ShellM W ExitStatus :=
  evalExternalPrepared out subst n args assigns redirs none

/-- The dispatcher registered for the name, or else the handler; a caller has
checked that there is one. -/
def callHandler (args : List Text) (env : List (ShellBytes × ShellBytes)) :
    ShellM W ExternalDispatch := do
  let dispatch := out.host.external_dispatcher.filter fun d =>
    d.1.contains (strToBytes (args.head?.getD []))
  match dispatch, out.host.external_handler with
  | some (_, dispatcher), _ => do
    checkCallback dispatcher .External
    recordRun .handler args env
    match ← outside (dispatcher.callback (args.map strToBytes) env) with
    | .ok result => return result
    | .error e => Process.fail e
  | none, some handler => do
    checkCallback handler .External
    recordRun .handler args env
    match ← outside (handler.callback (args.map strToBytes) env) with
    | .ok status => return .Handled status
    | .error e => Process.fail e
  | none, none => return .NotHandled

/-- `call_external_handler` -/
def callExternalHandler (args : List Text) (assigns : List Assignment) :
    ShellM W ExitStatus := do
  preflightExternal out args
  let assign_bytes ← expandAssigns out subst n assigns
  let env := (← getShell).vars.envForCommandOs assign_bytes
  match ← callHandler out args env with
  | .Handled status => return status
  | .NotHandled => evalExternalPrepared out subst n args [] [] (some env)

end

end Ish.Epsh
