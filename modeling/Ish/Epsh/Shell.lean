import Ish.Epsh.Ast
import Ish.Lib.Process

/-!
# The shell's state

The model of `crates/epsh/src/error.rs`, `callback.rs` and the fields of `Shell`
in `eval.rs` that evaluation reads. What the shell cannot decide by itself, the
operating system, the clock and the callbacks of the embedding program, is an
arbitrary `Outside` acting on a world. The machine that evaluates also keeps the
constructs being evaluated, which in the source is the call stack, and a history
of its steps; no definition reads either.
-/

namespace Ish.Epsh

open Ish.Lib

/-! ## Statuses and errors -/

/-- A shell exit status, reduced modulo 256. -/
structure ExitStatus where
  val : Fin 256
deriving DecidableEq

namespace ExitStatus

/-- `From<i32>`: `n.rem_euclid(256)` -/
def ofInt (n : Int) : ExitStatus := ⟨Fin.ofNat 256 (n % 256).toNat⟩

def SUCCESS : ExitStatus := ⟨0⟩
def FAILURE : ExitStatus := ⟨1⟩
def MISUSE : ExitStatus := ⟨2⟩
def NOT_FOUND : ExitStatus := ⟨127⟩
def NOT_EXECUTABLE : ExitStatus := ⟨126⟩

def code (s : ExitStatus) : Int := s.val.val

def success (s : ExitStatus) : Bool := s.val == 0

def fromBool (ok : Bool) : ExitStatus := if ok then SUCCESS else FAILURE

def inverted (s : ExitStatus) : ExitStatus := fromBool !s.success

/-- 128 plus a signal's number. -/
def fromSignal (sig : Nat) : ExitStatus := ofInt (sig + 128)

end ExitStatus

inductive CallbackKind where
  | External
  | CommandPolicy
  | RedirectOpen
deriving DecidableEq

def CallbackKind.display : CallbackKind → Text
  | External => "external handler".toList
  | CommandPolicy => "command policy".toList
  | RedirectOpen => "redirect opener".toList

inductive ErrorKind where
  | NotFound
  | PermissionDenied
  | InvalidInput
  | Other
deriving DecidableEq

/-- `std::io::Error` -/
structure IoError where
  kind : ErrorKind
  message : Text
deriving DecidableEq

/-- Errors, and the control flow that travels as errors. -/
inductive ShellError where
  | CallbackProcess (kind : CallbackKind)
  | CommandRefused (diagnostic : Text) (span : Span)
  | Exit (status : ExitStatus)
  | Return (status : ExitStatus)
  | Break (n : Nat)
  | Continue (n : Nat)
  | Io (error : IoError)
  | Runtime (msg : Text) (span : Span)
  | Cancelled
  | TimedOut
  | Stopped (pid pgid : Int)
deriving DecidableEq

/-- `str::parse::<i32>` -/
def parseI32 (text : Text) : Option Int :=
  (Numeral.parseInt text).bind fun n => if -2 ^ 31 ≤ n ∧ n < 2 ^ 31 then some n else none

/-- `str::parse::<usize>` -/
def parseUsize (text : Text) : Option Nat := (Numeral.parseU64 text).map UInt64.toNat

def natText (n : Nat) : Text := Nat.toDigits 10 n

def intText (n : Int) : Text := (toString n).toList

def Span.display (span : Span) : Text := natText span.line ++ ':' :: natText span.col

namespace ShellError

def display : ShellError → Text
  | CallbackProcess kind => kind.display ++
      " callback cannot execute in a child process; it belongs to its registering process".toList
  | CommandRefused diagnostic span => span.display ++ ": ".toList ++ diagnostic
  | Exit n => "exit ".toList ++ intText n.code
  | Return n => "return ".toList ++ intText n.code
  | Break n => "break ".toList ++ natText n
  | Continue n => "continue ".toList ++ natText n
  | Io e => e.message
  | Runtime msg span => span.display ++ ": ".toList ++ msg
  | Cancelled => "cancelled".toList
  | TimedOut => "timed out".toList
  | Stopped pid pgid =>
    "stopped (pid=".toList ++ intText pid ++ ", pgid=".toList ++ intText pgid ++ ")".toList

/-- A refusal by a policy or a callback, which a child reports to its parent. -/
def isRefusal : ShellError → Bool
  | CallbackProcess _ | CommandRefused .. => true
  | _ => false

def isExit : ShellError → Bool
  | Exit _ => true
  | _ => false

/-- The errors a failing cleanup does not replace. -/
def outlivesCleanup : ShellError → Bool
  | Exit _ | Return _ | Break _ | Continue _ | Cancelled | TimedOut | Stopped .. => true
  | _ => false

end ShellError

/-! ## The shell -/

structure ShellOpts where
  errexit : Bool := false
  nounset : Bool := false
  xtrace : Bool := false
  pipefail : Bool := false
  noglob : Bool := false
  noexec : Bool := false
  interactive : Bool := false
deriving DecidableEq

/-- The value of `$-`. -/
def ShellOpts.flagsString (o : ShellOpts) : Text :=
  (if o.errexit then ['e'] else []) ++ (if o.nounset then ['u'] else []) ++
    (if o.xtrace then ['x'] else []) ++ (if o.noglob then ['f'] else []) ++
    (if o.noexec then ['n'] else []) ++ (if o.interactive then ['i'] else [])

structure PlacementContext where
  pipeline_depth : Nat := 0
  command_substitution_depth : Nat := 0
deriving DecidableEq

structure Shell where
  vars : Variables
  functions : AList fun _ : Text => Command := ∅
  exit_status : ExitStatus := .SUCCESS
  pid : Nat := 1
  cwd : ShellBytes := ShellBytes.ofText ['/']
  cwd_is_canonical : Bool := true
  loop_depth : Nat := 0
  opts : ShellOpts := {}
  traps : AList fun _ : Text => Text := ∅
  tested : Bool := false
  in_forked_child : Bool := false
  placement_context : PlacementContext := {}
  ev_exit : Bool := false
  last_bg_pid : Option Nat := none
  substitution_count : UInt64 := 0

/-! ## What is outside the shell -/

/-- A callback of the embedding program, and whether it may run in a child. -/
structure Registered (α : Type) where
  child_allowed : Bool
  callback : α

inductive CommandRule where
  | Deny (message : Text)
  | VariableAssignment

/-- `CommandRule::validate_arguments` -/
def CommandRule.validateArguments : CommandRule → List ShellBytes → Except Text Unit
  | Deny message, _ => .error message
  | VariableAssignment, args =>
    match args[1]? with
    | some name =>
      if isShellNameBytes name then .ok ()
      else .error ((args.head?.map bytesToStr).getD [] ++ ": expected a variable name".toList)
    | none => .ok ()

inductive ExternalDispatch where
  | Handled (status : ExitStatus)
  | NotHandled

inductive RedirectOpenMode where
  | Truncate
  | Append
  | ReadWrite
deriving DecidableEq

/-- The descriptor table as the evaluator uses it. -/
inductive DescriptorOp where
  | terminal
  | save (target : Int) (here_doc : Bool)
  | openInput (path : ShellBytes)
  | openOutput (path : ShellBytes) (mode : RedirectOpenMode)
  | install (target : Int)
  | duplicate (source target : Int)
  | close (target : Int)
  | hereDoc (body : ShellBytes) (target : Int)
  | restore (targets : List Int)
  | keep (targets : List Int)
deriving DecidableEq

inductive Interruption where
  | Cancelled
  | TimedOut

def Interruption.error : Interruption → ShellError
  | Cancelled => .Cancelled
  | TimedOut => .TimedOut

/-- What waiting for children comes to: each may have been ended by a signal. -/
inductive Waited where
  | exited (signals : List (Option Nat))
  | stopped (pid pgid : Int)
  | interrupted (cause : Interruption)
  | failed (error : IoError)

/-- A failed `execve`; a missing interpreter has its own message. -/
structure ExecError where
  error : IoError
  bad_interpreter : Option Text

structure ExecRequest where
  cwd : ShellBytes
  argv : List ShellBytes
  env : List (ShellBytes × ShellBytes)

inductive Spawned where
  | finished (status : ExitStatus)
  | failed (e : ExecError)
  | error (e : ShellError)

/-- `unsaved` and `noDirectory` fail before `execve`. -/
inductive Executed where
  | replaced (status : ExitStatus)
  | failed (e : ExecError)
  | noDirectory (error : IoError)
  | unsaved (error : IoError)

/-- Builtins that change nothing of the shell. -/
inductive Utility where
  | test
  | kill
  | umask
  | printf
deriving DecidableEq

inductive SignalAction where
  | reset
  | ignore
  | install
deriving DecidableEq

/-- What a forked child is for. -/
inductive ChildKind where
  | Pipeline
  | Subshell
  | Background
  | CommandSubst
deriving DecidableEq

/-- The embedding program's registrations. -/
structure Host (W : Type) where
  command_placements : List ShellBytes := []
  command_identities : List ShellBytes := []
  command_rules : List (ShellBytes × CommandRule) := []
  builtin_allowlist : Option (List ShellBytes) := none
  command_policy : Option (Registered (ShellBytes → W → Option Text × W)) := none
  command_argv_policy : Option (Registered (List ShellBytes → W → Option Text × W)) := none
  external_handler : Option (Registered (List ShellBytes → List (ShellBytes × ShellBytes) →
    W → Except ShellError ExitStatus × W)) := none
  external_dispatcher : Option (List ShellBytes × Registered (List ShellBytes →
    List (ShellBytes × ShellBytes) → W → Except ShellError ExternalDispatch × W)) := none
  redirect_open_handler : Option (Registered (ShellBytes → RedirectOpenMode → Int →
    W → Option (Except IoError Unit) × W)) := none

/-- Everything evaluation asks for that is not in the shell. -/
structure Outside (W : Type) where
  host : Host W
  parse : Text → Except Text Program
  fnmatch : Text → Text → Bool
  hasGlobChars : Text → Bool
  checkCancel : W → Option Interruption × W
  write : Int → Text → W → W
  descriptor : DescriptorOp → W → Except IoError Unit × W
  glob : Text → ShellBytes → W → List Text × W
  readFile : ShellBytes → W → Except IoError ShellBytes × W
  readLine : Bool → W → (ShellBytes × Bool) × W
  resolveCd : ShellBytes → Bool → ShellBytes → W → Except IoError (ShellBytes × Bool) × W
  findProgram : Option ShellBytes → ShellBytes → ShellBytes → W → Option Text × W
  utility : Utility → ShellBytes → List Text → W → ExitStatus × W
  signal : SignalAction → Nat → W → Except IoError Unit × W
  takePending : W → List Text × W
  start : ChildKind → Nat → W → Except ShellError (Nat → Nat × W) × W
  enter : ChildKind → W → Bool × W
  join : W → List W → W
  substituted : W → W → Except ShellError ShellBytes × W
  waitFor : List Nat → W → Waited × W
  killChildren : List Nat → W → W
  spawn : ExecRequest → W → Spawned × W
  exec : ExecRequest → W → Executed × W

/-! ## What evaluation leaves behind -/

/-- A construct that is being evaluated. -/
inductive Frame where
  | simple
  | condition
  | loop
  | call (name : Text)
  | child (kind : ChildKind)
  | trap (name : Text)
deriving DecidableEq

/-- The constructs with a part the source leaves early when that part fails. -/
inductive Part where
  | condition
  | loop
  | call
  | trapCommand
deriving DecidableEq

inductive Ran where
  | builtin
  | function
  | handler
  | program
deriving DecidableEq

/-- What is noted of an evaluation. A command `runs` with an
environment and sees the variables; a shell environment `leaves` a status and the
`EXIT` action then in force. -/
inductive Step where
  | begins (span : Span)
  | accepts (argv : List Text)
  | redirects (fd : Int)
  | assigns (name value : Text)
  | localizes (name : Text) (previous : Option Var)
  | runs (kind : Ran) (argv : List Text) (env : List (ShellBytes × ShellBytes))
      (vars : AList fun _ : Text => Var)
  | checked (status : ExitStatus) (errexit bang stopped : Bool)
  | broke (part : Part) (error : ShellError)
  | trapped (name : Text) (before after : ExitStatus)
  | leaves (status : ExitStatus) (action : Option Text)
deriving DecidableEq

/-- A step, and the constructs it was taken in. -/
structure Entry where
  frames : List Frame
  step : Step
deriving DecidableEq

/-- What a child leaves to its parent: its status, and the refusal it reported. -/
structure ChildEnd where
  status : ExitStatus
  refusal : Option ShellError
deriving DecidableEq

/-- The process that evaluates. `reporter` is the control channel of a forked
child with what was first written to it, `ended` the children not yet waited
for (the source's `child_pids`, with what each will be found to have left),
`others` the histories of all children. -/
structure Machine (W : Type) where
  shell : Shell
  world : W
  reporter : Option (Option ShellError) := none
  ended : List (Nat × ChildEnd) := []
  frames : List Frame := []
  history : List Entry := []
  others : List (List Entry) := []

abbrev ShellM (W : Type) := Process ExitStatus ShellError (Machine W)

/-! ## Operations -/

variable {W : Type}

def getShell : ShellM W Shell := do return (← get).shell

theorem getShell_bind {α : Type} (f : Shell → ShellM W α) (m : Machine W) :
    (getShell >>= f) m = f m.shell m := rfl

def modifyShell (f : Shell → Shell) : ShellM W Unit :=
  modify fun m => { m with shell := f m.shell }

def modifyVars (f : Variables → Variables) : ShellM W Unit :=
  modifyShell fun sh => { sh with vars := f sh.vars }

/-- Ask the outside. -/
def outside {α : Type} (f : W → α × W) : ShellM W α :=
  modifyGet fun m => ((f m.world).1, { m with world := (f m.world).2 })

/-- A call whose failure is an error of the shell. -/
def outsideIo {α : Type} (f : W → Except IoError α × W) : ShellM W α := do
  match ← outside f with
  | .ok a => return a
  | .error e => Process.fail (.Io e)

def record (step : Step) : ShellM W Unit :=
  modify fun m => { m with history := m.history ++ [⟨m.frames, step⟩] }

/-- A command is run; `env` is the environment a program or handler is given. -/
def recordRun (kind : Ran) (argv : List Text) (env : List (ShellBytes × ShellBytes)) :
    ShellM W Unit := do
  record (.runs kind argv env (← getShell).vars.vars)

/-- `make_local` -/
def makeLocal (name : Text) : ShellM W Unit := do
  record (.localizes name ((← getShell).vars.binding name))
  modifyVars fun v => v.makeLocal name

/-- Evaluate inside a construct: it is left however the evaluation stops. -/
def within {α : Type} (frame : Frame) (x : ShellM W α) : ShellM W α := fun m =>
  match x { m with frames := frame :: m.frames } with
  | some (e, m') => some (e, { m' with frames := m.frames })
  | none => none

/-- Evaluate a part of a construct, noting an error that leaves it. -/
def part {α : Type} (p : Part) (x : ShellM W α) : ShellM W α := do
  match ← Process.attempt x with
  | .ok a => return a
  | .error e => do
    record (.broke p e)
    Process.fail e

def writeOut (out : Outside W) (text : Text) : ShellM W Unit :=
  outside fun w => ((), out.write 1 text w)

def writeErr (out : Outside W) (text : Text) : ShellM W Unit :=
  outside fun w => ((), out.write 2 text w)

def errMsg (out : Outside W) (msg : Text) : ShellM W Unit :=
  writeErr out (if msg.getLast? = some '\n' then msg else msg ++ ['\n'])

def checkCancel (out : Outside W) : ShellM W Unit := do
  match ← outside out.checkCancel with
  | some cause => Process.fail cause.error
  | none => return ()

def setExitStatus (status : ExitStatus) : ShellM W Unit :=
  modifyShell fun sh => { sh with exit_status := status }

def setTested (tested : Bool) : ShellM W Unit := modifyShell fun sh => { sh with tested }

/-- `Registered::check`: a process-bound callback belongs to its own process. -/
def checkCallback {α : Type} (registered : Registered α) (kind : CallbackKind) :
    ShellM W Unit := do
  if (← getShell).in_forked_child && !registered.child_allowed then
    Process.fail (.CallbackProcess kind)

/-- Change the variables, unless the change is refused with a message. -/
def tryVars (f : Variables → Except Text Variables) : ShellM W (Except Text Unit) := do
  match f (← getShell).vars with
  | .ok vars => do
    modifyVars fun _ => vars
    return .ok ()
  | .error msg => return .error msg

/-- `set_shell` -/
def setShell (name value : Text) : ShellM W (Except Text Unit) :=
  tryVars fun v => v.setShell name value

/-- `report_child_refusal`: only the first byte written is ever read. -/
def reportChildRefusal (error : ShellError) : ShellM W Unit :=
  if error.isRefusal then
    modify fun m => { m with reporter := m.reporter.map fun r => some (r.getD error) }
  else return ()

end Ish.Epsh
