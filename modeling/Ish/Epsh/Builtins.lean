import Ish.Epsh.Dispatch
import Ish.Lib.Ascii

/-!
# Builtins

The model of `crates/epsh/src/builtins.rs`. The builtins that run commands take
the evaluation of a command as an argument; those that only act on the outside
(`test`, `kill`, `umask`, `printf`) are `Outside.utility`.
-/

namespace Ish.Epsh

open Ish.Lib

variable {W : Type}

/-! ## Waiting for children -/

/-- What the parent makes of the byte on the control channel. -/
def reportedError : ShellError → ShellError
  | .CommandRefused .. =>
    .CommandRefused "command refused by policy in child evaluator".toList {}
  | e => e

def ChildEnd.statusAfter (ending : ChildEnd) (signal : Option Nat) : ExitStatus :=
  match signal with
  | some sig => .fromSignal sig
  | none => ending.status

/-- `wait_child_pgid`: a reported refusal comes before everything but a stop. -/
def waitChild (ending : ChildEnd) : Waited → Except ShellError ExitStatus
  | .stopped pid pgid => .error (.Stopped pid pgid)
  | .failed e => .error (.Io e)
  | .interrupted cause =>
    match ending.refusal with
    | some e => .error (reportedError e)
    | none => .error cause.error
  | .exited signals =>
    match ending.refusal with
    | some e => .error (reportedError e)
    | none => .ok (ending.statusAfter (signals.head?.getD none))

def noChild : ShellError := .Io ⟨.Other, "No child processes".toList⟩

/-- `wait_owned_child` -/
def waitOwnedChild (out : Outside W) (pid : Nat) : ShellM W ExitStatus := do
  match (← get).ended.lookup pid with
  | none => Process.fail noChild
  | some ending => do
    let waited ← outside (out.waitFor [pid])
    match waited with
    | .stopped child pgid => Process.fail (.Stopped child pgid)
    | waited => do
      modify fun m => { m with ended := m.ended.filter fun e => e.1 != pid }
      Process.ofExcept (waitChild ending waited)

/-- `wait` without operands. -/
def waitAll (out : Outside W) : List Nat → ShellM W ExitStatus
  | [] => return .SUCCESS
  | pid :: pids => do
    if ((← get).ended.lookup pid).isSome then
      let _ ← waitOwnedChild out pid
    waitAll out pids

def waitOperands (out : Outside W) : List Text → ExitStatus → ShellM W ExitStatus
  | [], status => return status
  | operand :: operands, _ => do
    let ended := (← get).ended
    match (parseI32 operand).bind fun pid => (ended.find? fun e => (e.1 : Int) == pid) with
    | some (pid, _) => do waitOperands out operands (← waitOwnedChild out pid)
    | none => do
      errMsg out ("wait: ".toList ++ operand ++ ": not a child".toList)
      waitOperands out operands .NOT_FOUND

def builtinWait (out : Outside W) (args : List Text) : ShellM W ExitStatus := do
  if args.length = 1 then waitAll out ((← get).ended.map (·.1))
  else waitOperands out args.tail .SUCCESS

/-! ## Control flow -/

/-- The status operand of `exit` and `return`. -/
def builtinStatusOperand (out : Outside W) (args : List Text) : ShellM W ExitStatus := do
  match args.tail with
  | [] => return (← getShell).exit_status
  | operand :: _ =>
    match parseI32 operand with
    | some code => return .ofInt code
    | none => do
      errMsg out (args.head?.getD [] ++ ": Illegal number: ".toList ++ operand)
      Process.fail (.Exit .MISUSE)

/-- `break` and `continue`: `leave n` is the error that leaves or resumes a loop. -/
def loopControl (out : Outside W) (leave : Nat → ShellError) (args : List Text) :
    ShellM W ExitStatus := do
  let loop_depth := (← getShell).loop_depth
  match args.tail with
  | [] => if loop_depth = 0 then return .SUCCESS else Process.fail (leave 1)
  | arg :: _ =>
    match parseUsize arg with
    | some (n + 1) =>
      if loop_depth = 0 then return .SUCCESS
      else Process.fail (leave (min (n + 1) loop_depth))
    | _ => do
      errMsg out (args.head?.getD [] ++ ": Illegal number: ".toList ++ arg)
      Process.fail (.Exit .FAILURE)

/-! ## Variables, options and parameters -/

def joinWords (words : List Text) : Text := List.intercalate [' '] words

/-- Split an operand `name=value` at its first `=`. -/
def splitAssignment (arg : Text) : Option (Text × Text) :=
  if arg.contains '=' then
    some (arg.takeWhile (· != '='), (arg.dropWhile (· != '=')).tail)
  else none

/-- `export` and `readonly`: assign where there is a value, then `mark`. -/
def markOperands (out : Outside W) (builtin : Text) (mark : Variables → Text → Variables) :
    List Text → ShellM W ExitStatus
  | [] => return .SUCCESS
  | arg :: args =>
    match splitAssignment arg with
    | some (name, value) => do
      match ← setShell name value with
      | .ok () => do
        modifyVars fun v => mark v name
        markOperands out builtin mark args
      | .error e => do
        errMsg out (builtin ++ ": ".toList ++ e)
        return .FAILURE
    | none => do
      modifyVars fun v => mark v arg
      markOperands out builtin mark args

/-- Write one line for each of the exported variables. -/
def listExported (out : Outside W) (line : Text → Text → Text) :
    List (Text × ShellBytes) → ShellM W ExitStatus
  | [] => return .SUCCESS
  | (name, value) :: entries => do
    writeOut out (line name (bytesToStr value))
    listExported out line entries

def builtinExport (out : Outside W) (args : List Text) : ShellM W ExitStatus := do
  if args.length ≤ 1 then
    listExported out (fun k v => "export ".toList ++ k ++ "=\"".toList ++ v ++ "\"\n".toList)
      (← getShell).vars.exportedEnvBytes
  else markOperands out "export".toList Variables.exportVar args.tail

def builtinReadonly (out : Outside W) (args : List Text) : ShellM W ExitStatus :=
  markOperands out "readonly".toList Variables.setReadonly args.tail

/-- The options of `unset`: whether the names are functions, and the names. -/
def unsetOptions : Bool → List Text → Bool × List Text
  | unset_funcs, [] => (unset_funcs, [])
  | unset_funcs, arg :: args =>
    if arg = "-v".toList then unsetOptions false args
    else if arg = "-f".toList then unsetOptions true args
    else (unset_funcs, arg :: args)

def unsetNames (out : Outside W) (unset_funcs : Bool) : List Text → ExitStatus →
    ShellM W ExitStatus
  | [], status => return status
  | arg :: args, status => do
    if unset_funcs then
      modifyShell fun sh => { sh with functions := sh.functions.erase arg }
      unsetNames out unset_funcs args status
    else
      match ← tryVars fun v => v.unset arg with
      | .ok () => unsetNames out unset_funcs args status
      | .error e => do
        errMsg out ("unset: ".toList ++ e)
        unsetNames out unset_funcs args .FAILURE

def builtinUnset (out : Outside W) (args : List Text) : ShellM W ExitStatus :=
  unsetNames out (unsetOptions false args.tail).1 (unsetOptions false args.tail).2 .SUCCESS

/-- A long option of `set`. -/
def ShellOpts.setNamed (o : ShellOpts) (name : Text) (enable : Bool) : Option ShellOpts :=
  if name = "pipefail".toList then some { o with pipefail := enable }
  else if name = "errexit".toList then some { o with errexit := enable }
  else if name = "nounset".toList then some { o with nounset := enable }
  else if name = "xtrace".toList then some { o with xtrace := enable }
  else if name = "noglob".toList then some { o with noglob := enable }
  else if name = "noexec".toList then some { o with noexec := enable }
  else none

def ShellOpts.setLetter (o : ShellOpts) (letter : Char) (enable : Bool) : Option ShellOpts :=
  match letter with
  | 'e' => some { o with errexit := enable }
  | 'u' => some { o with nounset := enable }
  | 'x' => some { o with xtrace := enable }
  | 'f' => some { o with noglob := enable }
  | 'n' => some { o with noexec := enable }
  | _ => none

/-- Letters are applied one by one; the first unknown one is returned. -/
def ShellOpts.setLetters (o : ShellOpts) (enable : Bool) : Text → ShellOpts × Option Char
  | [] => (o, none)
  | letter :: letters =>
    match o.setLetter letter enable with
    | some o => o.setLetters enable letters
    | none => (o, some letter)

def setPositional (args : List Text) : ShellM W Unit :=
  modifyVars fun v => { v with positional := args.map strToBytes }

def modifyOpts (f : ShellOpts → ShellOpts) : ShellM W Unit :=
  modifyShell fun sh => { sh with opts := f sh.opts }

/-- `set NAME [value...]` sets and exports a variable. -/
def setExported (out : Outside W) (name : Text) (words : List Text) : ShellM W ExitStatus := do
  match ← setShell name (joinWords words) with
  | .ok () => do
    modifyVars fun v => v.exportVar name
    return .SUCCESS
  | .error e => do
    errMsg out ("set: ".toList ++ e)
    return .FAILURE

def unknownOption (out : Outside W) (option : Text) : ShellM W ExitStatus := do
  errMsg out ("set: unknown option: ".toList ++ option)
  return .FAILURE

/-- The loop over the arguments of `set`; each round takes at least one. -/
def setLoop (out : Outside W) : Nat → List Text → ShellM W ExitStatus
  | 0, _ => return .SUCCESS
  | _, [] => return .SUCCESS
  | n + 1, arg :: args => do
    let opts := (← getShell).opts
    if arg = "--".toList then
      setPositional args
      return .SUCCESS
    else if arg = "-".toList then
      modifyOpts fun o => { o with xtrace := false }
      setLoop out n args
    else if (arg = "-o".toList ∨ arg = "+o".toList) ∧ args ≠ [] then
      match opts.setNamed (args.head?.getD []) (arg = "-o".toList) with
      | some opts => do
        modifyOpts fun _ => opts
        setLoop out n args.tail
      | none => unknownOption out (args.head?.getD [])
    else if arg.head? = some '-' ∨ arg.head? = some '+' then
      let (opts, unknown) := opts.setLetters (arg.head? = some '-') arg.tail
      modifyOpts fun _ => opts
      match unknown with
      | some letter => unknownOption out ['-', letter]
      | none => setLoop out n args
    else if isShellNameBytes (ShellBytes.ofText arg) then setExported out arg args
    else
      setPositional (arg :: args)
      return .SUCCESS

def builtinSet (out : Outside W) (args : List Text) : ShellM W ExitStatus := do
  if args.length ≤ 1 then
    listExported out (fun k v => k ++ '=' :: v ++ ['\n']) (← getShell).vars.exportedEnvBytes
  else setLoop out args.length args.tail

def builtinShift (out : Outside W) (args : List Text) : ShellM W ExitStatus := do
  let n := ((args.tail.head?.bind parseUsize).getD 1)
  let positional := (← getShell).vars.positional
  if positional.length < n then
    errMsg out "shift: can't shift that many".toList
    return .FAILURE
  else
    modifyVars fun v => { v with positional := positional.drop n }
    return .SUCCESS

/-- `local`: a refused assignment leaves the variable as it is. -/
def builtinLocal : List Text → ShellM W ExitStatus
  | [] => return .SUCCESS
  | arg :: args => do
    match splitAssignment arg with
    | some (name, value) => do
      makeLocal name
      let _ ← setShell name value
      builtinLocal args
    | none => do
      makeLocal arg
      builtinLocal args

/-! ## The outside -/

/-- `unescape_echo` -/
def unescapeEcho : Text → Text
  | '\\' :: c :: rest =>
    (match c with
      | 'n' => ['\n']
      | 't' => ['\t']
      | '\\' => ['\\']
      | 'a' => ['\x07']
      | 'b' => ['\x08']
      | 'f' => ['\x0c']
      | 'r' => ['\r']
      | 'v' => ['\x0b']
      | c => ['\\', c]) ++ unescapeEcho rest
  | c :: rest => c :: unescapeEcho rest
  | [] => []

/-- The flags of `echo`: whether to end the line and to unescape, and the words. -/
def echoFlags : Bool → Bool → List Text → Bool × Bool × List Text
  | newline, escape, [] => (newline, escape, [])
  | newline, escape, arg :: args =>
    if arg = "-n".toList then echoFlags false escape args
    else if arg = "-e".toList then echoFlags newline true args
    else if arg = "-E".toList then echoFlags newline false args
    else (newline, escape, arg :: args)

def builtinEcho (out : Outside W) (args : List Text) : ShellM W ExitStatus := do
  let (newline, escape, words) := echoFlags true false args.tail
  let text := if escape then unescapeEcho (joinWords words) else joinWords words
  writeOut out (if newline then text ++ ['\n'] else text)
  return .SUCCESS

def changeDirectory (out : Outside W) (dir : Text) : ShellM W ExitStatus := do
  let sh ← getShell
  match ← outside (out.resolveCd sh.cwd sh.cwd_is_canonical (strToBytes dir)) with
  | .ok (canonical, true) => do
    modifyShell fun sh => { sh with cwd := canonical, cwd_is_canonical := true }
    let _ ← tryVars fun v => v.setBytes "PWD".toList canonical
    return .SUCCESS
  | .ok (_, false) => do
    errMsg out ("cd: ".toList ++ dir ++ ": Not a directory".toList)
    return .FAILURE
  | .error e => do
    errMsg out ("cd: ".toList ++ dir ++ ": ".toList ++ e.message)
    return .FAILURE

def builtinCd (out : Outside W) (args : List Text) : ShellM W ExitStatus := do
  match args.tail with
  | dir :: _ => changeDirectory out dir
  | [] =>
    match (← getShell).vars.getShell "HOME".toList with
    | some home => changeDirectory out home
    | none => do
      errMsg out "cd: HOME not set".toList
      return .FAILURE

def builtinPwd (out : Outside W) : ShellM W ExitStatus := do
  writeOut out (bytesToStr (← getShell).cwd ++ ['\n'])
  return .SUCCESS

def runUtility (out : Outside W) (utility : Utility) (args : List Text) :
    ShellM W ExitStatus := do
  outside (out.utility utility (← getShell).cwd args)

/-- The builtin `exec`: only a failing `execve` returns. -/
def builtinExec (out : Outside W) (args : List Text) : ShellM W ExitStatus := do
  match args.tail with
  | [] => return .SUCCESS
  | program :: rest => do
    let sh ← getShell
    let env := sh.vars.envForCommandOs []
    let request : ExecRequest := { cwd := sh.cwd, argv := (program :: rest).map strToBytes, env }
    recordRun .program (program :: rest) env
    match ← outside (out.exec request) with
    | .replaced status => Process.quit status
    | .failed ⟨e, _⟩ | .noDirectory e => do
      errMsg out ("exec: ".toList ++ program ++ ": ".toList ++ e.message)
      return .NOT_EXECUTABLE
    | .unsaved e => do
      errMsg out ("exec: cannot save current directory: ".toList ++ e.message)
      return .NOT_EXECUTABLE

/-! ## Lookup -/

/-- `command_identity` -/
def hasIdentity (host : Host W) (name : Text) : Bool :=
  !(strToBytes name).contains 0x2F && host.command_identities.contains (strToBytes name)

/-- `command_lookup_available` -/
def commandLookupAvailable (host : Host W) (name : Text) : Bool :=
  hasIdentity host name || builtinAllowed host name

/-- `which` -/
def which (out : Outside W) (name : Text) : ShellM W (Option Text) := do
  let sh ← getShell
  outside (out.findProgram (sh.vars.getBytes "PATH".toList) sh.cwd (strToBytes name))

/-- What `type` and `command -V` say of a name. -/
def describeName (out : Outside W) (name : Text) : ShellM W ExitStatus := do
  if !commandLookupAvailable out.host name then
    errMsg out (name ++ ": not found".toList)
    return .FAILURE
  else if ((← getShell).functions.lookup name).isSome then
    writeOut out (name ++ " is a function\n".toList)
    return .SUCCESS
  else if isBuiltin name || hasIdentity out.host name then
    writeOut out (name ++ " is a shell builtin\n".toList)
    return .SUCCESS
  else
    match ← which out name with
    | some path => do
      writeOut out (name ++ " is ".toList ++ path ++ ['\n'])
      return .SUCCESS
    | none => do
      errMsg out (name ++ ": not found".toList)
      return .FAILURE

/-- What `command -v` says of a name. -/
def nameOrPath (out : Outside W) (name : Text) : ShellM W ExitStatus := do
  if !commandLookupAvailable out.host name then return .FAILURE
  else if ((← getShell).functions.lookup name).isSome || isBuiltin name ||
      hasIdentity out.host name then
    writeOut out (name ++ ['\n'])
    return .SUCCESS
  else
    match ← which out name with
    | some path => do
      writeOut out (path ++ ['\n'])
      return .SUCCESS
    | none => return .FAILURE

/-- Describe every name; one that is not found makes the status a failure. -/
def describeAll (describe : Text → ShellM W ExitStatus) : List Text → ExitStatus →
    ShellM W ExitStatus
  | [], status => return status
  | name :: names, status => do
    let found ← describe name
    describeAll describe names (if found.success then status else .FAILURE)

def builtinType (out : Outside W) (args : List Text) : ShellM W ExitStatus :=
  describeAll (describeName out) args.tail .SUCCESS

/-! ## Traps -/

/-- `is_exit_signal_specifier`, of a name in upper case. -/
def isExitSignalSpecifier (specifier : Text) : Bool :=
  specifier == "EXIT".toList ||
    (specifier.all Char.isDigit && parseI32 specifier == some 0)

/-- The signals that have a name here, with their numbers. -/
def signalNames : List (Text × Nat) :=
  [("HUP".toList, 1), ("INT".toList, 2), ("QUIT".toList, 3), ("ILL".toList, 4),
    ("TRAP".toList, 5), ("ABRT".toList, 6), ("BUS".toList, 7), ("FPE".toList, 8),
    ("KILL".toList, 9), ("USR1".toList, 10), ("SEGV".toList, 11), ("USR2".toList, 12),
    ("PIPE".toList, 13), ("ALRM".toList, 14), ("TERM".toList, 15), ("CHLD".toList, 17),
    ("CONT".toList, 18), ("STOP".toList, 19), ("TSTP".toList, 20), ("TTIN".toList, 21),
    ("TTOU".toList, 22), ("URG".toList, 23), ("SYS".toList, 31)]

/-- `name_to_signal` and then `signal_to_name`: the canonical name and number. -/
def canonicalSignal (name : Text) : Option (Text × Nat) :=
  if !name.isEmpty && name.all Char.isDigit then
    (parseI32 name).bind fun n => signalNames.find? fun s => (s.2 : Int) == n
  else
    let name := if "SIG".toList.isPrefixOf name then name.drop 3 else name
    let name := if name = "IOT".toList then "ABRT".toList else name
    signalNames.find? fun s => s.1 == name

def invalidSignal (out : Outside W) (name : Text) : ShellM W ExitStatus := do
  errMsg out ("trap: ".toList ++ name ++ ": invalid signal specification".toList)
  return .FAILURE

def setTrap (name : Text) (action : Option Text) : ShellM W Unit :=
  modifyShell fun sh =>
    { sh with traps := match action with
        | some action => sh.traps.insert name action
        | none => sh.traps.erase name }

/-- Set or, with no action, reset the trap for one condition. -/
def trapCondition (out : Outside W) (action : Option Text) (sig_name : Text) :
    ShellM W ExitStatus := do
  let normalized := sig_name.map Char.toUpper
  if isExitSignalSpecifier normalized then
    setTrap "EXIT".toList action
    return .SUCCESS
  else
    match canonicalSignal normalized with
    | none => invalidSignal out sig_name
    | some (canonical, signum) => do
      let disposition : SignalAction := match action with
        | none => .reset
        | some [] => .ignore
        | some _ => .install
      match ← outside (out.signal disposition signum) with
      | .ok () => do
        setTrap canonical action
        return .SUCCESS
      | .error e => do
        errMsg out ("trap: ".toList ++ sig_name ++ ": ".toList ++ e.message)
        return .FAILURE

def listTraps (out : Outside W) : List (Sigma fun _ : Text => Text) → ShellM W ExitStatus
  | [] => return .SUCCESS
  | ⟨sig, action⟩ :: traps => do
    writeOut out ("trap -- '".toList ++ action ++ "' ".toList ++ sig ++ ['\n'])
    listTraps out traps

def trapAll (out : Outside W) (action : Option Text) : List Text → ExitStatus →
    ShellM W ExitStatus
  | [], status => return status
  | sig_name :: names, status => do
    let result ← trapCondition out action sig_name
    trapAll out action names (if result.success then status else .FAILURE)

def builtinTrap (out : Outside W) (args : List Text) : ShellM W ExitStatus := do
  let traps := (← getShell).traps.entries
  match args.tail with
  | [] => listTraps out traps
  | arg :: rest =>
    match (if arg = "--".toList then rest else arg :: rest) with
    | [] => return .SUCCESS
    | [sig] => if sig = "-".toList then listTraps out traps else trapCondition out none sig
    | action :: names =>
      trapAll out (if action = "-".toList then none else some action) names .SUCCESS

/-! ## `read` -/

/-- The fields `read` gives to all variables but the last, and what is left. -/
def readFields (delimiters : List Text) : Nat → List Text → List Text
  | 0, chars =>
    let trailing := fun unit : Text =>
      delimiters.contains unit && unit.all Text.isWhitespace
    [((chars.reverse.dropWhile trailing).reverse).flatten]
  | k + 1, chars =>
    (chars.takeWhile fun unit => !delimiters.contains unit).flatten ::
      readFields delimiters k
        ((chars.dropWhile fun unit => !delimiters.contains unit).dropWhile
          delimiters.contains)

/-- The values of the variables of `read` for a line. -/
def readValues (ifs line : Text) (names : Nat) : List Text :=
  let delimiters := shellChars ifs
  let units := shellChars line
  match names with
  | 1 =>
    let trimmed := (units.dropWhile delimiters.contains).reverse
    [((trimmed.dropWhile delimiters.contains).reverse).flatten]
  | names =>
    readFields delimiters (names - 1)
      (units.dropWhile fun unit =>
        delimiters.contains unit && unit.all Text.isWhitespace)

/-- Assign until an assignment is refused. -/
def assignAll (out : Outside W) (builtin : Text) : List (Text × Text) → ExitStatus →
    ShellM W ExitStatus
  | [], status => return status
  | (name, value) :: rest, status => do
    match ← setShell name value with
    | .ok () => assignAll out builtin rest status
    | .error e => do
      errMsg out (builtin ++ ": ".toList ++ e)
      return .FAILURE

def builtinRead (out : Outside W) (args : List Text) : ShellM W ExitStatus := do
  let flags := args.tail.takeWhile fun arg => arg.head? = some '-'
  let operands := args.tail.dropWhile fun arg => arg.head? = some '-'
  let names := if operands.isEmpty then ["REPLY".toList] else operands
  let (bytes, hit_eof) ← outside (out.readLine (flags.contains "-r".toList))
  let status := if hit_eof then ExitStatus.FAILURE else .SUCCESS
  if hit_eof && bytes.isEmpty then
    assignAll out "read".toList (names.map fun name => (name, [])) .FAILURE
  else
    let values := readValues (← getShell).vars.ifs (bytesToStr bytes) names.length
    assignAll out "read".toList (names.zip values) status

/-! ## `getopts` -/

/-- Assignments whose refusal `getopts` ignores. -/
def setIgnoring : List (Text × Text) → ShellM W Unit
  | [] => return ()
  | (name, value) :: rest => do
    let _ ← setShell name value
    setIgnoring rest

def unsetIgnoring (name : Text) : ShellM W Unit := do
  let _ ← tryVars fun v => v.unset name

def optIndex (optind : Nat) : Text × Text := ("OPTIND".toList, natText optind)

def optPosition (optpos : Nat) : Text × Text := ("_OPTPOS".toList, natText optpos)

/-- The place after option `optpos` of an argument with `len` characters. -/
def nextOption (optind optpos len : Nat) : List (Text × Text) :=
  if len ≤ optpos + 1 then [optIndex (optind + 1), optPosition 1]
  else [optPosition (optpos + 1)]

/-- One option letter of `getopts`. -/
def getoptsLetter (out : Outside W) (optstring name : Text) (argv arg_chars : List Text)
    (optind optpos : Nat) : ShellM W ExitStatus := do
  let opt := arg_chars[optpos]?.getD []
  let optchars := shellChars optstring
  match optchars.findIdx? (· == opt) with
  | some pos => do
    setIgnoring [(name, opt)]
    if optchars[pos + 1]? = some [':'] then
      if optpos + 1 < arg_chars.length then
        setIgnoring [("OPTARG".toList, (arg_chars.drop (optpos + 1)).flatten),
          optIndex (optind + 1), optPosition 1]
      else if optind < argv.length then
        setIgnoring [("OPTARG".toList, argv[optind]?.getD []), optIndex (optind + 2),
          optPosition 1]
      else
        errMsg out ("getopts: option requires argument -- ".toList ++ opt)
        setIgnoring [(name, ['?']), optIndex (optind + 1)]
    else
      unsetIgnoring "OPTARG".toList
      setIgnoring (nextOption optind optpos arg_chars.length)
    return .SUCCESS
  | none => do
    if optstring.head? = some ':' then setIgnoring [("OPTARG".toList, opt)]
    else errMsg out ("getopts: illegal option -- ".toList ++ opt)
    setIgnoring ((name, ['?']) :: nextOption optind optpos arg_chars.length)
    return .SUCCESS

/-- `builtin_getopts`, which calls itself at the end of an argument. -/
def builtinGetopts (out : Outside W) : Nat → List Text → ShellM W ExitStatus
  | 0, _ => Process.diverge
  | n + 1, args => do
    match args.tail with
    | optstring :: name :: operands => do
      let vars := (← getShell).vars
      let argv := if operands.isEmpty then vars.positionalShellStrings else operands
      let optind := ((vars.get "OPTIND".toList).bind parseUsize).getD 1
      let arg := if optind < 1 then none else argv[optind - 1]?
      match arg with
      | none => do
        setIgnoring [(name, ['?'])]
        return .FAILURE
      | some arg => do
        if arg.head? ≠ some '-' ∨ arg = "-".toList ∨ arg = "--".toList then
          setIgnoring [(name, ['?'])]
          return .FAILURE
        let arg_chars := shellChars arg
        let optpos := ((vars.get "_OPTPOS".toList).bind parseUsize).getD 1
        if arg_chars.length ≤ optpos then
          setIgnoring [optIndex (optind + 1), optPosition 1]
          builtinGetopts out n args
        else getoptsLetter out optstring name argv arg_chars optind optpos
    | _ => do
      errMsg out "getopts: usage: getopts optstring name [arg ...]".toList
      return .MISUSE

/-! ## Builtins that run commands -/

section

variable (out : Outside W) (subst : Command → ShellM W Text)
  (eval : Command → ShellM W ExitStatus)

/-- The loop of `run_inline` over the commands of a program. -/
def runInlineLoop : List Command → ExitStatus → ShellM W ExitStatus
  | [], status => return status
  | cmd :: commands, _ => do
    let status ← eval cmd
    setExitStatus status
    runInlineLoop commands status

/-- `run_inline`: control flow propagates. -/
def runInline (source : Text) : ShellM W ExitStatus := do
  match out.parse source with
  | .error e => do
    errMsg out ("epsh: ".toList ++ e)
    return .MISUSE
  | .ok program => runInlineLoop eval program.commands .SUCCESS

def builtinEval (args : List Text) : ShellM W ExitStatus :=
  if args.length ≤ 1 then return .SUCCESS else runInline out eval (joinWords args.tail)

/-- `.`: it catches `return`. -/
def builtinDot (args : List Text) : ShellM W ExitStatus := do
  match args.tail with
  | [] => do
    errMsg out ".: filename argument required".toList
    Process.fail (.Exit .MISUSE)
  | filename :: _ => do
    let path := joinPath (← getShell).cwd (strToBytes filename)
    match ← outside (out.readFile path) with
    | .error e => do
      errMsg out (".: ".toList ++ filename ++ ": ".toList ++ e.message)
      Process.fail (.Exit .NOT_FOUND)
    | .ok bytes => do
      match ← Process.attempt (runInline out eval (bytesToStr bytes)) with
      | .error (.Return n) => return n
      | result => Process.ofExcept result

/-- `try_builtin`: the prefix assignments it is given are not among its
arguments, as the source ignores them. `command` runs what it names through the
same function, with fewer arguments. -/
def tryBuiltin (n : Nat) : Nat → List Text → Span → ShellM W (Option ExitStatus)
  | 0, _, _ => Process.diverge
  | depth + 1, args, span => do
    match Builtin.named (args.head?.getD []) with
    | none => return none
    | some builtin => do
      recordRun .builtin args []
      match builtin with
      | .colon | .true => return some .SUCCESS
      | .false => return some .FAILURE
      | .echo => some <$> builtinEcho out args
      | .printf => some <$> runUtility out .printf args
      | .cd => some <$> builtinCd out args
      | .pwd => some <$> builtinPwd out
      | .exit => do Process.fail (.Exit (← builtinStatusOperand out args))
      | .return => do Process.fail (.Return (← builtinStatusOperand out args))
      | .break => some <$> loopControl out .Break args
      | .continue => some <$> loopControl out .Continue args
      | .export => some <$> builtinExport out args
      | .readonly => some <$> builtinReadonly out args
      | .unset => some <$> builtinUnset out args
      | .set => some <$> builtinSet out args
      | .shift => some <$> builtinShift out args
      | .eval => some <$> builtinEval out eval args
      | .dot => some <$> builtinDot out eval args
      | .test => some <$> runUtility out .test args
      | .read => some <$> builtinRead out args
      | .local => some <$> builtinLocal args.tail
      | .exec => some <$> builtinExec out args
      | .type => some <$> builtinType out args
      | .wait => some <$> builtinWait out args
      | .trap => some <$> builtinTrap out args
      | .kill => some <$> runUtility out .kill args
      | .umask => some <$> runUtility out .umask args
      | .getopts => some <$> builtinGetopts out n args
      | .command =>
        match commandAction args with
        | .Empty => return some .SUCCESS
        | .Describe .true names =>
          some <$> describeAll (describeName out) names .SUCCESS
        | .Describe .false names =>
          some <$> describeAll (nameOrPath out) names .SUCCESS
        | .Execute new_args => do
          match parentProcessRefusal out.host (← getShell) new_args with
          | some diagnostic => do
            errMsg out diagnostic
            return some .MISUSE
          | none => do
            checkCommandPolicyForDispatch out new_args span
            match ← tryBuiltin n depth new_args span with
            | some status => return some status
            | none =>
              if hasExternalHandler out.host (new_args.head?.getD []) then
                some <$> callExternalHandler out subst n new_args []
              else some <$> evalExternal out subst n new_args [] []

end

end Ish.Epsh
