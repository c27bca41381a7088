import Ish.Epsh.Eval
import Ish.Lib.UnixPath

/-!
# Looking a name up

What `type` and `command` say of a name is decided apart from what the dispatcher runs. The
model of `which` and of `execve_with_env` over the files there are, both decisions, and when
they agree.
-/

namespace Ish.Epsh.Lookup

open Ish.Lib List
open UnixPath (SLASH DOT)

variable {W : Type}

/-! ## The two searches -/

inductive Node where
  | file (executable : Bool)
  | other
deriving DecidableEq

/-- What there is at an absolute path, and the directory of the process. -/
structure Files where
  node : ShellBytes → Option Node
  process_dir : ShellBytes

def Files.isFile (files : Files) (path : ShellBytes) : Bool :=
  match files.node path with
  | some (.file _) => true
  | _ => false

def Files.isExecutable (files : Files) (path : ShellBytes) : Bool :=
  files.node path == some (.file true)

/-- A file of `which`; it need not be absolute. -/
def whichCandidate (cwd name dir : ShellBytes) : ShellBytes :=
  let candidate := if dir.isEmpty then cwd else dir
  (if candidate.getLast? = some SLASH then candidate else candidate ++ [SLASH]) ++ name

def whichCandidates (path : Option ShellBytes) (cwd name : ShellBytes) : List ShellBytes :=
  ((path.getD []).splitOn 0x3A).map (whichCandidate cwd name)

/-- `which`: the text of what it finds. -/
def whichFile (files : Files) (path : Option ShellBytes) (cwd name : ShellBytes) :
    Option ShellBytes :=
  if name.contains SLASH then
    if files.isFile (joinPath cwd name) then some name else none
  else (whichCandidates path cwd name).find? fun candidate =>
    files.isFile (joinPath files.process_dir candidate)

/-- What trying the files of a name comes to. -/
inductive Search where
  | program (file : ShellBytes)
  | denied
  | missing

/-- The search path of a program that is given none. -/
def DEFAULT_PATH : ShellBytes := ShellBytes.ofText "/usr/local/bin:/usr/bin:/bin".toList

def execCandidates (env : List (ShellBytes × ShellBytes)) (cmd : ShellBytes) : List ShellBytes :=
  if cmd.contains SLASH then [cmd]
  else (((env.lookup (ShellBytes.ofText "PATH".toList)).getD DEFAULT_PATH).splitOn 0x3A).map
    fun directory => (if directory.isEmpty then [DOT] else directory) ++ SLASH :: cmd

/-- `execve` of one candidate after the other: a missing file is passed over, and one that
may not be executed is remembered. -/
def execveAll (files : Files) (cwd : ShellBytes) : Bool → List ShellBytes → Search
  | permission_error, [] => if permission_error then .denied else .missing
  | permission_error, candidate :: rest =>
    match files.node (joinPath cwd candidate) with
    | some (.file true) => .program (joinPath cwd candidate)
    | some _ => execveAll files cwd true rest
    | none => execveAll files cwd permission_error rest

/-- `execve_with_env` in the shell's directory. -/
def execSearch (files : Files) (cwd : ShellBytes) (env : List (ShellBytes × ShellBytes))
    (cmd : ShellBytes) : Search :=
  execveAll files cwd false (execCandidates env cmd)

/-! ## The two decisions -/

inductive Report where
  | function
  | builtin
  | path (file : ShellBytes)
  | missing

/-- What running a name comes to. -/
inductive Execution where
  | refused
  | builtin
  | function (func_body : Command)
  | handler
  | external (found : Search)

/-- What `builtin_type` and `builtin_command` decide of a name. -/
def report (host : Host W) (files : Files) (sh : Shell) (name : Text) : Report :=
  if !commandLookupAvailable host name then .missing
  else if (sh.functions.lookup name).isSome then .function
  else if isBuiltin name || hasIdentity host name then .builtin
  else match whichFile files (sh.vars.getBytes "PATH".toList) sh.cwd (strToBytes name) with
    | some file => .path file
    | none => .missing

/-- What `eval_simple` decides of a name that is all of a command. -/
def execution (host : Host W) (files : Files) (sh : Shell) (name : Text) : Execution :=
  if !builtinAllowed host name then .refused
  else if isBuiltin name then .builtin
  else match sh.functions.lookup name with
    | some func_body => .function func_body
    | none =>
      if hasExternalHandler host name then .handler
      else .external (execSearch files sh.cwd (sh.vars.envForCommandOs []) (strToBytes name))

/-! ## The decisions are those of the commands -/

/-- How `execve` ends: a program that is found is started. -/
def Search.executed (start : ShellBytes → ExecRequest → W → ExitStatus × W)
    (request : ExecRequest) (w : W) : Search → Executed × W
  | .program file => (.replaced (start file request w).1, (start file request w).2)
  | .denied => (.failed ⟨⟨.PermissionDenied, []⟩, none⟩, w)
  | .missing => (.failed ⟨⟨.NotFound, []⟩, none⟩, w)

/-- The outside of a shell that sees the files. -/
def Files.outside (files : Files) (start : ShellBytes → ExecRequest → W → ExitStatus × W)
    (out : Outside W) : Outside W :=
  { out with
    findProgram path cwd name w := ((whichFile files path cwd name).map bytesToStr, w)
    exec request w :=
      (execSearch files request.cwd request.env (request.argv.head?.getD [])).executed start
        request w }

theorem builtinAllowed_of_not {host : Host W} {name} (h : isBuiltin name = false) :
    builtinAllowed host name = true := by
  rw [builtinAllowed, h]
  cases host.builtin_allowlist <;> rfl

section

variable (files : Files) (start : ShellBytes → ExecRequest → W → ExitStatus × W)
  (out : Outside W) (name : Text)

/-- What `type` and `command -V` write. -/
theorem describeName_report (m : Machine W) :
    describeName (files.outside start out) name m =
      (match report out.host files m.shell name with
        | .function => do writeOut out (name ++ " is a function\n".toList); return .SUCCESS
        | .builtin => do writeOut out (name ++ " is a shell builtin\n".toList); return .SUCCESS
        | .path file => do
          writeOut out (name ++ " is ".toList ++ bytesToStr file ++ ['\n'])
          return .SUCCESS
        | .missing => do errMsg out (name ++ ": not found".toList); return .FAILURE :
        ShellM W ExitStatus) m := by
  rw [describeName, report, show (files.outside start out).host = out.host from rfl]
  cases commandLookupAvailable out.host name with
  | false => rfl
  | true =>
    show (getShell >>= _) m = _
    rw [getShell_bind]
    cases (m.shell.functions.lookup name).isSome with
    | true => rfl
    | false =>
      cases isBuiltin name || hasIdentity out.host name with
      | true => rfl
      | false =>
        show (match (whichFile files _ _ _).map bytesToStr with | some path => _ | none => _ :
          ShellM W ExitStatus) m = _
        cases whichFile files (m.shell.vars.getBytes "PATH".toList) m.shell.cwd
          (strToBytes name) <;> rfl

/-- What `command -v` writes. -/
theorem nameOrPath_report (m : Machine W) :
    nameOrPath (files.outside start out) name m =
      (match report out.host files m.shell name with
        | .function | .builtin => do writeOut out (name ++ ['\n']); return .SUCCESS
        | .path file => do writeOut out (bytesToStr file ++ ['\n']); return .SUCCESS
        | .missing => return .FAILURE : ShellM W ExitStatus) m := by
  rw [nameOrPath, report, show (files.outside start out).host = out.host from rfl]
  cases commandLookupAvailable out.host name with
  | false => rfl
  | true =>
    show (getShell >>= _) m = _
    rw [getShell_bind, Bool.or_assoc]
    cases (m.shell.functions.lookup name).isSome with
    | true => rfl
    | false =>
      cases isBuiltin name || hasIdentity out.host name with
      | true => rfl
      | false =>
        show (match (whichFile files _ _ _).map bytesToStr with | some path => _ | none => _ :
          ShellM W ExitStatus) m = _
        cases whichFile files (m.shell.vars.getBytes "PATH".toList) m.shell.cwd
          (strToBytes name) <;> rfl

/-- A program takes the place of the shell. -/
theorem runProgram_search (env : List (ShellBytes × ShellBytes)) {m}
    (hexit : m.shell.ev_exit = true) :
    runProgram (files.outside start out) [name] env m =
      (do
        recordRun .program [name] env
        match execSearch files m.shell.cwd env (strToBytes name) with
        | .program file => do
          Process.quit (← outside (start file ⟨m.shell.cwd, [strToBytes name], env⟩))
        | .denied => do
          errMsg out (name ++ ": permission denied".toList)
          return .NOT_EXECUTABLE
        | .missing => do
          errMsg out (name ++ ": not found".toList)
          return .NOT_FOUND : ShellM W ExitStatus) m := by
  rw [runProgram, getShell_bind]
  show ((recordRun .program [name] env >>= _) m : Option _) = _
  refine congrFun (congrArg (recordRun .program [name] env >>= ·) (funext fun _ => ?_)) m
  rw [if_pos hexit]
  show (outside fun w => (execSearch files m.shell.cwd env (strToBytes name)).executed start _ w)
    >>= _ = _
  cases execSearch files m.shell.cwd env (strToBytes name) <;> rfl

/-- What is run when the policies have accepted a name that is no builtin. -/
theorem dispatch_execution (eval : Command → ShellM W ExitStatus) (n : Nat) (span : Span)
    (m : Machine W) (hbuiltin : isBuiltin name = false) :
    dispatch out eval n [] [name] span m =
      (match execution out.host files m.shell name with
        | .function func_body => do
          modifyShell fun sh => { sh with ev_exit := false }
          evalFunction out eval n func_body [name] []
        | .handler => callExternalHandler out (commandSubst out eval) n [name] []
        | _ => evalExternal out (commandSubst out eval) n [name] [] [] :
        ShellM W ExitStatus) m := by
  have hallowed : builtinAllowed out.host name = true := builtinAllowed_of_not hbuiltin
  have hnamed : Builtin.named name = none := by
    rw [isBuiltin] at hbuiltin
    exact Option.isSome_eq_false_iff.mp hbuiltin |> Option.isNone_iff_eq_none.mp
  have htry : tryBuiltin out (commandSubst out eval) eval n 1 [name] span = return none := by
    rw [tryBuiltin, show Builtin.named ([name].head?.getD []) = none from hnamed]
  rw [dispatch, show [name].length = 1 from rfl, htry, pure_bind, execution, hallowed, hbuiltin]
  show (match m.shell.functions.lookup name with | some func_body => _ | none => _ :
    ShellM W ExitStatus) m = _
  cases m.shell.functions.lookup name with
  | some func_body => rfl
  | none =>
    show (if hasExternalHandler out.host name then _ else _ : ShellM W ExitStatus) m = _
    cases hasExternalHandler out.host name <;> rfl

end

/-! ## When they agree -/

/-- What is reported is what running the name would execute; a handler stands for a builtin of
the embedding program. -/
def Agrees (cwd : ShellBytes) : Report → Execution → Prop
  | .function, .function _ | .builtin, .builtin | .builtin, .handler
  | .missing, .external .missing => True
  | .path file, .external (.program tried) =>
    UnixPath.components (joinPath cwd file) = UnixPath.components tried
  | _, _ => False

/-- The first of a list that passes. -/
def First (passes : ShellBytes → Bool) (paths : List ShellBytes) (path : ShellBytes) : Prop :=
  passes path = true ∧ ∃ before after, paths = before ++ path :: after ∧
    ∀ other ∈ before, (!passes other) = true

/-- What `which` looks at, and the directory it is relative to. -/
def whichPaths (path : Option ShellBytes) (cwd name : ShellBytes) : List ShellBytes :=
  if name.contains SLASH then [name] else whichCandidates path cwd name

def whichDir (files : Files) (cwd name : ShellBytes) : ShellBytes :=
  if name.contains SLASH then cwd else files.process_dir

/-- The first regular file of the one search is the first executable of the other, or the
one search meets no regular file and the other nothing at all. -/
def SameFile (files : Files) (sh : Shell) (name : ShellBytes) : Prop :=
  let looked := whichPaths (sh.vars.getBytes "PATH".toList) sh.cwd name
  let tried := execCandidates (sh.vars.envForCommandOs []) name
  let regular := fun path => files.isFile (joinPath (whichDir files sh.cwd name) path)
  (∃ file program, First regular looked file ∧
      First (fun path => files.isExecutable (joinPath sh.cwd path)) tried program ∧
      UnixPath.components (joinPath sh.cwd file) =
        UnixPath.components (joinPath sh.cwd program)) ∨
    (∀ path ∈ looked, regular path = false) ∧
      ∀ path ∈ tried, files.node (joinPath sh.cwd path) = none

theorem whichFile_eq (files : Files) (path : Option ShellBytes) (cwd name : ShellBytes) :
    whichFile files path cwd name = (whichPaths path cwd name).find? fun candidate =>
      files.isFile (joinPath (whichDir files cwd name) candidate) := by
  rw [whichFile, whichPaths, whichDir]
  split
  · rw [find?_cons, find?_nil]
    split <;> simp_all
  · rfl

theorem execveAll_eq (files : Files) (cwd : ShellBytes) (permission_error : Bool)
    (paths : List ShellBytes) :
    execveAll files cwd permission_error paths =
      match paths.find? fun path => files.isExecutable (joinPath cwd path) with
      | some path => .program (joinPath cwd path)
      | none =>
        if permission_error || paths.any fun path => (files.node (joinPath cwd path)).isSome then
          .denied
        else .missing := by
  induction paths generalizing permission_error with
  | nil => simp [execveAll]
  | cons path rest ih =>
    rw [execveAll, find?_cons, any_cons, Files.isExecutable]
    split
    · next hnode => rw [hnode]; rfl
    · next found hfound hnode =>
      rw [ih, hnode, beq_eq_false_iff_ne.mpr (by simpa using hfound)]
      simp
    · next hnode =>
      rw [ih, hnode]
      simp

theorem search_agrees (files : Files) (sh : Shell) (name : ShellBytes) :
    Agrees sh.cwd
        (match whichFile files (sh.vars.getBytes "PATH".toList) sh.cwd name with
          | some file => .path file
          | none => .missing)
        (.external (execSearch files sh.cwd (sh.vars.envForCommandOs []) name)) ↔
      SameFile files sh name := by
  have hfirst (passes : ShellBytes → Bool) (paths : List ShellBytes) (path : ShellBytes) :
      First passes paths path ↔ paths.find? passes = some path := find?_eq_some_iff_append.symm
  rw [whichFile_eq, execSearch, execveAll_eq, SameFile]
  simp only [hfirst, ← Bool.not_eq_true, ← find?_eq_none]
  generalize execCandidates (sh.vars.envForCommandOs []) name = tried
  have hnone : (tried.any fun path => (files.node (joinPath sh.cwd path)).isSome) = false ↔
      ∀ path ∈ tried, files.node (joinPath sh.cwd path) = none := by simp
  rw [Bool.false_or, ← hnone]
  cases find? _ (whichPaths (sh.vars.getBytes "PATH".toList) sh.cwd name) <;>
    cases htried : tried.find? fun path => files.isExecutable (joinPath sh.cwd path)
  case none.none =>
    cases tried.any fun path => (files.node (joinPath sh.cwd path)).isSome <;> simp [Agrees]
  case none.some program =>
    have hfound : files.isExecutable (joinPath sh.cwd program) = true :=
      find?_some (p := fun path => files.isExecutable (joinPath sh.cwd path)) htried
    simp only [Agrees, hnone]
    refine ⟨False.elim, fun h => ?_⟩
    rcases h with ⟨_, _, hfile, -⟩ | ⟨-, hmissing⟩
    · exact nomatch hfile
    · exact nomatch (beq_iff_eq.mp hfound).symm.trans (hmissing program (mem_of_find?_eq_some htried))
  case some.none file =>
    cases tried.any fun path => (files.node (joinPath sh.cwd path)).isSome <;> simp [Agrees]
  case some.some file program => simp [Agrees]

end Ish.Epsh.Lookup
