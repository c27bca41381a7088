import Ish.Denv.Diff
import Ish.Denv.Sha256
import Ish.Lib.EState
import Ish.Lib.UnixPath

/-!
# Refreshing the environment

The model of `refresh`, `refresh_inner`, `allow_current_dir`, `deny_current_dir` and
of what they call in `src/denv.rs`. Files, interpreters and failures are the
`Host`'s: every call may answer anything and change the world, so edits made at any
moment are among its answers. The allow directory and the active record are part of
the machine, since only denv writes them; a failing call leaves what its system call
may leave.

`Machine.log` is history that no function reads: the files a refresh looks at and
those it evaluates or applies, and the trust given and withdrawn. What is reported to
the terminal is left out.
-/

namespace Ish.Denv

open Ish.Epsh Ish.Lib

abbrev Path := UnixPath.Path

/-- How a write to the allow directory ends. -/
inductive WriteEnd where
  | done
  | refused (error : Text)
  /-- Only some of the bytes, and never all, were written. -/
  | torn (count : Nat) (error : Text)

/-- Why a removal fails when the file is there, or when there is none. -/
inductive RemoveError where
  | NotFound
  | NameTooLong
  | other (error : Text)

/-- What the operating system and the interpreters answer. -/
structure Host (W : Type) where
  /-- `stat_regular_file_mtime` -/
  mtime : Path → StateM W (Option UInt64)
  canonicalize : Path → StateM W (Except Text Path)
  read : Path → StateM W (Except Text ShellBytes)
  /-- Whether reading a trust file fails, other than by its absence. -/
  readFails : Text → StateM W Bool
  createDir : StateM W (Option Text)
  write : Text → StateM W WriteEnd
  removeFails : Text → StateM W (Option Text)
  /-- Names that the file system refuses to look for. -/
  tooLong : Text → StateM W Bool
  readActiveFails : StateM W (Option Text)
  saveActiveFails : StateM W (Option Text)
  clearActiveFails : StateM W (Option Text)
  /-- What `bash` prints before and after the text, in this environment. -/
  bash : Path → ShellBytes → (ShellBytes → Option ShellBytes) →
    StateM W (Except Text (List UInt8 × List UInt8))
  /-- The environment after an epsh evaluation of the text and the `.env` entries. -/
  epsh : Path → ShellBytes → List (Text × Text) → (ShellBytes → Option ShellBytes) →
    StateM W (Except Text Snapshot)
  /-- Texts of the standard library. -/
  display : Path → Text
  utf8Error : ShellBytes → Text
  debug : Text → Text

/-- A file as it was read. -/
structure TrustCandidate where
  path : Path
  bytes : ShellBytes
  hash : Text
  hashed : hash = Sha256.hexDigest bytes

structure EnvFiles where
  dir : Path
  envrc : Option (Path × UInt64)
  dotenv : Option (Path × UInt64)

structure Session where
  data_dir : Except Text Path
  record_id : Except Text Text
  active : Option ActiveState
  active_loaded : Bool

inductive Event where
  /-- A refresh has found these files and read them. -/
  | looked (files : List TrustCandidate)
  /-- These files are evaluated, or their entries applied. -/
  | used (files : List TrustCandidate)
  | allowed (path : Path) (bytes : ShellBytes)
  | denied (path : Path)

structure Machine (W : Type) where
  world : W
  /-- The files of the allow directory, by name. -/
  allow : Text → Option ShellBytes
  /-- The active file of this session. -/
  record : Option ShellBytes
  session : Session
  cwd : Path
  vars : Variables
  log : List Event

abbrev DenvM (W : Type) := EStateM Text (Machine W)

variable {W : Type}

def call {α : Type} (x : StateM W α) : DenvM W α := fun m =>
  let (a, world) := x m.world
  .ok a { m with world }

def ofExcept {α : Type} (x : Except Text α) : DenvM W α := fun m =>
  match x with
  | .ok a => .ok a m
  | .error e => .error e m

def note (event : Event) : DenvM W Unit := modify fun m => { m with log := m.log ++ [event] }

def unlessFails (context : Text) (fault : Option Text) : DenvM W Unit :=
  match fault with
  | none => pure ()
  | some error => throw (context ++ error)

/-! ## Looking -/

def statFileWithProbe (host : Host W) (dir : Path) (name : Text) :
    StateM W (Option (Path × UInt64)) := do
  let probe := UnixPath.join dir (ShellBytes.ofText name)
  return (← host.mtime probe).map (probe, ·)

/-- The loop of `find_env_files`, over the directories it goes through. -/
def findIn (host : Host W) : List Path → StateM W (Option EnvFiles)
  | [] => return none
  | dir :: dirs => do
    let envrc ← statFileWithProbe host dir ".envrc".toList
    let dotenv ← statFileWithProbe host dir ".env".toList
    if envrc.isSome ∨ dotenv.isSome then return some { dir, envrc, dotenv }
    else findIn host dirs

def findEnvFiles (host : Host W) (start : Path) : StateM W (Option EnvFiles) :=
  findIn host (UnixPath.upward start)

def canonicalizeFallback (host : Host W) (path : Path) : StateM W Path := do
  match ← host.canonicalize path with
  | .ok path => return path
  | .error _ => return path

def pathsMatch (host : Host W) (a b : Path) : StateM W Bool := do
  if UnixPath.components a = UnixPath.components b then return true
  else
    match ← host.canonicalize a with
    | .error _ => return false
    | .ok left =>
      match ← host.canonicalize b with
      | .error _ => return false
      | .ok right => return UnixPath.components left = UnixPath.components right

def readTrustedCandidate (host : Host W) (path : Path) :
    StateM W (Except Text TrustCandidate) := do
  match ← host.canonicalize path with
  | .error e => return .error ("resolve ".toList ++ host.display path ++ ": ".toList ++ e)
  | .ok path =>
    match ← host.read path with
    | .error e => return .error ("read ".toList ++ host.display path ++ ": ".toList ++ e)
    | .ok bytes => return .ok { path, bytes, hash := Sha256.hexDigest bytes, hashed := rfl }

/-- The candidate of one of the two files, when it was found. -/
def candidate (host : Host W) : Option (Path × UInt64) → StateM W (Except Text (Option TrustCandidate))
  | none => return .ok none
  | some (path, _) => return (← readTrustedCandidate host path).map some

/-! ## Trust -/

def TRUST_PREFIX : Text := "sha256-".toList

def trustKey (path : Path) : Text := TRUST_PREFIX ++ Sha256.hexDigest path

def legacyTrustKey (path : Path) : Text := writeHex path

/-- What reading a trust file gives: an error is `none`, its absence `some none`. -/
def readToString (host : Host W) (allow : Text → Option ShellBytes) (key : Text) :
    StateM W (Option (Option Text)) := do
  if ← host.readFails key then return none
  else
    match allow key with
    | none => return some none
    | some bytes => return (asUtf8Str bytes).map some

/-- `stored.is_ok_and(..)` -/
def storedMatches (hash : Text) : Option (Option Text) → Bool
  | some (some stored) => Text.trim stored == hash
  | _ => false

def isAllowedIn (host : Host W) (allow : Text → Option ShellBytes) (file : TrustCandidate) :
    StateM W Bool := do
  let stored ← readToString host allow (trustKey file.path)
  let stored ← if stored = some none then readToString host allow (legacyTrustKey file.path)
    else pure stored
  return storedMatches file.hash stored

/-- The first file that is not allowed. -/
def firstBlocked (host : Host W) (allow : Text → Option ShellBytes) :
    List TrustCandidate → StateM W (Option TrustCandidate)
  | [] => return none
  | file :: files => do
    if ← isAllowedIn host allow file then firstBlocked host allow files
    else return some file

def setTrust (key : Text) (content : Option ShellBytes) : DenvM W Unit :=
  modify fun m => { m with allow := Function.update m.allow key content }

def allowFileIn (host : Host W) (file : TrustCandidate) : DenvM W Unit := do
  unlessFails "failed to create allow dir: ".toList (← call host.createDir)
  let key := trustKey file.path
  let content := ShellBytes.ofText file.hash
  match ← call (host.write key) with
  | .done => do
    setTrust key (some content)
    note (.allowed file.path file.bytes)
  | .refused error => throw ("failed to write trust file: ".toList ++ error)
  | .torn count error => do
    setTrust key (some (content.dropLast.take count))
    throw ("failed to write trust file: ".toList ++ error)

/-- `fs::remove_file` in the allow directory. -/
def removeTrust (host : Host W) (key : Text) : DenvM W (Except RemoveError Unit) := do
  match ← call (host.removeFails key) with
  | some error => return .error (.other error)
  | none => do
    match (← get).allow key with
    | some _ => do
      setTrust key none
      return .ok ()
    | none => do
      if ← call (host.tooLong key) then return .error .NameTooLong
      else return .error .NotFound

/-- One round of the loop of `deny_file`. -/
def denyKey (host : Host W) (key : Text) (legacy : Bool) : DenvM W Unit := do
  match ← removeTrust host key with
  | .ok () | .error .NotFound => pure ()
  | .error .NameTooLong =>
    if legacy then pure ()
    else throw ("failed to remove trust file: ".toList ++ "File name too long".toList)
  | .error (.other error) => throw ("failed to remove trust file: ".toList ++ error)

def denyFile (host : Host W) (path : Path) : DenvM W Unit := do
  denyKey host (legacyTrustKey path) true
  denyKey host (trustKey path) false
  note (.denied path)

/-! ## Evaluating -/

/-- Whether `bash` stands in the first line, of which 256 bytes are looked at. -/
def usesBash (source : ShellBytes) : Bool :=
  let firstLine := (source.take 256).takeWhile (· ≠ 0x0A)
  firstLine.tails.any fun line => (ShellBytes.ofText "bash".toList).isPrefixOf line

/-- `eval_env`, where there is a `.envrc`. -/
def evalEnv (host : Host W) (dir : Path) (source : ShellBytes)
    (dotenv_entries : List (Text × Text)) (env_pairs : Snapshot) :
    StateM W (Except Text (Env × Env)) := do
  let environment := fun key => env_pairs.lookup key
  if usesBash source then
    if 0 ∈ source then return .error ".envrc contains a NUL byte".toList
    else
      match ← host.bash dir source environment with
      | .error e => return .error e
      | .ok (before_data, after_data) =>
        return .ok (parseEnvNull before_data,
          assignEntries dotenv_entries (parseEnvNull after_data))
  else
    match asUtf8Str source with
    | none => return .error (".envrc is not UTF-8: ".toList ++ host.utf8Error source)
    | some _ =>
      match ← host.epsh dir source dotenv_entries environment with
      | .error e => return .error e
      | .ok after_process =>
        return .ok (filteredEnvFromSnapshot env_pairs, filteredEnvFromSnapshot after_process)

theorem bind_run {α β : Type} (x : StateM W α) (f : α → StateM W β) (w : W) :
    (x >>= f) w = f (x w).1 (x w).2 := rfl

/-! ## One refresh -/

inductive RecordUpdate where
  | Keep
  | Clear
  | Save (state : ActiveState)

/-- The active record after an update. -/
def RecordUpdate.active (update : RecordUpdate) (active : Option ActiveState) :
    Option ActiveState :=
  match update with
  | Keep => active
  | Clear => none
  | Save state => some state

structure Transition where
  changes : List EnvChange
  record : RecordUpdate

def DENV_DIR : Text := "__DENV_DIR".toList
def DENV_DIRTY : Text := "__DENV_DIRTY".toList
def DENV_STATE : Text := "__DENV_STATE".toList

/-- The variables that a refresh sets besides those of the project. -/
def OWN_NAMES : List Text := [DENV_DIR, DENV_DIRTY, DENV_STATE]

def clearRuntimeState : List EnvChange :=
  [.Unset DENV_DIR, .Unset DENV_DIRTY, .Unset DENV_STATE]

/-- The changes for a project that is blocked or whose evaluation failed. -/
def dirtyState (dir : Path) : List EnvChange :=
  [.Set DENV_DIR dir, .Set DENV_DIRTY (ShellBytes.ofText ['1']), .Unset DENV_STATE]

def EnvFiles.envrcMtime (found : EnvFiles) : UInt64 := (found.envrc.map (·.2)).getD 0

def EnvFiles.dotenvMtime (found : EnvFiles) : UInt64 := (found.dotenv.map (·.2)).getD 0

def stateValue (found : EnvFiles) : ShellBytes :=
  ShellBytes.ofText (Numeral.u64ToString found.envrcMtime ++ ' ' ::
    Numeral.u64ToString found.dotenvMtime ++ [' ']) ++ found.dir

def loadedState (dir : Path) (found : EnvFiles) : List EnvChange :=
  [.Set DENV_DIR dir, .Unset DENV_DIRTY, .Set DENV_STATE (stateValue found)]

def parseDenvState (s : Text) : Option (UInt64 × UInt64 × Text) := do
  let (envrc_str, rest) ← Text.splitOnce ' ' s
  let (dotenv_str, dir) ← Text.splitOnce ' ' rest
  return (← Numeral.parseU64 envrc_str, ← Numeral.parseU64 dotenv_str, dir)

/-- Whether a directory, as text, is the one of the state variable. -/
def isDirectory (st_dir : Text) (dir : Path) : Bool := asUtf8Str dir == some st_dir

def stateVarMatches (host : Host W) (found : EnvFiles) (vars : Variables) :
    StateM W Bool := do
  match (vars.get DENV_STATE).bind parseDenvState with
  | none => return false
  | some (st_envrc, st_dotenv, st_dir) =>
    if st_envrc = found.envrcMtime ∧ st_dotenv = found.dotenvMtime then
      if isDirectory st_dir found.dir then return true
      else
        match ← host.canonicalize found.dir with
        | .ok dir => return isDirectory st_dir dir
        | .error _ => return false
    else return false

/-- Whether the active record is for these files, as their times show. -/
def activeMatches (host : Host W) (found : EnvFiles) : Option ActiveState → StateM W Bool
  | none => return false
  | some active =>
    if active.envrc_mtime = found.envrcMtime ∧ active.dotenv_mtime = found.dotenvMtime then
      pathsMatch host active.dir found.dir
    else return false

/-- Whether the state variable or the active record is for these files. -/
def unchanged (host : Host W) (found : EnvFiles) (vars : Variables)
    (active : Option ActiveState) : StateM W Bool := do
  if ← stateVarMatches host found vars then return true
  else activeMatches host found active

/-- The diff that the project's files ask for, or why the evaluation failed. -/
def evalProject (host : Host W) (found : EnvFiles) (envrc_file : Option TrustCandidate)
    (dotenv_entries : List (Text × Text)) (env_pairs : Snapshot) :
    StateM W (Except Text EnvDiff) := do
  match envrc_file with
  | some file =>
    let dir ← canonicalizeFallback host found.dir
    match ← evalEnv host dir file.bytes dotenv_entries env_pairs with
    | .ok (before, after) => return .ok (diffSortedEnv before after)
    | .error e => return .error e
  | none => return .ok (diffDotenvOnly dotenv_entries env_pairs)

def restoration : Option ActiveState → List EnvChange
  | some state => applyRestore state.prev
  | none => []

/-- What `refresh_inner` knows of the files before it decides. -/
structure Look where
  found : Option EnvFiles
  envrc_file : Option TrustCandidate
  dotenv_file : Option TrustCandidate
  blocked : Option TrustCandidate
  dotenv_entries : List (Text × Text)

def Look.files (look : Look) : List TrustCandidate :=
  look.envrc_file.toList ++ look.dotenv_file.toList

def currentDirFromStore : DenvM W Path := do
  let cwd := (← get).cwd
  if cwd.head? = some 0x2F then pure cwd
  else throw "denv requires an absolute shell working directory".toList

/-- The entries of `.env`, which is read only when no file is blocked. -/
def dotenvEntries (host : Host W) (files : List TrustCandidate)
    (blocked dotenv_file : Option TrustCandidate) : DenvM W (List (Text × Text)) :=
  match blocked, dotenv_file with
  | none, some file => do
    note (.used files)
    ofExcept (loadDotenvEntries host.utf8Error file.bytes)
  | _, _ => pure []

def lookAround (host : Host W) : DenvM W Look := do
  let cwd ← currentDirFromStore
  let found ← call (findEnvFiles host cwd)
  let envrc_file ← ofExcept (← call (candidate host (found.bind (·.envrc))))
  let dotenv_file ← ofExcept (← call (candidate host (found.bind (·.dotenv))))
  let files := envrc_file.toList ++ dotenv_file.toList
  note (.looked files)
  let blocked ← call (firstBlocked host (← get).allow files)
  let dotenv_entries ← dotenvEntries host files blocked dotenv_file
  return { found, envrc_file, dotenv_file, blocked, dotenv_entries }

/-- The early exits of `refresh_inner`. -/
def keeps (host : Host W) (force : Bool) (look : Look) (vars : Variables)
    (active : Option ActiveState) : StateM W Bool :=
  match look.found with
  | some found =>
    if !force && look.blocked.isNone then unchanged host found vars active
    else return false
  | none => return false

/-- The transition of a blocked project, or one whose evaluation failed. -/
def leaveDirty (host : Host W) (found : EnvFiles) (changes : List EnvChange) :
    DenvM W Transition := do
  let dir ← call (canonicalizeFallback host found.dir)
  return { changes := changes ++ dirtyState dir, record := .Clear }

/-- The transition into a project that may be used. -/
def enter (host : Host W) (look : Look) (found : EnvFiles) (changes : List EnvChange)
    (working : Variables) : DenvM W Transition := do
  note (.used look.files)
  match ← call (evalProject host found look.envrc_file look.dotenv_entries
      (working.envForCommandOs [])) with
  | .error _ => leaveDirty host found changes
  | .ok diff => do
    let prev := capturePrev diff working
    let dir ← call (canonicalizeFallback host found.dir)
    return {
      changes := changes ++ applyDiff diff ++ loadedState dir found
      record := .Save { dir, envrc_mtime := found.envrcMtime
                        dotenv_mtime := found.dotenvMtime, prev } }

/-- The part of `refresh_inner` behind the early exits. -/
def move (host : Host W) (look : Look) (active : Option ActiveState) (vars : Variables) :
    DenvM W Transition := do
  let changes := restoration active
  let working ← ofExcept (applyChanges vars changes)
  match look.found, look.blocked with
  | none, _ => return { changes := changes ++ clearRuntimeState, record := .Clear }
  | some found, some _ => leaveDirty host found changes
  | some found, none => enter host look found changes working

def refreshInner (host : Host W) (force : Bool) : DenvM W Transition := do
  let look ← lookAround host
  let m ← get
  if ← call (keeps host force look m.vars m.session.active) then
    return { changes := [], record := .Keep }
  else move host look m.session.active m.vars

/-! ## The active record -/

def ActiveError.text (host : Host W) : ActiveError → Text
  | .message text => text.toList
  | .unsupportedFormat header => "unsupported active format ".toList ++ host.debug header

inductive ActiveLoadError where
  | Unreadable (message : Text)
  | Malformed (message : Text)

def ActiveLoadError.intoMessage : ActiveLoadError → Text
  | Unreadable message | Malformed message => message

def activePath (data_dir : Path) (record_id : Text) : Path :=
  UnixPath.join data_dir (ShellBytes.ofText ("active_".toList ++ record_id))

def loadActive (host : Host W) (path : Path) :
    DenvM W (Except ActiveLoadError (Option ActiveState)) := do
  let malformed := fun (e : Text) =>
    ActiveLoadError.Malformed ("invalid active file ".toList ++ host.display path ++
      ": ".toList ++ e)
  match ← call host.readActiveFails with
  | some e =>
    return .error (.Unreadable ("failed to read active file ".toList ++ host.display path ++
      ": ".toList ++ e))
  | none =>
    match (← get).record with
    | none => return .ok none
    | some content =>
      match asUtf8Str content with
      | none => return .error (malformed (host.utf8Error content))
      | some content =>
        match parseActive content with
        | .ok state => return .ok (some state)
        | .error e => return .error (malformed (e.text host))

def saveActiveFile (host : Host W) (state : ActiveState) : DenvM W Unit := do
  match saveActive state with
  | .error e => throw (e.text host)
  | .ok text => do
    unlessFails [] (← call host.saveActiveFails)
    modify fun m => { m with record := some (ShellBytes.ofText text) }

def clearActive (host : Host W) : DenvM W Unit := do
  unlessFails "failed to remove active file: ".toList (← call host.clearActiveFails)
  modify fun m => { m with record := none }

def setActive (active : Option ActiveState) : DenvM W Unit :=
  modify fun m => { m with session := { m.session with active } }

/-- The first refresh of a session reads its record. -/
def loadOnce (host : Host W) (force : Bool) (path : Path) : DenvM W Unit := do
  if (← get).session.active_loaded then pure ()
  else
    match ← loadActive host path with
    | .ok active => do
      setActive active
      modify fun m => { m with session := { m.session with active_loaded := true } }
    | .error (.Malformed message) =>
      if force then do
        clearActive host
        setActive none
        modify fun m => { m with session := { m.session with active_loaded := true } }
      else throw message
    | .error e => throw e.intoMessage

/-- What happens to the record before the variables are published. -/
def updateRecord (host : Host W) : RecordUpdate → DenvM W Unit
  | .Keep => pure ()
  | .Clear => do
    clearActive host
    setActive none
  | .Save state => do
    saveActiveFile host state
    setActive (some state)

/-- The part of `refresh` behind the loading of the record. -/
def transit (host : Host W) (force : Bool) : DenvM W (List EnvChange) := do
  let transition ← refreshInner host force
  let candidate ← ofExcept (applyChanges (← get).vars transition.changes)
  updateRecord host transition.record
  modify fun m => { m with vars := candidate }
  return transition.changes

def refresh (host : Host W) (force : Bool) : DenvM W (List EnvChange) := do
  let data_dir ← ofExcept (← get).session.data_dir
  let record_id ← ofExcept (← get).session.record_id
  loadOnce host force (activePath data_dir record_id)
  transit host force

/-! ## The commands -/

def foundFiles (host : Host W) : DenvM W (List Path) := do
  let cwd ← currentDirFromStore
  match ← call (findEnvFiles host cwd) with
  | none => throw "no .envrc or .env found".toList
  | some found => return (found.envrc.toList ++ found.dotenv.toList).map (·.1)

def allowOne (host : Host W) (path : Path) : DenvM W Unit := do
  let file ← ofExcept (← call (readTrustedCandidate host path))
  let _ ← ofExcept (← get).session.data_dir
  allowFileIn host file

def denyOne (host : Host W) (path : Path) : DenvM W Unit := do
  let _ ← ofExcept (← get).session.data_dir
  denyFile host (← call (canonicalizeFallback host path))

def allowCurrentDir (host : Host W) : DenvM W (List EnvChange) := do
  (← foundFiles host).forM (allowOne host)
  refresh host true

def denyCurrentDir (host : Host W) : DenvM W (List EnvChange) := do
  (← foundFiles host).forM (denyOne host)
  refresh host true

def runCommand (host : Host W) (args : List Text) : DenvM W (List EnvChange) :=
  if args.head? = some "allow".toList then allowCurrentDir host
  else if args.head? = some "deny".toList then denyCurrentDir host
  else if args.head? = some "reload".toList then refresh host true
  else throw "usage: denv <allow|deny|reload>".toList

/-- `command`: the exit status. -/
def command (host : Host W) (args : List Text) (m : Machine W) : Int × Machine W :=
  match runCommand host args m with
  | .ok _ m => (0, m)
  | .error _ m => (1, m)

/-! ## A still world -/

/-- A host whose files never change and whose calls never fail for another reason than
that a file is missing. -/
def Host.still (files : List (Path × ShellBytes))
    (epsh : ShellBytes → (ShellBytes → Option ShellBytes) → Except Text Snapshot) : Host Unit where
  mtime path := return (files.lookup path).map fun _ => 1
  canonicalize path := return .ok path
  read path := return match files.lookup path with
    | some bytes => .ok bytes
    | none => .error "No such file or directory".toList
  readFails _ := return false
  createDir := return none
  write _ := return .done
  removeFails _ := return none
  tooLong _ := return false
  readActiveFails := return none
  saveActiveFails := return none
  clearActiveFails := return none
  bash _ _ _ := return .error "failed to run bash".toList
  epsh _ source _ environment := return epsh source environment
  display _ := []
  utf8Error _ := []
  debug text := text

/-- A session that has not refreshed yet, in this directory. -/
def Machine.fresh (cwd : Path) : Machine Unit where
  world := ()
  allow _ := none
  record := none
  session := { data_dir := .ok [0x2F], record_id := .ok [], active := none, active_loaded := false }
  cwd := cwd
  vars := Variables.newClean
  log := []

end Ish.Denv
