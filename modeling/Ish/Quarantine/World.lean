import Ish.Lib.EState

/-!
# The directories of a quarantine session

The model of what `crates/fdu-posix/src/quarantine.rs` reads and changes: the
live names of the parent directories, and for each capture number the files of
the session directory (the captured object, the intent record, the pending
record). A call is one turn: first other processes change any live names, then
the call may fail, without an effect. The session directory has mode 0700 and
its root is locked, so its names are the session's own.

A rename or an unlink reports a missing or an existing name only when it is so;
any other failure may come at any time.
-/

namespace Ish.Quarantine


/-! ## Objects and records -/

structure FileIdentity where
  device : UInt64
  inode : UInt64
  deriving DecidableEq

inductive EntryType where
  | Root | Directory | RegularFile | Symlink | Other
  deriving DecidableEq

structure EntryIdentity where
  file : FileIdentity
  kind : EntryType
  deriving DecidableEq

abbrev Name := List UInt8

structure Ancestor where
  name : Name
  identity : FileIdentity
  deriving DecidableEq

structure Publication where
  source : EntryIdentity
  destination_parent : FileIdentity
  destination_name : Name
  deriving DecidableEq

inductive RecordKind where
  | Retirement
  | Stage
  | Replacement (publication : Publication)
  deriving DecidableEq

structure Intent where
  root : FileIdentity
  parents : List Ancestor
  name : Name
  expected : Option EntryIdentity
  kind : RecordKind
  deriving DecidableEq

structure Retirement where
  parents : List Ancestor
  name : Name
  expected : EntryIdentity
  deriving DecidableEq

/-- The record of a request. -/
def Retirement.intent (request : Retirement) (root : FileIdentity) (kind : RecordKind) : Intent :=
  { root, parents := request.parents, name := request.name
    expected := some request.expected, kind }

/-- The file of a record, `none` while it is being written. -/
abbrev Record := Option Intent

/-! ## Errors -/

inductive Errno where
  | NOENT
  | EXIST
  | code (n : Nat)
  deriving DecidableEq

def NOTEMPTY : Errno := .code 39
def NOTDIR : Errno := .code 20
def ISDIR : Errno := .code 21

/-- `io::Error`: an error of a call, a message, or an error that was given more
text by the code it passed through. -/
inductive IoError where
  | os (errno : Errno)
  | invalid (message : String)
  | notEmpty (error : IoError)
  | cleanup (error cleanup : IoError)
  | intentCleanup (error cleanup : IoError)
  | restoration (error restoration : IoError)
  | verification (error : IoError)
  | unsynced (error : IoError)
  | retained (location : Name) (error : IoError)
  deriving DecidableEq

inductive Removal where
  | Removed | AlreadyAbsent | Changed
  deriving DecidableEq

structure RemovalError where
  removed : Bool
  error : IoError
  deriving DecidableEq

abbrev Outcome := Except RemovalError Removal

/-! ## The world -/

/-- A directory of live names, by its identity. -/
abbrev Directory := FileIdentity

abbrev LiveNames := Directory → Name → Option EntryIdentity

/-- What happens at one call: what other processes make of the live names, and
the failure of the call. -/
structure Turn where
  others : LiveNames → LiveNames
  failure : Option Nat

/-- The request a capture number was given to: its place among the requests of
the operation, and the directory of its name. -/
structure Request where
  index : Nat
  parent : Directory
  retirement : Retirement
  deriving DecidableEq

/-- What the session has done to the object of one capture number. -/
inductive Effect where
  | captured (parent : Directory) (name : Name) (object : EntryIdentity)
  | checked (object : EntryIdentity)
  | unlinked (object : EntryIdentity)
  | restored (parent : Directory) (name : Name) (object : EntryIdentity)
      (replaced : Option EntryIdentity)
  /-- An object failed its check in a batch, and could not be put back. -/
  | unrestored
  /-- A batch comes to the unlink of its object. -/
  | attempted
  deriving DecidableEq

/-- The files of one capture number, and two fields that no code reads: the
request it was given to, and what was done, latest first. -/
structure Capture where
  entry : Option EntryIdentity
  intent : Option Record
  pending : Option Record
  request : Option Request
  log : List Effect
  deriving DecidableEq

def Capture.blank : Capture :=
  { entry := none, intent := none, pending := none, request := none, log := [] }

structure World where
  live : LiveNames
  captures : Nat → Capture
  next : Nat
  recovery_required : Bool
  turns : Nat → Turn
  clock : Nat

/-- A session that has just started. -/
def World.start (live : LiveNames) (turns : Nat → Turn) (next : Nat) : World :=
  { live, captures := fun _ => .blank, next, recovery_required := false, turns, clock := 0 }

def World.setCapture (world : World) (id : Nat) (capture : Capture) : World :=
  { world with captures := fun other => if other = id then capture else world.captures other }

def World.setLive (world : World) (parent : Directory) (name : Name)
    (object : Option EntryIdentity) : World :=
  { world with live := fun directory other =>
      if directory = parent ∧ other = name then object else world.live directory other }

abbrev QuarantineM := EStateM IoError World

/-! ## Calls -/

/-- The others act. -/
def World.turn (world : World) : World :=
  { world with
    clock := world.clock + 1
    live := (world.turns world.clock).others world.live }

/-- One call: the others act, then it may fail. -/
def call : QuarantineM Unit := fun world =>
  match (world.turns world.clock).failure with
  | some n => .error (.os (.code n)) world.turn
  | none => .ok () world.turn

/-- A check whose answer is left open: a failed call, or the message. -/
def check (message : String) : QuarantineM Unit := fun world =>
  match call world with
  | .error (.os (.code 0)) world => .error (.invalid message) world
  | result => result

def sync : QuarantineM Unit := call

/-- The part of a call that is about the files of one capture number. -/
def onCapture {α : Type} (id : Nat) (f : Capture → Except IoError (α × Capture)) :
    QuarantineM α := fun world =>
  match f (world.captures id) with
  | .ok (a, capture) => .ok a (world.setCapture id capture)
  | .error e => .error e world

def note (id : Nat) (effect : Effect) : QuarantineM Unit :=
  onCapture id fun capture => .ok ((), { capture with log := effect :: capture.log })

def orNoent {α : Type} : Option α → Except IoError α
  | some a => .ok a
  | none => .error (.os .NOENT)

/-- `stat_at` and `entry_identity`, of a live name. -/
def statLive (parent : Directory) (name : Name) : QuarantineM EntryIdentity := do
  call
  match orNoent ((← get).live parent name) with
  | .ok object => return object
  | .error error => throw error

/-- `stat_at` and `entry_identity`, of a captured object. -/
def statEntry (id : Nat) : QuarantineM EntryIdentity := do
  call
  onCapture id fun capture => do
    let object ← orNoent capture.entry
    return (object, { capture with log := .checked object :: capture.log })

def statIntent (id : Nat) : QuarantineM Unit := do
  call
  onCapture id fun capture => do
    let _ ← orNoent capture.intent
    return ((), capture)

def statPending (id : Nat) : QuarantineM Unit := do
  call
  onCapture id fun capture => do
    let _ ← orNoent capture.pending
    return ((), capture)

inductive RenameFlags where
  | empty | NOREPLACE
  deriving DecidableEq

/-- Whether `NOREPLACE` lets a rename onto `target` go on. -/
def allowTarget {α : Type} (flags : RenameFlags) (target : Option α) : Except IoError Unit :=
  if flags = .NOREPLACE ∧ target.isSome then .error (.os .EXIST) else .ok ()

def renamePending (id : Nat) (flags : RenameFlags) : QuarantineM Unit := do
  call
  onCapture id fun capture => do
    let record ← orNoent capture.pending
    allowTarget flags capture.intent
    return ((), { capture with pending := none, intent := some record })

def renameCapture (parent : Directory) (name : Name) (id : Nat) (flags : RenameFlags) :
    QuarantineM Unit := do
  call
  let found := (← get).live parent name
  onCapture id fun capture => do
    let object ← orNoent found
    allowTarget flags capture.entry
    return ((), { capture with
      entry := some object, log := .captured parent name object :: capture.log })
  modify fun world => world.setLive parent name none

def renameRestore (id : Nat) (parent : Directory) (name : Name) (flags : RenameFlags) :
    QuarantineM Unit := do
  call
  let replaced := (← get).live parent name
  let object ← onCapture id fun capture => do
    let object ← orNoent capture.entry
    allowTarget flags replaced
    return (object, { capture with
      entry := none, log := .restored parent name object replaced :: capture.log })
  modify fun world => world.setLive parent name (some object)

/-- `REMOVEDIR` is for directories, and no other flag is. -/
def allowKind (expected found : EntryType) : Except IoError Unit :=
  if expected = .Directory ∧ found ≠ .Directory then .error (.os NOTDIR)
  else if expected ≠ .Directory ∧ found = .Directory then .error (.os ISDIR)
  else .ok ()

/-- `unlinkat` of a captured object, with the flags of its expected kind. -/
def unlinkEntry (id : Nat) (expected : EntryType) : QuarantineM Unit := do
  call
  onCapture id fun capture => do
    let object ← orNoent capture.entry
    allowKind expected object.kind
    return ((), { capture with entry := none, log := .unlinked object :: capture.log })

def unlinkIntent (id : Nat) : QuarantineM Unit := do
  call
  onCapture id fun capture => do
    let _ ← orNoent capture.intent
    return ((), { capture with intent := none })

def unlinkPending (id : Nat) : QuarantineM Unit := do
  call
  onCapture id fun capture => do
    let _ ← orNoent capture.pending
    return ((), { capture with pending := none })

/-- `next.fetch_add(1)`, for a request. -/
def allocate (request : Request) : QuarantineM Nat := fun world =>
  .ok world.next ({ world with next := world.next + 1 }.setCapture world.next
    { world.captures world.next with request := some request })

def requireRecovery : QuarantineM Unit :=
  modify fun world => { world with recovery_required := true }

/-! ## Records -/

/-- `write_pending`: the new file, its mode, and its bytes. -/
def writePending (id : Nat) (intent : Intent) : QuarantineM Unit := do
  call
  onCapture id fun capture => do
    allowTarget .NOREPLACE capture.pending
    return ((), { capture with pending := some none })
  call
  call
  onCapture id fun capture => .ok ((), { capture with pending := some (some intent) })

def publish (id : Nat) (intent : Intent) : QuarantineM Unit := do
  writePending id intent
  sync
  renamePending id .NOREPLACE
  sync

def clearRecord (id : Nat) : QuarantineM Unit := do
  unlinkIntent id
  sync

def restore (parent : Directory) (name : Name) (id : Nat) : QuarantineM Unit := do
  renameRestore id parent name .NOREPLACE
  sync
  sync
  clearRecord id

end Ish.Quarantine
