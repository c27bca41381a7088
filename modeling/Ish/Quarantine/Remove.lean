import Ish.Quarantine.World

/-!
# Removing one entry

The model of `remove`, `remove_after_publication` and `remove_with_publication`.
The closure of the source is cut where its two flags change: up to the capture,
up to the unlink, and what follows it. So the flags `captured` and `removed` of
a failure are known from the part that failed.
-/

namespace Ish.Quarantine

open Ish.Lib.EState (attempt)

inductive Boundary where
  | IntentPublished | Published | BeforeCapture | Captured | CaptureParentSynced
  | CaptureDirectorySynced | BeforeUnlink | Unlinked | RemovalDirectorySynced
  | BeforeParentSync | ParentSynced | IntentRemoved | IntentRemovalSynced | Restored
  deriving DecidableEq

/-- The caller's `authorize`, which may refuse, and change live names. -/
def authorize (_ : Boundary) : QuarantineM Unit := call

/-- `require_owner` -/
def requireOwner : QuarantineM Unit :=
  check "quarantine session belongs to another process"

/-- `directory_state(root)` -/
def rootState : QuarantineM Unit := call

/-- `Intent::parent`, of the recorded ancestry: the held parent, or an error. -/
def intentParent : QuarantineM Unit := check "recovery parent identity or mount changed"

/-- `Intent::parent`, and the comparison with the held parent. -/
def verifyParent (message : String) : QuarantineM Unit := do
  intentParent
  check message

/-- `Intent::encode`, whose checks are on names and lengths. -/
def encodeIntent (_ : Intent) : QuarantineM Unit := check "recovery record exceeds bound"

/-- The caller's `publish`, which exchanges live names. -/
def publishEntry : QuarantineM Unit := call

/-! ## The closure -/

/-- Up to the first `stat_at`: what there is to say without a capture. -/
def precheck (parent : Directory) (name : Name) (before : EntryIdentity) :
    QuarantineM (Option Removal) := do
  verifyParent "source parent identity or mount changed"
  match ← attempt (statLive parent name) with
  | .ok found => return if found ≠ before then some .Changed else none
  | .error (.os .NOENT) => return some .AlreadyAbsent
  | .error e => throw e

/-- The exchange of a replacement, between two checks. -/
def replacePublished (parent : Directory) (name : Name) (before : EntryIdentity) :
    QuarantineM Unit := do
  if (← statLive parent name) ≠ before then
    throw (.invalid "replacement source changed before publication")
  publishEntry
  authorize .Published

def Intent.isReplacement (intent : Intent) : Bool :=
  match intent.kind with
  | .Replacement _ => true
  | _ => false

/-- From the record to the capture. -/
def captureRecorded (parent : Directory) (intent : Intent) (before : EntryIdentity) (id : Nat) :
    QuarantineM Unit := do
  encodeIntent intent
  publish id intent
  authorize .IntentPublished
  if intent.isReplacement then replacePublished parent intent.name before
  authorize .BeforeCapture
  verifyParent "source parent identity or mount changed before capture"
  renameCapture parent intent.name id .NOREPLACE

/-- Whether the captured object is the expected one. -/
def checkCaptured (expected : EntryIdentity) (id : Nat) : QuarantineM Bool := do
  authorize .Captured
  sync
  authorize .CaptureParentSynced
  sync
  authorize .CaptureDirectorySynced
  return (← statEntry id) = expected

def putBack (parent : Directory) (name : Name) (id : Nat) : QuarantineM Unit := do
  intentParent
  restore parent name id

def retire (expected : EntryIdentity) (id : Nat) : QuarantineM Unit := do
  authorize .BeforeUnlink
  verifyParent "source parent identity or mount changed before removal"
  if (← statEntry id) ≠ expected then
    throw (.invalid "captured object changed before removal")
  unlinkEntry id expected.kind

def finishRemoval (id : Nat) : QuarantineM Unit := do
  authorize .Unlinked
  sync
  authorize .RemovalDirectorySynced
  authorize .BeforeParentSync
  sync
  authorize .ParentSynced
  unlinkIntent id
  authorize .IntentRemoved
  sync
  authorize .IntentRemovalSynced

/-- Up to the capture: what there is to say without one. -/
def captureEntry (parent : Directory) (intent : Intent) (before : EntryIdentity) (id : Nat) :
    QuarantineM (Option Removal) := do
  match ← precheck parent intent.name before with
  | some removal => return some removal
  | none =>
    captureRecorded parent intent before id
    return none

/-- Up to the unlink: an object that is not the expected one is put back. -/
def unlinkCaptured (parent : Directory) (name : Name) (expected : EntryIdentity) (id : Nat) :
    QuarantineM (Option Removal) := do
  if ← checkCaptured expected id then
    retire expected id
    return none
  else
    putBack parent name id
    return some .Changed

/-! ## The failure path -/

/-- `is_ok()` of a call. -/
def succeeds {α : Type} (x : QuarantineM α) : QuarantineM Bool := do
  match ← attempt x with
  | .ok _ => return true
  | .error _ => return false

/-- The restoration of a capture after a failure. -/
def restoreAfter (parent : Directory) (name : Name) (id : Nat) (error : IoError) :
    QuarantineM IoError := do
  let result ← attempt do
    intentParent
    restore parent name id
    match ← attempt (authorize .Restored) with
    | .ok () => pure ()
    | .error verification => throw (.verification verification)
  match result with
  | .ok () => return error
  | .error restoration => return .restoration error restoration

/-- Whether a live name still shows `before`. -/
def showsBefore (parent : Directory) (name : Name) (before : EntryIdentity) :
    QuarantineM Bool := do
  match ← attempt (statLive parent name) with
  | .ok found => return found = before
  | .error _ => return false

/-- Whether the record of an entry that was not captured is to be cleared. -/
def mayClear (parent : Directory) (intent : Intent) (before : EntryIdentity) (id : Nat) :
    QuarantineM Bool := do
  if intent.isReplacement then
    if ← showsBefore parent intent.name before then succeeds (statIntent id) else return false
  else succeeds (statIntent id)

def clearAfter (parent : Directory) (intent : Intent) (before : EntryIdentity) (id : Nat)
    (error : IoError) : QuarantineM IoError := do
  if ← mayClear parent intent before id then
    match ← attempt (clearRecord id) with
    | .ok () => return error
    | .error cleanup => return .intentCleanup error cleanup
  else return error

def entryName (id : Nat) : Name := (toString id ++ ".entry").toUTF8.toList
def intentName (id : Nat) : Name := (toString id ++ ".intent").toUTF8.toList
def pendingName (id : Nat) : Name := ("pending-" ++ toString id).toUTF8.toList

/-- What is left in the session, and where the error points. -/
def reportRetained (id : Nat) (error : IoError) : QuarantineM IoError := do
  let record_exists ← succeeds (statIntent id)
  let pending_exists ← succeeds (statPending id)
  if record_exists || pending_exists then
    requireRecovery
    let entry_exists ← succeeds (statEntry id)
    let location := if entry_exists then entryName id
      else if record_exists then intentName id else pendingName id
    return .retained location error
  else return error

def failRemoval (parent : Directory) (intent : Intent) (before : EntryIdentity) (id : Nat)
    (captured removed : Bool) (error : IoError) : QuarantineM Outcome := do
  let error := if error = .os NOTEMPTY then .notEmpty error else error
  let error ←
    if captured && !removed then restoreAfter parent intent.name id error
    else if !captured && !removed then clearAfter parent intent before id error
    else pure error
  let error ← reportRetained id error
  return .error { removed, error }

/-- The closure, and what its failure leads to. -/
def removeEntry (parent : Directory) (intent : Intent) (expected before : EntryIdentity)
    (id : Nat) : QuarantineM Outcome := do
  match ← attempt (captureEntry parent intent before id) with
  | .error error => failRemoval parent intent before id false false error
  | .ok (some removal) => return .ok removal
  | .ok none =>
    match ← attempt (unlinkCaptured parent intent.name expected id) with
    | .error error => failRemoval parent intent before id true false error
    | .ok (some removal) => return .ok removal
    | .ok none =>
      match ← attempt (finishRemoval id) with
      | .error error => failRemoval parent intent before id true true error
      | .ok () => return .ok .Removed

/-- `remove_with_publication`; `root` is the identity of the recovery root. -/
def removeWithPublication (root parent : Directory) (request : Retirement)
    (publication : Option Publication) : QuarantineM Outcome := do
  match ← attempt requireOwner with
  | .error error => return .error { removed := false, error }
  | .ok () =>
    let id ← allocate { index := 0, parent, retirement := request }
    match ← attempt rootState with
    | .error error => return .error { removed := false, error }
    | .ok () =>
      let before := match publication with
        | some publication => publication.source
        | none => request.expected
      let kind := match publication with
        | some publication => .Replacement publication
        | none => .Retirement
      removeEntry parent (request.intent root kind) request.expected before id

def remove (root parent : Directory) (request : Retirement) : QuarantineM Outcome :=
  removeWithPublication root parent request none

def removeAfterPublication (root parent : Directory) (request : Retirement)
    (publication : Publication) : QuarantineM Outcome :=
  removeWithPublication root parent request (some publication)

end Ish.Quarantine
