import Ish.Quarantine.Remove

/-!
# Removing the entries of one directory

The model of `remove_batch`, `restore_captured_batch` and
`abandon_batch_entries`. A loop body of the source reads and writes the outcome
slot of its own entry only, so a body here maps the entry and its slot, and
`forEntries` is the loop.
-/

namespace Ish.Quarantine

open Ish.Lib.EState (attempt)

structure BatchEntry where
  index : Nat
  intent : Intent
  /-- Names the capture, the record and the pending record. -/
  id : Nat
  expected : EntryIdentity
  published : Bool
  captured : Bool
  unlinked : Bool

/-- One slot for each request. -/
abbrev Slots := List (Option Outcome)

def batchFailure (error : IoError) : Outcome := .error { removed := false, error }

def unsyncedRemoval (error : IoError) : Outcome :=
  .error { removed := true, error := .unsynced error }

def batchUnfinishedOutcomes (slots : Slots) : List Outcome :=
  slots.map fun slot => slot.getD (batchFailure (.invalid "batch entry was not attempted"))

/-- `fill_unsolved`, of slots that are all empty. -/
def fillUnsolved (requests : List Retirement) (error : IoError) : List Outcome :=
  requests.map fun _ => batchFailure error

def appendCleanup (error : IoError) : Option IoError → IoError
  | some cleanup => .cleanup error cleanup
  | none => error

/-- A part of the batch, on the entries and the slots. -/
abbrev Phase := List BatchEntry → Slots → QuarantineM (List BatchEntry × Slots)

/-- One phase after another. -/
def Phase.andThen (first second : Phase) : Phase := fun entries slots => do
  let (entries, slots) ← first entries slots
  second entries slots

abbrev Body := BatchEntry → Option Outcome → QuarantineM (BatchEntry × Option Outcome)

/-- `for entry in &mut prepared`, with what the loop carries along. -/
def foldEntries {σ : Type}
    (body : σ → BatchEntry → Option Outcome → QuarantineM (σ × BatchEntry × Option Outcome)) :
    σ → List BatchEntry → Slots → QuarantineM (σ × List BatchEntry × Slots)
  | acc, [], slots => return (acc, [], slots)
  | acc, entry :: entries, slots => do
    let (acc, entry', slot) ← body acc entry (slots.getD entry.index none)
    let (acc, entries', slots') ← foldEntries body acc entries (slots.set entry.index slot)
    return (acc, entry' :: entries', slots')

/-- A loop that carries nothing along. -/
def forEntries (body : Body) : Phase := fun entries slots => do
  let (_, entries, slots) ← foldEntries
    (fun (_ : Unit) entry slot => do
      let (entry, slot) ← body entry slot
      return ((), entry, slot))
    () entries slots
  return (entries, slots)

/-- Every entry for which `failed` holds gets the outcome. -/
def settleWhere (failed : BatchEntry → Option Outcome → Bool) (outcome : Outcome) : Body :=
  fun entry slot => return (entry, if failed entry slot then some outcome else slot)

/-! ## Cleaning up before the capture -/

/-- One entry of `abandon_batch_entries`. -/
def abandonEntry (trouble : Option IoError) (entry : BatchEntry) (slot : Option Outcome) :
    QuarantineM (Option IoError × BatchEntry × Option Outcome) := do
  let _ ← attempt (unlinkPending entry.id)
  if entry.published then
    match ← attempt (unlinkIntent entry.id) with
    | .ok () => return (trouble, entry, slot)
    | .error (.os .NOENT) => return (trouble, entry, slot)
    | .error error => return (trouble.or (some error), entry, slot)
  else return (trouble, entry, slot)

/-- The end of `abandon_batch_entries`. -/
def abandonTrouble (trouble : Option IoError) : QuarantineM (Option IoError) := do
  match ← attempt sync with
  | .ok () =>
    if trouble.isSome then requireRecovery
    return trouble
  | .error error =>
    requireRecovery
    return trouble.or (some error)

/-- `abandon_batch_entries`, which leaves the entries and the slots as they are. -/
def abandonBatchEntries (entries : List BatchEntry) (slots : Slots) :
    QuarantineM (Option IoError × List BatchEntry × Slots) := do
  let (trouble, entries, slots) ← foldEntries abandonEntry none entries slots
  return (← abandonTrouble trouble, entries, slots)

/-- Giving up before the capture. -/
def abandonAll (failed : BatchEntry → Bool) (error : IoError) : Phase := fun prepared slots => do
  let (cleanup, prepared, slots) ← abandonBatchEntries prepared slots
  forEntries
    (settleWhere (fun entry _ => failed entry) (batchFailure (appendCleanup error cleanup)))
    prepared slots

/-! ## The phases -/

/-- Writing the record of one request, under its capture number: the prepared
entry, or its outcome. -/
def writeEntry (root : Directory) (index : Nat) (request : Retirement) (id : Nat) :
    QuarantineM (Option BatchEntry × Option Outcome) := do
  let intent := request.intent root .Retirement
  match ← attempt (encodeIntent intent) with
  | .error error => return (none, some (batchFailure error))
  | .ok () =>
    -- `write_pending`, then `finish_record`
    match ← attempt (do writePending id intent; sync) with
    | .error error =>
      let _ ← attempt (unlinkPending id)
      return (none, some (batchFailure error))
    | .ok () =>
      return (some { index, intent, id, expected := request.expected
                     published := false, captured := false, unlinked := false }, none)

def prepareEntry (root parent : Directory) (index : Nat) (request : Retirement) :
    QuarantineM (Option BatchEntry × Option Outcome) := do
  match ← attempt (statLive parent request.name) with
  | .error (.os .NOENT) => return (none, some (.ok .AlreadyAbsent))
  | .error error => return (none, some (batchFailure error))
  | .ok found =>
    if found ≠ request.expected then return (none, some (.ok .Changed))
    else
      let id ← allocate { index, parent, retirement := request }
      writeEntry root index request id

def prepareEntries (root parent : Directory) : Nat → List Retirement →
    QuarantineM (List BatchEntry × Slots)
  | _, [] => return ([], [])
  | index, request :: requests => do
    let (entry, slot) ← prepareEntry root parent index request
    let (entries, slots) ← prepareEntries root parent (index + 1) requests
    return (entry.toList ++ entries, slot :: slots)

def publishEntryRecord : Body := fun entry slot => do
  match ← attempt (renamePending entry.id .NOREPLACE) with
  | .ok () => return ({ entry with published := true }, slot)
  | .error error =>
    if ← succeeds (statIntent entry.id) then return ({ entry with published := true }, slot)
    else
      let _ ← attempt (unlinkPending entry.id)
      return (entry, some (batchFailure error))

def captureBatchEntry (parent : Directory) : Body := fun entry slot => do
  if !entry.published then return (entry, slot)
  else
    match ← attempt (renameCapture parent entry.intent.name entry.id .NOREPLACE) with
    | .ok () => return ({ entry with captured := true }, slot)
    | .error (.os .NOENT) => return (entry, some (.ok .AlreadyAbsent))
    | .error error =>
      if ← succeeds (statEntry entry.id) then return ({ entry with captured := true }, slot)
      else return (entry, some (batchFailure error))

/-- The records of an entry that was not captured. -/
def cleanupEntry : Body := fun entry slot => do
  if entry.captured then return (entry, slot)
  else
    if entry.published then
      let _ ← attempt (unlinkIntent entry.id)
    let _ ← attempt (unlinkPending entry.id)
    return (entry, slot)

/-- One entry of `restore_captured_batch`; the first failure is told to all that
follow. -/
def restoreCapturedEntry (parent : Directory) (error : IoError)
    (cleanup_error : Option IoError) (entry : BatchEntry) (slot : Option Outcome) :
    QuarantineM (Option IoError × BatchEntry × Option Outcome) := do
  if !entry.captured then return (cleanup_error, entry, slot)
  else
    match ← attempt (restore parent entry.intent.name entry.id) with
    | .ok () =>
      return (cleanup_error, { entry with captured := false },
        some (batchFailure (appendCleanup error cleanup_error)))
    | .error restoration =>
      requireRecovery
      let cleanup_error := cleanup_error.or (some restoration)
      return (cleanup_error, entry, some (batchFailure (appendCleanup error cleanup_error)))

def restoreCapturedBatch (parent : Directory) (error : IoError) : Phase := fun prepared slots => do
  let (_, prepared, slots) ← foldEntries (restoreCapturedEntry parent error) none prepared slots
  return (prepared, slots)

/-- Verifying one captured object. When it is not the expected one it is put
back; when that fails too, its flag stays set. -/
def verifyEntry (parent : Directory) : Body := fun entry slot => do
  if !entry.captured then return (entry, slot)
  else
    let verified ← attempt (statEntry entry.id)
    if verified = .ok entry.expected then return (entry, slot)
    else
      let error := match verified with
        | .ok _ => .invalid "captured object changed after it was moved"
        | .error error => error
      match ← attempt (restore parent entry.intent.name entry.id) with
      | .ok () => return ({ entry with captured := false }, some (.ok .Changed))
      | .error restoration =>
        requireRecovery
        note entry.id .unrestored
        return (entry, some (batchFailure (appendCleanup error (some restoration))))

def unlinkBatchEntry (parent : Directory) : Body := fun entry slot => do
  if !entry.captured then return (entry, slot)
  else
    note entry.id .attempted
    match ← attempt (unlinkEntry entry.id entry.expected.kind) with
    | .ok () => return ({ entry with unlinked := true }, slot)
    | .error (.os .NOENT) => return ({ entry with unlinked := true }, slot)
    | .error error =>
      match ← attempt (restore parent entry.intent.name entry.id) with
      | .ok () => return ({ entry with captured := false }, some (batchFailure error))
      | .error restoration =>
        requireRecovery
        return (entry, some (batchFailure (appendCleanup error (some restoration))))

/-- The record of an unlinked entry. -/
def retireRecord : Body := fun entry slot => do
  if !entry.unlinked then return (entry, slot)
  else
    match ← attempt (unlinkIntent entry.id) with
    | .ok () => return (entry, slot)
    | .error (.os .NOENT) => return (entry, slot)
    | .error error => return (entry, some (.error { removed := true, error }))

/-- The outcome of the unlinked entries whose slots are still empty. -/
def settleUnlinked (outcome : Outcome) : Body :=
  settleWhere (fun entry slot => entry.unlinked && slot.isNone) outcome

/-! ## The batch -/

/-- After the records of the unlinked entries. -/
def settleBatch : Phase := fun prepared slots => do
  match ← attempt sync with
  | .ok () => forEntries (settleUnlinked (.ok .Removed)) prepared slots
  | .error error =>
    Phase.andThen (forEntries (settleUnlinked (unsyncedRemoval error)))
      (forEntries (settleUnlinked (.ok .Removed))) prepared slots

/-- After the unlinks: the directories, the records, and what is left to say. -/
def finishBatch : Phase := fun prepared slots =>
  if prepared.all (!·.unlinked) then return (prepared, slots)
  else do
    match ← attempt (do sync; sync) with
    | .error error =>
      requireRecovery
      forEntries (settleWhere (fun entry _ => entry.unlinked) (unsyncedRemoval error))
        prepared slots
    | .ok () => Phase.andThen (forEntries retireRecord) settleBatch prepared slots

/-- After the captured objects were verified. -/
def unlinkVerified (parent : Directory) : Phase := fun prepared slots => do
  match ← attempt (authorize .BeforeUnlink) with
  | .error error => restoreCapturedBatch parent error prepared slots
  | .ok () => Phase.andThen (forEntries (unlinkBatchEntry parent)) finishBatch prepared slots

/-- After the objects were captured. -/
def verifyCaptured (parent : Directory) : Phase := fun prepared slots => do
  match ← attempt (do sync; sync) with
  | .error error => restoreCapturedBatch parent error prepared slots
  | .ok () =>
    Phase.andThen (forEntries (verifyEntry parent)) (unlinkVerified parent) prepared slots

/-- After the records of what was not captured are cleared. -/
def continueCaptured (parent : Directory) : Phase := fun prepared slots =>
  if prepared.all (!·.captured) then do
    let _ ← attempt sync
    return (prepared, slots)
  else verifyCaptured parent prepared slots

/-- After the capture was authorized. -/
def captureBatch (parent : Directory) : Phase := fun prepared slots => do
  match ← attempt (do
      authorize .BeforeCapture
      verifyParent "source parent identity or mount changed") with
  | .error error => abandonAll (·.published) error prepared slots
  | .ok () =>
    Phase.andThen (forEntries (captureBatchEntry parent))
      (Phase.andThen (forEntries cleanupEntry) (continueCaptured parent)) prepared slots

/-- After the records were published. -/
def authorizeCapture (parent : Directory) : Phase := fun prepared slots => do
  match ← attempt sync with
  | .error error => abandonAll (·.published) error prepared slots
  | .ok () =>
    match ← attempt (authorize .IntentPublished) with
    | .error error => abandonAll (·.published) error prepared slots
    | .ok () => captureBatch parent prepared slots

/-- After the records were published, if any was. -/
def continuePublished (parent : Directory) : Phase := fun prepared slots =>
  if prepared.all (!·.published) then return (prepared, slots)
  else authorizeCapture parent prepared slots

/-- After the pending records were written. -/
def publishBatch (parent : Directory) : Phase := fun prepared slots => do
  -- `sync_records`
  match ← attempt sync with
  | .error error => abandonAll (fun _ => true) error prepared slots
  | .ok () =>
    Phase.andThen (forEntries publishEntryRecord) (continuePublished parent) prepared slots

/-- All requests have the ancestry of the first. -/
def requireAncestry : List Retirement → QuarantineM Unit
  | [] => pure ()
  | request :: requests =>
    if requests.any (fun other => other.parents ≠ request.parents) then
      throw (.invalid "batch entries must share one directory ancestry")
    else pure ()

/-- The checks in front of a batch. -/
def precheckBatch (requests : List Retirement) : QuarantineM Unit := do
  requireOwner
  requireAncestry requests
  rootState
  check "recovery root mount changed"
  verifyParent "source parent identity or mount changed"

def removeBatch (root parent : Directory) (requests : List Retirement) :
    QuarantineM (List Outcome) := do
  if requests.isEmpty then return []
  else
    match ← attempt (precheckBatch requests) with
    | .error error => return fillUnsolved requests error
    | .ok () =>
      let (prepared, slots) ← prepareEntries root parent 0 requests
      if prepared.isEmpty then return batchUnfinishedOutcomes slots
      else
        let (_, slots) ← publishBatch parent prepared slots
        return batchUnfinishedOutcomes slots

end Ish.Quarantine
