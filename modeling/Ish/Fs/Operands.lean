import Ish.Fs.Record

/-!
# The operands of an invocation

The model of the loop of `execute` in `crates/ish-fs/src/engine/mod.rs`. What the
file system, the user and the other threads answer while an operand has its turn
is given: how its transfer ends, whether the flags of its hardlink group are still
to be set, and whether setting them succeeds. Once an invocation is cancelled it
stays so. Of a planned operand only what the loop reads is kept; metrics and
descriptors are left out.
-/

namespace Ish.Fs

open Ish.Lib
open UnixPath (Path)

inductive Action where
  | Transfer
  | Replace
  | Merge
  | Skip
  | SameEntry
  deriving DecidableEq

structure PlannedOperand where
  source : Path
  destination : Path
  source_observed : Observation
  action : Action
  deriving DecidableEq

def PlannedOperand.identity (operand : PlannedOperand) : Identity := operand.source_observed.identity

inductive OperandState where
  | Planned
  | Skipped
  | SameEntry
  | Copied
  | Moved
  | FailedBeforePublication
  | DestinationPublishedSourceRetained
  | DestinationPartiallyPublished
  | SourcePartiallyRetired
  | SourceRemovedSyncFailed
  | Cancelled
  deriving DecidableEq

structure OperandOutcome where
  source : Path
  destination : Path
  state : OperandState
  deriving DecidableEq

structure Diagnostic where
  path : Path
  message : String
  deriving DecidableEq

structure Progress where
  discovered_files : Nat
  completed_files : Nat
  skipped_files : Nat
  failed_files : Nat
  logical_bytes_cloned : Nat
  bytes_streamed : Nat
  cloned_files : Nat
  native_copied_files : Nat
  buffered_copied_files : Nat
  deriving DecidableEq

inductive Event where
  | Progress (progress : Progress)
  | Operand (outcome : OperandOutcome)
  | Diagnostic (diagnostic : Diagnostic)
  deriving DecidableEq

inductive Completion where
  | Complete
  | Failed
  | InvalidRequest
  | Cancelled
  deriving DecidableEq

inductive CancelReason where
  | User
  | Output
  deriving DecidableEq

structure Failure where
  state : OperandState
  error : String
  deriving DecidableEq

/-! ## What the loop meets -/

/-- What a transfer reports on its way: never the end of an operand. -/
inductive Notice where
  | Progress (progress : Progress)
  | Diagnostic (diagnostic : Diagnostic)
  deriving DecidableEq

def Notice.event : Notice → Event
  | .Progress progress => .Progress progress
  | .Diagnostic diagnostic => .Diagnostic diagnostic

structure Transferred where
  result : Except Failure OperandState
  progress : Progress
  notices : List Notice

/-- The answers while one operand has its turn. The transfer is told how many members of the
hardlink group remain. -/
structure Answers where
  /-- The error of `checkpoint`. -/
  checkpoint : Option String
  transfer : Nat → Progress → Transferred
  /-- `has_pending_final_flags` -/
  pending_flags : Except String Bool
  /-- `finalize_hardlink_group` -/
  finalized : Except String Unit

/-- What an invocation does: an operand has ended, an event is emitted, the flags of a hardlink
group are set. -/
inductive Step where
  | Ended (index : Nat)
  | Emit (event : Event)
  | Finalize (identity : Identity)
  deriving DecidableEq

/-- The variables of the loop, and the steps so far. -/
structure Loop where
  /-- `hardlink_members` -/
  members : Identity → Option Nat
  outcomes : List (Option OperandState)
  ready : List Bool
  next_outcome : Nat
  completion : Completion
  progress : Progress
  steps : List Step

/-! ## Hardlink groups -/

/-- An operand that counts as a member of its hardlink group. -/
def PlannedOperand.counts (operand : PlannedOperand) : Bool :=
  !(operand.action = .Skip || operand.action = .SameEntry) &&
    (operand.identity.kind = .RegularFile || operand.identity.kind = .Symlink) &&
    1 < operand.source_observed.links

def countMember (members : Identity → Option Nat) (operand : PlannedOperand) :
    Identity → Option Nat :=
  if operand.counts then
    fun identity =>
      if identity = operand.identity then some ((members identity).getD 0 + 1) else members identity
  else members

def hardlink_members (operands : List PlannedOperand) : Identity → Option Nat :=
  operands.foldl countMember fun _ => none

namespace Loop

def hardlink_members_remaining (s : Loop) (identity : Identity) : Nat :=
  (s.members identity).getD 0

def consume_hardlink_member (s : Loop) (identity : Identity) : Nat × Loop :=
  match s.members identity with
  | none => (0, s)
  | some remaining =>
    (remaining - 1, { s with
      members := fun other => if other = identity then some (remaining - 1) else s.members other })

/-! ## One operand -/

def emit (s : Loop) (event : Event) : Loop := { s with steps := s.steps ++ [.Emit event] }

/-- `update` -/
def update (s : Loop) (change : Progress → Progress) : Loop :=
  let progress := change s.progress
  { s with progress, steps := s.steps ++ [.Emit (.Progress progress)] }

def execute_operand (s : Loop) (a : Answers) (operand : PlannedOperand) :
    Except Failure OperandState × Loop :=
  match a.checkpoint with
  | some error => (.error ⟨.FailedBeforePublication, error⟩, s)
  | none =>
    if operand.action = .Skip then
      (.ok .Skipped, s.update fun progress =>
        { progress with skipped_files := progress.skipped_files + 1 })
    else if operand.action = .SameEntry then (.ok .SameEntry, s)
    else
      let transferred := a.transfer (s.hardlink_members_remaining operand.identity) s.progress
      (transferred.result, { s with
        progress := transferred.progress
        steps := s.steps ++ transferred.notices.map fun notice => .Emit notice.event })

def diagnose (s : Loop) (operand : PlannedOperand) (message : String) : Loop :=
  { s with completion := .Failed }.emit (.Diagnostic ⟨operand.source, message⟩)

/-- The state of an operand that was executed. -/
def stateOf (s : Loop) (operand : PlannedOperand) (cancelled : Bool) :
    Except Failure OperandState → OperandState × Loop
  | .ok state => (state, s)
  | .error failure =>
    let s := s.update fun progress => { progress with failed_files := progress.failed_files + 1 }
    (if cancelled ∧ failure.state = .FailedBeforePublication then .Cancelled else failure.state,
      s.diagnose operand failure.error)

/-- `outcomes[index] = Some(state)` -/
def finish (s : Loop) (index : Nat) (state : OperandState) : Loop :=
  { s with outcomes := s.outcomes.set index (some state), steps := s.steps ++ [.Ended index] }

def makeReady (s : Loop) (index : Nat) : Loop := { s with ready := s.ready.set index true }

def readPending (s : Loop) (a : Answers) (operand : PlannedOperand) : Bool × Loop :=
  match a.pending_flags with
  | .ok pending => (pending, s)
  | .error message => (true, s.diagnose operand message)

/-- The operands up to `index` that share an identity and have a state. -/
def isSettled (s : Loop) (operands : List PlannedOperand) (identity : Identity) (index member : Nat) :
    Bool :=
  member ≤ index ∧ (operands[member]?).map (·.identity) = some identity ∧
    (s.outcomes[member]?.join).isSome

/-- The loops over the members of a group: their states change, and they are ready. -/
def settle (s : Loop) (operands : List PlannedOperand) (identity : Identity) (index : Nat)
    (change : OperandState → OperandState) : Loop :=
  { s with
    outcomes := s.outcomes.mapIdx fun member outcome =>
      if s.isSettled operands identity index member then outcome.map change else outcome
    ready := s.ready.mapIdx fun member ready =>
      if s.isSettled operands identity index member then true else ready }

/-- What is left of a state when the group is never finalized. -/
def unfinished : OperandState → OperandState
  | .Copied | .Moved | .DestinationPublishedSourceRetained => .DestinationPartiallyPublished
  | state => state

/-- What is left of a state when finalizing fails. -/
def unfinalized : OperandState → OperandState
  | .SourcePartiallyRetired | .SourceRemovedSyncFailed => .SourcePartiallyRetired
  | _ => .DestinationPartiallyPublished

def finalize (s : Loop) (a : Answers) (operands : List PlannedOperand) (operand : PlannedOperand)
    (index : Nat) : Loop :=
  let s : Loop := { s with steps := s.steps ++ [.Finalize operand.identity] }
  match a.finalized with
  | .ok () => s.settle operands operand.identity index id
  | .error message =>
    ((s.diagnose operand message).settle operands operand.identity index unfinalized).settle
      operands operand.identity index id

/-- The loop that emits the outcomes that are ready, in the order of the operands. What is ready
has an outcome. -/
def report (operands : List PlannedOperand) : Nat → Loop → Loop
  | 0, s => s
  | fuel + 1, s =>
    if s.ready[s.next_outcome]? = some true then
      match operands[s.next_outcome]?, s.outcomes[s.next_outcome]?.join with
      | some operand, some state =>
        report operands fuel
          { s.emit (.Operand ⟨operand.source, operand.destination, state⟩) with
            next_outcome := s.next_outcome + 1 }
      | _, _ => s
    else s

def cancelledTurn (operands : List PlannedOperand) (a : Answers) (index : Nat)
    (operand : PlannedOperand) (s : Loop) : Loop :=
  let s := (s.finish index .Cancelled).makeReady index
  let (remaining, s) := s.consume_hardlink_member operand.identity
  let (pending_flags, s) := s.readPending a operand
  let s :=
    if remaining = 0 ∧ pending_flags = true then s.settle operands operand.identity index unfinished
    else s
  s.report operands operands.length

def executedTurn (operands : List PlannedOperand) (a : Answers) (cancelled : Bool) (index : Nat)
    (operand : PlannedOperand) (s : Loop) : Loop :=
  let (result, s) := s.execute_operand a operand
  let (state, s) := s.stateOf operand cancelled result
  let (remaining, s) := (s.finish index state).consume_hardlink_member operand.identity
  let (pending_flags, s) := s.readPending a operand
  let s :=
    if pending_flags then
      if remaining = 0 then s.finalize a operands operand index else s
    else s.makeReady index
  let s := s.report operands operands.length
  s.emit (.Progress s.progress)

end Loop

/-! ## The loop -/

/-- When an invocation is cancelled, counted in half turns: an even one is the start of a turn, an
odd one its end. -/
abbrev CancelTime := Option Nat

def cancelledAt (cancel : CancelTime) (half : Nat) : Bool := cancel.any (· ≤ half)

/-- What an invocation meets. -/
structure Run where
  answers : Nat → Answers
  cancel : CancelTime
  /-- `cancellation.reason()` behind the loop. -/
  reason : Option CancelReason

def turn (operands : List PlannedOperand) (run : Run) (index : Nat) (operand : PlannedOperand)
    (s : Loop) : Loop :=
  if cancelledAt run.cancel (2 * index) then s.cancelledTurn operands (run.answers index) index operand
  else s.executedTurn operands (run.answers index) (cancelledAt run.cancel (2 * index + 1)) index operand

def turns (operands : List PlannedOperand) (run : Run) : Nat → List PlannedOperand → Loop → Loop
  | _, [], s => s
  | index, operand :: rest, s =>
    turns operands run (index + 1) rest (turn operands run index operand s)

def Loop.start (operands : List PlannedOperand) : Loop where
  members := hardlink_members operands
  outcomes := List.replicate operands.length none
  ready := List.replicate operands.length false
  next_outcome := 0
  completion := .Complete
  progress := ⟨0, 0, 0, 0, 0, 0, 0, 0, 0⟩
  steps := []

def Completion.after (completion : Completion) : Option CancelReason → Completion
  | some .User => .Cancelled
  | some .Output => .Failed
  | none => completion

structure Outcome where
  progress : Progress
  completion : Completion
  deriving DecidableEq

/-- `execute`, from the plan on. -/
def execute (operands : List PlannedOperand) (run : Run) : Outcome × List Step :=
  let s := turns operands run 0 operands (.start operands)
  (⟨s.progress, s.completion.after run.reason⟩, s.steps)

end Ish.Fs
