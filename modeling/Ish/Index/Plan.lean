import Ish.Index.Shape

/-!
# Planning a deletion

The model of `create_plan` in `crates/fdu-delete/src/lib.rs`. The walks over a
subtree keep their frames on a stack; each goes over a node a bounded number of
times, and is given as many steps. `none` where these do not suffice, or where
the index breaks what `expect` says of it.
-/

namespace Ish.Index

structure DeletionPlan where
  tree : Tree
  roots : List NodeId
  targets : List NodeId
  apparent_bytes : UInt64
  allocated_bytes : UInt64
  deriving DecidableEq

structure Rejection where
  node : Option NodeId
  reason : String
  deriving DecidableEq

structure PlanError where
  rejected : List Rejection
  deriving DecidableEq

inductive WalkFrame where
  | Enter (id : NodeId)
  | Children (next : Option NodeId) (directories : Bool)
  | Exit (id : NodeId)
  deriving DecidableEq

/-- Why an entry in a state cannot be deleted. -/
def ownReason : NodeState → Option String
  | .Excluded .MountBoundary => some "mount boundary is protected"
  | .Excluded .UnsupportedAlias => some "unsupported directory alias is protected"
  | .Complete => none
  | .Scanning => some "scan is still in progress"
  | .Incomplete => some "scan is incomplete"
  | .Stale => some "entry totals are stale; rescan first"
  | .Tombstone => some "entry has already been removed from the index"

/-- Why a directory above an entry in a state cannot be deleted. -/
def subtreeReason : NodeState → Option String
  | .Complete => none
  | .Excluded .MountBoundary => some "subtree contains an excluded mount boundary"
  | .Excluded .UnsupportedAlias => some "subtree contains an unsupported directory alias"
  | .Scanning => some "subtree scan is incomplete"
  | .Incomplete => some "subtree contains scan errors"
  | .Stale => some "subtree totals are stale; rescan first"
  | .Tombstone => some "subtree changed during a deletion operation"

namespace Tree

/-- The loop of `has_selected_ancestor`. -/
def selectedAbove (t : Tree) (selected : List NodeId) : Nat → Option NodeId → Bool
  | 0, _ | _, none => false
  | fuel + 1, some ancestor =>
    if ancestor ∈ selected then true
    else t.selectedAbove selected fuel ((t.record ancestor).bind (·.parent))

def has_selected_ancestor (t : Tree) (selected : List NodeId) (id : NodeId) : Bool :=
  t.selectedAbove selected t.nodes.length ((t.record id).bind (·.parent))

/-- The loop of `ineligible_reason`. -/
def subtreeWalk (t : Tree) : Nat → List WalkFrame → Option (Option String)
  | 0, _ => none
  | fuel + 1, .Children none _ :: pending => t.subtreeWalk fuel pending
  | fuel + 1, .Children (some child) directories :: pending =>
    match t.record child with
    | none => some (some "directory index is invalid")
    | some record =>
      let pending := .Children record.next_sibling directories :: pending
      let pending :=
        if record.entry_type = .Directory then .Children record.first_child false :: pending
        else pending
      match subtreeReason record.state with
      | some reason => some (some reason)
      | none => t.subtreeWalk fuel pending
  | _ + 1, _ => some none

def ineligible_reason (t : Tree) (id : NodeId) (entry_type : EntryType) :
    Option (Option String) :=
  match t.record id with
  | none => some none
  | some record =>
    match ownReason record.state with
    | some reason => some (some reason)
    | none =>
      if entry_type ≠ .Directory then some none
      else t.subtreeWalk (2 * t.nodes.length + 2) [.Children record.first_child false]

/-- The loop of `append_postorder`. -/
def postorderWalk (t : Tree) : Nat → List WalkFrame → List NodeId → Option (List NodeId)
  | 0, _, _ => none
  | _ + 1, [], output => some output
  | fuel + 1, .Enter id :: stack, output =>
    match t.record id with
    | none => none
    | some record =>
      if record.entry_type = .Directory then
        t.postorderWalk fuel (.Children record.first_child false ::
          .Children record.first_child true :: .Exit id :: stack) output
      else t.postorderWalk fuel stack (output ++ [id])
  | fuel + 1, .Children (some child) directories :: stack, output =>
    match t.record child with
    | none => t.postorderWalk fuel stack output
    | some record =>
      let stack := .Children record.next_sibling directories :: stack
      if (record.entry_type = .Directory) = (directories = true) then
        t.postorderWalk fuel (.Enter child :: stack) output
      else t.postorderWalk fuel stack output
  | fuel + 1, .Children none _ :: stack, output => t.postorderWalk fuel stack output
  | fuel + 1, .Exit id :: stack, output => t.postorderWalk fuel stack (output ++ [id])

def append_postorder (t : Tree) (root : NodeId) (output : List NodeId) : Option (List NodeId) :=
  t.postorderWalk (6 * t.nodes.length + 1) [.Enter root] output

end Tree

/-- The selected nodes, each once. -/
def unique (selected : List NodeId) : List NodeId :=
  selected.foldl (fun unique id => if id ∈ unique then unique else unique ++ [id]) []

/-- A round of the loop of `create_plan` over the selected nodes. -/
def reject (t : Tree) (seen : List NodeId) (id : NodeId) : Option (Option Rejection) :=
  match t.record id with
  | none => some (some ⟨some id, "absent from the index"⟩)
  | some record =>
    if id = t.root ∨ record.entry_type = .Root then
      some (some ⟨some id, "the scan root is protected"⟩)
    else if t.has_selected_ancestor seen id then
      some (some ⟨some id, "already covered by a selected parent directory"⟩)
    else (t.ineligible_reason id record.entry_type).map fun reason =>
      reason.map fun reason => ⟨some id, reason⟩

def overflow (what : String) : PlanError :=
  ⟨[⟨none, "selected " ++ what ++ " byte total exceeds u64"⟩]⟩

/-- The last loop of `create_plan`. -/
def collect (t : Tree) : List NodeId → DeletionPlan → Option (Except PlanError DeletionPlan)
  | [], plan => some (.ok plan)
  | root :: roots, plan => do
    let record ← t.record root
    let some apparent_bytes := checked_add plan.apparent_bytes record.apparent_bytes
      | return .error (overflow "apparent")
    let some allocated_bytes := checked_add plan.allocated_bytes record.allocated_bytes
      | return .error (overflow "allocated")
    let targets ← t.append_postorder root plan.targets
    collect t roots { plan with apparent_bytes, allocated_bytes, targets }

def create_plan (t : Tree) (selected : List NodeId) : Option (Except PlanError DeletionPlan) := do
  let none_selected : List Rejection :=
    if selected.isEmpty then [⟨none, "no entries are selected"⟩] else []
  let unique := unique selected
  let refused ← unique.mapM (reject t unique)
  let root ← t.record t.root
  let root_incomplete : List Rejection :=
    if !unique.isEmpty && root.state ≠ .Complete then [⟨none, "root scan is not complete"⟩] else []
  let rejected := none_selected ++ refused.reduceOption ++ root_incomplete
  if !rejected.isEmpty then
    return .error ⟨rejected⟩
  collect t unique ⟨t, unique, [], 0, 0⟩

end Ish.Index
