import Ish.Index.Tree
import Ish.Lib.EState

/-!
# Building the index

The model of `build_index`, `finish_directory` and `apply_batch` in
`src/rmrf.rs`: what `receiver` yields is a list of what each `recv_timeout`
returns. `EStateM` keeps the changes made before an error, as `&mut` does. The
foreground is left out but for the error a progress report may end in; batches
are not recycled.
-/

namespace Ish.Index

structure ScanEntry where
  parent : DirectoryToken
  name : Range
  directory_token : Option DirectoryToken
  entry_type : EntryType
  identity : FileIdentity
  link_count : UInt64
  apparent_bytes : UInt64
  allocated_bytes : UInt64
  state : NodeStatus
  deriving DecidableEq

structure EntryBatch where
  entries : List ScanEntry
  names : List UInt8
  deriving DecidableEq

inductive ScanEvent where
  | Started (root_name : List UInt8) (identity : FileIdentity) (link_count : UInt64)
  | Entries (batch : EntryBatch)
  | DirectoryFinished (directory : DirectoryToken) (complete : Bool)
  | DirectoriesFinished (directories : List (DirectoryToken × Bool))
  | DirectoryExcluded (directory : DirectoryToken) (reason : ExclusionReason)
  | DirectoryFailed (directory : DirectoryToken) (message : String)
  | Failed (message : String)
  | Cancelled
  | Finished
  deriving DecidableEq

/-- What `build_index` and `apply_batch` change. -/
structure TokenTree where
  tree : Tree
  token_nodes : List (Option NodeId)
  deriving DecidableEq

namespace TokenTree

/-- `token_nodes.get(directory.0 as usize).copied().flatten()` -/
def node (x : TokenTree) (directory : DirectoryToken) : Option NodeId :=
  (x.token_nodes[directory]?).join

/-- `token_nodes[token.0 as usize] = Some(id)`, behind a `resize` where it is short. -/
def set_token (x : TokenTree) (token : DirectoryToken) (id : NodeId) : TokenTree :=
  let grown := x.token_nodes ++ List.replicate (token + 1 - x.token_nodes.length) none
  { x with token_nodes := grown.set token (some id) }

def finish_directory (x : TokenTree) (directory : DirectoryToken) (complete : Bool) : TokenTree :=
  match x.node directory with
  | none => x
  | some node =>
    let state := (x.tree.record node).map (·.state)
    if complete then
      if state = some .Scanning then { x with tree := x.tree.set_state node .Complete } else x
    else { x with tree := x.tree.mark_incomplete_to_root node }

/-! ## Batches -/

structure Run where
  parent : NodeId
  apparent : UInt64
  allocated : UInt64
  fits : Bool
  problem : Bool
  deriving DecidableEq

def Run.new (parent : NodeId) : Run := ⟨parent, 0, 0, true, false⟩

/-- The closure `finish` of `apply_batch`. -/
def finish (x : TokenTree) (run : Run) : TokenTree :=
  let t := if run.problem then x.tree.mark_incomplete_to_root run.parent else x.tree
  let t := match run.fits, t.add_to_ancestors run.parent run.apparent run.allocated with
    | true, (true, t) => t
    | true, (false, t) => t.mark_incomplete_to_root run.parent
    | false, _ => t.mark_incomplete_to_root run.parent
  { x with tree := t }

/-- The last statement of a round of `apply_batch`. -/
def Run.add (run : Run) (entry : ScanEntry) : Run :=
  match entry.state with
  | .Complete =>
    if entry.entry_type ≠ .Directory then
      match checked_add run.apparent entry.apparent_bytes,
        checked_add run.allocated entry.allocated_bytes with
      | some apparent, some allocated => { run with apparent, allocated }
      | _, _ => { run with fits := false }
    else run
  | .Incomplete | .Excluded _ | .Scanning | .Stale => { run with problem := true }

/-- The entry becomes a node below `parent`. -/
def insert (names : List UInt8) (entry : ScanEntry) (parent : NodeId) :
    EStateM String TokenTree Unit := do
  let some name := entry.name.get names
    | throw "scanner sent an invalid filename range"
  let x ← get
  let some (id, tree) := x.tree.append parent name entry.entry_type entry.identity
      entry.link_count entry.apparent_bytes entry.allocated_bytes entry.state
    | throw "index exhausted the supported number of entries"
  set { x with tree }
  match entry.directory_token with
  | some token => modify (·.set_token token id)
  | none => pure ()

/-- The run an entry below `parent` goes to; the one before it is finished first. -/
def enter (run : Option Run) (parent : NodeId) : EStateM String TokenTree Run :=
  match run with
  | some current =>
    if current.parent ≠ parent then do
      modify (·.finish current)
      return .new parent
    else return current
  | none => return .new parent

/-- A round of the loop of `apply_batch`. -/
def applyEntry (names : List UInt8) (run : Option Run) (entry : ScanEntry) :
    EStateM String TokenTree Run := do
  let x ← get
  let some parent := x.node entry.parent
    | throw "scanner sent entries for an unknown directory"
  let current ← enter run parent
  insert names entry parent
  return current.add entry

def applyEntries (names : List UInt8) : List ScanEntry → Option Run → EStateM String TokenTree Unit
  | [], none => return ()
  | [], some run => modify (·.finish run)
  | entry :: entries, run => do
    let current ← applyEntry names run entry
    applyEntries names entries (some current)

def apply_batch (batch : EntryBatch) : EStateM String TokenTree Unit :=
  applyEntries batch.names batch.entries none

end TokenTree

/-! ## Events -/

/-- The variables of `build_index`. -/
structure Building where
  index : TokenTree
  fatal : Option String
  deriving DecidableEq

namespace Building

/-- `fatal.get_or_insert(message)` -/
def fail (b : Building) (message : String) : Building :=
  { b with fatal := some (b.fatal.getD message) }

def mark_incomplete_to_root (b : Building) (node : NodeId) : Building :=
  { b with index := { b.index with tree := b.index.tree.mark_incomplete_to_root node } }

def finish_directory (b : Building) (directory : DirectoryToken × Bool) : Building :=
  { b with index := b.index.finish_directory directory.1 directory.2 }

/-- `if let Err(error) = apply_batch(..)` -/
def apply_batch (b : Building) (batch : EntryBatch) : Building :=
  match TokenTree.apply_batch batch b.index with
  | .ok () index => { b with index }
  | .error message index => { b with index }.fail message

/-- The error of a progress report, if it ends in one. -/
def report (b : Building) : Option String → Building
  | none => b
  | some error => b.fail error

/-- The arms of the loop of `build_index` but for `Finished`. -/
def handle (b : Building) (event : ScanEvent) (progress_error : Option String) : Building :=
  match event with
  | .Started _ identity _ =>
    if some identity ≠ (b.index.tree.record b.index.tree.root).map (·.identity) then
      (b.mark_incomplete_to_root b.index.tree.root).fail
        "scan root identity changed after it was opened"
    else b
  | .Entries batch => (b.report progress_error).apply_batch batch
  | .DirectoryFinished directory complete => b.finish_directory (directory, complete)
  | .DirectoriesFinished directories => directories.foldl finish_directory b
  | .DirectoryExcluded directory reason =>
    match b.index.node directory with
    | none => b
    | some node =>
      let tree := b.index.tree.set_state node (.Excluded reason)
      let tree := match (tree.record node).bind (·.parent) with
        | some parent => tree.mark_incomplete_to_root parent
        | none => tree
      { b with index := { b.index with tree } }
  | .DirectoryFailed directory _ =>
    match b.index.node directory with
    | some node => b.mark_incomplete_to_root node
    | none =>
      (b.mark_incomplete_to_root b.index.tree.root).fail "scan error in an unknown directory"
  | .Failed message =>
    (b.fail ("scan could not continue: " ++ message)).mark_incomplete_to_root
      b.index.tree.root
  | .Cancelled =>
    let b := b.fail "scan cancelled"
    { b with index := { b.index with tree := b.index.tree.mark_scanning_incomplete } }
  | .Finished => b

end Building

/-- What a `recv_timeout` returns, an event with the error of its progress report. -/
inductive Received where
  | event (event : ScanEvent) (progress_error : Option String)
  | Timeout
  | Disconnected
  deriving DecidableEq

/-- The loop of `build_index`; `none` while it waits. -/
def receive : List Received → Building → Option Building
  | [], _ => none
  | .event .Finished _ :: _, b => some b
  | .event event progress_error :: received, b => receive received (b.handle event progress_error)
  | .Timeout :: received, b => receive received b
  | .Disconnected :: _, b => some (b.fail "scanner stopped without finishing")

structure RootAnchor where
  name : List UInt8
  identity : FileIdentity
  link_count : UInt64

/-- `build_index`, of what is received, and whether the scan's thread ended well. -/
def build_index (root : RootAnchor) (received : List Received) (joined : Bool) :
    Option (Except String Tree) := do
  let some tree := Tree.new root.name root.identity root.link_count
    | return .error "root path exceeds index limits"
  let b ← receive received ⟨⟨tree, [some tree.root]⟩, none⟩
  if !joined then
    return .error "scanner worker terminated unexpectedly"
  if let some message := b.fatal then
    return .error message
  let tree := b.index.tree
  if (tree.record tree.root).any (·.state = .Scanning) then
    return .ok (tree.set_state tree.root .Complete)
  return .ok tree

end Ish.Index
