import Ish.Fs.Record

/-!
# The record spool

The model of `Records` in `crates/ish-fs/src/engine/records.rs`: an unlinked
file of records, one after the other, each with a node of a search tree between
its length and its body. The tree is built by the first lookup and lives in the
file; a record is named by its offset. Offsets and counts are `u64`, kept as
numbers with the checks of the source. The file operations themselves succeed.
-/

namespace Ish.Fs

open Ish.Lib
open EState (ensure attempt)
open UnixPath (Path)

/-- The bytes of the spool file and the position of its descriptor. -/
structure File where
  bytes : List UInt8
  position : Nat
  deriving DecidableEq

structure Records where
  file : File
  length : Nat
  record_count : Nat
  root : Nat
  indexed : Bool
  deriving DecidableEq

structure TreeNode where
  left : Nat
  right : Nat
  height : Nat
  deriving DecidableEq

abbrev Spooling (α : Type) := EStateM Invalid Records α

def NO_CHILD : Nat := 2 ^ 64 - 1
def TREE_NODE_BYTES : Nat := 17

/-- A node without children. -/
def TreeNode.single : TreeNode := ⟨NO_CHILD, NO_CHILD, 1⟩

/-- A node with another child on the given side. -/
def TreeNode.withChild (node : TreeNode) (right : Bool) (child : Nat) : TreeNode :=
  if right then { node with right := child } else { node with left := child }

def TreeNode.child (node : TreeNode) (right : Bool) : Nat :=
  if right then node.right else node.left

def Records.new : Records :=
  { file := ⟨[], 0⟩, length := 0, record_count := 0, root := NO_CHILD, indexed := false }

namespace Records

/-! ## The file -/

def seek (position : Nat) : Spooling Unit :=
  modify fun s => { s with file := { s.file with position } }

def readExact (count : Nat) : Spooling (List UInt8) := fun s =>
  if s.file.position + count ≤ s.file.bytes.length then
    .ok ((s.file.bytes.drop s.file.position).take count)
      { s with file := { s.file with position := s.file.position + count } }
  else .error "failed to fill whole buffer" s

/-- `File::write_all`: past the end of the file, what lies between is zero. -/
def writeAll (bytes : List UInt8) : Spooling Unit :=
  modify fun s =>
    let file := s.file
    { s with
      file :=
        { bytes := file.bytes.take file.position ++
            List.replicate (file.position - file.bytes.length) 0 ++ bytes ++
            file.bytes.drop (file.position + bytes.length)
          position := file.position + bytes.length } }

def readLength : Spooling Nat := do
  let bytes ← readExact 4
  ensure ((LittleEndian.toU32 bytes).toNat ≤ MAX_RECORD) "record exceeds decoder limit"
  pure (LittleEndian.toU32 bytes).toNat

/-! ## Nodes -/

def nodeBytes (node : TreeNode) : List UInt8 :=
  LittleEndian.bytes 8 node.left ++ LittleEndian.bytes 8 node.right ++ [UInt8.ofNat node.height]

def decodeNode (bytes : List UInt8) : TreeNode :=
  { left := LittleEndian.value (bytes.take 8)
    right := LittleEndian.value ((bytes.drop 8).take 8)
    height := LittleEndian.value (bytes.drop 16) }

def validChild (length child : Nat) : Bool := child = NO_CHILD ∨ child < length

def validNode (length : Nat) (node : TreeNode) : Bool :=
  node.height ≠ 0 ∧ node.height ≤ 128 ∧ validChild length node.left ∧ validChild length node.right

def readNode (offset : Nat) : Spooling TreeNode := do
  let s ← get
  ensure (offset < s.length) "record tree offset exceeds spool"
  ensure (offset + 4 < 2 ^ 64) "record tree offset overflow"
  seek (offset + 4)
  let bytes ← readExact TREE_NODE_BYTES
  ensure (validNode s.length (decodeNode bytes)) "invalid record path tree node"
  pure (decodeNode bytes)

def writeNode (offset : Nat) (node : TreeNode) : Spooling Unit := do
  ensure (offset + 4 < 2 ^ 64) "record tree offset overflow"
  seek (offset + 4)
  writeAll (nodeBytes node)

/-! ## Iteration

A cursor is an offset; each call returns where it leaves the cursor. -/

def next (cursor : Nat) : Spooling (Option Record × Nat) := do
  let s ← get
  if cursor = s.length then pure (none, cursor)
  else do
    ensure (cursor ≤ s.length) "record cursor exceeds spool"
    seek cursor
    let length ← readLength
    ensure (length + 8 + TREE_NODE_BYTES ≤ s.length - cursor) "truncated record"
    let bytes ← readExact TREE_NODE_BYTES
    ensure (validNode s.length (decodeNode bytes)) "invalid record path tree node"
    let bytes ← readExact length
    let again ← readLength
    ensure (again = length) "record length mismatch"
    let record ← ofExcept (decode bytes)
    pure (some record, cursor + (length + 8 + TREE_NODE_BYTES))

/-- `next(..)?.ok_or_else(|| invalid(missing))` -/
def nextPresent (missing : Invalid) (cursor : Nat) : Spooling (Record × Nat) := do
  let found ← next cursor
  match found.1 with
  | some record => pure (record, found.2)
  | none => throw missing

def previous (cursor : Nat) : Spooling (Option Record × Nat) := do
  let s ← get
  if cursor = 0 then pure (none, cursor)
  else do
    ensure (8 ≤ cursor ∧ cursor ≤ s.length) "invalid reverse cursor"
    seek (cursor - 4)
    let length ← readLength
    ensure (length + 8 + TREE_NODE_BYTES ≤ cursor) "truncated reverse record"
    let start := cursor - (length + 8 + TREE_NODE_BYTES)
    let found ← next start
    ensure (found.2 = cursor) "invalid reverse record length"
    pure (found.1, start)

/-- `end` -/
def finish : Spooling Nat := do
  let s ← get
  pure s.length

/-! ## The tree -/

def nodeHeight (offset : Nat) : Spooling Nat :=
  if offset = NO_CHILD then pure 0
  else do
    let node ← readNode offset
    pure node.height

def updateHeight (offset : Nat) : Spooling TreeNode := do
  let node ← readNode offset
  let left ← nodeHeight node.left
  let right ← nodeHeight node.right
  ensure (max left right + 1 < 256) "record path tree height overflow"
  let node := { node with height := max left right + 1 }
  writeNode offset node
  pure node

def balance (node : TreeNode) : Spooling Int := do
  let left ← nodeHeight node.left
  let right ← nodeHeight node.right
  pure ((left : Int) - right)

def rotateLeft (offset : Nat) : Spooling Nat := do
  let root ← readNode offset
  let pivot_offset := root.right
  ensure (pivot_offset ≠ NO_CHILD) "invalid left rotation"
  let pivot ← readNode pivot_offset
  writeNode offset { root with right := pivot.left }
  let _ ← updateHeight offset
  writeNode pivot_offset { pivot with left := offset }
  let _ ← updateHeight pivot_offset
  pure pivot_offset

def rotateRight (offset : Nat) : Spooling Nat := do
  let root ← readNode offset
  let pivot_offset := root.left
  ensure (pivot_offset ≠ NO_CHILD) "invalid right rotation"
  let pivot ← readNode pivot_offset
  writeNode offset { root with left := pivot.right }
  let _ ← updateHeight offset
  writeNode pivot_offset { pivot with right := offset }
  let _ ← updateHeight pivot_offset
  pure pivot_offset

/-- The inner rotation of `rebalance` at a left child. -/
def straightenLeft (offset : Nat) (node : TreeNode) : Spooling Unit := do
  let left ← readNode node.left
  let lean ← balance left
  if lean < 0 then do
    let new_left ← rotateLeft node.left
    let updated ← readNode offset
    writeNode offset { updated with left := new_left }
  else pure ()

/-- The inner rotation of `rebalance` at a right child. -/
def straightenRight (offset : Nat) (node : TreeNode) : Spooling Unit := do
  let right ← readNode node.right
  let lean ← balance right
  if lean > 0 then do
    let new_right ← rotateRight node.right
    let updated ← readNode offset
    writeNode offset { updated with right := new_right }
  else pure ()

def rebalance (offset : Nat) : Spooling Nat := do
  let node ← updateHeight offset
  let lean ← balance node
  if lean > 1 then do
    straightenLeft offset node
    rotateRight offset
  else if lean < -1 then do
    straightenRight offset node
    rotateLeft offset
  else pure offset

/-- The descent of `insert_path`, `room` being what is left of the 128 places:
the way from the root to the new node's parent, the parent first. -/
def descend (offset : Nat) (path : Path) :
    Nat → Nat → List (Nat × Bool) → Spooling (List (Nat × Bool))
  | 0, _, _ => throw "record path tree height exceeds limit"
  | room + 1, current, ancestors => do
    let node ← readNode current
    let found ← nextPresent "indexed record missing" current
    let right : Bool := UnixPath.order found.1.source path ≠ .gt
    if node.child right = NO_CHILD then do
      writeNode current (node.withChild right offset)
      pure ((current, right) :: ancestors)
    else descend offset path room (node.child right) ((current, right) :: ancestors)

/-- The way back up: every node is rebalanced, and its parent told. -/
def climb : List (Nat × Bool) → Spooling Unit
  | [] => pure ()
  | (current, _) :: [] => do
    let subtree ← rebalance current
    modify fun s => { s with root := subtree }
  | (current, _) :: (parent, right) :: rest => do
    let subtree ← rebalance current
    let node ← readNode parent
    writeNode parent (node.withChild right subtree)
    climb ((parent, right) :: rest)

def insertPath (offset : Nat) (path : Path) : Spooling Unit := do
  let s ← get
  if s.root = NO_CHILD then modify fun s => { s with root := offset }
  else do
    let ancestors ← descend offset path 128 s.root []
    climb ancestors

/-- The loop of `ensure_path_index`. A record takes more than one byte, so as
many rounds as there are bytes are enough. -/
def indexFrom : Nat → Nat → Spooling Nat
  | 0, cursor => pure cursor
  | rounds + 1, cursor => do
    let s ← get
    if cursor < s.length then do
      let found ← nextPresent "record missing while indexing" cursor
      writeNode cursor .single
      insertPath cursor found.1.source
      indexFrom rounds found.2
    else pure cursor

def ensurePathIndex : Spooling Unit := do
  let s ← get
  if s.indexed then pure ()
  else do
    modify fun s => { s with root := NO_CHILD }
    let cursor ← indexFrom s.length 0
    ensure (cursor = s.length) "record index ended between records"
    modify fun s => { s with indexed := true }

/-! ## Operations -/

/-- The loop of `find_entry`, `left` being `record_count` less the nodes
visited. -/
def findFrom (path : Path) :
    Nat → Nat → Option (Nat × Nat × Record) → Spooling (Option (Nat × Nat × Record))
  | left, current, found =>
    if current = NO_CHILD then pure found
    else match left with
      | 0 => throw "record path tree contains a cycle"
      | left + 1 => do
        let node ← readNode current
        let next ← nextPresent "indexed record missing" current
        match UnixPath.order next.1.source path with
        | .lt => findFrom path left node.right found
        | .eq => findFrom path left node.left (some (current, next.2, next.1))
        | .gt => findFrom path left node.left found

def findEntry (path : Path) : Spooling (Option (Nat × Nat × Record)) := do
  ensurePathIndex
  let s ← get
  findFrom path s.record_count s.root none

def find (path : Path) : Spooling (Option Record) := do
  let found ← findEntry path
  pure (found.map fun entry => entry.2.2)

/-- `find_entry(path)?.ok_or_else(|| invalid(missing))` -/
def findPresent (missing : Invalid) (path : Path) : Spooling (Nat × Nat × Record) := do
  let found ← findEntry path
  match found with
  | some entry => pure entry
  | none => throw missing

def outputFieldOffset (record : Record) : Spooling Nat := do
  let path_fields := 8 + record.source.length + record.destination.length
  let fixed_fields := 4 + TREE_NODE_BYTES + MAGIC.length + 34 + 40 + 36
  ensure (path_fields + fixed_fields < 2 ^ 64) "record offset overflow"
  pure (path_fields + fixed_fields)

def setOutput (path : Path) (output : Observation) : Spooling Unit := do
  let entry ← findPresent "output record not found" path
  ensure (UnixPath.components entry.2.2.source = UnixPath.components path)
    "output record path changed"
  let field ← outputFieldOffset entry.2.2
  seek (entry.1 + field)
  writeAll (encodeOutput (some output))

def setFinalFlags (path : Path) (flags : UInt32) : Spooling Unit := do
  let entry ← findPresent "final metadata record not found" path
  seek (entry.2.1 - 8)
  writeAll (LittleEndian.u32 flags)

/-- The insertion of a new record into the tree; when it fails, the tree is
given up. -/
def indexPushed (offset : Nat) (path : Path) : Spooling Unit := do
  let inserted ← attempt (insertPath offset path)
  match inserted with
  | .ok () => pure ()
  | .error error => do
    modify fun s => { s with indexed := false, root := NO_CHILD }
    throw error

def push (record : Record) : Spooling Unit := do
  let bytes ← ofExcept (encode record)
  let s ← get
  let finish := s.length + bytes.length + (8 + TREE_NODE_BYTES)
  ensure (finish < 2 ^ 64) "record spool size overflow"
  ensure (s.record_count + 1 < 2 ^ 64) "record count overflow"
  seek s.length
  ensure (bytes.length < 2 ^ 32) "record exceeds limit"
  writeAll (LittleEndian.u32 (UInt32.ofNat bytes.length))
  writeNode s.length .single
  writeAll bytes
  writeAll (LittleEndian.u32 (UInt32.ofNat bytes.length))
  modify fun t => { t with length := finish, record_count := s.record_count + 1 }
  if s.indexed then indexPushed s.length record.source else pure ()

end Records

end Ish.Fs
