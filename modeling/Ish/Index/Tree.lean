import Ish.Lib.Forest
import Mathlib.Data.UInt
import Mathlib.Tactic.Cases

/-!
# The index of a scan

The model of `Tree` in `crates/fdu-core/src/lib.rs`: the nodes and their names in
two arenas, each node linked to its parent, to its first and last child and to
its next sibling. A node is known by its place in the arena. Modified times are
left out.
-/

namespace Ish.Index

open Ish.Lib.Forest

/-- `NodeId`, by its index. -/
abbrev NodeId := Nat

abbrev DirectoryToken := Nat

def u32Max : Nat := 2 ^ 32 - 1

/-- `NodeId::from_index` -/
def from_index (index : Nat) : Option NodeId :=
  if index ≤ u32Max ∧ index + 1 ≤ u32Max then some index else none

/-- `u32::try_from` -/
def u32_try_from (n : Nat) : Option Nat := if n ≤ u32Max then some n else none

/-- `u64::checked_add` -/
def checked_add (a b : UInt64) : Option UInt64 :=
  if a.toNat + b.toNat < 2 ^ 64 then some (a + b) else none

structure FileIdentity where
  device : UInt64
  inode : UInt64
  deriving DecidableEq

inductive EntryType where
  | Root
  | Directory
  | RegularFile
  | Symlink
  | Other
  deriving DecidableEq

inductive ExclusionReason where
  | MountBoundary
  | UnsupportedAlias
  deriving DecidableEq

inductive NodeState where
  | Scanning
  | Complete
  | Incomplete
  | Excluded (reason : ExclusionReason)
  | Stale
  | Tombstone
  deriving DecidableEq

inductive NodeStatus where
  | Scanning
  | Complete
  | Incomplete
  | Excluded (reason : ExclusionReason)
  | Stale
  deriving DecidableEq

/-- `NodeState::from` -/
def NodeStatus.into : NodeStatus → NodeState
  | .Scanning => .Scanning
  | .Complete => .Complete
  | .Incomplete => .Incomplete
  | .Excluded reason => .Excluded reason
  | .Stale => .Stale

/-- `Range<u32>` -/
structure Range where
  start : Nat
  stop : Nat
  deriving DecidableEq

/-- `bytes.get(range)` -/
def Range.get (range : Range) (bytes : List UInt8) : Option (List UInt8) :=
  if range.start ≤ range.stop ∧ range.stop ≤ bytes.length then
    some ((bytes.drop range.start).take (range.stop - range.start))
  else none

structure NodeRecord where
  parent : Option NodeId
  first_child : Option NodeId
  last_child : Option NodeId
  next_sibling : Option NodeId
  name : Range
  entry_type : EntryType
  identity : FileIdentity
  link_count : UInt64
  apparent_bytes : UInt64
  allocated_bytes : UInt64
  state : NodeState
  deriving DecidableEq

structure Tree where
  nodes : List NodeRecord
  names : List UInt8
  root : NodeId
  deriving DecidableEq

namespace Tree

def new (root_name : List UInt8) (identity : FileIdentity) (link_count : UInt64) : Option Tree := do
  let name_end ← u32_try_from root_name.length
  return {
    nodes := [{
      parent := none, first_child := none, last_child := none, next_sibling := none
      name := ⟨0, name_end⟩, entry_type := .Root, identity, link_count
      apparent_bytes := 0, allocated_bytes := 0, state := .Scanning }]
    names := root_name
    root := 0 }

def record (t : Tree) (id : NodeId) : Option NodeRecord := t.nodes[id]?

def name (t : Tree) (id : NodeId) : Option (List UInt8) := do
  let record ← t.record id
  record.name.get t.names

/-- `self.nodes[id.index()] = f(self.nodes[id.index()])` -/
def modify (t : Tree) (id : NodeId) (f : NodeRecord → NodeRecord) : Tree :=
  { t with nodes := t.nodes.modify id f }

def append (t : Tree) (parent : NodeId) (name : List UInt8) (entry_type : EntryType)
    (identity : FileIdentity) (link_count apparent_bytes allocated_bytes : UInt64)
    (state : NodeStatus) : Option (NodeId × Tree) := do
  let index := t.nodes.length
  let id ← from_index index
  let name_start ← u32_try_from t.names.length
  let name_length ← u32_try_from name.length
  let name_end ← u32_try_from (name_start + name_length)
  let parent_record ← t.record parent
  let record : NodeRecord := {
    parent := some parent, first_child := none, last_child := none, next_sibling := none
    name := ⟨name_start, name_end⟩, entry_type, identity, link_count, apparent_bytes
    allocated_bytes, state := state.into }
  let t := { t with names := t.names ++ name, nodes := t.nodes ++ [record] }
  let t := match parent_record.last_child with
    | some last => t.modify last fun record => { record with next_sibling := some id }
    | none => t.modify parent fun record => { record with first_child := some id }
  return (id, t.modify parent fun record => { record with last_child := some id })

def set_state (t : Tree) (id : NodeId) (state : NodeStatus) : Tree :=
  t.modify id fun record => { record with state := state.into }

/-- The loops that go from a node to the root and change each record on the way.
A node is behind its parent, so there are no more steps than nodes. -/
def walkUp (f : NodeRecord → NodeRecord) : Nat → Option NodeId → Tree → Tree
  | 0, _, t | _, none, t => t
  | fuel + 1, some node, t =>
    match t.record node with
    | none => t
    | some record => walkUp f fuel record.parent (t.modify node f)

/-- The first loop of `add_to_ancestors`; `none` where a record is missing. -/
def fitsUp (t : Tree) (apparent allocated : UInt64) : Nat → Option NodeId → Option Bool
  | 0, _ | _, none => some true
  | fuel + 1, some node =>
    match t.record node with
    | none => none
    | some record =>
      if (checked_add record.apparent_bytes apparent).isNone ||
          (checked_add record.allocated_bytes allocated).isNone then
        some false
      else t.fitsUp apparent allocated fuel record.parent

/-- A record to which bytes are added. -/
def grown (apparent allocated : UInt64) (record : NodeRecord) : NodeRecord :=
  { record with
    apparent_bytes := record.apparent_bytes + apparent
    allocated_bytes := record.allocated_bytes + allocated }

/-- A record whose bytes do not fit. -/
def overflowed (record : NodeRecord) : NodeRecord := { record with state := .Incomplete }

def add_to_ancestors (t : Tree) (id : NodeId) (apparent allocated : UInt64) : Bool × Tree :=
  match t.fitsUp apparent allocated t.nodes.length (some id) with
  | none => (false, t)
  | some true => (true, t.walkUp (grown apparent allocated) t.nodes.length (some id))
  | some false => (false, t.walkUp overflowed t.nodes.length (some id))

/-- What `mark_incomplete_to_root` makes of a record. -/
def incomplete (record : NodeRecord) : NodeRecord :=
  if record.state = .Scanning ∨ record.state = .Complete then
    { record with state := .Incomplete }
  else record

def mark_incomplete_to_root (t : Tree) (id : NodeId) : Tree :=
  t.walkUp incomplete t.nodes.length (some id)

def mark_scanning_incomplete (t : Tree) : Tree :=
  { t with
    nodes := t.nodes.map fun record =>
      if record.state = .Scanning then { record with state := .Incomplete } else record }

end Tree

end Ish.Index
