import Ish.Fs.Records
import Mathlib.Logic.Function.Basic

/-!
# The layout of the spool

A spool seen from above: the records in push order, and a tree node for each
offset. The file is their layout, and each access of the code is a read or an
update of one node, of one field or of the end.
-/

namespace Ish.Fs

open Ish.Lib List
open EState (Does)
open UnixPath (Path)

/-- What a store stands for. -/
structure Spool where
  node : Nat → TreeNode
  records : List Record
  root : Nat
  indexed : Bool

/-- The records the file gives back as they are. -/
structure Record.Kept (record : Record) : Prop where
  fits : record.Fits
  storable : record.Storable
  stored : record.stored = record

/-! ## Offsets -/

def recordSize (record : Record) : Nat := (body record).length + (8 + TREE_NODE_BYTES)

def spoolSize : List Record → Nat
  | [] => 0
  | record :: records => recordSize record + spoolSize records

/-- The record at an offset of a list that starts at `start`. -/
def recordFrom : Nat → List Record → Nat → Option Record
  | _, [], _ => none
  | start, record :: records, offset =>
    if offset = start then some record
    else recordFrom (start + recordSize record) records offset

def recordAt (records : List Record) (offset : Nat) : Option Record := recordFrom 0 records offset

def offsetsFrom : Nat → List Record → List Nat
  | _, [] => []
  | start, record :: records => start :: offsetsFrom (start + recordSize record) records

def offsets (records : List Record) : List Nat := offsetsFrom 0 records

variable (records more : List Record)

@[simp] theorem spoolSize_append :
    spoolSize (records ++ more) = spoolSize records + spoolSize more := by
  induction records with
  | nil => simp [spoolSize]
  | cons record records ih =>
    simp only [cons_append, spoolSize, ih]
    omega

@[simp] theorem spoolSize_cons (record : Record) (records : List Record) :
    spoolSize (record :: records) = recordSize record + spoolSize records := rfl

@[simp] theorem spoolSize_nil : spoolSize [] = 0 := rfl

theorem recordSize_ge (record : Record) : 25 ≤ recordSize record := by
  rw [recordSize, TREE_NODE_BYTES]
  omega

theorem length_le_spoolSize (records : List Record) : 25 * records.length ≤ spoolSize records := by
  induction records with
  | nil => rfl
  | cons record records ih =>
    have hsize := recordSize_ge record
    rw [length_cons, spoolSize_cons]
    omega

theorem recordFrom_append (start : Nat) (before : List Record) (record : Record)
    (after : List Record) :
    recordFrom start (before ++ record :: after) (start + spoolSize before) = some record := by
  induction before generalizing start with
  | nil => simp [recordFrom]
  | cons first before ih =>
    have hsize := recordSize_ge first
    have hne : start + (recordSize first + spoolSize before) ≠ start := by omega
    rw [cons_append, spoolSize_cons, recordFrom, if_neg hne, ← Nat.add_assoc]
    exact ih _

variable {records : List Record}

theorem recordFrom_eq_some
    (h : recordFrom start records offset = some record) :
    ∃ before after, records = before ++ record :: after ∧ offset = start + spoolSize before := by
  induction records generalizing start with
  | nil => simp [recordFrom] at h
  | cons first records ih =>
    rw [recordFrom] at h
    split at h
    · next heq =>
        cases h
        exact ⟨[], records, rfl, heq⟩
    · obtain ⟨before, after, hrecords, hoffset⟩ := ih h
      refine ⟨first :: before, after, by rw [hrecords, cons_append], ?_⟩
      rw [hoffset, spoolSize_cons]
      omega

theorem recordAt_append (before : List Record) (record : Record) (after : List Record) :
    recordAt (before ++ record :: after) (spoolSize before) = some record := by
  have h := recordFrom_append 0 before record after
  rwa [Nat.zero_add] at h

theorem recordAt_eq_some :
    recordAt records offset = some record ↔
      ∃ before after, records = before ++ record :: after ∧ offset = spoolSize before := by
  constructor
  · intro h
    obtain ⟨before, after, hrecords, hoffset⟩ := recordFrom_eq_some h
    exact ⟨before, after, hrecords, by omega⟩
  · rintro ⟨before, after, rfl, rfl⟩
    exact recordAt_append before record after

theorem recordAt_lt (h : recordAt records offset = some record) :
    offset + recordSize record ≤ spoolSize records := by
  obtain ⟨before, after, rfl, rfl⟩ := recordAt_eq_some.mp h
  rw [spoolSize_append, spoolSize_cons]
  omega

theorem recordAt_push
    (h : recordAt records offset = some record) (more : List Record) :
    recordAt (records ++ more) offset = some record := by
  obtain ⟨before, after, rfl, rfl⟩ := recordAt_eq_some.mp h
  rw [append_assoc]
  exact recordAt_append before record (after ++ more)

theorem mem_offsetsFrom :
    offset ∈ offsetsFrom start records ↔ ∃ record, recordFrom start records offset = some record := by
  induction records generalizing start with
  | nil => simp [offsetsFrom, recordFrom]
  | cons first records ih =>
    rw [offsetsFrom, mem_cons, ih, recordFrom]
    by_cases heq : offset = start
    · simp [heq]
    · simp [heq]

theorem mem_offsets :
    offset ∈ offsets records ↔ ∃ record, recordAt records offset = some record :=
  mem_offsetsFrom

theorem offsetsFrom_append (start : Nat) :
    offsetsFrom start (records ++ more) =
      offsetsFrom start records ++ offsetsFrom (start + spoolSize records) more := by
  induction records generalizing start with
  | nil => rfl
  | cons record records ih =>
    rw [cons_append, offsetsFrom, offsetsFrom, ih, spoolSize_cons, Nat.add_assoc,
      cons_append]

theorem offsets_append :
    offsets (records ++ more) = offsets records ++ offsetsFrom (spoolSize records) more := by
  rw [offsets, offsetsFrom_append, Nat.zero_add]
  rfl

theorem offsets_update (h : recordSize updated = recordSize record)
    (before after : List Record) :
    offsets (before ++ updated :: after) = offsets (before ++ record :: after) := by
  rw [offsets_append, offsets_append, offsetsFrom, offsetsFrom, h]

theorem recordSize_stored (record : Record) : recordSize record.stored = recordSize record := by
  rw [recordSize, recordSize, body_stored]

/-! ## The file -/

def frame (node : TreeNode) (record : Record) : List UInt8 :=
  LittleEndian.u32 (UInt32.ofNat (body record).length) ++ (Records.nodeBytes node ++
    (body record ++ LittleEndian.u32 (UInt32.ofNat (body record).length)))

/-- The bytes of the records, the first of them at `start`. -/
def layout (node : Nat → TreeNode) : Nat → List Record → List UInt8
  | _, [] => []
  | start, record :: records =>
    frame (node start) record ++ layout node (start + recordSize record) records

@[simp] theorem length_nodeBytes (node : TreeNode) :
    (Records.nodeBytes node).length = TREE_NODE_BYTES := by
  simp [Records.nodeBytes, TREE_NODE_BYTES]

@[simp] theorem length_frame (node : TreeNode) (record : Record) :
    (frame node record).length = recordSize record := by
  simp [frame, recordSize]
  omega

theorem layout_append (node : Nat → TreeNode) (start : Nat) :
    layout node start (records ++ more) =
      layout node start records ++ layout node (start + spoolSize records) more := by
  induction records generalizing start with
  | nil => rfl
  | cons record records ih =>
    rw [cons_append, layout, layout, ih, append_assoc, spoolSize_cons, Nat.add_assoc]

@[simp] theorem length_layout (node : Nat → TreeNode) (start : Nat) (records : List Record) :
    (layout node start records).length = spoolSize records := by
  induction records generalizing start with
  | nil => rfl
  | cons record records ih =>
    rw [layout, length_append, length_frame, ih, spoolSize_cons]

/-- Nodes elsewhere do not show. -/
theorem layout_congr
    (h : ∀ offset, start ≤ offset → offset < start + spoolSize records →
      node offset = node' offset) : layout node start records = layout node' start records := by
  induction records generalizing start with
  | nil => rfl
  | cons record records ih =>
    have hsize := recordSize_ge record
    rw [spoolSize_cons] at h
    rw [layout, layout, h start (Nat.le_refl _) (by omega),
      ih fun offset hle hlt => h offset (by omega) (by omega)]

theorem layout_split (node : Nat → TreeNode) (before : List Record) (record : Record)
    (after : List Record) :
    layout node 0 (before ++ record :: after) =
      layout node 0 before ++ (frame (node (spoolSize before)) record ++
        layout node (spoolSize before + recordSize record) after) := by
  rw [layout_append, Nat.zero_add]
  rfl

/-! ## Nodes -/

/-- A node the code accepts. -/
def Good (size : Nat) (node : TreeNode) : Prop := Records.validNode size node = true

theorem good_iff : Good size node ↔
    node.height ≠ 0 ∧ node.height ≤ 128 ∧ (node.left = NO_CHILD ∨ node.left < size) ∧
      (node.right = NO_CHILD ∨ node.right < size) := by
  simp [Good, Records.validNode, Records.validChild]

theorem decodeNode_nodeBytes (hsize : size ≤ 2 ^ 64)
    (h : Good size node) : Records.decodeNode (Records.nodeBytes node) = node := by
  obtain ⟨-, hheight, hleft, hright⟩ := good_iff.mp h
  have hwide : ∀ child, child = NO_CHILD ∨ child < size → child % 256 ^ 8 = child := by
    intro child hchild
    apply Nat.mod_eq_of_lt
    rcases hchild with rfl | hlt
    · decide
    · exact Nat.lt_of_lt_of_le hlt hsize
  have hlow : node.height % 256 = node.height := Nat.mod_eq_of_lt (by omega)
  have hfirst : (Records.nodeBytes node).take 8 = LittleEndian.bytes 8 node.left := by
    rw [Records.nodeBytes, append_assoc]
    exact take_left' (LittleEndian.length_bytes 8 _)
  have hrest : (Records.nodeBytes node).drop 8 =
      LittleEndian.bytes 8 node.right ++ [UInt8.ofNat node.height] := by
    rw [Records.nodeBytes, append_assoc]
    exact drop_left' (LittleEndian.length_bytes 8 _)
  have hlast : (Records.nodeBytes node).drop 16 = [UInt8.ofNat node.height] := by
    rw [Records.nodeBytes]
    exact drop_left' (by simp)
  rw [Records.decodeNode, hfirst, hrest, hlast,
    take_left' (LittleEndian.length_bytes 8 _), LittleEndian.value_bytes,
    LittleEndian.value_bytes, hwide _ hleft, hwide _ hright]
  simp [LittleEndian.value, hlow]

end Ish.Fs
