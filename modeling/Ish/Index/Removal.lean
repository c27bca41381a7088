import Ish.Index.Shape
import Mathlib.Data.Set.Card

/-!
# Removing a subtree

The model of `materialize_path`, `Children` and `tombstone_subtree` in
`crates/fdu-core/src/lib.rs`. A node is removed by its state: its record stays,
and so do its links. The loops go up or along the nodes of the arena, and are
given as many steps. The nodes an index has fit in 32 bits, so that counting
them does not saturate.
-/

namespace Ish.Index

open Ish.Lib.Forest

namespace Tree

/-- The loop of `materialize_path`. -/
def pathUp (t : Tree) : Nat → Option NodeId → List (List UInt8) → Option (List (List UInt8))
  | _, none, names => some names.reverse
  | 0, some _, _ => none
  | fuel + 1, some node, names => do
    let record ← t.record node
    if node ≠ t.root then
      let name ← t.name node
      t.pathUp fuel record.parent (names ++ [name])
    else t.pathUp fuel record.parent names

def materialize_path (t : Tree) (id : NodeId) : Option (List (List UInt8)) :=
  t.pathUp t.nodes.length (some id) []

/-- What `Children` yields from a node on. -/
def childrenFrom (t : Tree) : Nat → Option NodeId → List NodeId
  | 0, _ | _, none => []
  | fuel + 1, some id =>
    match t.record id with
    | none => []
    | some record =>
      if record.state ≠ .Tombstone then id :: t.childrenFrom fuel record.next_sibling
      else t.childrenFrom fuel record.next_sibling

def children (t : Tree) (id : NodeId) : List NodeId :=
  t.childrenFrom t.nodes.length ((t.record id).bind (·.first_child))

/-- The loop of `next_sibling_after_subtree`. -/
def nextAfter (t : Tree) (root : NodeId) : Nat → NodeId → Option NodeId
  | 0, _ => none
  | fuel + 1, current =>
    if current = root then none
    else match t.record current with
      | none => none
      | some record =>
        match record.next_sibling with
        | some sibling => some sibling
        | none => record.parent.bind (t.nextAfter root fuel)

def next_sibling_after_subtree (t : Tree) (node root : NodeId) : Option NodeId :=
  t.nextAfter root t.nodes.length node

/-- The loop of `tombstone_subtree` over the nodes above; `none` where the bytes to take away
are not there. -/
def lineage (t : Tree) (apparent allocated : UInt64) : Nat → Option NodeId → Option (List NodeId)
  | _, none => some []
  | 0, some _ => none
  | fuel + 1, some node => do
    let record ← t.record node
    if record.apparent_bytes < apparent ∨ record.allocated_bytes < allocated then none
    else (node :: ·) <$> t.lineage apparent allocated fuel record.parent

/-- The loop of `tombstone_subtree` over the children. -/
def allTombstoned (t : Tree) : Nat → Option NodeId → Option Bool
  | _, none => some true
  | 0, some _ => none
  | fuel + 1, some child => do
    let record ← t.record child
    if record.state ≠ .Tombstone then some false
    else t.allTombstoned fuel record.next_sibling

def tombstoned (record : NodeRecord) : NodeRecord := { record with state := .Tombstone }

/-- The loop of `tombstone_subtree` over the nodes below `id`, which counts those it marks. -/
def tombstoneWalk (id : NodeId) (all_children_tombstoned : Bool) :
    Nat → Option NodeId → Tree → Nat → Option Nat × Tree
  | 0, _, t, _ => (none, t)
  | _ + 1, none, t, count => (some count, t)
  | fuel + 1, some node, t, count =>
    match t.record node with
    | none => (none, t)
    | some record =>
      if record.state = .Tombstone then
        tombstoneWalk id all_children_tombstoned fuel (t.next_sibling_after_subtree node id) t
          count
      else
        let next :=
          if node = id ∧ all_children_tombstoned = true then none
          else match record.first_child with
            | some child => some child
            | none => t.next_sibling_after_subtree node id
        tombstoneWalk id all_children_tombstoned fuel next (t.modify node tombstoned) (count + 1)

/-- A record that bytes are taken from. -/
def shrunk (apparent allocated : UInt64) (record : NodeRecord) : NodeRecord :=
  { record with
    apparent_bytes := record.apparent_bytes - apparent
    allocated_bytes := record.allocated_bytes - allocated }

/-- The last loop of `tombstone_subtree`. -/
def shrinkAll (t : Tree) (apparent allocated : UInt64) (nodes : List NodeId) : Tree :=
  nodes.foldl (fun t node => t.modify node (shrunk apparent allocated)) t

def tombstone_subtree (t : Tree) (id : NodeId) : Option (UInt64 × UInt64 × Nat) × Tree :=
  if id = t.root then (none, t)
  else match t.record id with
    | none => (none, t)
    | some record =>
      if record.state = .Tombstone then (some (0, 0, 0), t)
      else
        let apparent := record.apparent_bytes
        let allocated := record.allocated_bytes
        match record.parent with
        | none => (none, t)
        | some parent =>
          match t.lineage apparent allocated t.nodes.length (some parent) with
          | none => (none, t)
          | some lineage =>
            match t.allTombstoned t.nodes.length record.first_child with
            | none => (none, t)
            | some all_children_tombstoned =>
              match tombstoneWalk id all_children_tombstoned (t.nodes.length + 1) (some id) t 0 with
              | (none, t) => (none, t)
              | (some count, t) =>
                (some (apparent, allocated, count), t.shrinkAll apparent allocated lineage)

variable {t t' : Tree} {n x c id : NodeId}

/-! ## Below a node -/

/-- Below a node are its children, and what is below them. -/
theorem above_iff_children : t.Above n x ↔ x = n ∨ ∃ c ∈ t.childrenOf n, t.Above c x := by
  constructor
  · intro h
    rcases Relation.ReflTransGen.cases_tail h with rfl | ⟨c, habove, hparent⟩
    · exact .inl rfl
    · exact .inr ⟨c, mem_childrenOf.mpr hparent, habove⟩
  · rintro (rfl | ⟨c, hc, habove⟩)
    · exact .refl x
    · exact (Above.of_parent (mem_childrenOf.mp hc)).trans habove

theorem Above.lt (h : t.Above n x) (hn : n < t.nodes.length) : x < t.nodes.length := by
  rcases Relation.ReflTransGen.cases_head h with rfl | ⟨up, hup, -⟩
  · exact hn
  · exact parentOf_lt hup

theorem Linked.not_above_sibling (hl : t.Linked) {d c'} (hc : t.parentOf c = some d)
    (hc' : t.parentOf c' = some d) (hne : c ≠ c') : ¬ t.Above c c' := by
  intro habove
  rcases (above_iff_of_parent hc').mp habove with heq | habove
  · exact hne heq
  · exact Nat.not_le.mpr (hl.rising c d hc) (habove.le hl.rising)

theorem Linked.disjoint_siblings (hl : t.Linked) {d c'} (hc : t.parentOf c = some d)
    (hc' : t.parentOf c' = some d) (hne : c ≠ c') (h : t.Above c x) : ¬ t.Above c' x := by
  intro h'
  rcases h.linear h' with habove | habove
  · exact hl.not_above_sibling hc hc' hne habove
  · exact hl.not_above_sibling hc' hc hne.symm habove

/-! ## What is left -/

/-- A node that is not removed. -/
def Live (t : Tree) (n : NodeId) : Prop := ∃ r, t.record n = some r ∧ r.state ≠ .Tombstone

theorem live_iff {r} (hr : t.record n = some r) : t.Live n ↔ r.state ≠ .Tombstone := by
  constructor
  · rintro ⟨r', hr', hstate⟩
    rw [hr, Option.some.injEq] at hr'
    exact hr' ▸ hstate
  · exact fun hstate => ⟨r, hr, hstate⟩

theorem Live.lt (h : t.Live n) : n < t.nodes.length := by
  obtain ⟨r, hr, -⟩ := h
  exact record_lt hr

/-- Below what is removed from the subtree of `n`, all is. -/
def ClosedBelow (t : Tree) (n : NodeId) : Prop :=
  ∀ x y, t.Above n x → t.Above x y → t.Live y → t.Live x

open Classical in
/-- The tree with the nodes of `P` removed. -/
noncomputable def mark (t : Tree) (P : NodeId → Prop) : Tree :=
  { t with nodes := t.nodes.mapIdx fun n r => if P n then tombstoned r else r }

open Classical in
theorem record_mark (t : Tree) (P : NodeId → Prop) (n : NodeId) :
    (t.mark P).record n = (t.record n).map fun r => if P n then tombstoned r else r :=
  List.getElem?_mapIdx

theorem sameShape_mark (t : Tree) (P : NodeId → Prop) : SameShape t (t.mark P) := by
  classical
  refine ⟨List.ext_getElem? fun n => ?_, rfl, rfl⟩
  rw [List.getElem?_map, List.getElem?_map]
  change ((t.mark P).record n).map _ = (t.record n).map _
  rw [record_mark, Option.map_map]
  refine congrArg (fun f => (t.record n).map f) (funext fun r => ?_)
  rw [Function.comp_apply]
  split <;> rfl

theorem live_mark (t : Tree) (P : NodeId → Prop) : (t.mark P).Live n ↔ t.Live n ∧ ¬ P n := by
  classical
  rw [Live, record_mark]
  cases hr : t.record n with
  | none => exact iff_of_false nofun fun h => by obtain ⟨⟨r, hr', -⟩, -⟩ := h; rw [hr] at hr'; cases hr'
  | some r =>
    rw [live_iff hr, Option.map_some]
    by_cases hn : P n
    · simp [hn, tombstoned]
    · simp [hn]

theorem tree_ext (hroot : t.root = t'.root) (hnames : t.names = t'.names)
    (hrecord : ∀ n, t.record n = t'.record n) : t = t' := by
  obtain ⟨nodes, names, root⟩ := t
  obtain ⟨nodes', names', root'⟩ := t'
  obtain rfl : root = root' := hroot
  obtain rfl : names = names' := hnames
  obtain rfl : nodes = nodes' := List.ext_getElem? hrecord
  rfl

/-- Only what is not removed already is changed. -/
theorem mark_congr {P Q} (h : ∀ n, t.Live n → (P n ↔ Q n)) :
    t.mark P = t.mark Q := by
  classical
  refine tree_ext rfl rfl fun n => ?_
  rw [record_mark, record_mark]
  cases hr : t.record n with
  | none => rfl
  | some r =>
    rw [Option.map_some, Option.map_some]
    by_cases hstate : r.state = .Tombstone
    · have hsame : tombstoned r = r := by rw [tombstoned, ← hstate]
      rw [hsame, ite_self, ite_self]
    · simp only [h n ((live_iff hr).mpr hstate)]

theorem mark_mark (t : Tree) (P Q : NodeId → Prop) :
    (t.mark P).mark Q = t.mark fun n => P n ∨ Q n := by
  classical
  refine tree_ext rfl rfl fun n => ?_
  rw [record_mark, record_mark, record_mark, Option.map_map]
  refine congrArg (fun f => (t.record n).map f) (funext fun r => ?_)
  by_cases hP : P n <;> by_cases hQ : Q n <;> simp [hP, hQ, tombstoned]

theorem mark_nothing {P} (h : ∀ n, t.Live n → ¬ P n) : t.mark P = t := by
  classical
  refine tree_ext rfl rfl fun n => ?_
  rw [mark_congr (Q := fun _ => False) fun n hn => iff_of_false (h n hn) id, record_mark]
  simp

theorem modify_tombstoned (t : Tree) (n : NodeId) : t.modify n tombstoned = t.mark (· = n) := by
  classical
  refine tree_ext rfl rfl fun x => ?_
  rw [record_modify, record_mark]
  by_cases hx : n = x
  · simp [hx]
  · simp [hx, Ne.symm hx]

/-! ## Counting -/

/-- How many nodes there are of a kind. -/
noncomputable def count (t : Tree) (P : NodeId → Prop) : Nat :=
  {n | n < t.nodes.length ∧ P n}.ncard

theorem finite_count (t : Tree) (P : NodeId → Prop) : {n | n < t.nodes.length ∧ P n}.Finite :=
  (Set.finite_lt_nat t.nodes.length).subset fun _ h => h.1

theorem count_congr {P Q} (h : ∀ n, P n ↔ Q n) : t.count P = t.count Q := by
  obtain rfl : P = Q := funext fun n => propext (h n)
  rfl

theorem count_or {P Q} (h : ∀ n, P n → ¬ Q n) :
    (t.count fun n => P n ∨ Q n) = t.count P + t.count Q := by
  have hunion : {n | n < t.nodes.length ∧ (P n ∨ Q n)} =
      {n | n < t.nodes.length ∧ P n} ∪ {n | n < t.nodes.length ∧ Q n} := by
    ext n
    exact and_or_left
  rw [count, hunion, count, count]
  refine Set.ncard_union_eq ?_ (t.finite_count P) (t.finite_count Q)
  exact Set.disjoint_left.mpr fun n hP hQ => h n hP.2 hQ.2

theorem count_le (t : Tree) (P : NodeId → Prop) : t.count P ≤ t.nodes.length := by
  have hall : {n | n < t.nodes.length ∧ P n} ⊆ ↑(Finset.range t.nodes.length) :=
    fun n h => Finset.mem_coe.mpr (Finset.mem_range.mpr h.1)
  have hle := Set.ncard_le_ncard hall (Finset.finite_toSet _)
  rwa [Set.ncard_coe_finset, Finset.card_range] at hle

theorem count_one (hn : n < t.nodes.length) : t.count (· = n) = 1 := by
  have hone : {x | x < t.nodes.length ∧ x = n} = {n} := by
    ext x
    exact ⟨And.right, fun h => ⟨h ▸ hn, h⟩⟩
  rw [count, hone, Set.ncard_singleton]

theorem count_zero {P} (h : ∀ n, ¬ P n) : t.count P = 0 := by
  have hnone : {n | n < t.nodes.length ∧ P n} = ∅ :=
    Set.eq_empty_iff_forall_notMem.mpr fun n hn => h n hn.2
  rw [count, hnone, Set.ncard_empty]

theorem SameShape.count (h : SameShape t t') (P : NodeId → Prop) : t'.count P = t.count P := by
  rw [Tree.count, Tree.count, h.length]

end Tree

end Ish.Index
