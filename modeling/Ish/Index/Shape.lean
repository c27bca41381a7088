import Ish.Index.Tree

/-!
# The links of an index

A tree whose links agree: every node but the root stands behind its parent, and
the children of a node are the chain from its first child to its last. Appending
a node keeps them, and what changes states and totals does not touch them.
-/

namespace Ish.Index

open Ish.Lib.Forest List Option

namespace Tree

variable {t t' : Tree}

def parentOf (t : Tree) (n : NodeId) : Option NodeId := (t.record n).bind (·.parent)

def nextOf (t : Tree) (n : NodeId) : Option NodeId := (t.record n).bind (·.next_sibling)

/-- The nodes below `d`, in the order they were appended in. -/
def childrenOf (t : Tree) (d : NodeId) : List NodeId :=
  (List.range t.nodes.length).filter fun n => t.parentOf n = some d

/-- `a` is `n`, or above it. -/
abbrev Above (t : Tree) (a n : NodeId) : Prop := Ish.Lib.Forest.Above t.parentOf a n

theorem record_lt (h : t.record n = some r) : n < t.nodes.length :=
  (List.getElem?_eq_some_iff.mp h).1

theorem exists_record {n : NodeId} (h : n < t.nodes.length) : ∃ r, t.record n = some r :=
  ⟨_, getElem?_eq_getElem h⟩

theorem parentOf_lt (h : t.parentOf n = some p) : n < t.nodes.length := by
  obtain ⟨r, hr, -⟩ := bind_eq_some_iff.mp h
  exact record_lt hr

theorem mem_childrenOf : n ∈ t.childrenOf d ↔ t.parentOf n = some d := by
  simp only [childrenOf, mem_filter, mem_range, decide_eq_true_eq]
  exact ⟨And.right, fun h => ⟨parentOf_lt h, h⟩⟩

@[simp] theorem record_modify (t : Tree) (id : NodeId) (f : NodeRecord → NodeRecord) (n : NodeId) :
    (t.modify id f).record n = if id = n then (t.record n).map f else t.record n := by
  simp only [record, modify, getElem?_modify]
  split <;> simp

@[simp] theorem length_modify (t : Tree) (id : NodeId) (f : NodeRecord → NodeRecord) :
    (t.modify id f).nodes.length = t.nodes.length :=
  List.length_modify ..

/-- The links of a tree agree. -/
structure Linked (t : Tree) : Prop where
  root : t.root = 0
  root_record : ∃ r, t.record 0 = some r ∧ r.parent = none
  rising : Rising t.parentOf
  parented : ∀ n, 0 < n → n < t.nodes.length → ∃ p, t.parentOf n = some p
  chain : ∀ d r, t.record d = some r → Chain t.nextOf r.first_child (t.childrenOf d)
  last : ∀ d r, t.record d = some r → r.last_child = (t.childrenOf d).getLast?
  names : ∀ n r, t.record n = some r →
    r.name.start ≤ r.name.stop ∧ r.name.stop ≤ t.names.length

namespace Linked

theorem parent_lt (h : t.Linked) (hp : t.parentOf n = some p) : p < t.nodes.length :=
  Nat.lt_trans (h.rising n p hp) (parentOf_lt hp)

end Linked

theorem nodup_childrenOf (t : Tree) (d : NodeId) : (t.childrenOf d).Nodup :=
  nodup_range.filter _

end Tree

/-! ## What only changes states and totals -/

/-- What is left of a record without its totals and its state. -/
def NodeRecord.shape (r : NodeRecord) : NodeRecord :=
  { r with apparent_bytes := 0, allocated_bytes := 0, state := .Scanning }

namespace Tree

variable {t t' t'' : Tree}

/-- `t'` is `t` but for states and totals. -/
structure SameShape (t t' : Tree) : Prop where
  nodes : t'.nodes.map NodeRecord.shape = t.nodes.map NodeRecord.shape
  names : t'.names = t.names
  root : t'.root = t.root

namespace SameShape

theorem refl (t : Tree) : SameShape t t := ⟨rfl, rfl, rfl⟩

section

variable (h : SameShape t t')
include h

theorem trans (h' : SameShape t' t'') : SameShape t t'' :=
  ⟨h'.nodes.trans h.nodes, h'.names.trans h.names, h'.root.trans h.root⟩

theorem symm : SameShape t' t := ⟨h.nodes.symm, h.names.symm, h.root.symm⟩

theorem length : t'.nodes.length = t.nodes.length := by
  simpa using congrArg List.length h.nodes

theorem record (n : NodeId) :
    (t'.record n).map NodeRecord.shape = (t.record n).map NodeRecord.shape := by
  rw [Tree.record, Tree.record, ← getElem?_map, ← getElem?_map, h.nodes]

theorem field {α : Type} (f : NodeRecord → α)
    (hf : ∀ r, f r.shape = f r) (n : NodeId) : (t'.record n).map f = (t.record n).map f := by
  have hf' : f = f ∘ NodeRecord.shape := funext fun r => (hf r).symm
  rw [hf', ← Option.map_map, ← Option.map_map, h.record]

theorem exists_record {n : NodeId}
    (hr : t.record n = some r) : ∃ r', t'.record n = some r' ∧ r'.shape = r.shape := by
  have hrecord := h.record n
  rw [hr, map_some, map_eq_some_iff] at hrecord
  exact hrecord

theorem bind_field {α : Type} (f : NodeRecord → Option α)
    (hf : ∀ r, f r.shape = f r) (n : NodeId) : (t'.record n).bind f = (t.record n).bind f := by
  have hfield := congrArg (·.bind id) (h.field f hf n)
  simpa only [bind_map, Function.id_comp] using hfield

theorem parentOf : t'.parentOf = t.parentOf :=
  funext fun n => h.bind_field _ (fun _ => rfl) n

theorem above : t'.Above a n ↔ t.Above a n := by
  rw [Tree.Above, Tree.Above, h.parentOf]

theorem nextOf : t'.nextOf = t.nextOf :=
  funext fun n => h.bind_field _ (fun _ => rfl) n

theorem childrenOf : t'.childrenOf = t.childrenOf := by
  funext d
  rw [Tree.childrenOf, Tree.childrenOf, h.length, h.parentOf]

theorem name (n : NodeId) : t'.name n = t.name n := by
  simp only [Tree.name, h.names]
  exact h.bind_field (fun r => r.name.get t.names) (fun _ => rfl) n

theorem linked (hl : t.Linked) : t'.Linked where
  root := h.root.trans hl.root
  root_record := by
    obtain ⟨r, hr, hparent⟩ := hl.root_record
    obtain ⟨r', hr', hshape⟩ := h.exists_record hr
    exact ⟨r', hr', (congrArg NodeRecord.parent hshape).trans hparent⟩
  rising := h.parentOf ▸ hl.rising
  parented := by
    rw [h.parentOf, h.length]
    exact hl.parented
  chain := by
    intro d r' hr'
    obtain ⟨r, hr, hshape⟩ := h.symm.exists_record hr'
    have hfirst : r.first_child = r'.first_child := congrArg (·.first_child) hshape
    rw [h.nextOf, h.childrenOf, ← hfirst]
    exact hl.chain d r hr
  last := by
    intro d r' hr'
    obtain ⟨r, hr, hshape⟩ := h.symm.exists_record hr'
    have hlast : r.last_child = r'.last_child := congrArg (·.last_child) hshape
    rw [h.childrenOf, ← hlast]
    exact hl.last d r hr
  names := by
    intro n r' hr'
    obtain ⟨r, hr, hshape⟩ := h.symm.exists_record hr'
    have hname : r.name = r'.name := congrArg (·.name) hshape
    rw [h.names, ← hname]
    exact hl.names n r hr

end

end SameShape

theorem sameShape_modify (hf : ∀ r, (f r).shape = r.shape)
    (t : Tree) (n : NodeId) : SameShape t (t.modify n f) := by
  refine ⟨ext_getElem? fun i => ?_, rfl, rfl⟩
  have hrecord := record_modify t n f i
  rw [record] at hrecord
  rw [getElem?_map, getElem?_map, hrecord]
  split
  · rw [Option.map_map]
    exact congrArg (fun g => Option.map g t.nodes[i]?) (funext hf)
  · rfl

/-! ## To the root -/

theorem walkUp_shape (hf : ∀ r, (f r).shape = r.shape)
    (fuel : Nat) (current : Option NodeId) (t : Tree) : SameShape t (t.walkUp f fuel current) := by
  induction fuel generalizing current t with
  | zero => exact .refl t
  | succ fuel ih =>
    cases current with
    | none => exact .refl t
    | some node =>
      rw [walkUp]
      split
      · exact .refl t
      · exact (sameShape_modify hf t node).trans (ih ..)

/-- **A walk to the root** changes what is above the node it starts from. -/
theorem walkUp_record (hf : ∀ r, (f r).shape = r.shape)
    {fuel : Nat} {node : NodeId} (hl : t.Linked) (hnode : node < t.nodes.length)
    (hfuel : node < fuel) (n : NodeId) :
    (t.Above n node ∧ (t.walkUp f fuel (some node)).record n = (t.record n).map f) ∨
      (¬ t.Above n node ∧ (t.walkUp f fuel (some node)).record n = t.record n) := by
  induction fuel generalizing node t with
  | zero => exact absurd hfuel (Nat.not_lt_zero node)
  | succ fuel ih =>
    obtain ⟨r, hr⟩ := t.exists_record hnode
    have hsame := sameShape_modify hf t node
    have hparent : t.parentOf node = r.parent := by rw [parentOf, hr, bind_some]
    rw [walkUp, hr]
    dsimp only
    cases hp : r.parent with
    | none =>
      have habove : t.Above n node ↔ node = n := by
        rw [Tree.Above, above_iff, hparent, hp]
        simp [eq_comm]
      have hend : ∀ t : Tree, t.walkUp f fuel none = t := by
        intro t
        cases fuel <;> rfl
      rw [hend, record_modify, habove]
      by_cases hn : node = n
      · exact .inl ⟨hn, if_pos hn⟩
      · exact .inr ⟨hn, if_neg hn⟩
    | some p =>
      have hup := hparent.trans hp
      have hlt := hl.rising node p hup
      have hfuel' : p < fuel := Nat.lt_of_lt_of_le hlt (Nat.le_of_lt_succ hfuel)
      have hrec := ih (hsame.linked hl) (hsame.length ▸ Nat.lt_trans hlt hnode) hfuel'
      rw [Above, hsame.parentOf, record_modify] at hrec
      have habove : t.Above n node ↔ n = node ∨ t.Above n p := above_iff_of_parent hup
      rcases hrec with ⟨hrec, hmap⟩ | ⟨hrec, hmap⟩
      · have hn : node ≠ n := by
          rintro rfl
          exact Nat.not_le.mpr hlt (hrec.le hl.rising)
        exact .inl ⟨habove.mpr (.inr hrec), by rw [hmap, if_neg hn]⟩
      · by_cases hn : node = n
        · exact .inl ⟨habove.mpr (.inl hn.symm), by rw [hmap, if_pos hn]⟩
        · refine .inr ⟨fun h => ?_, by rw [hmap, if_neg hn]⟩
          rcases habove.mp h with rfl | h
          · exact hn rfl
          · exact hrec h

/-- Whether a walk to the root finds room everywhere. -/
theorem fitsUp_eq (apparent allocated : UInt64) {fuel : Nat} {node : NodeId} (hl : t.Linked)
    (hnode : node < t.nodes.length) (hfuel : node < fuel) :
    ∃ fits, t.fitsUp apparent allocated fuel (some node) = some fits ∧
      (fits = true ↔ ∀ n r, t.Above n node → t.record n = some r →
        r.apparent_bytes.toNat + apparent.toNat < 2 ^ 64 ∧
          r.allocated_bytes.toNat + allocated.toNat < 2 ^ 64) := by
  induction fuel generalizing node with
  | zero => exact absurd hfuel (Nat.not_lt_zero node)
  | succ fuel ih =>
    obtain ⟨r, hr⟩ := t.exists_record hnode
    have hparent : t.parentOf node = r.parent := by rw [parentOf, hr, bind_some]
    have hfits : ∀ a b : UInt64, (checked_add a b).isNone = true ↔ ¬ a.toNat + b.toNat < 2 ^ 64 := by
      intro a b
      rw [checked_add]
      split <;> simp_all
    have hover : ((checked_add r.apparent_bytes apparent).isNone ||
        (checked_add r.allocated_bytes allocated).isNone) = true ↔
        ¬ (r.apparent_bytes.toNat + apparent.toNat < 2 ^ 64 ∧
          r.allocated_bytes.toNat + allocated.toNat < 2 ^ 64) := by
      rw [Bool.or_eq_true, hfits, hfits, not_and_or]
    rw [fitsUp, hr]
    dsimp only
    by_cases hroom : r.apparent_bytes.toNat + apparent.toNat < 2 ^ 64 ∧
        r.allocated_bytes.toNat + allocated.toNat < 2 ^ 64
    · rw [if_neg (fun h => hover.mp h hroom)]
      cases hp : r.parent with
      | none =>
        refine ⟨true, by cases fuel <;> rfl, iff_of_true rfl fun n r' habove hr' => ?_⟩
        rw [Tree.Above, above_iff, hparent, hp] at habove
        obtain rfl : n = node := by simpa using habove
        rw [hr, some.injEq] at hr'
        exact hr' ▸ hroom
      | some p =>
        have hup := hparent.trans hp
        have hlt := hl.rising node p hup
        have hfuel' : p < fuel := Nat.lt_of_lt_of_le hlt (Nat.le_of_lt_succ hfuel)
        obtain ⟨fits, hrec, hiff⟩ := ih (Nat.lt_trans hlt hnode) hfuel'
        refine ⟨fits, hrec, hiff.trans ⟨fun h n r' habove hr' => ?_,
          fun h n r' habove => h n r' (habove.trans (.of_parent hup))⟩⟩
        rcases (above_iff_of_parent hup).mp habove with rfl | habove
        · rw [hr, some.injEq] at hr'
          exact hr' ▸ hroom
        · exact h n r' habove hr'
    · rw [if_pos (hover.mpr hroom)]
      refine ⟨false, rfl, iff_of_false Bool.false_ne_true fun h => ?_⟩
      exact hroom (h node r (.refl node) hr)

/-! ## Appending -/

/-- The record of a node that is appended. -/
def fresh (t : Tree) (parent : NodeId) (name : List UInt8) (entry_type : EntryType)
    (identity : FileIdentity) (link_count apparent_bytes allocated_bytes : UInt64)
    (state : NodeStatus) : NodeRecord :=
  { parent := some parent, first_child := none, last_child := none, next_sibling := none
    name := ⟨t.names.length, t.names.length + name.length⟩, entry_type, identity, link_count
    apparent_bytes, allocated_bytes, state := state.into }

/-- What appending makes of the record of `n`, when the last child of `parent` was `last`. -/
def relink (parent id : NodeId) (last : Option NodeId) (n : NodeId) (r : NodeRecord) :
    NodeRecord :=
  { r with
    first_child := if parent = n ∧ last = none then some id else r.first_child
    last_child := if parent = n then some id else r.last_child
    next_sibling := if last = some n then some id else r.next_sibling }

/-- `t'` is `t` with a last child of `parent`. -/
structure Appends (t t' : Tree) (parent : NodeId) (name : List UInt8)
    (parent_record new : NodeRecord) : Prop where
  parent_eq : t.record parent = some parent_record
  length : t'.nodes.length = t.nodes.length + 1
  names : t'.names = t.names ++ name
  root : t'.root = t.root
  old : ∀ n, n < t.nodes.length →
    t'.record n = (t.record n).map (relink parent t.nodes.length parent_record.last_child n)
  appended : t'.record t.nodes.length = some new
  parent : new.parent = some parent
  first_child : new.first_child = none
  last_child : new.last_child = none
  next_sibling : new.next_sibling = none
  name : new.name = ⟨t.names.length, t.names.length + name.length⟩

theorem append_eq_some {parent id name entry_type} (hl : t.Linked)
    (h : t.append parent name entry_type identity link_count apparent_bytes allocated_bytes state
      = some (id, t')) :
    id = t.nodes.length ∧ ∃ parent_record, Appends t t' parent name parent_record
      (t.fresh parent name entry_type identity link_count apparent_bytes allocated_bytes state) := by
  simp only [append, bind_eq_bind, bind_eq_some_iff, from_index, u32_try_from,
    ite_none_right_eq_some, some.injEq, Option.pure_def, Prod.mk.injEq] at h
  obtain ⟨_, ⟨-, rfl⟩, _, ⟨-, rfl⟩, _, ⟨-, rfl⟩, _, ⟨-, rfl⟩, pr, hpr, rfl, rfl⟩ := h
  have hparent := record_lt hpr
  have hlast := hl.last parent pr hpr
  refine ⟨rfl, pr, hpr, ?_, ?_, ?_, ?_, ?_, rfl, rfl, rfl, rfl, rfl⟩
  · split <;> simp
  · split <;> rfl
  · split <;> rfl
  · intro n hn
    have hpushed : ∀ names new root, (Tree.mk (t.nodes ++ [new]) names root).record n =
        t.record n := by
      intro names new root
      exact getElem?_append_left hn
    obtain ⟨r, hr⟩ := t.exists_record hn
    split
    · rename_i last hlink
      by_cases hn : parent = n <;> by_cases hn' : last = n <;>
        simp [hpushed, hr, hn, hn', hlink, relink]
    · rename_i hlink
      by_cases hn : parent = n <;> simp [hpushed, hr, hn, hlink, relink]
  · have hpushed : ∀ names new root, (Tree.mk (t.nodes ++ [new]) names root).record
        t.nodes.length = some new := by
      intro names new root
      exact getElem?_concat_length
    have hne : parent ≠ t.nodes.length := Nat.ne_of_lt hparent
    split
    · rename_i last hlink
      have hmem : last ∈ t.childrenOf parent := mem_of_getLast? (hlast ▸ hlink)
      have hne' : last ≠ t.nodes.length := Nat.ne_of_lt (parentOf_lt (mem_childrenOf.mp hmem))
      simp [hpushed, hne, hne', fresh]
    · simp [hpushed, hne, fresh]

namespace Appends

variable {parent : NodeId} {name : List UInt8} {parent_record new : NodeRecord}

section

variable (h : Appends t t' parent name parent_record new)
include h

theorem parent_lt : parent < t.nodes.length :=
  record_lt h.parent_eq

theorem old_record (hr : t.record n = some r) :
    t'.record n = some (relink parent t.nodes.length parent_record.last_child n r) := by
  rw [h.old n (record_lt hr), hr, map_some]

theorem parentOf (n : NodeId) :
    t'.parentOf n = if n = t.nodes.length then some parent else t.parentOf n := by
  split
  · rename_i hn
    rw [Tree.parentOf, hn, h.appended, bind_some, h.parent]
  · rename_i hn
    rcases Nat.lt_or_ge n t.nodes.length with hlt | hge
    · obtain ⟨r, hr⟩ := t.exists_record hlt
      rw [Tree.parentOf, h.old_record hr, Tree.parentOf, hr]
      rfl
    · have hnone : ∀ t : Tree, t.nodes.length ≤ n → t.record n = none := by
        intro t hle
        exact getElem?_eq_none hle
      have hlt : t.nodes.length < n := Nat.lt_of_le_of_ne hge (Ne.symm hn)
      rw [Tree.parentOf, Tree.parentOf, hnone t hge, hnone t' (h.length ▸ hlt)]

theorem parentOf_of_lt {n : NodeId}
    (hn : n < t.nodes.length) : t'.parentOf n = t.parentOf n := by
  rw [h.parentOf, if_neg (Nat.ne_of_lt hn)]

theorem childrenOf (d : NodeId) :
    t'.childrenOf d = t.childrenOf d ++ if parent = d then [t.nodes.length] else [] := by
  rw [Tree.childrenOf, h.length, range_succ, List.filter_append]
  congr 1
  · refine filter_congr fun n hn => ?_
    rw [h.parentOf_of_lt (mem_range.mp hn)]
  · by_cases hd : parent = d <;> simp [h.parentOf, hd]

theorem nextOf (n : NodeId) :
    t'.nextOf n = if parent_record.last_child = some n ∧ n < t.nodes.length
      then some t.nodes.length else t.nextOf n := by
  rcases Nat.lt_or_ge n t.nodes.length with hlt | hge
  · obtain ⟨r, hr⟩ := t.exists_record hlt
    rw [Tree.nextOf, h.old_record hr, Tree.nextOf, hr, bind_some, bind_some, relink]
    simp [hlt]
  · rw [if_neg (fun hn => Nat.not_lt_of_le hge hn.2)]
    have hnone : t.record n = none := getElem?_eq_none hge
    rw [Tree.nextOf, Tree.nextOf, hnone, bind_none]
    by_cases hn : n = t.nodes.length
    · rw [hn, h.appended, bind_some, h.next_sibling]
    · have hlt : t.nodes.length < n := Nat.lt_of_le_of_ne hge (Ne.symm hn)
      have hnone' : t'.record n = none := getElem?_eq_none (h.length ▸ hlt)
      rw [hnone', bind_none]

theorem name_of_lt (hl : t.Linked) {n : NodeId}
    (hn : n < t.nodes.length) : t'.name n = t.name n := by
  obtain ⟨r, hr⟩ := t.exists_record hn
  have hrange := hl.names n r hr
  simp only [Tree.name, h.old_record hr, hr, bind_eq_bind, bind_some, relink,
    Range.get, h.names, length_append]
  rw [if_pos hrange, if_pos ⟨hrange.1, by omega⟩, drop_append_of_le_length (by omega),
    take_append_of_le_length (by rw [length_drop]; omega)]

theorem name_new :
    t'.name t.nodes.length = some name := by
  simp only [Tree.name, h.appended, bind_eq_bind, bind_some, Range.get, h.name,
    h.names, length_append]
  rw [if_pos ⟨by omega, by omega⟩]
  simp

theorem mem_of_last (hl : t.Linked) (hlast : parent_record.last_child = some last) :
    t.parentOf last = some parent := by
  rw [hl.last parent parent_record h.parent_eq] at hlast
  exact mem_childrenOf.mp (mem_of_getLast? hlast)

theorem childrenOf_new (hl : t.Linked) :
    t'.childrenOf t.nodes.length = [] := by
  rw [h.childrenOf, if_neg (Nat.ne_of_lt h.parent_lt), append_nil,
    eq_nil_iff_forall_not_mem]
  intro n hn
  have hparent := mem_childrenOf.mp hn
  exact Nat.lt_asymm (hl.rising n _ hparent) (parentOf_lt hparent)

theorem nextOf_new :
    t'.nextOf t.nodes.length = none := by
  rw [Tree.nextOf, h.appended, bind_some, h.next_sibling]

theorem record_cases (hr' : t'.record n = some r') :
    (n = t.nodes.length ∧ r' = new) ∨ ∃ r, t.record n = some r ∧
      r' = relink parent t.nodes.length parent_record.last_child n r := by
  have hlt := record_lt hr'
  rw [h.length] at hlt
  rcases Nat.eq_or_lt_of_le (Nat.le_of_lt_succ hlt) with heq | hlt
  · rw [heq, h.appended, some.injEq] at hr'
    exact .inl ⟨heq, hr'.symm⟩
  · obtain ⟨r, hr⟩ := t.exists_record hlt
    rw [h.old_record hr, some.injEq] at hr'
    exact .inr ⟨r, hr, hr'.symm⟩

theorem chain_parent (hl : t.Linked) :
    Chain t'.nextOf (if parent_record.last_child = none then some t.nodes.length
      else parent_record.first_child) (t.childrenOf parent ++ [t.nodes.length]) := by
  have hchain := hl.chain parent parent_record h.parent_eq
  have hlast := hl.last parent parent_record h.parent_eq
  cases hlink : parent_record.last_child with
  | none =>
    rw [hlink, eq_comm, getLast?_eq_none_iff] at hlast
    rw [hlast, if_pos rfl]
    exact ⟨rfl, h.nextOf_new⟩
  | some last =>
    have hmem := h.mem_of_last hl hlink
    rw [if_neg nofun]
    refine hchain.extend (hlast ▸ hlink) (t.nodup_childrenOf parent) ?_ ?_ h.nextOf_new
    · intro member hmember hne
      rw [h.nextOf, hlink, if_neg (fun heq => hne (some.inj heq.1).symm)]
    · rw [h.nextOf, hlink, if_pos ⟨rfl, parentOf_lt hmem⟩]

/-- **Appending keeps the links.** -/
theorem linked (hl : t.Linked) : t'.Linked where
  root := h.root.trans hl.root
  root_record := by
    obtain ⟨r, hr, hparent⟩ := hl.root_record
    exact ⟨_, h.old_record hr, hparent⟩
  rising := by
    intro n p hp
    rw [h.parentOf] at hp
    split at hp
    · rename_i hn
      cases hp
      exact hn ▸ h.parent_lt
    · exact hl.rising n p hp
  parented := by
    intro n hpos hn
    rw [h.parentOf]
    split
    · exact ⟨parent, rfl⟩
    · rename_i hne
      rw [h.length] at hn
      exact hl.parented n hpos (Nat.lt_of_le_of_ne (Nat.le_of_lt_succ hn) hne)
  chain := by
    intro d r' hr'
    rcases h.record_cases hr' with ⟨rfl, rfl⟩ | ⟨r, hr, rfl⟩
    · rw [h.childrenOf_new hl, h.first_child]
      rfl
    · rw [h.childrenOf]
      by_cases hd : parent = d
      · subst hd
        obtain rfl : parent_record = r := some.inj (h.parent_eq.symm.trans hr)
        simpa only [relink, true_and, if_true] using h.chain_parent hl
      · simp only [relink, hd, false_and, if_false, append_nil]
        refine (hl.chain d r hr).congr fun member hmember => ?_
        rw [h.nextOf, if_neg]
        rintro ⟨hlast, -⟩
        have hparent := mem_childrenOf.mp hmember
        rw [h.mem_of_last hl hlast, some.injEq] at hparent
        exact hd hparent
  last := by
    intro d r' hr'
    rcases h.record_cases hr' with ⟨rfl, rfl⟩ | ⟨r, hr, rfl⟩
    · rw [h.childrenOf_new hl, h.last_child]
      rfl
    · rw [h.childrenOf]
      by_cases hd : parent = d
      · simp [relink, hd]
      · simpa [relink, hd] using hl.last d r hr
  names := by
    intro n r' hr'
    rw [h.names, length_append]
    rcases h.record_cases hr' with ⟨rfl, rfl⟩ | ⟨r, hr, rfl⟩
    · rw [h.name]
      exact ⟨Nat.le_add_right .., Nat.le_refl _⟩
    · have hrange := hl.names n r hr
      exact ⟨hrange.1, Nat.le_trans hrange.2 (Nat.le_add_right ..)⟩

theorem above_of_lt (hl : t.Linked)
    {a n : NodeId} (hn : n < t.nodes.length) : t'.Above a n ↔ t.Above a n := by
  have hsame : ∀ child ≤ n, t'.parentOf child = t.parentOf child := fun child hle =>
    h.parentOf_of_lt (Nat.lt_of_le_of_lt hle hn)
  constructor
  · exact fun habove => habove.congr (h.linked hl).rising fun child hle => (hsame child hle).symm
  · exact fun habove => habove.congr hl.rising hsame

theorem above_new (hl : t.Linked) : t'.Above a t.nodes.length ↔ a = t.nodes.length ∨ t.Above a parent := by
  have hparent : t'.parentOf t.nodes.length = some parent := by rw [h.parentOf, if_pos rfl]
  rw [Tree.Above, above_iff_of_parent hparent]
  exact or_congr_right (h.above_of_lt hl h.parent_lt)

end

end Appends

/-! ## The first node -/

theorem new_record {name identity link_count} (h : Tree.new name identity link_count = some t) :
    t.root = 0 ∧ ∃ r, t.nodes = [r] ∧ r.parent = none ∧ r.first_child = none ∧
      r.last_child = none ∧ r.name = ⟨0, t.names.length⟩ ∧ r.entry_type = .Root ∧
      r.state = .Scanning ∧ r.apparent_bytes = 0 ∧ r.allocated_bytes = 0 := by
  simp only [Tree.new, u32_try_from, bind_eq_bind, bind_eq_some_iff,
    ite_none_right_eq_some, some.injEq, Option.pure_def] at h
  obtain ⟨_, ⟨-, rfl⟩, rfl⟩ := h
  exact ⟨rfl, _, rfl, rfl, rfl, rfl, rfl, rfl, rfl, rfl, rfl⟩

/-- **The links of a tree with one node** agree. -/
theorem new_linked {name identity link_count} (h : Tree.new name identity link_count = some t) :
    t.Linked ∧ ∀ n r, t.record n = some r → n = 0 ∧ t.nodes = [r] := by
  obtain ⟨hroot, r, hnodes, hparent, hfirst, hlast, hname, -⟩ := new_record h
  have hrecord : ∀ n r', t.record n = some r' → n = 0 ∧ r' = r := by
    intro n r' hr'
    rw [record, hnodes, getElem?_singleton] at hr'
    split at hr'
    · rename_i hzero
      exact ⟨hzero, (some.inj hr').symm⟩
    · cases hr'
  have hzero : t.record 0 = some r := by
    rw [record, hnodes]
    rfl
  have hparents : ∀ n, t.parentOf n = none := by
    intro n
    rw [parentOf, bind_eq_none_iff]
    intro r' hr'
    obtain ⟨-, rfl⟩ := hrecord n r' hr'
    exact hparent
  have hchildren : ∀ d, t.childrenOf d = [] := by
    intro d
    rw [eq_nil_iff_forall_not_mem]
    intro n hn
    rw [mem_childrenOf, hparents] at hn
    cases hn
  refine ⟨⟨hroot, ⟨r, hzero, hparent⟩, ?_, ?_, ?_, ?_, ?_⟩, fun n r' hr' => ?_⟩
  · intro child up hup
    rw [hparents] at hup
    cases hup
  · intro n hpos hn
    rw [hnodes, length_singleton] at hn
    exact absurd hn (Nat.not_lt.mpr hpos)
  · intro d r' hr'
    obtain ⟨-, rfl⟩ := hrecord d r' hr'
    rw [hchildren]
    exact hfirst
  · intro d r' hr'
    obtain ⟨-, rfl⟩ := hrecord d r' hr'
    rw [hchildren]
    exact hlast
  · intro n r' hr'
    obtain ⟨-, rfl⟩ := hrecord n r' hr'
    rw [hname]
    exact ⟨Nat.zero_le _, Nat.le_refl _⟩
  · obtain ⟨hn, rfl⟩ := hrecord n r' hr'
    exact ⟨hn, hnodes⟩

end Tree

end Ish.Index
