import Ish.Fs.Access
import Ish.Lib.Avl

/-!
# The tree in the spool

The nodes of a spool hold a tree of offsets. Heights, rotations, the rebalancing
and the insertion of `records.rs` are the operations of the tree, seen through
the nodes; nodes of other offsets stay as they are.
-/

namespace Ish.Fs

open Ish.Lib List
open EState (Does)
open UnixPath (Path)

/-- The offset a tree is known by. -/
def rootOf : AvlTree Nat → Nat
  | .leaf => NO_CHILD
  | .node _ offset _ => offset

/-- The nodes hold the tree. -/
def Stored (node : Nat → TreeNode) : AvlTree Nat → Prop
  | .leaf => True
  | .node l offset r =>
    node offset = ⟨rootOf l, rootOf r, (AvlTree.node l offset r).height⟩ ∧
      Stored node l ∧ Stored node r

theorem Stored.congr (h : Stored node t)
    (heq : ∀ offset ∈ t.toList, node' offset = node offset) : Stored node' t := by
  induction t with
  | leaf => exact trivial
  | node l offset r ihl ihr =>
    obtain ⟨hnode, hl, hr⟩ := h
    refine ⟨(heq offset (by simp)).trans hnode, ihl hl ?_, ihr hr ?_⟩
    · exact fun other hother => heq other (by simp [hother])
    · exact fun other hother => heq other (by simp [hother])

/-- The offsets of a tree are those of records, each once. -/
structure Proper (records : List Record) (t : AvlTree Nat) : Prop where
  small : spoolSize records < 2 ^ 64
  known : ∀ offset ∈ t.toList, ∃ record, recordAt records offset = some record
  nodup : t.toList.Nodup

/-- Nothing but the nodes of `touched` changed. -/
structure Keeps (touched : List Nat) (a b : Spool) : Prop where
  records : b.records = a.records
  root : b.root = a.root
  indexed : b.indexed = a.indexed
  node : ∀ offset, offset ∉ touched → b.node offset = a.node offset

/-- A node with the given subtrees below it, whatever height it claims. -/
structure Links (a : Spool) (l : AvlTree Nat) (offset : Nat) (r : AvlTree Nat) : Prop where
  node : ∃ height, 0 < height ∧ height ≤ 128 ∧ a.node offset = ⟨rootOf l, rootOf r, height⟩
  left : Stored a.node l
  right : Stored a.node r

namespace Keeps

variable {a b c : Spool} {touched more : List Nat}

theorem refl (touched : List Nat) (a : Spool) : Keeps touched a a :=
  ⟨rfl, rfl, rfl, fun _ _ => rfl⟩

theorem trans (h : Keeps touched a b) (h' : Keeps touched b c) : Keeps touched a c :=
  ⟨h'.records.trans h.records, h'.root.trans h.root, h'.indexed.trans h.indexed,
    fun offset hoffset => (h'.node offset hoffset).trans (h.node offset hoffset)⟩

theorem mono (h : Keeps touched a b) (hsub : ∀ offset ∈ touched, offset ∈ more) : Keeps more a b :=
  ⟨h.records, h.root, h.indexed, fun offset hoffset =>
    h.node offset fun hmem => hoffset (hsub offset hmem)⟩

theorem setNode (a : Spool) (offset : Nat) (node : TreeNode) :
    Keeps [offset] a (a.setNode offset node) :=
  ⟨rfl, rfl, rfl, fun _ hother =>
    a.setNode_of_ne node fun heq => hother (mem_singleton.mpr heq)⟩

theorem stored (h : Keeps touched a b) (ht : Stored a.node t)
    (hdisjoint : ∀ offset ∈ t.toList, offset ∉ touched) : Stored b.node t :=
  ht.congr fun offset hoffset => h.node offset (hdisjoint offset hoffset)

theorem proper (h : Keeps touched a b) (ht : Proper a.records t) :
    Proper b.records t := by
  rw [h.records]
  exact ht

end Keeps

namespace Proper

variable {records : List Record} {l r : AvlTree Nat} {offset : Nat}

section

variable (h : Proper records (.node l offset r))
include h

theorem left : Proper records l :=
  ⟨h.small, fun other hother => h.known other (by simp [hother]),
    (nodup_append.mp h.nodup).1⟩

theorem right : Proper records r :=
  ⟨h.small, fun other hother => h.known other (by simp [hother]),
    (nodup_cons.mp (nodup_append.mp h.nodup).2.1).2⟩

theorem here :
    ∃ record, recordAt records offset = some record :=
  h.known offset (by simp)

theorem not_mem_left : offset ∉ l.toList :=
  fun hmem => (nodup_append.mp h.nodup).2.2 offset hmem offset mem_cons_self rfl

theorem not_mem_right : offset ∉ r.toList :=
  (nodup_cons.mp (nodup_append.mp h.nodup).2.1).1

theorem disjoint (hl : other ∈ l.toList) :
    other ∉ r.toList :=
  fun hr => (nodup_append.mp h.nodup).2.2 other hl other (mem_cons_of_mem _ hr) rfl

end

/-- Only the labels matter. -/
theorem congr (h : Proper records t) (heq : t'.toList = t.toList) :
    Proper records t' :=
  ⟨h.small, by rw [heq]; exact h.known, by rw [heq]; exact h.nodup⟩

theorem rootOf_good (h : Proper records t) :
    rootOf t = NO_CHILD ∨ rootOf t < spoolSize records := by
  cases t with
  | leaf => exact .inl rfl
  | node l offset r =>
    obtain ⟨record, hrecord⟩ := h.here
    have hlt := recordAt_lt hrecord
    have hsize := recordSize_ge record
    exact .inr (by show offset < _; omega)

theorem rootOf_ne (h : Proper records (.node l offset r)) : offset ≠ NO_CHILD := by
  obtain ⟨record, hrecord⟩ := h.here
  have hlt := recordAt_lt hrecord
  have hsize := recordSize_ge record
  have hsmall := h.small
  rw [NO_CHILD]
  omega

/-- A node over proper subtrees is one the code accepts. -/
theorem good (hl : Proper records l) (hr : Proper records r) (hpos : 0 < height)
    (hle : height ≤ 128) : Good (spoolSize records) ⟨rootOf l, rootOf r, height⟩ :=
  good_iff.mpr ⟨Nat.pos_iff_ne_zero.mp hpos, hle, hl.rootOf_good, hr.rootOf_good⟩

end Proper

/-! ## Heights -/

namespace Records

variable {a : Spool} {l r t : AvlTree Nat} {offset : Nat}

theorem read_does (hproper : Proper a.records (.node l offset r))
    (hnode : a.node offset = node) : Does Shows (readNode offset) a node a := by
  obtain ⟨record, hrecord⟩ := hproper.here
  exact hnode ▸ readNode_does hrecord

/-- A node outside what was touched reads as before. -/
theorem reread_does (hkeeps : Keeps touched a b)
    (hproper : Proper a.records (.node l offset r)) (hout : offset ∉ touched)
    (hnode : a.node offset = node) : Does Shows (readNode offset) b node b :=
  read_does (hkeeps.proper hproper) ((hkeeps.node offset hout).trans hnode)

theorem nodeHeight_does (hproper : Proper a.records t) (ht : Stored a.node t) :
    Does Shows (nodeHeight (rootOf t)) a t.height a := by
  cases t with
  | leaf => exact Does.pure 0
  | node l offset r =>
    have hne : ¬ rootOf (.node l offset r) = NO_CHILD := hproper.rootOf_ne
    rw [nodeHeight, if_neg hne]
    exact (read_does hproper ht.1).bind (Does.pure _)

theorem balance_does (height : Nat) (hl : Proper a.records l) (hr : Proper a.records r)
    (hleft : Stored a.node l) (hright : Stored a.node r) :
    Does Shows (balance ⟨rootOf l, rootOf r, height⟩) a ((l.height : Int) - r.height) a :=
  (nodeHeight_does hl hleft).bind ((nodeHeight_does hr hright).bind (Does.pure _))

theorem updateHeight_does (hproper : Proper a.records (.node l offset r))
    (hlinks : Links a l offset r) (hlow : (AvlTree.node l offset r).height ≤ 128) :
    ∃ b, Does Shows (updateHeight offset) a
        ⟨rootOf l, rootOf r, (AvlTree.node l offset r).height⟩ b ∧
      Stored b.node (.node l offset r) ∧ Keeps [offset] a b := by
  obtain ⟨record, hrecord⟩ := hproper.here
  obtain ⟨height, -, -, hnode⟩ := hlinks.node
  rw [AvlTree.height_node] at hlow
  have hgood := hproper.left.good hproper.right (Nat.succ_pos (max l.height r.height)) hlow
  have hkeeps := Keeps.setNode a offset ⟨rootOf l, rootOf r, (AvlTree.node l offset r).height⟩
  refine ⟨_, ?_, ⟨a.setNode_self _ _, ?_, ?_⟩, hkeeps⟩
  · refine (read_does hproper hnode).bind ((nodeHeight_does hproper.left hlinks.left).bind
      ((nodeHeight_does hproper.right hlinks.right).bind ?_))
    refine (Does.ensure _ (decide_eq_true (by omega))).bind ?_
    exact (writeNode_does hrecord hgood).bind (Does.pure _)
  · refine hkeeps.stored hlinks.left fun other hother => ?_
    exact fun hmem => hproper.not_mem_left (mem_singleton.mp hmem ▸ hother)
  · refine hkeeps.stored hlinks.right fun other hother => ?_
    exact fun hmem => hproper.not_mem_right (mem_singleton.mp hmem ▸ hother)

/-- A node is written over two subtrees. -/
theorem link_does (hproper : Proper a.records (.node l offset r)) (hl : Stored a.node l)
    (hr : Stored a.node r) (hpos : 0 < height) (hle : height ≤ 128) :
    ∃ b, Does Shows (writeNode offset ⟨rootOf l, rootOf r, height⟩) a () b ∧
      Links b l offset r ∧ Keeps [offset] a b := by
  obtain ⟨record, hrecord⟩ := hproper.here
  have hwrite := writeNode_does hrecord (hproper.left.good hproper.right hpos hle)
  have hkeeps := Keeps.setNode a offset ⟨rootOf l, rootOf r, height⟩
  refine ⟨_, hwrite, ⟨⟨height, hpos, hle, a.setNode_self _ _⟩, ?_, ?_⟩, hkeeps⟩
  · exact hkeeps.stored hl fun other hother hmem =>
      hproper.not_mem_left (mem_singleton.mp hmem ▸ hother)
  · exact hkeeps.stored hr fun other hother hmem =>
      hproper.not_mem_right (mem_singleton.mp hmem ▸ hother)

theorem relink_does (hproper : Proper a.records (.node l offset r)) (hl : Stored a.node l)
    (hr : Stored a.node r) (height : Nat) (hpos : 0 < height) (hle : height ≤ 128)
    (hlow : (AvlTree.node l offset r).height ≤ 128) :
    ∃ written v b, Does Shows (writeNode offset ⟨rootOf l, rootOf r, height⟩) a () written ∧
      Does Shows (updateHeight offset) written v b ∧ Stored b.node (.node l offset r) ∧
      Keeps [offset] a b := by
  obtain ⟨written, hwrite, hlinks, hkeeps⟩ := link_does hproper hl hr hpos hle
  obtain ⟨b, hb, hstored, hkeepsb⟩ := updateHeight_does (hkeeps.proper hproper) hlinks hlow
  exact ⟨written, _, b, hwrite, hb, hstored, hkeeps.trans hkeepsb⟩

/-! ## Rotations -/

theorem rotateLeft_does
    (hproper : Proper a.records (.node l offset (.node m pivot r)))
    (hlinks : Links a l offset (.node m pivot r))
    (hlow : (AvlTree.node l offset (.node m pivot r)).height ≤ 127) :
    ∃ b, Does Shows (rotateLeft offset) a pivot b ∧
      Stored b.node (.node (.node l offset m) pivot r) ∧
      Keeps (AvlTree.node l offset (.node m pivot r)).toList a b := by
  obtain ⟨height, hpos, hle, hnode⟩ := hlinks.node
  obtain ⟨hpivot, hm, hr⟩ := hlinks.right
  have hrotated : Proper a.records (.node (.node l offset m) pivot r) :=
    hproper.congr (by simp)
  have hreadPivot := read_does hproper.right hpivot
  simp only [AvlTree.height_node] at hlow hreadPivot
  -- the old root takes the middle subtree, then the pivot takes the old root
  obtain ⟨_, _, b, hwrite, hupdate, hinner, hkeeps⟩ := relink_does hrotated.left hlinks.left hm
    height hpos hle (by simp only [AvlTree.height_node]; omega)
  have hright : Stored b.node r := hkeeps.stored hr fun other hother hmem =>
    hrotated.disjoint (by simp) (mem_singleton.mp hmem ▸ hother)
  obtain ⟨_, _, c, hwrite', hupdate', hstored, hkeeps'⟩ := relink_does (hkeeps.proper hrotated)
    hinner hright (max m.height r.height + 1) (Nat.succ_pos _) (by omega)
    (by simp only [AvlTree.height_node]; omega)
  refine ⟨c, ?_, hstored, (hkeeps.mono (by simp)).trans (hkeeps'.mono (by simp))⟩
  refine (read_does hproper hnode).bind ?_
  refine (Does.ensure _ (decide_eq_true hproper.right.rootOf_ne)).bind ?_
  refine hreadPivot.bind (hwrite.bind (hupdate.bind ?_))
  exact hwrite'.bind (hupdate'.bind (Does.pure _))

theorem rotateRight_does
    (hproper : Proper a.records (.node (.node l pivot m) offset r))
    (hlinks : Links a (.node l pivot m) offset r)
    (hlow : (AvlTree.node (.node l pivot m) offset r).height ≤ 127) :
    ∃ b, Does Shows (rotateRight offset) a pivot b ∧
      Stored b.node (.node l pivot (.node m offset r)) ∧
      Keeps (AvlTree.node (.node l pivot m) offset r).toList a b := by
  obtain ⟨height, hpos, hle, hnode⟩ := hlinks.node
  obtain ⟨hpivot, hl, hm⟩ := hlinks.left
  have hrotated : Proper a.records (.node l pivot (.node m offset r)) :=
    hproper.congr (by simp)
  have hreadPivot := read_does hproper.left hpivot
  simp only [AvlTree.height_node] at hlow hreadPivot
  -- the old root takes the middle subtree, then the pivot takes the old root
  obtain ⟨_, _, b, hwrite, hupdate, hinner, hkeeps⟩ := relink_does hrotated.right hm hlinks.right
    height hpos hle (by simp only [AvlTree.height_node]; omega)
  have hleft : Stored b.node l := hkeeps.stored hl fun other hother hmem =>
    hrotated.disjoint hother (by simp [mem_singleton.mp hmem])
  obtain ⟨_, _, c, hwrite', hupdate', hstored, hkeeps'⟩ := relink_does (hkeeps.proper hrotated)
    hleft hinner (max l.height m.height + 1) (Nat.succ_pos _) (by omega)
    (by simp only [AvlTree.height_node]; omega)
  refine ⟨c, ?_, hstored, (hkeeps.mono (by simp)).trans (hkeeps'.mono (by simp))⟩
  refine (read_does hproper hnode).bind ?_
  refine (Does.ensure _ (decide_eq_true hproper.left.rootOf_ne)).bind ?_
  refine hreadPivot.bind (hwrite.bind (hupdate.bind ?_))
  exact hwrite'.bind (hupdate'.bind (Does.pure _))

/-! ## Rebalancing -/

theorem Links.ofStored (h : Stored a.node (.node l offset r))
    (hlow : (AvlTree.node l offset r).height ≤ 128) : Links a l offset r :=
  ⟨⟨_, Nat.succ_pos _, hlow, h.1⟩, h.2.1, h.2.2⟩

theorem straightenLeft_does
    (hproper : Proper a.records (.node (.node ll child lr) offset r))
    (hstored : Stored a.node (.node (.node ll child lr) offset r))
    (hlow : (AvlTree.node (.node ll child lr) offset r).height ≤ 126) :
    ∃ b, Does Shows (straightenLeft offset (a.node offset)) a () b ∧
      Links b (if (AvlTree.node ll child lr).leansRight then (AvlTree.node ll child lr).rotateLeft
        else .node ll child lr) offset r ∧
      Keeps (AvlTree.node (.node ll child lr) offset r).toList a b := by
  obtain ⟨hnode, hl, hr⟩ := hstored
  have hchild : (AvlTree.node ll child lr).height ≤ 125 := by
    rw [AvlTree.height_node] at hlow
    omega
  have hreadChild := read_does hproper.left rfl
  have hbalance := balance_does (a.node child).height hproper.left.left hproper.left.right hl.2.1
    hl.2.2
  have hchildNode : (⟨rootOf ll, rootOf lr, (a.node child).height⟩ : TreeNode) = a.node child := by
    rw [hl.1]
  rw [hchildNode] at hbalance
  by_cases hlean : ll.height < lr.height
  · -- the child is rotated and linked again
    cases lr with
    | leaf => simp at hlean
    | node m pivot rr =>
      obtain ⟨b, hrotate, hrotated, hkeeps⟩ := rotateLeft_does hproper.left
        (Links.ofStored hl (by omega)) (by omega)
      have hproper' : Proper a.records (.node (.node (.node ll child m) pivot rr) offset r) :=
        hproper.congr (by simp)
      have hreadNode := reread_does hkeeps hproper hproper.not_mem_left hnode
      have hright : Stored b.node r := hkeeps.stored hr fun other hother hmem =>
        hproper.disjoint hmem hother
      obtain ⟨c, hlink, hlinks, hkeeps'⟩ := link_does (hkeeps.proper hproper') hrotated hright
        (show 0 < (AvlTree.node (.node ll child (.node m pivot rr)) offset r).height from
          Nat.succ_pos _) (by omega)
      rw [AvlTree.leansRight, if_pos (decide_eq_true hlean)]
      refine ⟨c, ?_, hlinks, (hkeeps.mono ?_).trans (hkeeps'.mono (by simp))⟩
      · rw [hnode]
        refine hreadChild.bind (hbalance.bind ?_)
        rw [if_pos (by omega)]
        exact hrotate.bind (hreadNode.bind hlink)
      · exact fun other hother => mem_append_left _ hother
  · rw [AvlTree.leansRight, if_neg (by simpa using hlean)]
    refine ⟨a, ?_, Links.ofStored ⟨hnode, hl, hr⟩ (by omega), Keeps.refl _ _⟩
    rw [hnode]
    refine hreadChild.bind (hbalance.bind ?_)
    rw [if_neg (by omega)]
    exact Does.pure ()

theorem straightenRight_does
    (hproper : Proper a.records (.node l offset (.node rl child rr)))
    (hstored : Stored a.node (.node l offset (.node rl child rr)))
    (hlow : (AvlTree.node l offset (.node rl child rr)).height ≤ 126) :
    ∃ b, Does Shows (straightenRight offset (a.node offset)) a () b ∧
      Links b l offset (if (AvlTree.node rl child rr).leansLeft then
        (AvlTree.node rl child rr).rotateRight else .node rl child rr) ∧
      Keeps (AvlTree.node l offset (.node rl child rr)).toList a b := by
  obtain ⟨hnode, hl, hr⟩ := hstored
  have hchild : (AvlTree.node rl child rr).height ≤ 125 := by
    rw [AvlTree.height_node] at hlow
    omega
  have hreadChild := read_does hproper.right rfl
  have hbalance := balance_does (a.node child).height hproper.right.left hproper.right.right hr.2.1
    hr.2.2
  have hchildNode : (⟨rootOf rl, rootOf rr, (a.node child).height⟩ : TreeNode) = a.node child := by
    rw [hr.1]
  rw [hchildNode] at hbalance
  by_cases hlean : rr.height < rl.height
  · -- the child is rotated and linked again
    cases rl with
    | leaf => simp at hlean
    | node ll pivot m =>
      obtain ⟨b, hrotate, hrotated, hkeeps⟩ := rotateRight_does hproper.right
        (Links.ofStored hr (by omega)) (by omega)
      have hproper' : Proper a.records (.node l offset (.node ll pivot (.node m child rr))) :=
        hproper.congr (by simp)
      have hreadNode := reread_does hkeeps hproper hproper.not_mem_right hnode
      have hleft : Stored b.node l := hkeeps.stored hl fun other hother hmem =>
        hproper.disjoint hother hmem
      obtain ⟨c, hlink, hlinks, hkeeps'⟩ := link_does (hkeeps.proper hproper') hleft hrotated
        (show 0 < (AvlTree.node l offset (.node (.node ll pivot m) child rr)).height from
          Nat.succ_pos _) (by omega)
      rw [AvlTree.leansLeft, if_pos (decide_eq_true hlean)]
      refine ⟨c, ?_, hlinks, (hkeeps.mono ?_).trans (hkeeps'.mono (by simp))⟩
      · rw [hnode]
        refine hreadChild.bind (hbalance.bind ?_)
        rw [if_pos (by omega)]
        exact hrotate.bind (hreadNode.bind hlink)
      · exact fun other hother => mem_append_right _ (mem_cons_of_mem _ hother)
  · rw [AvlTree.leansLeft, if_neg (by simpa using hlean)]
    refine ⟨a, ?_, Links.ofStored ⟨hnode, hl, hr⟩ (by omega), Keeps.refl _ _⟩
    rw [hnode]
    refine hreadChild.bind (hbalance.bind ?_)
    rw [if_neg (by omega)]
    exact Does.pure ()

theorem rotateRight_tree (hproper : Proper a.records (.node l offset r))
    (hlinks : Links a l offset r) (hlow : (AvlTree.node l offset r).height ≤ 127) (hl : l ≠ .leaf) :
    ∃ b, Does Shows (rotateRight offset) a (rootOf (AvlTree.node l offset r).rotateRight) b ∧
      Stored b.node (AvlTree.node l offset r).rotateRight ∧
      Keeps (AvlTree.node l offset r).toList a b := by
  cases l with
  | leaf => exact absurd rfl hl
  | node ll pivot m => exact rotateRight_does hproper hlinks hlow

theorem rotateLeft_tree (hproper : Proper a.records (.node l offset r))
    (hlinks : Links a l offset r) (hlow : (AvlTree.node l offset r).height ≤ 127) (hr : r ≠ .leaf) :
    ∃ b, Does Shows (rotateLeft offset) a (rootOf (AvlTree.node l offset r).rotateLeft) b ∧
      Stored b.node (AvlTree.node l offset r).rotateLeft ∧
      Keeps (AvlTree.node l offset r).toList a b := by
  cases r with
  | leaf => exact absurd rfl hr
  | node m pivot rr => exact rotateLeft_does hproper hlinks hlow

/-- **Rebalancing a node** leaves the rebalanced tree. -/
theorem rebalance_does (hproper : Proper a.records (.node l offset r))
    (hlinks : Links a l offset r) (hlow : (AvlTree.node l offset r).height ≤ 126) :
    ∃ b, Does Shows (rebalance offset) a (rootOf (AvlTree.node l offset r).rebalance) b ∧
      Stored b.node (AvlTree.node l offset r).rebalance ∧
      Keeps (AvlTree.node l offset r).toList a b := by
  obtain ⟨b, hupdate, hstored, hkeeps⟩ := updateHeight_does hproper hlinks (by omega)
  have hkeeps : Keeps (AvlTree.node l offset r).toList a b := hkeeps.mono (by simp)
  have hproperb := hkeeps.proper hproper
  have hbalance := balance_does (AvlTree.node l offset r).height hproperb.left hproperb.right
    hstored.2.1 hstored.2.2
  rw [← hstored.1] at hupdate hbalance
  rw [AvlTree.rebalance]
  by_cases hheavy : r.height + 1 < l.height
  · rw [if_pos hheavy]
    cases l with
    | leaf => simp at hheavy
    | node ll child lr =>
      obtain ⟨c, hstraight, hlinksc, hkeepsc⟩ := straightenLeft_does hproperb hstored hlow
      generalize hl : (if (AvlTree.node ll child lr).leansRight then
        (AvlTree.node ll child lr).rotateLeft else .node ll child lr) = l' at hlinksc ⊢
      have hsame : l'.toList = (AvlTree.node ll child lr).toList := by
        rw [← hl]
        split <;> simp
      have hheight : l'.height ≤ (AvlTree.node ll child lr).height + 1 := by
        rw [← hl]
        split
        · exact AvlTree.height_rotateLeft_le _
        · omega
      have hnonempty : l' ≠ .leaf := by
        intro hleaf
        rw [hleaf] at hsame
        simp at hsame
      have hproperc : Proper c.records (.node l' offset r) :=
        (hkeepsc.proper hproperb).congr (by rw [AvlTree.toList_node, hsame]; rfl)
      obtain ⟨d, hrotate, hrotated, hkeepsd⟩ := rotateRight_tree hproperc hlinksc
        (by rw [AvlTree.height_node] at hlow ⊢; omega) hnonempty
      rw [AvlTree.toList_node, hsame] at hkeepsd
      refine ⟨d, ?_, hrotated, (hkeeps.trans hkeepsc).trans hkeepsd⟩
      refine hupdate.bind (hbalance.bind ?_)
      rw [if_pos (by omega)]
      exact hstraight.bind hrotate
  rw [if_neg hheavy]
  by_cases hheavy' : l.height + 1 < r.height
  · rw [if_pos hheavy']
    cases r with
    | leaf => simp at hheavy'
    | node rl child rr =>
      obtain ⟨c, hstraight, hlinksc, hkeepsc⟩ := straightenRight_does hproperb hstored hlow
      generalize hr : (if (AvlTree.node rl child rr).leansLeft then
        (AvlTree.node rl child rr).rotateRight else .node rl child rr) = r' at hlinksc ⊢
      have hsame : r'.toList = (AvlTree.node rl child rr).toList := by
        rw [← hr]
        split <;> simp
      have hheight : r'.height ≤ (AvlTree.node rl child rr).height + 1 := by
        rw [← hr]
        split
        · exact AvlTree.height_rotateRight_le _
        · omega
      have hnonempty : r' ≠ .leaf := by
        intro hleaf
        rw [hleaf] at hsame
        simp at hsame
      have hproperc : Proper c.records (.node l offset r') :=
        (hkeepsc.proper hproperb).congr (by rw [AvlTree.toList_node, hsame]; rfl)
      obtain ⟨d, hrotate, hrotated, hkeepsd⟩ := rotateLeft_tree hproperc hlinksc
        (by rw [AvlTree.height_node] at hlow ⊢; omega) hnonempty
      rw [AvlTree.toList_node, hsame] at hkeepsd
      refine ⟨d, ?_, hrotated, (hkeeps.trans hkeepsc).trans hkeepsd⟩
      refine hupdate.bind (hbalance.bind ?_)
      rw [if_neg (by omega), if_pos (by omega)]
      exact hstraight.bind hrotate
  · rw [if_neg hheavy']
    refine ⟨b, ?_, hstored, hkeeps⟩
    refine hupdate.bind (hbalance.bind ?_)
    rw [if_neg (by omega), if_neg (by omega)]
    exact Does.pure _

end Records

end Ish.Fs
