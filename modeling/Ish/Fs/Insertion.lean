import Ish.Fs.TreeIndex

/-!
# Insertion into the tree of the spool

The code goes down with a list of the nodes it passed, hangs the new offset
under the last of them and climbs back, rebalancing node by node. Seen through
the nodes this is the recursive insertion of the tree: by induction on the tree,
for any list of ancestors still to be climbed.
-/

namespace Ish.Fs

open Ish.Lib List
open EState (Does)
open UnixPath (Path)

/-- `goRight` is what the descent decides at the records of the tree. -/
def Guides (records : List Record) (path : Path) (goRight : Nat → Bool) (t : AvlTree Nat) : Prop :=
  ∀ offset ∈ t.toList, ∀ record, recordAt records offset = some record →
    decide (UnixPath.order record.source path ≠ .gt) = goRight offset

/-- The new offset is that of a record, with a node of its own. -/
structure Fresh (a : Spool) (new : Nat) (t : AvlTree Nat) : Prop where
  known : ∃ record, recordAt a.records new = some record
  node : a.node new = .single
  other : new ∉ t.toList

theorem Proper.insert {records t t' new}
    (h : Proper records t) (hknown : ∃ record, recordAt records new = some record)
    (hnew : new ∉ t.toList) (hperm : t'.toList.Perm (new :: t.toList)) : Proper records t' where
  small := h.small
  known := by
    intro offset hoffset
    rcases mem_cons.mp (hperm.mem_iff.mp hoffset) with rfl | hmem
    · exact hknown
    · exact h.known offset hmem
  nodup := hperm.nodup_iff.mpr (nodup_cons.mpr ⟨hnew, h.nodup⟩)

namespace Records

/-- What is left of the climb when a subtree has got a new root. -/
def attachTo (subtree : Nat) : List (Nat × Bool) → Spooling Unit
  | [] => modify fun s => { s with root := subtree }
  | (parent, right) :: rest => do
    let node ← readNode parent
    writeNode parent (node.withChild right subtree)
    climb ((parent, right) :: rest)

theorem climb_cons (current : Nat) (side : Bool) (rest : List (Nat × Bool)) :
    climb ((current, side) :: rest) =
      rebalance current >>= fun subtree => attachTo subtree rest := by
  cases rest <;> rfl

variable {a : Spool} {l r t : AvlTree Nat} {offset new : Nat} {path : Path}

theorem climb_does (hproper : Proper a.records (.node l offset r)) (hlinks : Links a l offset r)
    (hlow : (AvlTree.node l offset r).height ≤ 126) :
    ∃ b, Stored b.node (AvlTree.node l offset r).rebalance ∧
      Keeps (AvlTree.node l offset r).toList a b ∧
      ∀ (side : Bool) (stack : List (Nat × Bool)) (c : Spool),
        Does Shows (attachTo (rootOf (AvlTree.node l offset r).rebalance) stack) b () c →
        Does Shows (climb ((offset, side) :: stack)) a () c := by
  obtain ⟨b, hrebalance, hstored, hkeeps⟩ := rebalance_does hproper hlinks hlow
  refine ⟨b, hstored, hkeeps, fun side stack c hattach => ?_⟩
  rw [climb_cons]
  exact hrebalance.bind hattach

theorem hang_does (hproper : Proper a.records (.node l offset r)) (hl : Stored a.node l)
    (hr : Stored a.node r) {height} (hpos : 0 < height) (hle : height ≤ 128)
    (hlow : (AvlTree.node l offset r).height ≤ 126) :
    ∃ b c, Does Shows (writeNode offset ⟨rootOf l, rootOf r, height⟩) a () b ∧
      Stored c.node (AvlTree.node l offset r).rebalance ∧
      Keeps (AvlTree.node l offset r).toList a c ∧
      ∀ (side : Bool) (stack : List (Nat × Bool)) (d : Spool),
        Does Shows (attachTo (rootOf (AvlTree.node l offset r).rebalance) stack) c () d →
        Does Shows (climb ((offset, side) :: stack)) b () d := by
  obtain ⟨b, hwrite, hlinks, hkeeps⟩ := link_does hproper hl hr hpos hle
  obtain ⟨c, hstored, hkeeps', hclimb⟩ := climb_does (hkeeps.proper hproper) hlinks hlow
  exact ⟨b, c, hwrite, hstored, (hkeeps.mono (by simp)).trans hkeeps', hclimb⟩

theorem stored_single (h : a.node new = .single) : Stored a.node (.node .leaf new .leaf) :=
  ⟨h, trivial, trivial⟩

/-- **Down and up again**: the climb over what the descent passed does what
remains to be done above a tree that has got the new offset. -/
theorem descend_does (goRight : Nat → Bool) (ht : t ≠ .leaf) {room}
    (stack : List (Nat × Bool)) (hproper : Proper a.records t) (hstored : Stored a.node t)
    (hbalanced : t.Balanced) (hroom : t.height ≤ room) (hlow : t.height ≤ 125)
    (hguides : Guides a.records path goRight t) (hfresh : Fresh a new t) :
    ∃ up b c, Does Shows (descend new path room (rootOf t) stack) a up b ∧
      Stored c.node (t.insert goRight new) ∧ Keeps (new :: t.toList) a c ∧
      ∀ d, Does Shows (attachTo (rootOf (t.insert goRight new)) stack) c () d →
        Does Shows (climb up) b () d := by
  induction t generalizing room stack with
  | leaf => exact absurd rfl ht
  | node l offset r ihl ihr =>
    obtain ⟨hnode, hl, hr⟩ := hstored
    obtain ⟨hbl, hbr, hleft, hright⟩ := hbalanced
    obtain ⟨record, hrecord⟩ := hproper.here
    have hread := read_does hproper hnode
    have hfound := nextPresent_does "indexed record missing" hrecord
    have hside := hguides offset (by simp) record hrecord
    have hinsert : Proper a.records ((AvlTree.node l offset r).insert goRight new) :=
      hproper.insert hfresh.known hfresh.other (AvlTree.perm_insert goRight new _)
    have hpos : 0 < (AvlTree.node l offset r).height := Nat.succ_pos _
    obtain ⟨room, rfl⟩ : ∃ k, room = k + 1 := ⟨room - 1, by omega⟩
    have hne : new ≠ offset := fun heq => hfresh.other (by simp [heq])
    have hlows : l.height ≤ 124 ∧ r.height ≤ 124 ∧ l.height ≤ room ∧ r.height ≤ room := by
      rw [AvlTree.height_node] at hlow hroom
      omega
    by_cases hgo : goRight offset = true
    · have hgrown := AvlTree.balanced_insert goRight new hbr
      have hlow' : (AvlTree.node l offset (r.insert goRight new)).height ≤ 126 := by
        rw [AvlTree.height_node]
        omega
      have hperm := AvlTree.perm_insert goRight new (.node l offset r)
      rw [AvlTree.insert, if_pos hgo] at hinsert hperm ⊢
      have hproper' : Proper a.records (.node l offset (r.insert goRight new)) :=
        hinsert.congr (AvlTree.toList_rebalance _).symm
      have hlabels : ∀ other ∈ (AvlTree.node l offset (r.insert goRight new)).toList,
          other ∈ new :: (AvlTree.node l offset r).toList := fun other hother =>
        hperm.mem_iff.mp (by rwa [AvlTree.toList_rebalance])
      by_cases hempty : r = .leaf
      · -- the new offset hangs here
        subst hempty
        obtain ⟨b, c, hwrite, hstored', hkeeps, hclimb⟩ := hang_does hproper' hl
          (stored_single hfresh.node) hpos (by omega) hlow'
        refine ⟨(offset, true) :: stack, b, c, ?_, hstored', hkeeps.mono hlabels,
          hclimb true stack⟩
        rw [descend]
        refine hread.bind (hfound.bind ?_)
        rw [hside, hgo]
        exact hwrite.bind (Does.pure _)
      · obtain ⟨up, b, c, hdown, hstoredc, hkeepsc, hclimbc⟩ := ihr hempty
          ((offset, true) :: stack) hproper.right hr hbr hlows.2.2.2 (by omega)
          (fun other hother => hguides other (by simp [hother]))
          ⟨hfresh.known, hfresh.node, fun hmem => hfresh.other (by simp [hmem])⟩
        have hreadc := reread_does hkeepsc hproper
          (fun hmem => (mem_cons.mp hmem).elim (fun heq => hne heq.symm) hproper.not_mem_right) hnode
        have hlc : Stored c.node l := hkeepsc.stored hl fun other hother hmem =>
          (mem_cons.mp hmem).elim
            (fun heq => hfresh.other (by rw [← heq]; simp [hother])) (hproper.disjoint hother)
        obtain ⟨d, e, hwrite, hstorede, hkeepse, hclimbe⟩ := hang_does (hkeepsc.proper hproper')
          hlc hstoredc hpos (by omega) hlow'
        have hroot : ¬ rootOf r = NO_CHILD := by
          cases r with
          | leaf => exact absurd rfl hempty
          | node rl child rr => exact hproper.right.rootOf_ne
        refine ⟨up, b, e, ?_, hstorede, ?_, ?_⟩
        · rw [descend]
          refine hread.bind (hfound.bind ?_)
          rw [hside, hgo]
          show Does Shows (if rootOf r = NO_CHILD then _ else _) _ _ _
          rw [if_neg hroot]
          exact hdown
        · refine (hkeepsc.mono ?_).trans (hkeepse.mono hlabels)
          intro other hother
          rcases mem_cons.mp hother with rfl | hmem
          · exact mem_cons_self
          · exact mem_cons_of_mem _ (by simp [hmem])
        · intro f hattach
          refine hclimbc f ?_
          exact hreadc.bind (hwrite.bind (hclimbe true stack f hattach))
    · have hgrown := AvlTree.balanced_insert goRight new hbl
      have hlow' : (AvlTree.node (l.insert goRight new) offset r).height ≤ 126 := by
        rw [AvlTree.height_node]
        omega
      have hperm := AvlTree.perm_insert goRight new (.node l offset r)
      rw [AvlTree.insert, if_neg hgo] at hinsert hperm ⊢
      have hproper' : Proper a.records (.node (l.insert goRight new) offset r) :=
        hinsert.congr (AvlTree.toList_rebalance _).symm
      have hlabels : ∀ other ∈ (AvlTree.node (l.insert goRight new) offset r).toList,
          other ∈ new :: (AvlTree.node l offset r).toList := fun other hother =>
        hperm.mem_iff.mp (by rwa [AvlTree.toList_rebalance])
      by_cases hempty : l = .leaf
      · -- the new offset hangs here
        subst hempty
        obtain ⟨b, c, hwrite, hstored', hkeeps, hclimb⟩ := hang_does hproper'
          (stored_single hfresh.node) hr hpos (by omega) hlow'
        refine ⟨(offset, false) :: stack, b, c, ?_, hstored', hkeeps.mono hlabels,
          hclimb false stack⟩
        rw [descend]
        refine hread.bind (hfound.bind ?_)
        rw [hside, Bool.eq_false_iff.mpr hgo]
        exact hwrite.bind (Does.pure _)
      · obtain ⟨up, b, c, hdown, hstoredc, hkeepsc, hclimbc⟩ := ihl hempty
          ((offset, false) :: stack) hproper.left hl hbl hlows.2.2.1 (by omega)
          (fun other hother => hguides other (by simp [hother]))
          ⟨hfresh.known, hfresh.node, fun hmem => hfresh.other (by simp [hmem])⟩
        have hreadc := reread_does hkeepsc hproper
          (fun hmem => (mem_cons.mp hmem).elim (fun heq => hne heq.symm) hproper.not_mem_left) hnode
        have hrc : Stored c.node r := hkeepsc.stored hr fun other hother hmem =>
          (mem_cons.mp hmem).elim
            (fun heq => hfresh.other (by rw [← heq]; simp [hother]))
            fun hleft => hproper.disjoint hleft hother
        obtain ⟨d, e, hwrite, hstorede, hkeepse, hclimbe⟩ := hang_does (hkeepsc.proper hproper')
          hstoredc hrc hpos (by omega) hlow'
        have hroot : ¬ rootOf l = NO_CHILD := by
          cases l with
          | leaf => exact absurd rfl hempty
          | node ll child lr => exact hproper.left.rootOf_ne
        refine ⟨up, b, e, ?_, hstorede, ?_, ?_⟩
        · rw [descend]
          refine hread.bind (hfound.bind ?_)
          rw [hside, Bool.eq_false_iff.mpr hgo]
          show Does Shows (if rootOf l = NO_CHILD then _ else _) _ _ _
          rw [if_neg hroot]
          exact hdown
        · refine (hkeepsc.mono ?_).trans (hkeepse.mono hlabels)
          intro other hother
          rcases mem_cons.mp hother with rfl | hmem
          · exact mem_cons_self
          · exact mem_cons_of_mem _ (by simp [hmem])
        · intro f hattach
          refine hclimbc f ?_
          exact hreadc.bind (hwrite.bind (hclimbe false stack f hattach))

end Records

end Ish.Fs
