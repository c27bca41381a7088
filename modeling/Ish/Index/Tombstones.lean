import Ish.Index.Removal

/-!
# The walk that removes a subtree

From a node, `tombstone_subtree` goes to the first child, to the next sibling or
back up to the next sibling of what is above. It marks each node that is not
removed yet, once, and goes around the subtrees that are.
-/

namespace Ish.Index

open Ish.Lib.Forest List Option

namespace Tree

variable {t t' : Tree} {n x c id : NodeId}

/-! ## The node after a subtree -/

theorem nextAfter_root (t : Tree) (root : NodeId) (fuel : Nat) : t.nextAfter root fuel root = none := by
  cases fuel with
  | zero => rfl
  | succ fuel => rw [nextAfter, if_pos rfl]

theorem nextAfter_fuel (hl : t.Linked) {root} {fuel fuel' : Nat} (h : n < fuel)
    (h' : n < fuel') : t.nextAfter root fuel n = t.nextAfter root fuel' n := by
  induction fuel generalizing n fuel' with
  | zero => exact absurd h (Nat.not_lt_zero n)
  | succ fuel ih =>
    cases fuel' with
    | zero => exact absurd h' (Nat.not_lt_zero n)
    | succ fuel' =>
      rw [nextAfter, nextAfter]
      split
      · rfl
      · cases hr : t.record n with
        | none => rfl
        | some r =>
          dsimp only
          cases r.next_sibling with
          | some sibling => rfl
          | none =>
            cases hp : r.parent with
            | none => rfl
            | some p =>
              have hparent : t.parentOf n = some p := by rw [parentOf, hr, bind_some, hp]
              have hlt := hl.rising n p hparent
              exact ih (Nat.lt_of_lt_of_le hlt (Nat.le_of_lt_succ h))
                (Nat.lt_of_lt_of_le hlt (Nat.le_of_lt_succ h'))

theorem after_root (t : Tree) (root : NodeId) : t.next_sibling_after_subtree root root = none :=
  t.nextAfter_root root _

theorem after_eq (hl : t.Linked) {root p} (hne : n ≠ root) (hp : t.parentOf n = some p) :
    t.next_sibling_after_subtree n root =
      (t.nextOf n).or (t.next_sibling_after_subtree p root) := by
  have hn := parentOf_lt hp
  obtain ⟨r, hr⟩ := t.exists_record hn
  have hlt := hl.rising n p hp
  have hparent : r.parent = some p := by rwa [parentOf, hr, bind_some] at hp
  have hnext : t.nextOf n = r.next_sibling := by rw [nextOf, hr, bind_some]
  obtain ⟨fuel, hfuel⟩ := Nat.exists_eq_succ_of_ne_zero (Nat.ne_of_gt (Nat.zero_lt_of_lt hn))
  rw [next_sibling_after_subtree, hfuel, nextAfter, if_neg hne, hr, hnext]
  dsimp only
  cases r.next_sibling with
  | some sibling => rfl
  | none =>
    rw [hparent, bind_some, none_or, next_sibling_after_subtree]
    refine nextAfter_fuel hl ?_ (Nat.lt_trans hlt hn)
    exact Nat.lt_of_lt_of_le hlt (Nat.le_of_lt_succ (hfuel ▸ hn))

theorem SameShape.nextAfter (h : SameShape t t') (root : NodeId) (fuel : Nat) (n : NodeId) :
    t'.nextAfter root fuel n = t.nextAfter root fuel n := by
  induction fuel generalizing n with
  | zero => rfl
  | succ fuel ih =>
    rw [Tree.nextAfter, Tree.nextAfter]
    split
    · rfl
    · cases hr : t.record n with
      | none =>
        have hrecord := h.record n
        rw [hr, map_none, map_eq_none_iff] at hrecord
        rw [hrecord]
      | some r =>
        obtain ⟨r', hr', hshape⟩ := h.exists_record hr
        have hnext : r'.next_sibling = r.next_sibling := congrArg (·.next_sibling) hshape
        have hparent : r'.parent = r.parent := congrArg (·.parent) hshape
        rw [hr']
        dsimp only
        rw [hnext, hparent, funext ih]

theorem SameShape.after (h : SameShape t t') (n root : NodeId) :
    t'.next_sibling_after_subtree n root = t.next_sibling_after_subtree n root := by
  rw [next_sibling_after_subtree, next_sibling_after_subtree, h.length, h.nextAfter]

/-! ## What the walk does -/

/-- From `start`, the walk marks the nodes of `P` and goes on at `stop`, in `steps` steps. -/
structure Removes (id : NodeId) (shortcut : Bool) (t : Tree) (start : Option NodeId)
    (P : NodeId → Prop) (stop : Option NodeId) (steps : Nat) : Prop where
  walk : ∀ fuel marked, tombstoneWalk id shortcut (fuel + steps) start t marked =
    tombstoneWalk id shortcut fuel stop (t.mark P) (marked + t.count fun n => P n ∧ t.Live n)
  bound : steps ≤ t.count P

namespace Removes

variable {shortcut : Bool} {start middle stop : Option NodeId} {P Q : NodeId → Prop}
  {steps steps' : Nat}

theorem congr (h : Removes id shortcut t start P stop steps) (hsame : ∀ n, P n ↔ Q n) :
    Removes id shortcut t start Q stop steps := by
  obtain rfl : P = Q := funext fun n => propext (hsame n)
  exact h

/-- One stretch of the walk after another. -/
theorem trans (h : Removes id shortcut t start P middle steps)
    (h' : Removes id shortcut (t.mark P) middle Q stop steps') (hdisjoint : ∀ n, P n → ¬ Q n) :
    Removes id shortcut t start (fun n => P n ∨ Q n) stop (steps' + steps) := by
  have hlive : ((t.mark P).count fun n => Q n ∧ (t.mark P).Live n) =
      t.count fun n => Q n ∧ t.Live n := by
    rw [(sameShape_mark t P).count]
    refine count_congr fun n => and_congr_right fun hQ => ?_
    rw [live_mark]
    exact and_iff_left fun hP => hdisjoint n hP hQ
  have hcount : (t.count fun n => (P n ∨ Q n) ∧ t.Live n) =
      (t.count fun n => P n ∧ t.Live n) + t.count fun n => Q n ∧ t.Live n := by
    rw [← count_or fun n hP hQ => hdisjoint n hP.1 hQ.1]
    exact count_congr fun n => or_and_right
  constructor
  · intro fuel marked
    rw [← Nat.add_assoc, h.walk, h'.walk, mark_mark, hlive, hcount, Nat.add_assoc]
  · rw [count_or hdisjoint, Nat.add_comm]
    have hbound := h'.bound
    rw [(sameShape_mark t P).count] at hbound
    exact Nat.add_le_add h.bound hbound

end Removes

variable {shortcut : Bool}

/-- The walk goes around what is removed already. -/
theorem removes_nothing (hn : n < t.nodes.length) (hdead : ¬ t.Live n) (hclosed : t.ClosedBelow n) :
    Removes id shortcut t (some n) (t.Above n) (t.next_sibling_after_subtree n id) 1 := by
  have hnone : ∀ x, t.Live x → ¬ t.Above n x := fun x hx habove =>
    hdead (hclosed n x (.refl n) habove hx)
  obtain ⟨r, hr⟩ := t.exists_record hn
  have hstate : r.state = .Tombstone := by
    by_contra hstate
    exact hdead ((live_iff hr).mpr hstate)
  constructor
  · intro fuel marked
    rw [mark_nothing hnone, count_zero fun x hx => hnone x hx.2 hx.1, tombstoneWalk]
    simp only [hr]
    rw [if_pos hstate]
    rfl
  · rw [← count_one hn]
    refine Set.ncard_le_ncard ?_ (t.finite_count _)
    rintro x ⟨hx, rfl⟩
    exact ⟨hx, .refl x⟩

/-- The walk marks a node, and goes on below it. -/
theorem removes_node (id : NodeId) (hr : t.record n = some r)
    (hlive : t.Live n) (hgo : ¬ (n = id ∧ shortcut = true)) :
    Removes id shortcut t (some n) (· = n)
      (r.first_child.or (t.next_sibling_after_subtree n id)) 1 := by
  have hn := record_lt hr
  have hcount : (t.count fun x => x = n ∧ t.Live x) = 1 := by
    rw [← count_one hn]
    refine count_congr fun x => and_iff_left_of_imp ?_
    rintro rfl
    exact hlive
  constructor
  · intro fuel marked
    rw [hcount, ← modify_tombstoned, tombstoneWalk]
    simp only [hr]
    rw [if_neg ((live_iff hr).mp hlive), if_neg hgo]
    cases r.first_child with
    | some child => rfl
    | none => rfl
  · rw [count_one hn]

theorem removes_children {d} {members : List NodeId}
    {first : Option NodeId} (hl : t.Linked) (hchain : Chain t.nextOf first members)
    (hparents : ∀ c ∈ members, t.parentOf c = some d) (hnodup : members.Nodup)
    (hid : ∀ c ∈ members, c ≠ id) (hclosed : ∀ c ∈ members, t.ClosedBelow c)
    (hmembers : ∀ t', SameShape t t' → ∀ c ∈ members, t'.ClosedBelow c → ∃ steps,
      Removes id shortcut t' (some c) (t'.Above c) (t'.next_sibling_after_subtree c id) steps) :
    ∃ steps, Removes id shortcut t (first.or (t.next_sibling_after_subtree d id))
      (fun x => ∃ c ∈ members, t.Above c x) (t.next_sibling_after_subtree d id) steps := by
  induction members generalizing first t with
  | nil =>
    obtain rfl := hchain
    have hnone : ∀ x, ¬ ∃ c ∈ ([] : List NodeId), t.Above c x := by
      rintro x ⟨c, hc, -⟩
      cases hc
    refine ⟨0, fun fuel marked => ?_, Nat.zero_le _⟩
    rw [mark_nothing fun x _ => hnone x, count_zero fun x hx => hnone x hx.1]
    rfl
  | cons c members ih =>
    obtain ⟨rfl, hchain⟩ := hchain
    obtain ⟨hnew, hnodup⟩ := nodup_cons.mp hnodup
    have hparent := hparents c mem_cons_self
    obtain ⟨steps, hsteps⟩ := hmembers t (.refl t) c mem_cons_self
      (hclosed c mem_cons_self)
    rw [after_eq hl (hid c mem_cons_self) hparent] at hsteps
    -- the subtree of `c` is removed; the others are as they were
    have hshape := sameShape_mark t (t.Above c)
    have hdisjoint : ∀ x, t.Above c x → ¬ ∃ c' ∈ members, t.Above c' x := by
      rintro x hx ⟨c', hc', hx'⟩
      have hne : c ≠ c' := fun heq => hnew (heq ▸ hc')
      exact hl.disjoint_siblings hparent (hparents c' (mem_cons_of_mem _ hc')) hne hx hx'
    obtain ⟨steps', hsteps'⟩ := @ih (t.mark (t.Above c)) (t.nextOf c) (hshape.linked hl)
      (hshape.nextOf.symm ▸ hchain)
      (hshape.parentOf.symm ▸ fun c hc => hparents c (mem_cons_of_mem _ hc)) hnodup
      (fun c hc => hid c (mem_cons_of_mem _ hc))
      (fun c' hc' x y hx hy hlive => by
        rw [hshape.above] at hx hy
        rw [live_mark] at hlive ⊢
        refine ⟨hclosed c' (mem_cons_of_mem _ hc') x y hx hy hlive.1, fun hcx => ?_⟩
        exact hdisjoint x hcx ⟨c', hc', hx⟩)
      (fun t' hshape' c' hc' => hmembers t' (hshape.trans hshape') c' (mem_cons_of_mem _ hc'))
    rw [hshape.after] at hsteps'
    have hboth := hsteps.trans (hsteps'.congr (Q := fun x => ∃ c ∈ members, t.Above c x) fun x =>
      exists_congr fun c' => and_congr_right fun _ => hshape.above) hdisjoint
    refine ⟨steps' + steps, hboth.congr fun x => ?_⟩
    rw [exists_mem_cons_iff]

theorem removes_below (hl : t.Linked) (hr : t.record n = some r)
    (hlive : t.Live n) (hclosed : t.ClosedBelow n) (hgo : ¬ (n = id ∧ shortcut = true))
    (hid : ¬ t.Above n id ∨ n = id)
    (hmembers : ∀ t', SameShape t t' → ∀ c ∈ t.childrenOf n, t'.ClosedBelow c → ∃ steps,
      Removes id shortcut t' (some c) (t'.Above c) (t'.next_sibling_after_subtree c id) steps) :
    ∃ steps, Removes id shortcut t (some n) (t.Above n) (t.next_sibling_after_subtree n id)
      steps := by
  have hfirst := removes_node id hr hlive hgo
  have hshape := sameShape_mark t (· = n)
  have hbelow : ∀ c ∈ t.childrenOf n, ¬ t.Above c n := fun c hc habove =>
    Nat.not_le.mpr (hl.rising c n (mem_childrenOf.mp hc)) (habove.le hl.rising)
  have hchain : Chain (t.mark (· = n)).nextOf r.first_child (t.childrenOf n) :=
    hshape.nextOf.symm ▸ hl.chain n r hr
  obtain ⟨steps, hsteps⟩ := @removes_children (t.mark (· = n)) id shortcut n (t.childrenOf n)
    r.first_child (hshape.linked hl) hchain
    (hshape.parentOf.symm ▸ fun c hc => mem_childrenOf.mp hc) (t.nodup_childrenOf n)
    (fun c hc heq => by
      have habove : t.Above n c := .of_parent (mem_childrenOf.mp hc)
      rcases hid with hid | rfl
      · exact hid (heq ▸ habove)
      · exact hbelow c hc (heq ▸ .refl c))
    (fun c hc x y hx hy hlive => by
      rw [hshape.above] at hx hy
      rw [live_mark] at hlive ⊢
      have habove : t.Above n x := (Above.of_parent (mem_childrenOf.mp hc)).trans hx
      refine ⟨hclosed x y habove hy hlive.1, ?_⟩
      rintro rfl
      exact hbelow c hc hx)
    (fun t' hshape' c hc => hmembers t' (hshape.trans hshape') c hc)
  rw [hshape.after] at hsteps
  have hdisjoint : ∀ x, x = n → ¬ ∃ c ∈ t.childrenOf n, t.Above c x := by
    rintro x rfl ⟨c, hc, habove⟩
    exact hbelow c hc habove
  have hboth := hfirst.trans (hsteps.congr (Q := fun x => ∃ c ∈ t.childrenOf n, t.Above c x)
    fun x => exists_congr fun c => and_congr_right fun _ => hshape.above) hdisjoint
  exact ⟨steps + 1, hboth.congr fun x => above_iff_children.symm⟩

/-- **A subtree** below `id` is removed, and the walk goes on behind it. -/
theorem removes_subtree (hl : t.Linked) (hn : n < t.nodes.length)
    (hid : ¬ t.Above n id) (hclosed : t.ClosedBelow n) :
    ∃ steps, Removes id shortcut t (some n) (t.Above n) (t.next_sibling_after_subtree n id)
      steps := by
  generalize hleft : t.nodes.length - n = left
  induction left using Nat.strong_induction_on generalizing n t with
  | _ left ih =>
    by_cases hlive : t.Live n
    · obtain ⟨r, hr⟩ := t.exists_record hn
      have hne : n ≠ id := fun heq => hid (heq ▸ .refl n)
      refine removes_below hl hr hlive hclosed (fun h => hne h.1) (.inl hid) ?_
      intro t' hshape c hc hclosed'
      have hparent := mem_childrenOf.mp hc
      have hlt := hl.rising c n hparent
      have hless : t'.nodes.length - c < left := by
        rw [hshape.length, ← hleft]
        exact Nat.sub_lt_sub_left hn hlt
      refine ih _ hless (hshape.linked hl) (hshape.length ▸ parentOf_lt hparent) ?_ hclosed' rfl
      rw [hshape.above]
      exact fun habove => hid ((Above.of_parent hparent).trans habove)
    · exact ⟨1, removes_nothing hn hlive hclosed⟩

/-! ## The loops around the walk -/

/-- The shortcut is taken when no child is left. -/
theorem allTombstoned_eq {members : List NodeId} {first : Option NodeId} {fuel : Nat}
    (hchain : Chain t.nextOf first members) (hmembers : ∀ c ∈ members, c < t.nodes.length)
    (hfuel : members.length ≤ fuel) :
    ∃ all, t.allTombstoned fuel first = some all ∧ (all = true → ∀ c ∈ members, ¬ t.Live c) := by
  induction members generalizing first fuel with
  | nil =>
    obtain rfl := hchain
    exact ⟨true, by rw [allTombstoned], fun _ => by rintro c ⟨⟩⟩
  | cons c members ih =>
    obtain ⟨rfl, hchain⟩ := hchain
    obtain ⟨fuel, rfl⟩ := Nat.exists_eq_add_of_le' (Nat.one_le_of_lt (Nat.lt_of_succ_le hfuel))
    obtain ⟨r, hr⟩ := t.exists_record (hmembers c mem_cons_self)
    have hnext : t.nextOf c = r.next_sibling := by rw [nextOf, hr, bind_some]
    rw [allTombstoned, hr]
    simp only [bind_eq_bind, bind_some]
    split
    · exact ⟨false, rfl, by rintro ⟨⟩⟩
    · rename_i hstate
      obtain ⟨all, hall, hdead⟩ := ih (hnext ▸ hchain)
        (fun c hc => hmembers c (mem_cons_of_mem _ hc)) (Nat.le_of_succ_le_succ hfuel)
      refine ⟨all, hall, fun htrue => forall_mem_cons.mpr ⟨?_, hdead htrue⟩⟩
      rw [live_iff hr]
      exact hstate

/-- The nodes from `node` to the root, as long as all of them have the bytes. -/
theorem lineage_eq (hl : t.Linked) (apparent allocated : UInt64) {fuel : Nat} {node : NodeId}
    (hnode : node < t.nodes.length) (hfuel : node < fuel) :
    (t.lineage apparent allocated fuel (some node) = none ∧ ∃ a r, t.Above a node ∧
      t.record a = some r ∧ (r.apparent_bytes < apparent ∨ r.allocated_bytes < allocated)) ∨
    ∃ nodes, t.lineage apparent allocated fuel (some node) = some nodes ∧ nodes.Nodup ∧
      (∀ a, a ∈ nodes ↔ t.Above a node) ∧ ∀ a ∈ nodes, ∀ r, t.record a = some r →
        apparent ≤ r.apparent_bytes ∧ allocated ≤ r.allocated_bytes := by
  induction fuel generalizing node with
  | zero => exact absurd hfuel (Nat.not_lt_zero node)
  | succ fuel ih =>
    obtain ⟨r, hr⟩ := t.exists_record hnode
    have hparent : t.parentOf node = r.parent := by rw [parentOf, hr, bind_some]
    rw [lineage, hr]
    simp only [bind_eq_bind, bind_some]
    split
    · rename_i hless
      exact .inl ⟨rfl, node, r, .refl node, hr, hless⟩
    · rename_i hless
      rw [not_or, UInt64.not_lt, UInt64.not_lt] at hless
      have hself : ∀ r', t.record node = some r' →
          apparent ≤ r'.apparent_bytes ∧ allocated ≤ r'.allocated_bytes := by
        intro r' hr'
        rw [hr, some.injEq] at hr'
        exact hr' ▸ hless
      cases hp : r.parent with
      | none =>
        right
        refine ⟨[node], by rw [lineage]; rfl, nodup_singleton node, fun a => ?_, ?_⟩
        · rw [Tree.Above, above_iff, hparent, hp, mem_singleton]
          simp
        · rintro a ha
          rw [mem_singleton.mp ha]
          exact hself
      | some p =>
        have hup := hparent.trans hp
        have hlt := hl.rising node p hup
        rcases ih (Nat.lt_trans hlt hnode) (Nat.lt_of_lt_of_le hlt (Nat.le_of_lt_succ hfuel)) with
          ⟨hnone, a, r', habove, hr', hshort⟩ | ⟨nodes, hnodes, hnodup, hmem, hroom⟩
        · exact .inl ⟨by rw [hnone]; rfl, a, r', habove.trans (.of_parent hup), hr', hshort⟩
        · right
          refine ⟨node :: nodes, by rw [hnodes]; rfl, ?_, fun a => ?_, ?_⟩
          · refine nodup_cons.mpr ⟨fun hnew => ?_, hnodup⟩
            exact Nat.not_le.mpr hlt (((hmem node).mp hnew).le hl.rising)
          · rw [mem_cons, hmem, Tree.Above, Tree.Above, above_iff_of_parent hup]
          · exact forall_mem_cons.mpr ⟨hself, hroom⟩

theorem record_shrinkAll {apparent allocated nodes} (hnodup : nodes.Nodup)
    (t : Tree) (n : NodeId) : (t.shrinkAll apparent allocated nodes).record n =
      if n ∈ nodes then (t.record n).map (shrunk apparent allocated) else t.record n := by
  induction nodes generalizing t with
  | nil => rw [if_neg (not_mem_nil)]; rfl
  | cons node nodes ih =>
    obtain ⟨hnew, hnodup⟩ := nodup_cons.mp hnodup
    rw [shrinkAll, foldl_cons]
    change (shrinkAll _ apparent allocated nodes).record n = _
    rw [ih hnodup, record_modify]
    by_cases hn : node = n
    · subst hn
      rw [if_neg hnew, if_pos rfl, if_pos mem_cons_self]
    · rw [if_neg hn]
      simp only [mem_cons, Ne.symm hn, false_or]

theorem sameShape_shrinkAll (t : Tree) (apparent allocated : UInt64) (nodes : List NodeId) :
    SameShape t (t.shrinkAll apparent allocated nodes) := by
  induction nodes generalizing t with
  | nil => exact .refl t
  | cons node nodes ih =>
    rw [shrinkAll, foldl_cons]
    exact (sameShape_modify (f := shrunk apparent allocated) (fun _ => rfl) t node).trans (ih _)

/-! ## Removing -/

/-- `t'` is `t` without the subtree of `id`, and without its bytes above it. -/
structure Removed (t t' : Tree) (id : NodeId) (apparent allocated : UInt64) : Prop where
  shape : SameShape t t'
  live : ∀ n, t'.Live n ↔ t.Live n ∧ ¬ t.Above id n
  above : ∀ n r r', t.record n = some r → t'.record n = some r' → t.Above n id → n ≠ id →
    r.apparent_bytes.toNat = r'.apparent_bytes.toNat + apparent.toNat ∧
      r.allocated_bytes.toNat = r'.allocated_bytes.toNat + allocated.toNat
  beside : ∀ n r r', t.record n = some r → t'.record n = some r' → ¬ (t.Above n id ∧ n ≠ id) →
    r'.apparent_bytes = r.apparent_bytes ∧ r'.allocated_bytes = r.allocated_bytes

theorem record_shrunk (t : Tree) {apparent allocated nodes}
    (hnodup : nodes.Nodup) (P : NodeId → Prop)
    (hr : t.record n = some r)
    (hr' : ((t.mark P).shrinkAll apparent allocated nodes).record n = some r') :
    (r'.state = .Tombstone ↔ P n ∨ r.state = .Tombstone) ∧
      r'.apparent_bytes = (if n ∈ nodes then r.apparent_bytes - apparent else r.apparent_bytes) ∧
      r'.allocated_bytes = if n ∈ nodes then r.allocated_bytes - allocated else r.allocated_bytes := by
  classical
  rw [record_shrinkAll hnodup, record_mark, hr, map_some, map_some] at hr'
  by_cases hn : n ∈ nodes <;> by_cases hP : P n <;>
    simp only [hn, hP, if_true, if_false, some.injEq] at hr' <;> subst hr' <;>
    simp [hn, hP, tombstoned, shrunk]

/-- The marks and the totals together. -/
theorem removed_shrinkAll {apparent allocated nodes}
    (hnodup : nodes.Nodup) (hmem : ∀ a, a ∈ nodes ↔ t.Above a id ∧ a ≠ id)
    (hroom : ∀ a ∈ nodes, ∀ r, t.record a = some r →
      apparent ≤ r.apparent_bytes ∧ allocated ≤ r.allocated_bytes) :
    Removed t ((t.mark (t.Above id)).shrinkAll apparent allocated nodes) id apparent allocated := by
  have hshape := (sameShape_mark t (t.Above id)).trans
    (sameShape_shrinkAll (t.mark (t.Above id)) apparent allocated nodes)
  refine ⟨hshape, fun n => ?_, fun n r r' hr hr' habove hne => ?_, fun n r r' hr hr' hnot => ?_⟩
  · constructor
    · rintro ⟨r', hr', hstate⟩
      obtain ⟨r, hr, -⟩ := hshape.symm.exists_record hr'
      obtain ⟨hiff, -⟩ := record_shrunk t hnodup (t.Above id) hr hr'
      rw [Ne, hiff, not_or] at hstate
      exact ⟨⟨r, hr, hstate.2⟩, hstate.1⟩
    · rintro ⟨⟨r, hr, hstate⟩, hnot⟩
      obtain ⟨r', hr', -⟩ := hshape.exists_record hr
      obtain ⟨hiff, -⟩ := record_shrunk t hnodup (t.Above id) hr hr'
      exact ⟨r', hr', fun h => (hiff.mp h).elim hnot hstate⟩
  · obtain ⟨-, happarent, hallocated⟩ := record_shrunk t hnodup (t.Above id) hr hr'
    have hn := (hmem n).mpr ⟨habove, hne⟩
    obtain ⟨hroom, hroom'⟩ := hroom n hn r hr
    rw [happarent, hallocated, if_pos hn, if_pos hn, UInt64.toNat_sub_of_le _ _ hroom,
      UInt64.toNat_sub_of_le _ _ hroom']
    exact ⟨(Nat.sub_add_cancel (UInt64.le_iff_toNat_le.mp hroom)).symm,
      (Nat.sub_add_cancel (UInt64.le_iff_toNat_le.mp hroom')).symm⟩
  · obtain ⟨-, happarent, hallocated⟩ := record_shrunk t hnodup (t.Above id) hr hr'
    have hn : n ∉ nodes := fun hn => hnot ((hmem n).mp hn)
    rw [happarent, hallocated, if_neg hn, if_neg hn]
    exact ⟨rfl, rfl⟩

theorem tombstoneWalk_eq (hl : t.Linked) (hr : t.record id = some r)
    (hlive : t.Live id) (hclosed : t.ClosedBelow id) {all}
    (hall : all = true → ∀ c ∈ t.childrenOf id, ¬ t.Live c) :
    tombstoneWalk id all (t.nodes.length + 1) (some id) t 0 =
      (some (t.count fun n => t.Above id n ∧ t.Live n), t.mark (t.Above id)) := by
  have hremoves : ∃ steps, Removes id all t (some id) (t.Above id) none steps := by
    cases all with
    | true =>
      -- no child is left: what is below them is gone, too
      have hdead : ∀ n, t.Live n → (n = id ↔ t.Above id n) := by
        refine fun n hn => ⟨fun heq => heq ▸ .refl n, fun habove => ?_⟩
        rcases above_iff_children.mp habove with heq | ⟨c, hc, hcn⟩
        · exact heq
        · exact absurd (hclosed c n (.of_parent (mem_childrenOf.mp hc)) hcn hn) (hall rfl c hc)
      have hcount : (t.count fun n => n = id ∧ t.Live n) = t.count fun n => t.Above id n ∧ t.Live n :=
        count_congr fun n => and_congr_left fun hn => hdead n hn
      refine ⟨1, fun fuel marked => ?_, ?_⟩
      · rw [← mark_congr hdead, ← hcount, ← modify_tombstoned, tombstoneWalk]
        simp only [hr, and_self, if_true]
        rw [if_neg ((live_iff hr).mp hlive), ← count_one (record_lt hr)]
        congr 2
        refine count_congr fun n => (and_iff_left_of_imp ?_).symm
        rintro rfl
        exact hlive
      · rw [← count_one (record_lt hr)]
        refine Set.ncard_le_ncard ?_ (t.finite_count _)
        rintro n ⟨hn, rfl⟩
        exact ⟨hn, .refl n⟩
    | false =>
      rw [← t.after_root id]
      refine removes_below hl hr hlive hclosed (fun h => Bool.false_ne_true h.2) (.inr rfl) ?_
      intro t' hshape c hc hclosed'
      have hparent := mem_childrenOf.mp hc
      refine removes_subtree (hshape.linked hl) (hshape.length ▸ parentOf_lt hparent) ?_ hclosed'
      rw [hshape.above]
      exact fun habove => Nat.not_le.mpr (hl.rising c id hparent) (habove.le hl.rising)
  obtain ⟨steps, hwalk, hbound⟩ := hremoves
  obtain ⟨rest, hrest⟩ := Nat.exists_eq_add_of_le (hbound.trans (t.count_le _))
  rw [hrest, Nat.add_right_comm, Nat.add_assoc, Nat.add_comm, hwalk, Nat.zero_add, Nat.add_comm 1 rest,
    tombstoneWalk]

/-- **`tombstone_subtree`**: nothing happens for a node that cannot be removed or is removed
already; otherwise its subtree is. -/
theorem tombstone_subtree_spec (hl : t.Linked) (hclosed : t.ClosedBelow id) :
    (t.tombstone_subtree id = (none, t) ∧ (id = t.root ∨ t.record id = none ∨
      ∃ r a ra, t.record id = some r ∧ t.Live id ∧ t.Above a id ∧ a ≠ id ∧ t.record a = some ra ∧
        (ra.apparent_bytes < r.apparent_bytes ∨ ra.allocated_bytes < r.allocated_bytes))) ∨
    (t.tombstone_subtree id = (some (0, 0, 0), t) ∧ (∃ r, t.record id = some r) ∧ ¬ t.Live id) ∨
    ∃ r t', t.record id = some r ∧ t.Live id ∧
      t.tombstone_subtree id = (some (r.apparent_bytes, r.allocated_bytes,
        t.count fun n => t.Above id n ∧ t.Live n), t') ∧
      Removed t t' id r.apparent_bytes r.allocated_bytes := by
  rw [tombstone_subtree]
  split
  · rename_i hroot
    exact .inl ⟨rfl, .inl hroot⟩
  rename_i hroot
  cases hr : t.record id with
  | none => exact .inl ⟨rfl, .inr (.inl rfl)⟩
  | some r =>
    dsimp only
    split
    · rename_i hstate
      exact .inr (.inl ⟨rfl, ⟨r, rfl⟩, fun hlive => (live_iff hr).mp hlive hstate⟩)
    rename_i hstate
    have hlive := (live_iff hr).mpr hstate
    have hid := record_lt hr
    have hpos : 0 < id := Nat.pos_of_ne_zero (hl.root ▸ hroot)
    obtain ⟨p, hup⟩ := hl.parented id hpos hid
    have hparent : r.parent = some p := by rwa [parentOf, hr, bind_some] at hup
    have hlt := hl.rising id p hup
    rw [hparent]
    dsimp only
    have habove : ∀ a, t.Above a p ↔ t.Above a id ∧ a ≠ id := by
      intro a
      rw [Tree.Above, Tree.Above, above_iff_of_parent hup]
      refine ⟨fun h => ⟨.inr h, ?_⟩, fun h => h.1.resolve_left h.2⟩
      rintro rfl
      exact Nat.not_le.mpr hlt (Above.le h hl.rising)
    rcases lineage_eq hl r.apparent_bytes r.allocated_bytes (hl.parent_lt hup) (hl.parent_lt hup) with
      ⟨hnone, a, ra, ha, hra, hshort⟩ | ⟨nodes, hnodes, hnodup, hmem, hroom⟩
    · rw [hnone]
      obtain ⟨ha, hne⟩ := (habove a).mp ha
      exact .inl ⟨rfl, .inr (.inr ⟨r, a, ra, rfl, hlive, ha, hne, hra, hshort⟩)⟩
    · rw [hnodes]
      dsimp only
      have hchildren : ∀ c ∈ t.childrenOf id, c < t.nodes.length :=
        fun c hc => parentOf_lt (mem_childrenOf.mp hc)
      have hlength : (t.childrenOf id).length ≤ t.nodes.length := by
        refine (length_filter_le _ _).trans ?_
        rw [length_range]
      obtain ⟨all, hall, hdead⟩ := allTombstoned_eq (hl.chain id r hr) hchildren hlength
      rw [hall]
      dsimp only
      rw [tombstoneWalk_eq hl hr hlive hclosed hdead]
      refine .inr (.inr ⟨r, _, rfl, hlive, rfl, ?_⟩)
      refine removed_shrinkAll hnodup (fun a => (hmem a).trans (habove a)) ?_
      exact fun a ha ra hra => hroom a ha ra hra

end Tree

end Ish.Index
