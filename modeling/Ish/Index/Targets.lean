import Ish.Index.Subtree

/-!
# The targets of a plan

`create_plan` returns for every index whose links agree. The targets of a plan it
accepts are the nodes of the subtrees of the selected nodes, each once, and all
of them are complete.
-/

namespace Ish.Index

open Ish.Lib.Forest List

variable {t : Tree}

/-! ## Selecting -/

theorem unique_spec (selected : List NodeId) :
    (unique selected).Nodup ∧ ∀ id, id ∈ unique selected ↔ id ∈ selected := by
  have hloop : ∀ (rest before : List NodeId), before.Nodup →
      (rest.foldl (fun unique id => if id ∈ unique then unique else unique ++ [id]) before).Nodup ∧
        ∀ id, id ∈ rest.foldl (fun unique id => if id ∈ unique then unique else unique ++ [id]) before
          ↔ id ∈ before ∨ id ∈ rest := by
    intro rest
    induction rest with
    | nil => exact fun before hbefore => ⟨hbefore, fun id => by simp⟩
    | cons first rest ih =>
      intro before hbefore
      rw [foldl_cons]
      split
      · rename_i hmem
        refine ⟨(ih before hbefore).1, fun id => ?_⟩
        rw [(ih before hbefore).2, mem_cons]
        constructor
        · exact Or.imp_right .inr
        · rintro (h | rfl | h)
          · exact .inl h
          · exact .inl hmem
          · exact .inr h
      · rename_i hmem
        have hnodup : (before ++ [first]).Nodup := by
          rw [nodup_append]
          refine ⟨hbefore, nodup_singleton first, fun a ha b hb hab => hmem ?_⟩
          rw [← mem_singleton.mp hb, ← hab]
          exact ha
        refine ⟨(ih _ hnodup).1, fun id => ?_⟩
        rw [(ih _ hnodup).2, mem_append, mem_singleton, mem_cons, or_assoc]
  obtain ⟨hnodup, hmem⟩ := hloop selected [] nodup_nil
  exact ⟨hnodup, fun id => (hmem id).trans (by simp)⟩

theorem Tree.selectedAbove_iff (hl : t.Linked) {selected} {fuel : Nat} {node : NodeId}
    (hnode : node < t.nodes.length) (hfuel : node < fuel) :
    t.selectedAbove selected fuel (some node) = true ↔ ∃ a ∈ selected, t.Above a node := by
  induction fuel generalizing node with
  | zero => exact absurd hfuel (Nat.not_lt_zero node)
  | succ fuel ih =>
    have hparent : (t.record node).bind (·.parent) = t.parentOf node := rfl
    rw [selectedAbove, hparent]
    split
    · rename_i hmem
      exact iff_of_true rfl ⟨node, hmem, .refl node⟩
    · rename_i hmem
      cases hp : t.parentOf node with
      | none =>
        refine iff_of_false (by cases fuel <;> exact Bool.false_ne_true) ?_
        rintro ⟨a, ha, habove⟩
        rw [Tree.Above, above_iff, hp] at habove
        obtain rfl : a = node := by simpa using habove
        exact hmem ha
      | some p =>
        have hlt := hl.rising node p hp
        have hfuel' : p < fuel := Nat.lt_of_lt_of_le hlt (Nat.le_of_lt_succ hfuel)
        rw [ih (Nat.lt_trans hlt hnode) hfuel']
        refine exists_congr fun a => and_congr_right fun ha => ?_
        rw [Tree.Above, Tree.Above, above_iff_of_parent hp]
        refine ⟨.inr, Or.rec (fun heq => ?_) id⟩
        exact absurd (heq ▸ ha) hmem

theorem Tree.not_above_of_passed (hl : t.Linked) {selected id a}
    (h : t.has_selected_ancestor selected id = false)
    (ha : a ∈ selected) (habove : t.Above a id) : a = id := by
  rcases above_iff.mp habove with heq | ⟨p, hp, hup⟩
  · exact heq
  · have hlt := hl.parent_lt hp
    have htrue := (selectedAbove_iff hl hlt hlt).mpr ⟨a, ha, hup⟩
    have hparent : (t.record id).bind (·.parent) = some p := hp
    rw [has_selected_ancestor, hparent, htrue] at h
    cases h

/-! ## Rejecting -/

/-- A node that is not rejected. -/
structure Passed (t : Tree) (seen : List NodeId) (id : NodeId) : Prop where
  lt : id < t.nodes.length
  entry : ¬ (id = t.root ∨ ∃ r, t.record id = some r ∧ r.entry_type = .Root)
  alone : t.has_selected_ancestor seen id = false
  completed : ∀ x, t.Reach id x → t.Completed x

theorem reject_spec (hl : t.Linked) (seen : List NodeId) (id : NodeId) :
    ∃ rejection, reject t seen id = some rejection ∧ (rejection = none ↔ Passed t seen id) := by
  rw [reject]
  cases hr : t.record id with
  | none =>
    refine ⟨_, rfl, iff_of_false nofun fun hpassed => ?_⟩
    obtain ⟨r, hr'⟩ := t.exists_record hpassed.lt
    rw [hr] at hr'
    cases hr'
  | some r =>
    simp only
    split
    · rename_i hroot
      exact ⟨_, rfl, iff_of_false nofun fun hpassed =>
        hpassed.entry (hroot.imp_right fun htype => ⟨r, hr, htype⟩)⟩
    · rename_i hentry
      have hentry : ¬ (id = t.root ∨ ∃ r, t.record id = some r ∧ r.entry_type = .Root) := by
        rintro (hroot | ⟨r', hr', htype⟩)
        · exact hentry (.inl hroot)
        · obtain rfl : r = r' := Option.some.inj (hr.symm.trans hr')
          exact hentry (.inr htype)
      split
      · rename_i habove
        refine ⟨_, rfl, iff_of_false nofun fun hpassed => ?_⟩
        rw [hpassed.alone] at habove
        cases habove
      · rename_i halone
        obtain ⟨reason, hreason, hcompleted⟩ := Tree.ineligible_reason_eq hl hr
        rw [hreason]
        refine ⟨_, rfl, ?_⟩
        rw [Option.map_eq_none_iff, hcompleted]
        refine ⟨fun hall => ?_, Passed.completed⟩
        exact ⟨Tree.record_lt hr, hentry, Bool.eq_false_iff.mpr halone, hall⟩

theorem rejects_spec (hl : t.Linked) (seen ids : List NodeId) :
    ∃ refused, ids.mapM (reject t seen) = some refused ∧
      (refused.reduceOption = [] ↔ ∀ id ∈ ids, Passed t seen id) := by
  induction ids with
  | nil => exact ⟨[], rfl, iff_of_true rfl nofun⟩
  | cons id ids ih =>
    obtain ⟨rejection, hrejection, hpassed⟩ := reject_spec hl seen id
    obtain ⟨refused, hrefused, hall⟩ := ih
    refine ⟨rejection :: refused, by rw [mapM_cons, hrejection, hrefused]; rfl, ?_⟩
    rw [forall_mem_cons, ← hpassed, ← hall]
    cases rejection with
    | some rejection => exact iff_of_false nofun fun h => nomatch h.1
    | none => exact ⟨fun hnone => ⟨rfl, hnone⟩, And.right⟩

/-! ## Collecting -/

/-- The bytes of the nodes, added without a bound. -/
def Tree.bytesOf (t : Tree) (bytes : NodeRecord → UInt64) (nodes : List NodeId) : Nat :=
  (nodes.map fun n => ((t.record n).elim 0 bytes).toNat).sum

theorem Tree.bytesOf_cons {root r} (hr : t.record root = some r)
    (bytes : NodeRecord → UInt64) (roots : List NodeId) :
    t.bytesOf bytes (root :: roots) = (bytes r).toNat + t.bytesOf bytes roots := by
  rw [bytesOf, map_cons, sum_cons, hr, Option.elim_some, bytesOf]

theorem checked_add_spec (a b : UInt64) :
    (checked_add a b = none ∧ 2 ^ 64 ≤ a.toNat + b.toNat) ∨
      ∃ c, checked_add a b = some c ∧ c.toNat = a.toNat + b.toNat := by
  rw [checked_add]
  split
  · rename_i hfits
    exact .inr ⟨a + b, rfl, by rw [UInt64.toNat_add, Nat.mod_eq_of_lt hfits]⟩
  · rename_i hfits
    exact .inl ⟨rfl, Nat.not_lt.mp hfits⟩

/-- What the last loop makes of a plan: it adds the subtrees of the roots, and their bytes. -/
structure Collected (t : Tree) (roots : List NodeId) (plan plan' : DeletionPlan) : Prop where
  same_roots : plan'.roots = plan.roots
  same_tree : plan'.tree = plan.tree
  apparent : plan'.apparent_bytes.toNat =
    plan.apparent_bytes.toNat + t.bytesOf NodeRecord.apparent_bytes roots
  allocated : plan'.allocated_bytes.toNat =
    plan.allocated_bytes.toNat + t.bytesOf NodeRecord.allocated_bytes roots
  targets : ∃ out, plan'.targets = plan.targets ++ out ∧ out.Perm (roots.flatMap t.subtreeOf) ∧
    ∀ root ∈ roots, ∃ part, part.Sublist out ∧ part.Perm (t.subtreeOf root) ∧ t.Ordered part

theorem collect_spec (hl : t.Linked) {roots : List NodeId} (plan : DeletionPlan)
    (hroots : ∀ root ∈ roots, root < t.nodes.length) :
    ∃ result, collect t roots plan = some result ∧
      (∀ plan', result = .ok plan' → Collected t roots plan plan') ∧
      ((∀ plan', result ≠ .ok plan') →
        2 ^ 64 ≤ plan.apparent_bytes.toNat + t.bytesOf NodeRecord.apparent_bytes roots ∨
        2 ^ 64 ≤ plan.allocated_bytes.toNat + t.bytesOf NodeRecord.allocated_bytes roots) := by
  induction roots generalizing plan with
  | nil =>
    refine ⟨_, rfl, ?_, fun hnone => absurd rfl (hnone plan)⟩
    rintro _ ⟨⟩
    exact ⟨rfl, rfl, rfl, rfl, [], (append_nil _).symm, .nil, nofun⟩
  | cons root roots ih =>
    have hroot := hroots root mem_cons_self
    obtain ⟨r, hr⟩ := t.exists_record hroot
    rw [collect, t.bytesOf_cons hr, t.bytesOf_cons hr, ← Nat.add_assoc, ← Nat.add_assoc]
    simp only [hr, Option.bind_eq_bind, Option.bind_some]
    rcases checked_add_spec plan.apparent_bytes r.apparent_bytes with
      ⟨hadd, hover⟩ | ⟨apparent_bytes, hadd, happarent⟩
    · rw [hadd]
      exact ⟨_, rfl, nofun, fun _ => .inl (hover.trans (Nat.le_add_right _ _))⟩
    rcases checked_add_spec plan.allocated_bytes r.allocated_bytes with
      ⟨hadd', hover⟩ | ⟨allocated_bytes, hadd', hallocated⟩
    · rw [hadd, hadd']
      exact ⟨_, rfl, nofun, fun _ => .inr (hover.trans (Nat.le_add_right _ _))⟩
    obtain ⟨out, hout, hperm, hordered⟩ := Tree.append_postorder_eq hl hroot plan.targets
    rw [hadd, hadd']
    simp only [hout, Option.bind_some]
    obtain ⟨result, hresult, hspec, hfits⟩ := ih
      { plan with apparent_bytes, allocated_bytes, targets := plan.targets ++ out }
      fun other hother => hroots other (mem_cons_of_mem _ hother)
    simp only [happarent, hallocated] at hspec hfits
    refine ⟨result, hresult, fun plan' hplan => ?_, hfits⟩
    obtain ⟨hroots', htree, hsum, hsum', more, hmore, hperm', hparts⟩ := hspec plan' hplan
    simp only at hmore hsum hsum'
    rw [happarent] at hsum
    rw [hallocated] at hsum'
    refine ⟨hroots', htree, ?_, ?_, out ++ more, by rw [hmore, append_assoc], ?_, ?_⟩
    · rw [hsum, t.bytesOf_cons hr, Nat.add_assoc]
    · rw [hsum', t.bytesOf_cons hr, Nat.add_assoc]
    · rw [flatMap_cons]
      exact hperm.append hperm'
    · refine forall_mem_cons.mpr ⟨⟨out, sublist_append_left out more, hperm, hordered⟩,
        fun other hother => ?_⟩
      obtain ⟨part, hpart, hrest⟩ := hparts other hother
      exact ⟨part, hpart.trans (sublist_append_right out more), hrest⟩

/-- What `create_plan` asks of a selection before it adds its bytes. -/
structure Accepted (t : Tree) (selected : List NodeId) : Prop where
  nonempty : selected ≠ []
  passed : ∀ id ∈ selected, Passed t (unique selected) id
  root_complete : t.Completed t.root

/-- **`create_plan`** returns. It has a plan for an accepted selection whose bytes fit, and for
no other. -/
theorem create_plan_outcome (hl : t.Linked) (selected : List NodeId) :
    ∃ result, create_plan t selected = some result ∧
      (∀ plan, result = .ok plan → Accepted t selected ∧
        Collected t (unique selected) ⟨t, unique selected, [], 0, 0⟩ plan) ∧
      (Accepted t selected → (∀ plan, result ≠ .ok plan) →
        2 ^ 64 ≤ t.bytesOf NodeRecord.apparent_bytes (unique selected) ∨
        2 ^ 64 ≤ t.bytesOf NodeRecord.allocated_bytes (unique selected)) := by
  obtain ⟨-, hmem⟩ := unique_spec selected
  obtain ⟨refused, hrefused, hpassed⟩ := rejects_spec hl (unique selected) (unique selected)
  obtain ⟨r, hr, -⟩ := hl.root_record
  have hpassed' : refused.reduceOption = [] ↔ ∀ id ∈ selected, Passed t (unique selected) id :=
    hpassed.trans (forall_congr' fun id => by rw [hmem])
  have hempty : (unique selected).isEmpty = selected.isEmpty := by
    rw [Bool.eq_iff_iff, List.isEmpty_iff, List.isEmpty_iff, eq_nil_iff_forall_not_mem,
      eq_nil_iff_forall_not_mem]
    exact forall_congr' fun id => not_congr (hmem id)
  have hcomplete : t.Completed t.root ↔ r.state = .Complete :=
    Tree.completed_iff (by rw [hl.root, hr])
  rw [create_plan]
  simp only [hrefused, hl.root, hr, Option.bind_eq_bind, Option.bind_some, hempty]
  generalize hnothing : (if selected.isEmpty = true then _ else _ : List Rejection) = none_selected
  generalize hscan : (if (_ && _) = true then _ else _ : List Rejection) = root_incomplete
  have hnothing' : none_selected = [] ↔ selected ≠ [] := by
    rw [← hnothing, ite_eq_right_iff, List.isEmpty_iff]
    exact forall_congr' fun _ => iff_of_false (cons_ne_nil _ _) id
  have hscan' : selected ≠ [] → (root_incomplete = [] ↔ r.state = .Complete) := by
    intro hne
    rw [← hscan, isEmpty_eq_false_iff.mpr hne, ite_eq_right_iff, Bool.not_false, Bool.true_and,
      decide_eq_true_eq]
    exact (forall_congr' fun _ => iff_of_false (cons_ne_nil _ _) id).trans not_not
  split
  · rename_i hrejected
    refine ⟨_, rfl, nofun, fun haccepted => absurd hrejected ?_⟩
    rw [hnothing'.mpr haccepted.nonempty, hpassed'.mpr haccepted.passed,
      (hscan' haccepted.nonempty).mpr (hcomplete.mp haccepted.root_complete)]
    decide
  · rename_i hnone
    rw [Bool.not_eq_true', Bool.not_eq_false, List.isEmpty_iff, append_eq_nil_iff,
      append_eq_nil_iff] at hnone
    obtain ⟨⟨hselected, hreduced⟩, hroot⟩ := hnone
    have hnonempty := hnothing'.mp hselected
    have haccepted : Accepted t selected :=
      ⟨hnonempty, hpassed'.mp hreduced, hcomplete.mpr ((hscan' hnonempty).mp hroot)⟩
    obtain ⟨result, hresult, hspec, hfits⟩ := collect_spec hl ⟨t, unique selected, [], 0, 0⟩
      fun root hroot => (hpassed.mp hreduced root hroot).lt
    refine ⟨result, hresult, fun plan hplan => ⟨haccepted, hspec plan hplan⟩, fun _ hno => ?_⟩
    have hover := hfits hno
    rwa [UInt64.toNat_zero, Nat.zero_add, Nat.zero_add] at hover

/-- **The targets** of a plan are what the selected nodes reach, each once, and they are
complete. -/
theorem create_plan_spec (hl : t.Linked) (selected : List NodeId) :
    ∃ result, create_plan t selected = some result ∧ ∀ plan, result = .ok plan →
      (∀ n, n ∈ plan.targets ↔ ∃ root ∈ selected, t.Reach root n) ∧ plan.targets.Nodup ∧
        ∀ n ∈ plan.targets, t.Completed n := by
  obtain ⟨hnodup, hmem⟩ := unique_spec selected
  obtain ⟨result, hresult, hplans, -⟩ := create_plan_outcome hl selected
  refine ⟨result, hresult, fun plan hplan => ?_⟩
  obtain ⟨haccepted, hcollected⟩ := hplans plan hplan
  have hpass : ∀ root ∈ unique selected, Passed t (unique selected) root :=
    fun root hroot => haccepted.passed root ((hmem root).mp hroot)
  obtain ⟨out, htargets, hperm, -⟩ := hcollected.targets
  rw [nil_append] at htargets
  have hmem' : ∀ n, n ∈ out ↔ ∃ root ∈ selected, t.Reach root n := by
    intro n
    rw [hperm.mem_iff, mem_flatMap]
    refine exists_congr fun root => ?_
    rw [hmem]
    exact and_congr_right fun hroot => Tree.mem_subtreeOf (haccepted.passed root hroot).lt
  rw [htargets]
  refine ⟨hmem', hperm.nodup_iff.mpr ?_, fun n hn => ?_⟩
  · rw [nodup_flatMap]
    refine ⟨fun root _ => t.nodup_subtreeOf root, hnodup.imp_of_mem fun {a b} ha hb hne => ?_⟩
    refine disjoint_left.mpr fun x hx hx' => ?_
    rw [Tree.mem_subtreeOf (hpass a ha).lt] at hx
    rw [Tree.mem_subtreeOf (hpass b hb).lt] at hx'
    rcases hx.above.linear hx'.above with habove | habove
    · exact hne (Tree.not_above_of_passed hl (hpass b hb).alone ha habove)
    · exact hne (Tree.not_above_of_passed hl (hpass a ha).alone hb habove).symm
  · obtain ⟨root, hroot, hreach⟩ := (hmem' n).mp hn
    exact (haccepted.passed root hroot).completed n hreach

end Ish.Index
