import Ish.Index.Targets
import Ish.Index.Ledger

/-!
# What is deleted

`create_plan` accepts a selection when all that would be deleted is known, and the
plan it makes deletes the selected subtrees, each node behind what is below it. The
only other selections it refuses are those whose bytes do not fit.
-/

namespace Ish.Index

open Ish.Lib.Forest List

/-! ## Indexes -/

/-- An index: nodes are appended to the root and to directories, and then only states and
totals change. -/
inductive Indexed : Tree → Prop where
  | new {name : List UInt8} {identity : FileIdentity} {link_count : UInt64} {t : Tree} :
      Tree.new name identity link_count = some t → Indexed t
  | append {t t' : Tree} {parent id : NodeId} {name : List UInt8} {entry_type : EntryType}
      {identity : FileIdentity} {link_count apparent_bytes allocated_bytes : UInt64}
      {state : NodeStatus} {r : NodeRecord} :
      Indexed t → t.record parent = some r → (r.entry_type = .Root ∨ r.entry_type = .Directory) →
      entry_type ≠ .Root →
      t.append parent name entry_type identity link_count apparent_bytes allocated_bytes state =
        some (id, t') → Indexed t'
  | change {t t' : Tree} : Indexed t → t.SameShape t' → Indexed t'

/-- Only the root has its type, and only the root and directories hold anything. -/
structure Folders (t : Tree) : Prop where
  linked : t.Linked
  root_only : ∀ n r, t.record n = some r → (r.entry_type = .Root ↔ n = 0)
  holds : ∀ n p, t.parentOf n = some p → p = 0 ∨ t.IsDirectory p

variable {t t' : Tree} {n x id : NodeId} {selected : List NodeId}

theorem Tree.SameShape.isDirectory (h : t.SameShape t') (hn : t.IsDirectory n) :
    t'.IsDirectory n := by
  obtain ⟨r, hr, htype⟩ := hn
  obtain ⟨r', hr', hshape⟩ := h.exists_record hr
  exact ⟨r', hr', (congrArg (·.entry_type) hshape).trans htype⟩

theorem Indexed.folders (h : Indexed t) : Folders t := by
  induction h with
  | new hnew =>
    obtain ⟨hl, hrecord⟩ := Tree.new_linked hnew
    obtain ⟨-, r, hnodes, hparent, -, -, -, htype, -⟩ := Tree.new_record hnew
    refine ⟨hl, fun n r' hr' => ?_, fun n p hp => ?_⟩
    · obtain ⟨rfl, hnodes'⟩ := hrecord n r' hr'
      obtain rfl := singleton_injective (hnodes'.symm.trans hnodes)
      exact iff_of_true htype rfl
    · obtain ⟨r', hr', hp⟩ := Option.bind_eq_some_iff.mp hp
      obtain ⟨-, hnodes'⟩ := hrecord n r' hr'
      obtain rfl := singleton_injective (hnodes'.symm.trans hnodes)
      rw [hparent] at hp
      cases hp
  | @append t t' parent id name entry_type _ _ _ _ _ r _ hr hholds htype happend ih =>
    obtain ⟨rfl, pr, happ⟩ := Tree.append_eq_some ih.linked happend
    refine ⟨happ.linked ih.linked, fun n r' hr' => ?_, fun n p hp => ?_⟩
    · rcases happ.record_cases hr' with ⟨rfl, rfl⟩ | ⟨r, hr, rfl⟩
      · exact iff_of_false htype (Nat.ne_of_gt (Nat.zero_lt_of_lt happ.parent_lt))
      · exact ih.root_only n r hr
    · have hkeeps : ∀ d, t.IsDirectory d → t'.IsDirectory d := by
        rintro d ⟨r, hr, htype⟩
        exact ⟨_, happ.old_record hr, htype⟩
      rw [happ.parentOf] at hp
      split at hp
      · obtain rfl := Option.some.inj hp
        rcases hholds with hroot | hdirectory
        · exact .inl ((ih.root_only _ r hr).mp hroot)
        · exact .inr (hkeeps _ ⟨r, hr, hdirectory⟩)
      · exact (ih.holds n p hp).imp_right (hkeeps p)
  | change _ hshape ih =>
    refine ⟨hshape.linked ih.linked, fun n r' hr' => ?_, fun n p hp => ?_⟩
    · obtain ⟨r, hr, heq⟩ := hshape.symm.exists_record hr'
      have htype : r.entry_type = r'.entry_type := congrArg (·.entry_type) heq
      rw [← htype]
      exact ih.root_only n r hr
    · rw [hshape.parentOf] at hp
      exact (ih.holds n p hp).imp_right hshape.isDirectory

/-- Below a node other than the root, everything is reached through directories. -/
theorem Folders.reach_iff (h : Folders t) (hn : n ≠ 0) : t.Reach n x ↔ t.Above n x := by
  refine ⟨Tree.Reach.above, fun habove => ?_⟩
  induction habove using Relation.ReflTransGen.head_induction_on with
  | refl => exact .refl
  | head hup habove ih =>
    refine ih.tail ⟨hup, (h.holds _ _ hup).resolve_left fun hzero => hn ?_⟩
    exact Nat.le_zero.mp (hzero ▸ Above.le habove h.linked.rising)

/-! ## Selections that can be deleted -/

/-- What a selection has to be. -/
structure Deletable (t : Tree) (selected : List NodeId) : Prop where
  nonempty : selected ≠ []
  present : ∀ id ∈ selected, id < t.nodes.length
  no_root : t.root ∉ selected
  apart : ∀ a ∈ selected, ∀ id ∈ selected, t.Above a id → a = id
  root_complete : t.Completed t.root
  complete : ∀ id ∈ selected, ∀ x, t.Above id x → t.Completed x

theorem Tree.has_selected_ancestor_eq_false (hl : t.Linked)
    (h : ∀ a ∈ selected, t.Above a id → a = id) : t.has_selected_ancestor selected id = false := by
  rw [has_selected_ancestor]
  cases hp : t.parentOf id with
  | none =>
    rw [parentOf] at hp
    rw [hp]
    cases t.nodes.length <;> rfl
  | some p =>
    have hlt := hl.parent_lt hp
    have hup := hp
    rw [parentOf] at hp
    rw [hp, Bool.eq_false_iff, Ne, selectedAbove_iff hl hlt hlt]
    rintro ⟨a, ha, habove⟩
    have heq := h a ha (habove.trans (.of_parent hup))
    exact Nat.not_le.mpr (hl.rising id p hup) (heq ▸ Above.le habove hl.rising)

theorem accepted_iff (h : Folders t) : Accepted t selected ↔ Deletable t selected := by
  have hl := h.linked
  obtain ⟨-, hmem⟩ := unique_spec selected
  constructor
  · intro haccepted
    have hroot : ∀ id ∈ selected, id ≠ 0 := fun id hid hzero =>
      (haccepted.passed id hid).entry (.inl (hzero.trans hl.root.symm))
    refine ⟨haccepted.nonempty, fun id hid => (haccepted.passed id hid).lt, fun hmem => ?_,
      fun a ha id hid habove => ?_, haccepted.root_complete, fun id hid x habove => ?_⟩
    · exact hroot _ hmem hl.root
    · exact Tree.not_above_of_passed hl (haccepted.passed id hid).alone ((hmem a).mpr ha) habove
    · exact (haccepted.passed id hid).completed x ((h.reach_iff (hroot id hid)).mpr habove)
  · intro hdeletable
    refine ⟨hdeletable.nonempty, fun id hid => ?_, hdeletable.root_complete⟩
    have hne : id ≠ t.root := fun heq => hdeletable.no_root (heq ▸ hid)
    refine ⟨hdeletable.present id hid, ?_, ?_, fun x hreach =>
      hdeletable.complete id hid x hreach.above⟩
    · rintro (heq | ⟨r, hr, htype⟩)
      · exact hne heq
      · exact hne (((h.root_only id r hr).mp htype).trans hl.root.symm)
    · exact Tree.has_selected_ancestor_eq_false hl fun a ha habove =>
        hdeletable.apart a ((hmem a).mp ha) id hid habove

/-! ## The bytes of a selection -/

/-- The bytes of the selected nodes, each counted once. -/
def Tree.total (t : Tree) (m : Measure) (selected : List NodeId) : Nat :=
  ∑ id ∈ selected.toFinset, (t.record id).elim 0 m.ofRecord

theorem bytesOf_unique (bytes : NodeRecord → UInt64) (m : Measure)
    (hbytes : ∀ r, m.ofRecord r = (bytes r).toNat) (selected : List NodeId) :
    t.bytesOf bytes (unique selected) = t.total m selected := by
  obtain ⟨hnodup, hmem⟩ := unique_spec selected
  have hset : selected.toFinset = (unique selected).toFinset := by
    ext id
    rw [mem_toFinset, mem_toFinset, hmem]
  rw [Tree.total, hset, sum_toFinset _ hnodup, Tree.bytesOf]
  refine congrArg List.sum (map_congr_left fun id _ => ?_)
  cases t.record id with
  | none => rfl
  | some r => exact (hbytes r).symm

theorem Tree.Completed.live (h : t.Completed n) : t.Live n := by
  obtain ⟨r, hr, hstate⟩ := h
  exact ⟨r, hr, hstate ▸ nofun⟩

/-- The subtrees of a selection do not overlap. -/
theorem Deletable.sum_le (h : Deletable t selected) (hl : t.Linked) (own : NodeId → Nat) :
    ∑ id ∈ selected.toFinset, t.sumBelow own id ≤ t.sumBelow own t.root := by
  classical
  have hroot : ∀ x < t.nodes.length, t.Above t.root x := by
    intro x hx
    induction x using Nat.strong_induction_on with
    | _ x ih =>
      rcases Nat.eq_zero_or_pos x with rfl | hpos
      · rw [hl.root]
        exact .refl 0
      · obtain ⟨p, hp⟩ := hl.parented x hpos hx
        have hlt := hl.rising x p hp
        exact (ih p hlt (hlt.trans hx)).trans (.of_parent hp)
  simp only [Tree.sumBelow]
  rw [Finset.sum_comm]
  refine Finset.sum_le_sum fun x hx => ?_
  have hx := Finset.mem_range.mp hx
  by_cases hsome : ∃ a ∈ selected, t.Above a x ∧ t.Live x
  · obtain ⟨a, ha, habove, hlive⟩ := hsome
    -- of the selected nodes only `a` is above `x`
    rw [Finset.sum_eq_single_of_mem a (mem_toFinset.mpr ha), if_pos ⟨habove, hlive⟩,
      if_pos ⟨hroot x hx, hlive⟩]
    intro id hid hne
    refine if_neg fun h' => hne ?_
    have hid := mem_toFinset.mp hid
    rcases habove.linear h'.1 with hup | hup
    · exact (h.apart a ha id hid hup).symm
    · exact h.apart id hid a ha hup
  · rw [Finset.sum_eq_zero]
    · exact Nat.zero_le _
    · exact fun id hid => if_neg fun h' => hsome ⟨id, mem_toFinset.mp hid, h'⟩

/-- **In a tree that is accounted for** the bytes of a selection fit. -/
theorem Deletable.total_lt (h : Deletable t selected) (hl : t.Linked)
    {own} (haccounted : t.Accounted own) (m : Measure) :
    t.total m selected < 2 ^ 64 := by
  obtain ⟨r, hr, -⟩ := id h.root_complete
  have hroot := haccounted m t.root r hr h.root_complete.live
  have hsum : t.total m selected = ∑ id ∈ selected.toFinset, t.sumBelow (own m) id := by
    refine Finset.sum_congr rfl fun id hid => ?_
    have hcomplete := h.complete id (mem_toFinset.mp hid) id (.refl id)
    obtain ⟨r, hr, -⟩ := hcomplete.live
    rw [hr, Option.elim_some]
    exact haccounted m id r hr hcomplete.live
  rw [hsum]
  refine (h.sum_le hl (own m)).trans_lt ?_
  rw [← hroot]
  cases m with
  | apparent => exact UInt64.toNat_lt _
  | allocated => exact UInt64.toNat_lt _

/-! ## The order of a plan -/

theorem pair_sublist {l : List NodeId} {a b} (ha : a ∈ l) (hb : b ∈ l) (hne : a ≠ b) :
    [a, b].Sublist l ∨ [b, a].Sublist l := by
  induction l with
  | nil => cases ha
  | cons c l ih =>
    rcases mem_cons.mp ha with rfl | ha'
    · have hb := (mem_cons.mp hb).resolve_left hne.symm
      exact .inl (.cons_cons a (singleton_sublist.mpr hb))
    · rcases mem_cons.mp hb with rfl | hb'
      · exact .inr (.cons_cons b (singleton_sublist.mpr ha'))
      · exact (ih ha' hb').imp (.cons c) (.cons c)

theorem Tree.Ordered.sublist {l : List NodeId} (h : t.Ordered l) {a b} (ha : a ∈ l)
    (hb : b ∈ l) (hne : a ≠ b) (hbefore : t.Before a b) : [a, b].Sublist l := by
  rcases pair_sublist ha hb hne with hsub | hsub
  · exact hsub
  · exact absurd hbefore (rel_of_pairwise_cons (List.Pairwise.sublist hsub h) mem_cons_self)

/-- What a plan lists. -/
structure Lists (t : Tree) (selected : List NodeId) (plan : DeletionPlan) : Prop where
  targets : ∀ n, n ∈ plan.targets ↔ ∃ id ∈ selected, t.Above id n
  once : plan.targets.Nodup
  below_first : ∀ n ∈ plan.targets, ∀ x, t.Above n x → x ≠ n → [x, n].Sublist plan.targets
  files_first : ∀ d ∈ plan.targets, ∀ f c x, t.parentOf f = some d → ¬ t.IsDirectory f →
    t.parentOf c = some d → t.IsDirectory c → t.Above c x → [f, x].Sublist plan.targets
  apparent : plan.apparent_bytes.toNat = t.total .apparent selected
  allocated : plan.allocated_bytes.toNat = t.total .allocated selected

theorem Collected.lists (h : Folders t) (hdeletable : Deletable t selected) {plan}
    (hcollected : Collected t (unique selected) ⟨t, unique selected, [], 0, 0⟩ plan)
    (htargets : ∀ n, n ∈ plan.targets ↔ ∃ root ∈ selected, t.Reach root n)
    (honce : plan.targets.Nodup) : Lists t selected plan := by
  have hl := h.linked
  obtain ⟨-, hmem⟩ := unique_spec selected
  have hroot : ∀ id ∈ selected, id ≠ 0 := fun id hid hzero =>
    hdeletable.no_root (hl.root.symm ▸ hzero ▸ hid)
  have hbelow : ∀ id ∈ selected, ∀ n, t.Above id n → n ≠ 0 := by
    intro id hid n habove hzero
    exact hroot id hid (Nat.le_zero.mp (hzero ▸ Above.le habove hl.rising))
  -- two nodes below one selected node are listed in the order of its subtree
  have hpart : ∀ id ∈ selected, ∀ a b, t.Reach id a → t.Reach id b → a ≠ b → t.Before a b →
      [a, b].Sublist plan.targets := by
    intro id hid a b ha hb hne hbefore
    obtain ⟨out, hout, -, hparts⟩ := hcollected.targets
    rw [nil_append] at hout
    obtain ⟨part, hsub, hperm, hordered⟩ := hparts id ((hmem id).mpr hid)
    have hlt := hdeletable.present id hid
    have hin : ∀ x, t.Reach id x → x ∈ part := fun x hx =>
      hperm.mem_iff.mpr ((Tree.mem_subtreeOf hlt).mpr hx)
    exact (hordered.sublist (hin a ha) (hin b hb) hne hbefore).trans (hout ▸ hsub)
  refine ⟨fun n => ?_, honce, fun n hn x habove hne => ?_,
    fun d hd f c x hf hfile hc hdirectory habove => ?_, ?_, ?_⟩
  · rw [htargets]
    exact exists_congr fun id => and_congr_right fun hid => h.reach_iff (hroot id hid)
  · obtain ⟨id, hid, hreach⟩ := (htargets n).mp hn
    have hreach' := (h.reach_iff (hbelow id hid n hreach.above)).mpr habove
    exact hpart id hid x n (hreach.trans hreach') hreach hne (.inl ⟨hreach', hne⟩)
  · obtain ⟨id, hid, hreach⟩ := (htargets d).mp hd
    have hholds := (h.holds f d hf).resolve_left (hbelow id hid d hreach.above)
    have hreachC : t.Reach id c := hreach.tail ⟨hc, hholds⟩
    have hreachX := (h.reach_iff (hbelow id hid c hreachC.above)).mpr habove
    have hne : f ≠ x := by
      rintro rfl
      have hsame := hl.siblings_disjoint hc hf hreachX .refl
      exact hfile (hsame ▸ hdirectory)
    exact hpart id hid f x (hreach.tail ⟨hf, hholds⟩) (hreachC.trans hreachX) hne
      (.inr ⟨d, c, hf, hfile, hc, hdirectory, hreachX⟩)
  · rw [hcollected.apparent, UInt64.toNat_zero, Nat.zero_add]
    exact bytesOf_unique _ _ (fun _ => rfl) selected
  · rw [hcollected.allocated, UInt64.toNat_zero, Nat.zero_add]
    exact bytesOf_unique _ _ (fun _ => rfl) selected

/-- **Deletion plan.** A selection that can be deleted has a plan if its bytes fit, as they do
in a tree that is accounted for; no other selection has one. -/
theorem deletion_plan (h : Indexed t) (selected : List NodeId) :
    ∃ result, create_plan t selected = some result ∧
      ((∃ plan, result = .ok plan) ↔
        Deletable t selected ∧ ∀ m : Measure, t.total m selected < 2 ^ 64) ∧
      (∀ plan, result = .ok plan → Lists t selected plan) ∧
      ∀ own, t.Accounted own → ((∃ plan, result = .ok plan) ↔ Deletable t selected) := by
  have hfolders := h.folders
  have hl := hfolders.linked
  obtain ⟨result, hresult, hplans, hover⟩ := create_plan_outcome hl selected
  have happarent : t.bytesOf NodeRecord.apparent_bytes (unique selected) =
      t.total .apparent selected := bytesOf_unique _ _ (fun _ => rfl) selected
  have hallocated : t.bytesOf NodeRecord.allocated_bytes (unique selected) =
      t.total .allocated selected := bytesOf_unique _ _ (fun _ => rfl) selected
  have hlists : ∀ plan, result = .ok plan → Deletable t selected ∧ Lists t selected plan := by
    intro plan hplan
    obtain ⟨haccepted, hcollected⟩ := hplans plan hplan
    have hdeletable := (accepted_iff hfolders).mp haccepted
    obtain ⟨result', hresult', hspec⟩ := create_plan_spec hl selected
    obtain rfl : result = result' := Option.some.inj (hresult.symm.trans hresult')
    obtain ⟨htargets, honce, -⟩ := hspec plan hplan
    exact ⟨hdeletable, Collected.lists hfolders hdeletable hcollected htargets honce⟩
  have hiff : (∃ plan, result = .ok plan) ↔
      Deletable t selected ∧ ∀ m : Measure, t.total m selected < 2 ^ 64 := by
    constructor
    · rintro ⟨plan, hplan⟩
      obtain ⟨hdeletable, hlist⟩ := hlists plan hplan
      refine ⟨hdeletable, fun m => ?_⟩
      cases m with
      | apparent => exact hlist.apparent ▸ UInt64.toNat_lt _
      | allocated => exact hlist.allocated ▸ UInt64.toNat_lt _
    · rintro ⟨hdeletable, hfits⟩
      by_contra hnone
      have hno : ∀ plan, result ≠ .ok plan := fun plan hplan => hnone ⟨plan, hplan⟩
      rcases hover ((accepted_iff hfolders).mpr hdeletable) hno with hle | hle
      · exact Nat.not_le.mpr (hfits .apparent) (happarent ▸ hle)
      · exact Nat.not_le.mpr (hfits .allocated) (hallocated ▸ hle)
  refine ⟨result, hresult, hiff, fun plan hplan => (hlists plan hplan).2, fun own haccounted => ?_⟩
  rw [hiff]
  exact and_iff_left_of_imp fun hdeletable => hdeletable.total_lt hl haccounted

/-! ## Two files -/

/-- A root with two files of one size, all of it scanned. -/
def twoFiles (bytes : UInt64) : Option Tree := do
  let (_, t) ← Tree.emptyRoot.append 0 [97] .RegularFile ⟨1, 2⟩ 1 bytes 0 .Complete
  let (_, t) ← t.append 0 [98] .RegularFile ⟨1, 3⟩ 1 bytes 0 .Complete
  return t.set_state 0 .Complete

theorem Indexed.exists_root (h : Indexed t) :
    ∃ r, t.record 0 = some r ∧ (r.entry_type = .Root ∨ r.entry_type = .Directory) := by
  obtain ⟨r, hr, -⟩ := h.folders.linked.root_record
  exact ⟨r, hr, .inl ((h.folders.root_only 0 r hr).mpr rfl)⟩

theorem indexed_twoFiles {bytes} (h : twoFiles bytes = some t) : Indexed t := by
  simp only [twoFiles, Option.bind_eq_bind, Option.bind_eq_some_iff, Option.pure_def,
    Option.some.injEq] at h
  obtain ⟨⟨_, t₁⟩, h₁, ⟨_, t₂⟩, h₂, rfl⟩ := h
  have hnew : Indexed Tree.emptyRoot := .new (Option.some_get _).symm
  obtain ⟨r, hr, htype⟩ := hnew.exists_root
  have hkind : EntryType.RegularFile ≠ .Root := nofun
  have hfirst := Indexed.append hnew hr htype hkind h₁
  obtain ⟨r, hr, htype⟩ := hfirst.exists_root
  have hsecond := Indexed.append hfirst hr htype hkind h₂
  refine hsecond.change ?_
  rw [Tree.set_state]
  exact Tree.sameShape_modify (fun _ => by rfl) _ 0

/-- **Bytes that do not fit** are refused, whatever else is in order. -/
theorem large_selection_refused : ∃ (t : Tree) (selected : List NodeId), Indexed t ∧
    Deletable t selected ∧ ∀ plan, create_plan t selected ≠ some (.ok plan) := by
  obtain ⟨t, h⟩ := Option.isSome_iff_exists.mp
    (show (twoFiles (2 ^ 63)).isSome by decide)
  have hindexed := indexed_twoFiles h
  have hl := hindexed.folders.linked
  have hnodes : (twoFiles (2 ^ 63)).map (fun t => t.nodes.map fun r => (r.parent, r.state)) =
      some [(none, .Complete), (some 0, .Complete), (some 0, .Complete)] := by decide
  have hplan : (twoFiles (2 ^ 63)).bind (fun t => create_plan t [1, 2]) =
      some (.error (overflow "apparent")) := by decide +kernel
  rw [h, Option.map_some, Option.some.injEq] at hnodes
  rw [h, Option.bind_some] at hplan
  have hlength : t.nodes.length = 3 := by simpa using congrArg List.length hnodes
  have hrecord : ∀ n < 3, ∃ r, t.record n = some r ∧ r.state = .Complete ∧
      (0 < n → r.parent = some 0) := by
    intro n hn
    obtain ⟨r, hr⟩ := t.exists_record (hlength ▸ hn)
    have hfields := congrArg (·[n]?) hnodes
    simp only [getElem?_map] at hfields
    rw [Tree.record] at hr
    rw [hr, Option.map_some] at hfields
    refine ⟨r, hr, ?_⟩
    have hcases : ∀ i : Nat, i < 3 → i = 0 ∨ i = 1 ∨ i = 2 := by omega
    obtain rfl | rfl | rfl := hcases n hn
    · exact ⟨congrArg Prod.snd (Option.some.inj hfields), by rintro ⟨⟩⟩
    · exact ⟨congrArg Prod.snd (Option.some.inj hfields),
        fun _ => congrArg Prod.fst (Option.some.inj hfields)⟩
    · exact ⟨congrArg Prod.snd (Option.some.inj hfields),
        fun _ => congrArg Prod.fst (Option.some.inj hfields)⟩
  have hcompleted : ∀ n < t.nodes.length, t.Completed n := by
    intro n hn
    obtain ⟨r, hr, hstate, -⟩ := hrecord n (hlength ▸ hn)
    exact ⟨r, hr, hstate⟩
  have hsmall : ∀ id ∈ [1, 2], 0 < id ∧ id < t.nodes.length := by
    rw [hlength]
    decide
  refine ⟨t, [1, 2], hindexed, ⟨cons_ne_nil _ _, fun id hid => (hsmall id hid).2, ?_, ?_, ?_, ?_⟩,
    fun plan hok => ?_⟩
  · rw [hl.root]
    decide
  · intro a ha id hid habove
    obtain ⟨r, hr, -, hparent⟩ := hrecord id (hlength ▸ (hsmall id hid).2)
    have hup : t.parentOf id = some 0 := by
      rw [Tree.parentOf, hr, Option.bind_some, hparent (hsmall id hid).1]
    rcases (above_iff_of_parent hup).mp habove with heq | habove
    · exact heq
    · exact absurd (habove.le hl.rising) (Nat.not_le.mpr (hsmall a ha).1)
  · exact hcompleted _ (hl.root ▸ hlength ▸ by decide)
  · exact fun id hid x habove => hcompleted x (habove.lt (hsmall id hid).2)
  · rw [hplan] at hok
    cases hok

/-- Two files that fit. -/
theorem deletion_plan_twoFiles : ∃ t, twoFiles 5 = some t ∧ ∃ result,
    create_plan t [1, 2] = some result ∧
      ((∃ plan, result = .ok plan) ↔
        Deletable t [1, 2] ∧ ∀ m : Measure, t.total m [1, 2] < 2 ^ 64) ∧
      (∀ plan, result = .ok plan → Lists t [1, 2] plan) ∧
      ∀ own, t.Accounted own → ((∃ plan, result = .ok plan) ↔ Deletable t [1, 2]) := by
  obtain ⟨t, h⟩ := Option.isSome_iff_exists.mp (show (twoFiles 5).isSome by decide)
  exact ⟨t, h, deletion_plan (indexed_twoFiles h) [1, 2]⟩

end Ish.Index
