import Ish.Index.Plan

/-!
# Walking a subtree

The nodes a deletion of one node removes, and the two walks of `create_plan` over
them: one meets each of them once, the other only goes on while all that it met
is complete.
-/

namespace Ish.Index

open Ish.Lib.Forest List Option

namespace Tree

variable {t : Tree} {n x c : NodeId}

def IsDirectory (t : Tree) (n : NodeId) : Prop :=
  ∃ r, t.record n = some r ∧ r.entry_type = .Directory

/-- From `n` down to `x`, through directories. -/
def Reach (t : Tree) (n x : NodeId) : Prop :=
  Relation.ReflTransGen (fun d c => t.parentOf c = some d ∧ t.IsDirectory d) n x

theorem Reach.above (h : t.Reach n x) : t.Above n x := by
  induction h with
  | refl => exact .refl n
  | tail _ hstep ih => exact ih.trans (.of_parent hstep.1)

theorem Reach.lt (h : t.Reach n x) (hn : n < t.nodes.length) : x < t.nodes.length := by
  cases h with
  | refl => exact hn
  | tail _ hstep => exact parentOf_lt hstep.1

theorem reach_iff_of_directory (hdirectory : t.IsDirectory n) :
    t.Reach n x ↔ x = n ∨ ∃ c ∈ t.childrenOf n, t.Reach c x := by
  constructor
  · intro h
    rcases Relation.ReflTransGen.cases_head h with rfl | ⟨c, hstep, hreach⟩
    · exact .inl rfl
    · exact .inr ⟨c, mem_childrenOf.mpr hstep.1, hreach⟩
  · rintro (rfl | ⟨c, hc, hreach⟩)
    · exact .refl
    · exact .head ⟨mem_childrenOf.mp hc, hdirectory⟩ hreach

theorem reach_iff_of_file (hfile : ¬ t.IsDirectory n) : t.Reach n x ↔ x = n := by
  constructor
  · intro h
    rcases Relation.ReflTransGen.cases_head h with rfl | ⟨c, hstep, -⟩
    · rfl
    · exact absurd hstep.2 hfile
  · rintro rfl
    exact .refl

theorem Linked.siblings_disjoint (hl : t.Linked) (hc : t.parentOf c = some d)
    (hc' : t.parentOf c' = some d) (h : t.Reach c x) (h' : t.Reach c' x) : c = c' := by
  have hno : ∀ c c', t.parentOf c = some d → t.parentOf c' = some d → t.Above c c' → c = c' := by
    intro c c' hc hc' habove
    rcases (above_iff_of_parent hc').mp habove with heq | habove
    · exact heq
    · exact absurd (habove.le hl.rising) (Nat.not_le.mpr (hl.rising c d hc))
  rcases h.above.linear h'.above with habove | habove
  · exact hno c c' hc hc' habove
  · exact (hno c' c hc' hc habove).symm

/-! ## The nodes of a subtree -/

open Classical in
/-- What `n` reaches, in the order of the index. -/
noncomputable def subtreeOf (t : Tree) (n : NodeId) : List NodeId :=
  (List.range t.nodes.length).filter fun x => t.Reach n x

theorem mem_subtreeOf (hn : n < t.nodes.length) : x ∈ t.subtreeOf n ↔ t.Reach n x := by
  simp only [subtreeOf, mem_filter, mem_range, decide_eq_true_eq]
  exact ⟨And.right, fun h => ⟨h.lt hn, h⟩⟩

theorem nodup_subtreeOf (t : Tree) (n : NodeId) : (t.subtreeOf n).Nodup :=
  nodup_range.filter _

theorem length_subtreeOf (t : Tree) (n : NodeId) : (t.subtreeOf n).length ≤ t.nodes.length := by
  refine (length_filter_le _ _).trans ?_
  rw [length_range]

theorem subtreeOf_file (hn : n < t.nodes.length) (hfile : ¬ t.IsDirectory n) :
    (t.subtreeOf n).Perm [n] := by
  refine (perm_ext_iff_of_nodup (t.nodup_subtreeOf n) (nodup_singleton n)).mpr fun x => ?_
  rw [mem_subtreeOf hn, reach_iff_of_file hfile, mem_singleton]

variable {members : List NodeId}

theorem nodup_subtrees (hl : t.Linked)
    (hmembers : ∀ c ∈ members, t.parentOf c = some d) (hnodup : members.Nodup) :
    (members.flatMap t.subtreeOf).Nodup := by
  rw [nodup_flatMap]
  refine ⟨fun c _ => t.nodup_subtreeOf c, ?_⟩
  refine hnodup.imp_of_mem fun {c c'} hc hc' hne => ?_
  refine disjoint_left.mpr fun x hx hx' => ?_
  have hc := hmembers c hc
  have hc' := hmembers c' hc'
  rw [mem_subtreeOf (parentOf_lt hc)] at hx
  rw [mem_subtreeOf (parentOf_lt hc')] at hx'
  exact hne (hl.siblings_disjoint hc hc' hx hx')

/-- **The subtree of a directory** is the directory and the subtrees of its children. -/
theorem subtreeOf_directory (hl : t.Linked) (hdirectory : t.IsDirectory n) :
    (t.subtreeOf n).Perm (n :: (t.childrenOf n).flatMap t.subtreeOf) := by
  have hn : n < t.nodes.length := record_lt hdirectory.choose_spec.1
  have hchildren : ∀ c ∈ t.childrenOf n, t.parentOf c = some n := fun c hc => mem_childrenOf.mp hc
  refine (perm_ext_iff_of_nodup (t.nodup_subtreeOf n) ?_).mpr fun x => ?_
  · refine nodup_cons.mpr ⟨?_, nodup_subtrees hl hchildren (t.nodup_childrenOf n)⟩
    rw [mem_flatMap]
    rintro ⟨c, hc, hx⟩
    have hparent := hchildren c hc
    rw [mem_subtreeOf (parentOf_lt hparent)] at hx
    exact Nat.not_le.mpr (hl.rising c n hparent) (hx.above.le hl.rising)
  · rw [mem_subtreeOf hn, reach_iff_of_directory hdirectory, mem_cons, mem_flatMap]
    refine or_congr_right (exists_congr fun c => and_congr_right fun hc => ?_)
    rw [mem_subtreeOf (parentOf_lt (hchildren c hc))]

/-! ## The order of the targets -/

/-- `x` has to go before `y`: it is below it, or a file beside a directory that holds `y`. -/
def Before (t : Tree) (x y : NodeId) : Prop :=
  (t.Reach y x ∧ x ≠ y) ∨ ∃ d c, t.parentOf x = some d ∧ ¬ t.IsDirectory x ∧
    t.parentOf c = some d ∧ t.IsDirectory c ∧ t.Reach c y

/-- Nothing stands behind what it has to go before. -/
def Ordered (t : Tree) (out : List NodeId) : Prop := out.Pairwise fun x y => ¬ t.Before y x

theorem Reach.le (hl : t.Linked) (h : t.Reach n x) : n ≤ x := h.above.le hl.rising

theorem Reach.parent (h : t.Reach n x) (hne : x ≠ n) (hd : t.parentOf x = some d) :
    t.Reach n d ∧ t.IsDirectory d := by
  rcases Relation.ReflTransGen.cases_tail h with rfl | ⟨d', hreach, hstep⟩
  · exact absurd rfl hne
  · obtain rfl : d' = d := some.inj (hstep.1.symm.trans hd)
    exact ⟨hreach, hstep.2⟩

theorem Reach.sibling (h : t.Reach n x) (hn : t.IsDirectory n) (hx : ¬ t.IsDirectory x) (hd : t.parentOf x = some d) (hc : t.parentOf c = some d) : t.Reach n c := by
  have hne : x ≠ n := fun heq => hx (heq ▸ hn)
  obtain ⟨hreach, hdirectory⟩ := h.parent hne hd
  exact hreach.tail ⟨hc, hdirectory⟩

theorem not_before_of_siblings (hl : t.Linked) (hc : t.parentOf c = some d)
    (hc' : t.parentOf c' = some d) (hne : c ≠ c') (hkind : t.IsDirectory c ↔ t.IsDirectory c')
    (hx : t.Reach c x) (hy : t.Reach c' y) : ¬ t.Before y x := by
  rintro (⟨hbelow, -⟩ | ⟨e, b, hparent, hfile, hb, hdirectory, hreach⟩)
  · exact hne (hl.siblings_disjoint hc hc' (hx.trans hbelow) hy)
  · by_cases hkind' : t.IsDirectory c'
    · exact hne (hl.siblings_disjoint hc hc' hx
        ((hy.sibling hkind' hfile hparent hb).trans hreach))
    · rw [reach_iff_of_file hkind'] at hy
      rw [reach_iff_of_file (mt hkind.mp hkind')] at hx
      subst hy hx
      obtain rfl : e = d := some.inj (hparent.symm.trans hc')
      have hsame := hl.siblings_disjoint hb hc hreach .refl
      exact hkind' (hkind.mp (hsame ▸ hdirectory))

theorem not_before_of_file (hl : t.Linked) (hc : t.parentOf c = some d)
    (hfile : ¬ t.IsDirectory c) (hc' : t.parentOf c' = some d) (hdirectory : t.IsDirectory c')
    (hx : t.Reach c x) (hy : t.Reach c' y) : ¬ t.Before y x := by
  rw [reach_iff_of_file hfile] at hx
  subst hx
  rintro (⟨hbelow, hne⟩ | ⟨e, b, hparent, hyfile, hb, hbdirectory, hreach⟩)
  · exact hne ((reach_iff_of_file hfile).mp hbelow)
  · have hbelow := hy.sibling hdirectory hyfile hparent hb
    have hsame := hl.siblings_disjoint hc hc' .refl (hbelow.trans hreach)
    exact hfile (hsame ▸ hdirectory)

theorem not_before_of_below (hl : t.Linked) (hdirectory : t.IsDirectory n)
    (hc : t.parentOf c = some n) (hx : t.Reach c x) : ¬ t.Before n x := by
  rintro (⟨hbelow, -⟩ | ⟨e, b, -, hfile, -⟩)
  · have hlt := hl.rising c n hc
    exact Nat.not_le.mpr hlt ((hx.le hl).trans (hbelow.le hl))
  · exact hfile hdirectory

/-! ## The walk that collects the targets -/

theorem nextOf_eq (hr : t.record n = some r) : t.nextOf n = r.next_sibling := by
  rw [nextOf, hr, bind_some]

theorem isDirectory_iff (hr : t.record n = some r) :
    t.IsDirectory n ↔ r.entry_type = .Directory := by
  constructor
  · rintro ⟨r', hr', htype⟩
    rw [hr, some.injEq] at hr'
    exact hr' ▸ htype
  · exact fun htype => ⟨r, hr, htype⟩

/-- From `frame`, the walk appends `out` in `steps` steps. -/
def Outputs (t : Tree) (frame : WalkFrame) (steps : Nat) (out : List NodeId) : Prop :=
  ∀ fuel stack output, t.postorderWalk (fuel + steps) (frame :: stack) output =
    t.postorderWalk fuel stack (output ++ out)

open Classical in
/-- The nodes that are directories, or those that are not. -/
noncomputable def ofKind (t : Tree) (directories : Bool) (members : List NodeId) : List NodeId :=
  members.filter fun c => t.IsDirectory c ↔ directories = true

theorem ofKind_perm (t : Tree) (members : List NodeId) :
    (t.ofKind false members ++ t.ofKind true members).Perm members := by
  classical
  have htrue : t.ofKind true members = members.filter fun c => t.IsDirectory c :=
    filter_congr fun c _ => by simp
  have hfalse : t.ofKind false members = members.filter fun c => !decide (t.IsDirectory c) :=
    filter_congr fun c _ => by simp
  rw [htrue, hfalse]
  exact perm_append_comm.trans (filter_append_perm _ members)

/-- What the walk appends for a node: its subtree, in an order that a deletion can take. -/
structure Walked (t : Tree) (n : NodeId) (steps : Nat) (out : List NodeId) : Prop where
  outputs : t.Outputs (.Enter n) steps out
  perm : out.Perm (t.subtreeOf n)
  ordered : t.Ordered out
  bound : steps + 2 ≤ 6 * out.length

theorem mem_ofKind :
    c ∈ t.ofKind directories members ↔ c ∈ members ∧ (t.IsDirectory c ↔ directories = true) := by
  simp [ofKind]

theorem mem_subtrees {directories : Bool} {members out : List NodeId}
    (hparents : ∀ c ∈ members, t.parentOf c = some d)
    (hperm : out.Perm ((t.ofKind directories members).flatMap t.subtreeOf))
    (hx : x ∈ out) : ∃ c ∈ members, (t.IsDirectory c ↔ directories = true) ∧ t.Reach c x := by
  rw [hperm.mem_iff, mem_flatMap] at hx
  obtain ⟨c, hc, hx⟩ := hx
  obtain ⟨hmember, hkind⟩ := mem_ofKind.mp hc
  rw [mem_subtreeOf (parentOf_lt (hparents c hmember))] at hx
  exact ⟨c, hmember, hkind, hx⟩

theorem outputs_children (hl : t.Linked) (directories : Bool)
    {first : Option NodeId} (hchain : Chain t.nextOf first members)
    (hparents : ∀ c ∈ members, t.parentOf c = some d) (hnodup : members.Nodup)
    (hmembers : ∀ c ∈ members, ∃ steps out, t.Walked c steps out) :
    ∃ steps out, t.Outputs (.Children first directories) steps out ∧
      out.Perm ((t.ofKind directories members).flatMap t.subtreeOf) ∧ t.Ordered out ∧
      steps + 2 * (t.ofKind directories members).length ≤
        6 * out.length + members.length + 1 := by
  induction members generalizing first with
  | nil =>
    obtain rfl := hchain
    refine ⟨1, [], ?_, .nil, .nil, Nat.le_refl 1⟩
    intro fuel stack output
    rw [append_nil]
    rfl
  | cons c members ih =>
    obtain ⟨rfl, hchain⟩ := hchain
    obtain ⟨steps, out, hout, hperm, hordered, hsteps⟩ := hmembers c mem_cons_self
    have hparent := hparents c mem_cons_self
    obtain ⟨r, hr⟩ := t.exists_record (parentOf_lt hparent)
    obtain ⟨hnew, hnodup⟩ := nodup_cons.mp hnodup
    have hparents' : ∀ c ∈ members, t.parentOf c = some d :=
      fun c hc => hparents c (mem_cons_of_mem _ hc)
    obtain ⟨steps', out', hout', hperm', hordered', hsteps'⟩ :=
      ih hchain hparents' hnodup fun c hc => hmembers c (mem_cons_of_mem _ hc)
    rw [nextOf_eq hr] at hout'
    have hdirectory := isDirectory_iff hr
    by_cases hkind : t.IsDirectory c ↔ directories = true
    · have hcons : t.ofKind directories (c :: members) = c :: t.ofKind directories members :=
        filter_cons_of_pos (by simpa using hkind)
      refine ⟨steps' + steps + 1, out ++ out', ?_, ?_, ?_, ?_⟩
      · intro fuel stack output
        rw [← Nat.add_assoc, ← Nat.add_assoc, postorderWalk]
        simp only [hr]
        rw [if_pos (propext (hdirectory.symm.trans hkind)), hout, hout', append_assoc]
      · rw [hcons, flatMap_cons]
        exact hperm.append hperm'
      · refine pairwise_append.mpr ⟨hordered, hordered', fun x hx y hy => ?_⟩
        rw [hperm.mem_iff, mem_subtreeOf (parentOf_lt hparent)] at hx
        obtain ⟨c', hc', hkind', hy⟩ := mem_subtrees hparents' hperm' hy
        have hne : c ≠ c' := fun heq => hnew (heq ▸ hc')
        exact not_before_of_siblings hl hparent (hparents' c' hc') hne (hkind.trans hkind'.symm)
          hx hy
      · simp only [hcons, length_cons, length_append]
        omega
    · have hskip : t.ofKind directories (c :: members) = t.ofKind directories members :=
        filter_cons_of_neg (by simpa using hkind)
      refine ⟨steps' + 1, out', ?_, hskip ▸ hperm', hordered', ?_⟩
      · intro fuel stack output
        rw [← Nat.add_assoc, postorderWalk]
        simp only [hr]
        rw [if_neg fun heq => hkind (hdirectory.trans (Eq.to_iff heq)), hout']
      · simp only [hskip, length_cons]
        omega

/-- **The walk over a subtree** appends each of its nodes once, and none before what has to
go before it. -/
theorem outputs_subtree (hl : t.Linked) (hn : n < t.nodes.length) :
    ∃ steps out, t.Walked n steps out := by
  generalize hleft : t.nodes.length - n = left
  induction left using Nat.strong_induction_on generalizing n with
  | _ left ih =>
    obtain ⟨r, hr⟩ := t.exists_record hn
    have hdirectory := isDirectory_iff hr
    by_cases htype : r.entry_type = .Directory
    · have hparents : ∀ c ∈ t.childrenOf n, t.parentOf c = some n :=
        fun c hc => mem_childrenOf.mp hc
      have hmembers : ∀ c ∈ t.childrenOf n, ∃ steps out, t.Walked c steps out := by
        intro c hc
        have hlt := parentOf_lt (hparents c hc)
        have hless : t.nodes.length - c < left :=
          hleft ▸ Nat.sub_lt_sub_left hn (hl.rising c n (hparents c hc))
        exact ih _ hless hlt rfl
      have hchain := hl.chain n r hr
      have hnodup := t.nodup_childrenOf n
      obtain ⟨files, outFiles, hfiles, hpermFiles, horderedFiles, hlengthFiles⟩ :=
        outputs_children hl false hchain hparents hnodup hmembers
      obtain ⟨dirs, outDirs, hdirs, hpermDirs, horderedDirs, hlengthDirs⟩ :=
        outputs_children hl true hchain hparents hnodup hmembers
      refine ⟨1 + dirs + files + 1, outFiles ++ outDirs ++ [n], ?_, ?_, ?_, ?_⟩
      · intro fuel stack output
        rw [← Nat.add_assoc, ← Nat.add_assoc, ← Nat.add_assoc, postorderWalk]
        simp only [hr]
        rw [if_pos htype, hfiles, hdirs, postorderWalk]
        simp only [append_assoc]
      · have hkinds := (t.ofKind_perm (t.childrenOf n)).flatMap_right t.subtreeOf
        rw [flatMap_append] at hkinds
        have hboth := ((hpermFiles.append hpermDirs).trans hkinds).cons n
        exact (perm_append_singleton n _).trans
          (hboth.trans (subtreeOf_directory hl (hdirectory.mpr htype)).symm)
      · have hbelow : ∀ x ∈ outFiles ++ outDirs, ∃ c, t.parentOf c = some n ∧ t.Reach c x := by
          intro x hx
          rcases mem_append.mp hx with hx | hx
          · obtain ⟨c, hc, -, hreach⟩ := mem_subtrees hparents hpermFiles hx
            exact ⟨c, hparents c hc, hreach⟩
          · obtain ⟨c, hc, -, hreach⟩ := mem_subtrees hparents hpermDirs hx
            exact ⟨c, hparents c hc, hreach⟩
        refine pairwise_append.mpr ⟨?_, pairwise_singleton _ _, fun x hx y hy => ?_⟩
        · refine pairwise_append.mpr ⟨horderedFiles, horderedDirs, fun x hx y hy => ?_⟩
          obtain ⟨c, hc, hkind, hreach⟩ := mem_subtrees hparents hpermFiles hx
          obtain ⟨c', hc', hkind', hreach'⟩ := mem_subtrees hparents hpermDirs hy
          have hfile : ¬ t.IsDirectory c := fun h => Bool.false_ne_true (hkind.mp h)
          exact not_before_of_file hl (hparents c hc) hfile (hparents c' hc') (hkind'.mpr rfl)
            hreach hreach'
        · obtain ⟨c, hc, hreach⟩ := hbelow x hx
          rw [mem_singleton.mp hy]
          exact not_before_of_below hl (hdirectory.mpr htype) hc hreach
      · have hkinds := (t.ofKind_perm (t.childrenOf n)).length_eq
        simp only [length_append, length_singleton] at hkinds ⊢
        omega
    · refine ⟨1, [n], ?_, (subtreeOf_file hn (mt hdirectory.mp htype)).symm,
        pairwise_singleton _ _, by simp⟩
      intro fuel stack output
      rw [postorderWalk]
      simp only [hr]
      rw [if_neg htype]

/-- **`append_postorder`** returns, and appends the nodes of the subtree. -/
theorem append_postorder_eq (hl : t.Linked) (hn : n < t.nodes.length) (output : List NodeId) :
    ∃ out, t.append_postorder n output = some (output ++ out) ∧ out.Perm (t.subtreeOf n) ∧
      t.Ordered out := by
  obtain ⟨steps, out, hout, hperm, hordered, hsteps⟩ := outputs_subtree hl hn
  refine ⟨out, ?_, hperm, hordered⟩
  have hlength := hperm.length_eq.trans_le (t.length_subtreeOf n)
  obtain ⟨rest, hrest⟩ := Nat.exists_eq_add_of_le (show steps ≤ 6 * t.nodes.length by omega)
  rw [append_postorder, hrest, Nat.add_right_comm, Nat.add_assoc, Nat.add_comm, hout]
  rw [Nat.add_comm, postorderWalk]

/-! ## The walk that looks for a reason -/

def Completed (t : Tree) (n : NodeId) : Prop := ∃ r, t.record n = some r ∧ r.state = .Complete

theorem completed_iff (hr : t.record n = some r) :
    t.Completed n ↔ r.state = .Complete := by
  constructor
  · rintro ⟨r', hr', hstate⟩
    rw [hr, some.injEq] at hr'
    exact hr' ▸ hstate
  · exact fun hstate => ⟨r, hr, hstate⟩

theorem subtreeReason_eq_none : subtreeReason state = none ↔ state = .Complete := by
  cases state with
  | Excluded reason => cases reason <;> simp [subtreeReason]
  | _ => simp [subtreeReason]

/-- In `steps` steps, the walk is over with the nodes that `below` says, and all of them
are complete, or it ends with a reason, and one of them is not. -/
def Looks (t : Tree) (first : Option NodeId) (below : NodeId → Prop) (steps : Nat) : Prop :=
  ((∀ fuel directories pending, t.subtreeWalk (fuel + steps) (.Children first directories :: pending) =
      t.subtreeWalk fuel pending) ∧ ∀ x, below x → t.Completed x) ∨
    ∃ reason, (∃ x, below x ∧ ¬ t.Completed x) ∧ ∀ fuel directories pending,
      t.subtreeWalk (fuel + steps) (.Children first directories :: pending) = some (some reason)

theorem looks_children {first : Option NodeId} (hchain : Chain t.nextOf first members)
    (hmembers : ∀ c ∈ members, ∃ r, t.record c = some r ∧ (t.IsDirectory c → ∃ steps,
      t.Looks r.first_child (fun x => t.Reach c x ∧ x ≠ c) steps ∧
        steps + 1 ≤ 2 * (t.subtreeOf c).length)) :
    ∃ steps, t.Looks first (fun x => ∃ c ∈ members, t.Reach c x) steps ∧
      steps ≤ 2 * (members.flatMap t.subtreeOf).length + 1 := by
  induction members generalizing first with
  | nil =>
    obtain rfl := hchain
    refine ⟨1, .inl ⟨fun fuel directories pending => rfl, ?_⟩, Nat.le_refl 1⟩
    rintro x ⟨c, hc, -⟩
    cases hc
  | cons c members ih =>
    obtain ⟨rfl, hchain⟩ := hchain
    obtain ⟨r, hr, hbelow⟩ := hmembers c mem_cons_self
    obtain ⟨steps, hsteps, hbound⟩ := ih hchain fun c hc => hmembers c (mem_cons_of_mem _ hc)
    rw [nextOf_eq hr] at hsteps
    have hself : 0 < (t.subtreeOf c).length :=
      length_pos_of_mem ((mem_subtreeOf (record_lt hr)).mpr .refl)
    have hlength : ((c :: members).flatMap t.subtreeOf).length =
        (t.subtreeOf c).length + (members.flatMap t.subtreeOf).length := by
      rw [flatMap_cons, length_append]
    rw [hlength]
    cases hreason : subtreeReason r.state with
    | some reason =>
      have hnot : ¬ t.Completed c := by
        rw [completed_iff hr, ← subtreeReason_eq_none, hreason]
        exact nofun
      refine ⟨1, .inr ⟨reason, ⟨c, ⟨c, mem_cons_self, .refl⟩, hnot⟩,
        fun fuel directories pending => ?_⟩, by omega⟩
      rw [subtreeWalk]
      simp only [hr, hreason]
    | none =>
      have hcomplete : t.Completed c := ⟨r, hr, subtreeReason_eq_none.mp hreason⟩
      by_cases hdirectory : t.IsDirectory c
      · obtain ⟨inner, hinner, hbound'⟩ := hbelow hdirectory
        have htype := (isDirectory_iff hr).mp hdirectory
        refine ⟨steps + inner + 1, ?_, by omega⟩
        rcases hinner with ⟨hclear, hcompleted⟩ | ⟨reason, ⟨x, hx, hnot⟩, hrefuse⟩
        · rcases hsteps with ⟨hclear', hcompleted'⟩ | ⟨reason, ⟨x, hx, hnot⟩, hrefuse'⟩
          · refine .inl ⟨fun fuel directories pending => ?_, ?_⟩
            · rw [← Nat.add_assoc, ← Nat.add_assoc, subtreeWalk]
              simp only [hr, hreason]
              rw [if_pos htype, hclear, hclear']
            · rintro x ⟨other, hother, hreach⟩
              rcases mem_cons.mp hother with rfl | hother
              · by_cases hx : x = other
                · exact hx ▸ hcomplete
                · exact hcompleted x ⟨hreach, hx⟩
              · exact hcompleted' x ⟨other, hother, hreach⟩
          · obtain ⟨other, hother, hreach⟩ := hx
            refine .inr ⟨reason, ⟨x, ⟨other, mem_cons_of_mem _ hother, hreach⟩, hnot⟩,
              fun fuel directories pending => ?_⟩
            rw [← Nat.add_assoc, ← Nat.add_assoc, subtreeWalk]
            simp only [hr, hreason]
            rw [if_pos htype, hclear, hrefuse']
        · refine .inr ⟨reason, ⟨x, ⟨c, mem_cons_self, hx.1⟩, hnot⟩,
            fun fuel directories pending => ?_⟩
          rw [← Nat.add_assoc, ← Nat.add_assoc, subtreeWalk]
          simp only [hr, hreason]
          rw [if_pos htype, hrefuse]
      · have htype := mt (isDirectory_iff hr).mpr hdirectory
        refine ⟨steps + 1, ?_, by omega⟩
        rcases hsteps with ⟨hclear, hcompleted⟩ | ⟨reason, ⟨x, ⟨other, hother, hreach⟩, hnot⟩, hrefuse⟩
        · refine .inl ⟨fun fuel directories pending => ?_, ?_⟩
          · rw [← Nat.add_assoc, subtreeWalk]
            simp only [hr, hreason]
            rw [if_neg htype, hclear]
          · rintro x ⟨other, hother, hreach⟩
            rcases mem_cons.mp hother with rfl | hother
            · rw [reach_iff_of_file hdirectory] at hreach
              exact hreach ▸ hcomplete
            · exact hcompleted x ⟨other, hother, hreach⟩
        · refine .inr ⟨reason, ⟨x, ⟨other, mem_cons_of_mem _ hother, hreach⟩, hnot⟩,
            fun fuel directories pending => ?_⟩
          rw [← Nat.add_assoc, subtreeWalk]
          simp only [hr, hreason]
          rw [if_neg htype, hrefuse]

/-- **The walk below a directory** ends, and clears only what is complete. -/
theorem looks_directory (hl : t.Linked) (hdirectory : t.IsDirectory n) :
    ∃ r steps, t.record n = some r ∧
      t.Looks r.first_child (fun x => t.Reach n x ∧ x ≠ n) steps ∧
      steps + 1 ≤ 2 * (t.subtreeOf n).length := by
  generalize hleft : t.nodes.length - n = left
  induction left using Nat.strong_induction_on generalizing n with
  | _ left ih =>
    obtain ⟨r, hr, -⟩ := id hdirectory
    have hmembers : ∀ c ∈ t.childrenOf n, ∃ r, t.record c = some r ∧ (t.IsDirectory c →
        ∃ steps, t.Looks r.first_child (fun x => t.Reach c x ∧ x ≠ c) steps ∧
          steps + 1 ≤ 2 * (t.subtreeOf c).length) := by
      intro c hc
      have hparent := mem_childrenOf.mp hc
      obtain ⟨r', hr'⟩ := t.exists_record (parentOf_lt hparent)
      refine ⟨r', hr', fun hinner => ?_⟩
      have hless : t.nodes.length - c < left :=
        hleft ▸ Nat.sub_lt_sub_left (record_lt hr) (hl.rising c n hparent)
      obtain ⟨r'', steps, hr'', hlooks⟩ := ih _ hless hinner rfl
      rw [hr', some.injEq] at hr''
      exact ⟨steps, hr'' ▸ hlooks⟩
    obtain ⟨steps, hsteps, hbound⟩ := looks_children (hl.chain n r hr) hmembers
    have hlength := (subtreeOf_directory hl hdirectory).length_eq
    rw [length_cons] at hlength
    refine ⟨r, steps, hr, ?_, by omega⟩
    rcases hsteps with ⟨hclear, hcompleted⟩ | ⟨reason, ⟨x, ⟨c, hc, hreach⟩, hnot⟩, hrefuse⟩
    · refine .inl ⟨hclear, fun x hx => hcompleted x ?_⟩
      exact ((reach_iff_of_directory hdirectory).mp hx.1).resolve_left hx.2
    · right
      refine ⟨reason, ⟨x, ⟨(reach_iff_of_directory hdirectory).mpr (.inr ⟨c, hc, hreach⟩), ?_⟩,
        hnot⟩, hrefuse⟩
      rintro rfl
      exact Nat.not_le.mpr (hl.rising c x (mem_childrenOf.mp hc)) (hreach.above.le hl.rising)

theorem ownReason_eq_none : ownReason state = none ↔ state = .Complete := by
  cases state with
  | Excluded reason => cases reason <;> simp [ownReason]
  | _ => simp [ownReason]

/-- **`ineligible_reason`** returns; there is none exactly when all that the node reaches is
complete. -/
theorem ineligible_reason_eq (hl : t.Linked) (hr : t.record n = some r) :
    ∃ reason, t.ineligible_reason n r.entry_type = some reason ∧
      (reason = none ↔ ∀ x, t.Reach n x → t.Completed x) := by
  rw [ineligible_reason]
  simp only [hr]
  cases hown : ownReason r.state with
  | some reason =>
    refine ⟨some reason, rfl, iff_of_false nofun fun hall => ?_⟩
    have hstate := (completed_iff hr).mp (hall n .refl)
    rw [ownReason_eq_none.mpr hstate] at hown
    cases hown
  | none =>
    have hcomplete : t.Completed n := ⟨r, hr, ownReason_eq_none.mp hown⟩
    simp only
    by_cases htype : r.entry_type = .Directory
    · rw [if_neg (not_not.mpr htype)]
      obtain ⟨r', steps, hr', hlooks, hbound⟩ := looks_directory hl ⟨r, hr, htype⟩
      obtain rfl : r = r' := some.inj (hr.symm.trans hr')
      have hle := t.length_subtreeOf n
      obtain ⟨rest, hrest⟩ := Nat.exists_eq_add_of_le
        (show steps + 1 ≤ 2 * t.nodes.length + 2 by omega)
      have hfuel : 2 * t.nodes.length + 2 = (rest + 1) + steps := by omega
      rw [hfuel]
      rcases hlooks with ⟨hclear, hcompleted⟩ | ⟨reason, ⟨x, hx, hnot⟩, hrefuse⟩
      · refine ⟨none, by rw [hclear, subtreeWalk.eq_def], iff_of_true rfl fun x hx => ?_⟩
        by_cases hne : x = n
        · exact hne ▸ hcomplete
        · exact hcompleted x ⟨hx, hne⟩
      · exact ⟨some reason, hrefuse _ _ _, iff_of_false nofun fun hall => hnot (hall x hx.1)⟩
    · rw [if_pos htype]
      refine ⟨none, rfl, iff_of_true rfl fun x hx => ?_⟩
      rw [reach_iff_of_file (mt (isDirectory_iff hr).mp htype)] at hx
      exact hx ▸ hcomplete

end Tree

end Ish.Index
