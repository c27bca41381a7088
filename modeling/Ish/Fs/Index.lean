import Ish.Fs.Insertion

/-!
# The search tree over the records

What the tree of a spool is: balanced, over a given list of offsets, sorted by
path and, for equal paths, in push order. Insertion keeps it, building it makes
it, and a lookup in it finds the first record of a path.
-/

namespace Ish.Fs

open Ish.Lib List
open EState (Does)
open UnixPath (Path)

/-! ## Order -/

/-- What the record at an offset is sorted by. -/
def keyAt (records : List Record) (offset : Nat) : List (List Nat) :=
  match recordAt records offset with
  | some record => UnixPath.key record.source
  | none => []

variable {records : List Record}

theorem keyAt_of (h : recordAt records offset = some record) :
    keyAt records offset = UnixPath.key record.source := by
  rw [keyAt, h]

/-- By path, then in push order. -/
def Comes (records : List Record) (offset other : Nat) : Prop :=
  keyAt records offset < keyAt records other ∨
    keyAt records offset = keyAt records other ∧ offset < other

theorem Comes.le (h : Comes records offset other) :
    keyAt records offset ≤ keyAt records other := by
  rcases h with hlt | ⟨heq, -⟩
  · exact le_of_lt hlt
  · exact le_of_eq heq

/-- The tree of a spool, over the records at `offs`. -/
structure Holds (a : Spool) (offs : List Nat) (t : AvlTree Nat) : Prop where
  root : a.root = rootOf t
  stored : Stored a.node t
  balanced : t.Balanced
  perm : t.toList.Perm offs
  sorted : t.toList.Pairwise (Comes a.records)

/-- The tree of an indexed spool is over all its records; the nodes of one that
is not indexed yet do not matter. -/
def Indexed (a : Spool) : Prop :=
  a.indexed = true → ∃ t, Holds a (offsets a.records) t

theorem lt_of_mem_offsets (h : offset ∈ offsets records) :
    offset < spoolSize records := by
  obtain ⟨record, hrecord⟩ := mem_offsets.mp h
  have hlt := recordAt_lt hrecord
  have hsize := recordSize_ge record
  omega

theorem length_offsetsFrom (start : Nat) (records : List Record) :
    (offsetsFrom start records).length = records.length := by
  induction records generalizing start with
  | nil => rfl
  | cons record records ih => rw [offsetsFrom, length_cons, length_cons, ih]

theorem pairwise_offsetsFrom (start : Nat) (records : List Record) :
    (offsetsFrom start records).Pairwise (· < ·) := by
  induction records generalizing start with
  | nil => exact .nil
  | cons record records ih =>
    refine pairwise_cons.mpr ⟨?_, ih _⟩
    intro offset hoffset
    obtain ⟨other, hother⟩ := mem_offsetsFrom.mp hoffset
    obtain ⟨before, after, -, rfl⟩ := recordFrom_eq_some hother
    have hsize := recordSize_ge record
    omega

theorem nodup_offsets (records : List Record) : (offsets records).Nodup :=
  (pairwise_offsetsFrom 0 records).imp fun hlt => Nat.ne_of_lt hlt

variable {done todo : List Record} {t : AvlTree Nat}

theorem Holds.proper
    (h : Holds a (offsets done) t) (hrecords : a.records = done ++ todo)
    (hsmall : spoolSize a.records < 2 ^ 64) : Proper a.records t where
  small := hsmall
  known := by
    intro offset hoffset
    obtain ⟨record, hrecord⟩ := mem_offsets.mp (h.perm.mem_iff.mp hoffset)
    exact ⟨record, by rw [hrecords]; exact recordAt_push hrecord todo⟩
  nodup := h.perm.nodup_iff.mpr (nodup_offsets done)

/-- **The height stays far below the limit**: a record takes 25 bytes at least,
and a balanced tree is low. -/
theorem Holds.height_lt
    (h : Holds a (offsets done) t) (hrecords : a.records = done ++ todo)
    (hsmall : spoolSize a.records < 2 ^ 64) : t.height < 120 := by
  have hlength := length_le_spoolSize a.records
  have hsize : t.size = done.length := by
    rw [← AvlTree.length_toList, h.perm.length_eq, offsets, length_offsetsFrom]
  have hcount : a.records.length = done.length + todo.length := by
    rw [hrecords, length_append]
  have hsmall : t.size + 1 < 2 ^ 60 := by omega
  exact AvlTree.height_lt h.balanced hsmall

/-! ## Insertion -/

namespace Records

/-- What `insert_path` decides at an offset. -/
def goesRight (records : List Record) (path : Path) (offset : Nat) : Bool :=
  keyAt records offset ≤ UnixPath.key path

theorem guides_goesRight (records : List Record) (path : Path) (t : AvlTree Nat) :
    Guides records path (goesRight records path) t := by
  intro offset _ record hrecord
  rw [goesRight, keyAt_of hrecord, decide_eq_decide, Ne, UnixPath.order_eq_gt_iff, not_lt]

theorem toList_insert_sorted {new path}
    (hsorted : t.toList.Pairwise (Comes records)) (hkey : keyAt records new = UnixPath.key path)
    (hlast : ∀ offset ∈ t.toList, offset < new) :
    (t.insert (goesRight records path) new).toList.Pairwise (Comes records) := by
  have hmono : t.toList.Pairwise fun offset other =>
      goesRight records path other = true → goesRight records path offset = true :=
    hsorted.imp fun hcomes hother =>
      decide_eq_true (le_trans hcomes.le (of_decide_eq_true hother))
  rw [AvlTree.toList_insert _ _ hmono]
  have hbefore : ∀ offset ∈ t.toList.filter (goesRight records path), Comes records offset new := by
    intro offset hoffset
    obtain ⟨hmem, hright⟩ := mem_filter.mp hoffset
    rcases lt_or_eq_of_le (of_decide_eq_true hright) with hlt | heq
    · exact .inl (by rwa [hkey])
    · exact .inr ⟨by rwa [hkey], hlast offset hmem⟩
  have hafter : ∀ other ∈ t.toList.filter (!goesRight records path ·),
      UnixPath.key path < keyAt records other := by
    intro other hother
    obtain ⟨-, hleft⟩ := mem_filter.mp hother
    rw [Bool.not_eq_true', goesRight, decide_eq_false_iff_not, not_le] at hleft
    exact hleft
  refine pairwise_append.mpr ⟨hsorted.filter _, pairwise_cons.mpr
    ⟨fun other hother => .inl (by rw [hkey]; exact hafter other hother), hsorted.filter _⟩, ?_⟩
  intro offset hoffset other hother
  rcases mem_cons.mp hother with rfl | hmem
  · exact hbefore offset hoffset
  · obtain ⟨-, hright⟩ := mem_filter.mp hoffset
    exact .inl (lt_of_le_of_lt (of_decide_eq_true hright) (hafter other hmem))

/-- **`insert_path` keeps the search tree**, now over one record more. -/
theorem insertPath_does
    (hrecords : a.records = done ++ record :: todo) (hholds : Holds a (offsets done) t)
    (hsmall : spoolSize a.records < 2 ^ 64) (hnode : a.node (spoolSize done) = .single) :
    ∃ b t', Does Shows (insertPath (spoolSize done) record.source) a () b ∧
      b.records = a.records ∧ b.indexed = a.indexed ∧
      Holds b (offsets (done ++ [record])) t' ∧
      ∀ offset, offset ∉ offsets (done ++ [record]) → b.node offset = a.node offset := by
  have hrecord : recordAt a.records (spoolSize done) = some record := by
    rw [hrecords]
    exact recordAt_append done record todo
  have hlast : ∀ offset ∈ t.toList, offset < spoolSize done := fun offset hoffset =>
    lt_of_mem_offsets (hholds.perm.mem_iff.mp hoffset)
  have hother : spoolSize done ∉ t.toList := fun hmem => absurd (hlast _ hmem) (lt_irrefl _)
  have hproper := hholds.proper hrecords hsmall
  have hlow := hholds.height_lt hrecords hsmall
  have hoffsets : offsets (done ++ [record]) = offsets done ++ [spoolSize done] := by
    rw [offsets_append]
    rfl
  let goRight := goesRight a.records record.source
  have hsorted : (t.insert goRight (spoolSize done)).toList.Pairwise (Comes a.records) :=
    toList_insert_sorted hholds.sorted (keyAt_of hrecord) hlast
  have hperm : (t.insert goRight (spoolSize done)).toList.Perm (offsets (done ++ [record])) := by
    rw [hoffsets]
    exact (AvlTree.perm_insert _ _ t).trans
      ((hholds.perm.cons _).trans (perm_append_singleton _ _).symm)
  have hbalanced := (AvlTree.balanced_insert goRight (spoolSize done) hholds.balanced).1
  by_cases hempty : t = .leaf
  · -- the first record is the root
    subst hempty
    refine ⟨{ a with root := spoolSize done }, _, ?_, rfl, rfl,
      ⟨rfl, stored_single hnode, hbalanced, hperm, hsorted⟩, fun _ _ => rfl⟩
    refine Does.bindGet fun s hs => ?_
    have hroot : s.root = NO_CHILD := hs.root.trans hholds.root
    rw [if_pos hroot]
    exact Does.modifyRule fun s hs =>
      ⟨hs.bytes, hs.length, hs.count, rfl, hs.indexed, hs.small, hs.kept, hs.good⟩
  · obtain ⟨up, b, c, hdown, hstored, hkeeps, hclimb⟩ := descend_does goRight hempty []
      hproper hholds.stored hholds.balanced (show t.height ≤ 128 by omega) (by omega)
      (guides_goesRight a.records record.source t) ⟨⟨record, hrecord⟩, hnode, hother⟩
    have hroot : ¬ rootOf t = NO_CHILD := by
      cases t with
      | leaf => exact absurd rfl hempty
      | node l offset r => exact hproper.rootOf_ne
    refine ⟨{ c with root := rootOf (t.insert goRight (spoolSize done)) }, _, ?_, hkeeps.records,
      hkeeps.indexed, ⟨rfl, hstored, hbalanced, hperm, ?_⟩, ?_⟩
    · refine Does.bindGet fun s hs => ?_
      rw [hs.root, hholds.root, if_neg hroot]
      refine hdown.bind (hclimb _ ?_)
      exact Does.modifyRule fun s hs =>
        ⟨hs.bytes, hs.length, hs.count, rfl, hs.indexed, hs.small, hs.kept, hs.good⟩
    · show List.Pairwise (Comes c.records) _
      rw [hkeeps.records]
      exact hsorted
    · intro offset hoffset
      refine hkeeps.node offset fun hmem => hoffset ?_
      rw [hoffsets]
      rcases mem_cons.mp hmem with rfl | hmem
      · simp
      · exact mem_append_left _ (hholds.perm.mem_iff.mp hmem)

/-! ## Building the tree -/

theorem indexFrom_does
    (hrecords : a.records = done ++ todo) (hholds : Holds a (offsets done) t)
    (hsmall : spoolSize a.records < 2 ^ 64) (hrounds : todo.length ≤ rounds) :
    ∃ b t', Does Shows (indexFrom rounds (spoolSize done)) a (spoolSize a.records) b ∧
      b.records = a.records ∧ b.indexed = a.indexed ∧ Holds b (offsets a.records) t' := by
  induction todo generalizing a done t rounds with
  | nil =>
    rw [append_nil] at hrecords
    refine ⟨a, t, ?_, rfl, rfl, by rw [hrecords]; exact hholds⟩
    rw [← hrecords]
    cases rounds with
    | zero => exact Does.pure _
    | succ rounds =>
      refine Does.bindGet fun s hs => ?_
      have hdone : ¬ spoolSize a.records < s.length := by
        rw [hs.length]
        exact lt_irrefl _
      rw [if_neg hdone]
      exact Does.pure _
  | cons record todo ih =>
    obtain ⟨rounds, rfl⟩ : ∃ k, rounds = k + 1 :=
      ⟨rounds - 1, by rw [length_cons] at hrounds; omega⟩
    have hrecord : recordAt a.records (spoolSize done) = some record := by
      rw [hrecords]
      exact recordAt_append done record todo
    have hlt := recordAt_lt hrecord
    have hsize := recordSize_ge record
    have hnext := nextPresent_does "record missing while indexing" hrecord
    have hgood : Good (spoolSize a.records) .single :=
      good_iff.mpr ⟨by decide, by decide, .inl rfl, .inl rfl⟩
    have hwrite := writeNode_does hrecord hgood
    -- the fresh node is not one of the tree
    have hkeeps := Keeps.setNode a (spoolSize done) .single
    have hholds' : Holds (a.setNode (spoolSize done) .single) (offsets done) t := by
      refine ⟨hholds.root, hkeeps.stored hholds.stored ?_, hholds.balanced, hholds.perm,
        hholds.sorted⟩
      intro offset hoffset hmem
      have hbelow := lt_of_mem_offsets (hholds.perm.mem_iff.mp hoffset)
      rw [mem_singleton.mp hmem] at hbelow
      exact lt_irrefl _ hbelow
    obtain ⟨b, t', hinsert, hb, hindexed, hholdsb, -⟩ := insertPath_does
      (a := a.setNode (spoolSize done) .single) hrecords hholds' hsmall (a.setNode_self _ _)
    rw [a.setNode_records] at hb
    have hnextSize : spoolSize (done ++ [record]) = spoolSize done + recordSize record := by
      rw [spoolSize_append]
      rfl
    have hsplit : b.records = (done ++ [record]) ++ todo := by
      rw [hb, hrecords, append_assoc]
      rfl
    have hleft : todo.length ≤ rounds := by
      rw [length_cons] at hrounds
      omega
    obtain ⟨c, t'', hrest, hc, hindexedc, hholdsc⟩ := ih hsplit hholdsb (by rwa [hb]) hleft
    rw [hb] at hrest hc hholdsc
    refine ⟨c, t'', ?_, hc, hindexedc.trans hindexed, hholdsc⟩
    refine Does.bindGet fun s hs => ?_
    have hmore : spoolSize done < s.length := by
      rw [hs.length]
      omega
    rw [if_pos hmore]
    refine hnext.bind (hwrite.bind (hinsert.bind ?_))
    rw [← hnextSize]
    exact hrest

/-- **The index is built once**, over all records. -/
theorem ensurePathIndex_does (hindexed : Indexed a)
    (hsmall : spoolSize a.records < 2 ^ 64) :
    ∃ b t, Does Shows ensurePathIndex a () b ∧ b.records = a.records ∧ b.indexed = true ∧
      Holds b (offsets b.records) t := by
  cases hcase : a.indexed with
  | true =>
    obtain ⟨t, ht⟩ := hindexed hcase
    refine ⟨a, t, Does.bindGet fun s hs => ?_, rfl, hcase, ht⟩
    rw [hs.indexed, hcase]
    exact Does.pure ()
  | false =>
    have hempty : Holds { a with root := NO_CHILD } (offsets []) .leaf :=
      ⟨rfl, trivial, trivial, .refl _, .nil⟩
    have hlength := length_le_spoolSize a.records
    have hrounds : a.records.length ≤ spoolSize a.records := by omega
    have hall : { a with root := NO_CHILD }.records = [] ++ a.records := rfl
    obtain ⟨b, t, hrun, hb, hbindexed, hholds⟩ := indexFrom_does hall hempty hsmall hrounds
    refine ⟨{ b with indexed := true }, t, ?_, hb, rfl, ?_⟩
    · refine Does.bindGet fun s hs => ?_
      rw [hs.indexed, hcase]
      refine Does.bind (b := { a with root := NO_CHILD }) (Does.modifyRule fun s hs =>
        ⟨hs.bytes, hs.length, hs.count, rfl, hs.indexed, hs.small, hs.kept, hs.good⟩) ?_
      rw [hs.length]
      refine hrun.bind ?_
      refine (Does.ensure _ (decide_eq_true rfl)).bind ?_
      exact Does.modifyRule fun s hs =>
        ⟨hs.bytes, hs.length, hs.count, hs.root, rfl, hs.small, hs.kept, hs.good⟩
    · rw [← show b.records = a.records from hb] at hholds
      exact ⟨hholds.root, hholds.stored, hholds.balanced, hholds.perm, hholds.sorted⟩

end Records

end Ish.Fs
