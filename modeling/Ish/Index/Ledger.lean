import Ish.Index.Accounting

/-!
# An index under removals

After any removals an index still tells what it was built from: which nodes are
below which, in which order, and under which names. The bytes it shows are those
of what is left.
-/

namespace Ish.Index

open Ish.Lib.Forest List

/-! ## What the additions say -/

/-- The nodes appended to `d`, in this order. -/
def appendedTo (adds : List Addition) (d : NodeId) : List NodeId :=
  ((List.range adds.length).filter fun i => (adds[i]?).map (·.parent) = some d).map (· + 1)

/-- The names from the root to a node. -/
inductive PathOf (adds : List Addition) : NodeId → List (List UInt8) → Prop where
  | root : PathOf adds 0 []
  | child {i : Nat} {a : Addition} {names : List (List UInt8)} : adds[i]? = some a →
      PathOf adds a.parent names → PathOf adds (i + 1) (names ++ [a.name])

namespace Tree

variable {t t' : Tree} {n d id : NodeId} {adds : List Addition} {fit : Bool}

theorem Records.childrenOf (h : Records adds t) (d : NodeId) :
    t.childrenOf d = appendedTo adds d := by
  have hroot : t.parentOf 0 = none := by
    obtain ⟨r, hr, hparent⟩ := h.linked.root_record
    rw [parentOf, hr, Option.bind_some, hparent]
  rw [Tree.childrenOf, appendedTo, h.length, range_succ_eq_map, filter_cons_of_neg (by simp [hroot]),
    filter_map]
  refine congrArg (List.map Nat.succ) (filter_congr fun i hi => ?_)
  obtain ⟨a, ha⟩ : ∃ a, adds[i]? = some a := ⟨_, getElem?_eq_getElem (mem_range.mp hi)⟩
  rw [Function.comp_apply, Nat.succ_eq_add_one, h.parent i a ha, ha, Option.map_some]

open Classical in
/-- **The children** are the nodes appended to a node, in this order, but for those removed. -/
theorem childrenFrom_eq {members : List NodeId} {first : Option NodeId} {fuel : Nat}
    (hchain : Chain t.nextOf first members) (hmembers : ∀ c ∈ members, c < t.nodes.length)
    (hfuel : members.length ≤ fuel) :
    t.childrenFrom fuel first = members.filter fun c => t.Live c := by
  induction members generalizing first fuel with
  | nil =>
    obtain rfl := hchain
    cases fuel <;> rfl
  | cons c members ih =>
    obtain ⟨rfl, hchain⟩ := hchain
    obtain ⟨fuel, rfl⟩ := Nat.exists_eq_add_of_le' (Nat.one_le_of_lt (Nat.lt_of_succ_le hfuel))
    obtain ⟨r, hr⟩ := t.exists_record (hmembers c mem_cons_self)
    have hnext : t.nextOf c = r.next_sibling := by rw [nextOf, hr, Option.bind_some]
    have hrest := ih (hnext ▸ hchain) (fun c hc => hmembers c (mem_cons_of_mem _ hc))
      (Nat.le_of_succ_le_succ hfuel)
    rw [childrenFrom, hr]
    dsimp only
    by_cases hlive : t.Live c
    · rw [if_pos ((live_iff hr).mp hlive), hrest, filter_cons_of_pos (by simpa using hlive)]
    · rw [if_neg (mt (live_iff hr).mpr hlive), hrest,
        filter_cons_of_neg (by simpa using hlive)]

/-- The walk of `materialize_path`, which collects the names backwards. -/
theorem Records.pathUp (h : Records adds t) {fuel : Nat} (hn : n < t.nodes.length) (hfuel : n < fuel)
    (below : List (List UInt8)) : ∃ names, PathOf adds n names ∧
      t.pathUp fuel (some n) below = some (names ++ below.reverse) := by
  induction fuel generalizing n below with
  | zero => exact absurd hfuel (Nat.not_lt_zero n)
  | succ fuel ih =>
    obtain ⟨r, hr⟩ := t.exists_record hn
    have hparent : t.parentOf n = r.parent := by rw [parentOf, hr, Option.bind_some]
    rw [Tree.pathUp, hr]
    simp only [Option.bind_eq_bind, Option.bind_some, h.linked.root]
    cases n with
    | zero =>
      obtain ⟨r', hr', hnone⟩ := h.linked.root_record
      obtain rfl : r = r' := Option.some.inj (hr.symm.trans hr')
      refine ⟨[], .root, ?_⟩
      rw [if_neg (not_not.mpr rfl), hnone, Tree.pathUp, nil_append]
    | succ i =>
      have hi : i < adds.length := by
        rw [h.length] at hn
        exact Nat.lt_of_succ_lt_succ hn
      obtain ⟨a, ha⟩ : ∃ a, adds[i]? = some a := ⟨_, getElem?_eq_getElem hi⟩
      have hup := h.parent i a ha
      have hlt := h.linked.rising _ _ hup
      obtain ⟨names, hnames, hpath⟩ := ih (Nat.lt_trans hlt hn)
        (Nat.lt_of_lt_of_le hlt (Nat.le_of_lt_succ hfuel)) (below ++ [a.name])
      refine ⟨names ++ [a.name], .child ha hnames, ?_⟩
      rw [if_pos (Nat.succ_ne_zero i), h.name i a ha, Option.bind_some, ← hparent, hup, hpath,
        reverse_append, reverse_singleton, append_assoc]

/-! ## Over removals -/

/-- An index from which nodes were removed. -/
structure Kept (fit : Bool) (adds : List Addition) (t : Tree) : Prop where
  records : Records adds t
  closed : t.Closed
  accounted : fit = true → t.Accounted fun m => m.ownOf adds

theorem Whole.kept (h : Whole fit adds t) : Kept fit adds t where
  records := h.records
  closed := by
    intro n x habove hlive
    obtain ⟨r, hr, -⟩ := hlive
    exact h.live n (Nat.lt_of_le_of_lt (habove.le h.records.linked.rising) (record_lt hr))
  accounted := h.accounted

/-- **A removal** keeps the invariant. -/
theorem Kept.tombstone_subtree (h : Kept fit adds t) (id : NodeId) :
    Kept fit adds (t.tombstone_subtree id).2 := by
  rcases tombstone_subtree_spec h.records.linked (h.closed.below id) with
    ⟨heq, -⟩ | ⟨heq, -⟩ | ⟨r, t', hr, hlive, heq, hremoved⟩
  · rwa [heq]
  · rwa [heq]
  · rw [heq]
    exact ⟨h.records.congr hremoved.shape, hremoved.closed h.closed,
      fun hfit => hremoved.accounted hr hlive (h.accounted hfit)⟩

theorem Kept.removeAll (h : Kept fit adds t) (ids : List NodeId) : Kept fit adds (t.removeAll ids) := by
  induction ids generalizing t with
  | nil => exact h
  | cons id ids ih => exact ih (h.tombstone_subtree id)

/-! ## The accounts -/

/-- `t'` has the bytes that `t` has. -/
def SameBytes (t t' : Tree) : Prop :=
  ∀ (m : Measure) (n : NodeId), (t'.record n).map m.ofRecord = (t.record n).map m.ofRecord

/-- What is removed from `t`, according to what `tombstone_subtree` returns. -/
structure Reported (t t' : Tree) (id : NodeId) (apparent allocated : UInt64) (count : Nat) : Prop where
  above : ∀ n r r', t.record n = some r → t'.record n = some r' → t.Above n id → n ≠ id →
    r.apparent_bytes.toNat = r'.apparent_bytes.toNat + apparent.toNat ∧
      r.allocated_bytes.toNat = r'.allocated_bytes.toNat + allocated.toNat
  count : count = {n | t.Live n ∧ ¬ t'.Live n}.ncard

/-- What `tombstone_subtree` returns is what it did. -/
theorem Kept.reported (h : Kept fit adds t) {apparent allocated count}
    (heq : t.tombstone_subtree id = (some (apparent, allocated, count), t')) :
    Reported t t' id apparent allocated count := by
  rcases tombstone_subtree_spec h.records.linked (h.closed.below id) with
    ⟨heq', -⟩ | ⟨heq', -⟩ | ⟨r, t'', hr, hlive, heq', hremoved⟩
  · rw [heq] at heq'
    cases heq'
  · rw [heq] at heq'
    cases heq'
    refine ⟨fun n r r' hr hr' _ _ => ?_, ?_⟩
    · rw [hr, Option.some.injEq] at hr'
      exact hr' ▸ ⟨rfl, rfl⟩
    · have hnone : {n | t.Live n ∧ ¬ t.Live n} = ∅ :=
        Set.eq_empty_iff_forall_notMem.mpr fun n hn => hn.2 hn.1
      rw [hnone, Set.ncard_empty]
  · rw [heq] at heq'
    cases heq'
    refine ⟨hremoved.above, ?_⟩
    rw [Tree.count]
    congr 1
    ext n
    simp only [Set.mem_ofPred_eq, hremoved.live]
    constructor
    · exact fun hn => ⟨hn.2.2, fun hleft => hleft.2 hn.2.1⟩
    · rintro ⟨hn, hgone⟩
      exact ⟨hn.lt, by_contra fun hnot => hgone ⟨hn, hnot⟩, hn⟩

theorem Kept.refused (h : Kept fit adds t) (hnone : (t.tombstone_subtree id).1 = none) :
    SameBytes t (t.tombstone_subtree id).2 := by
  rcases tombstone_subtree_spec h.records.linked (h.closed.below id) with
    ⟨heq, -⟩ | ⟨heq, -⟩ | ⟨r, t', -, -, heq, -⟩
  · rw [heq]
    exact fun m n => rfl
  · rw [heq] at hnone
    cases hnone
  · rw [heq] at hnone
    cases hnone

/-- An addition that does not fit somewhere above is refused. -/
theorem add_to_ancestors_full (hl : t.Linked) (habove : t.Above a id) (hr : t.record a = some r)
    (hfull : 2 ^ 64 ≤ r.apparent_bytes.toNat + apparent.toNat ∨
      2 ^ 64 ≤ r.allocated_bytes.toNat + allocated.toNat) :
    (t.add_to_ancestors id apparent allocated).1 = false := by
  by_cases hid : id < t.nodes.length
  · obtain ⟨fits, hfits, hroom⟩ := fitsUp_eq apparent allocated hl hid hid
    rw [add_to_ancestors, hfits]
    cases fits with
    | false => rfl
    | true =>
      obtain ⟨happarent, hallocated⟩ := hroom.mp rfl a r habove hr
      exact (hfull.elim (Nat.not_le.mpr happarent) (Nat.not_le.mpr hallocated)).elim
  · -- a node that is not there has nothing above it but itself
    rcases above_iff.mp habove with rfl | ⟨p, hp, -⟩
    · exact absurd (record_lt hr) hid
    · exact absurd (parentOf_lt hp) hid

open Classical in
/-- What an index tells of the additions it was built from. -/
structure Tells (fit : Bool) (adds : List Addition) (t : Tree) : Prop where
  /-- The links are those of the additions. -/
  parents : ∀ i a, adds[i]? = some a → t.parentOf (i + 1) = some a.parent
  /-- The bytes are those of what is left, as long as no addition was refused. -/
  bytes : fit = true → ∀ (m : Measure) (n : NodeId) (r : NodeRecord), t.record n = some r →
    r.state ≠ .Tombstone → m.ofRecord r = t.sumBelow (m.ownOf adds) n
  tombstones : ∀ n x r, t.Above n x → t.record n = some r → r.state = .Tombstone →
    ∀ rx, t.record x = some rx → rx.state = .Tombstone
  removes : ∀ id apparent allocated count t',
    t.tombstone_subtree id = (some (apparent, allocated, count), t') →
      Reported t t' id apparent allocated count
  children : ∀ d, t.children d = (appendedTo adds d).filter fun c => t.Live c
  paths : ∀ n < t.nodes.length, ∃ names, PathOf adds n names ∧ t.materialize_path n = some names
  full : ∀ id apparent allocated a r, t.Above a id → t.record a = some r →
    (2 ^ 64 ≤ r.apparent_bytes.toNat + apparent.toNat ∨
      2 ^ 64 ≤ r.allocated_bytes.toNat + allocated.toNat) →
    (t.add_to_ancestors id apparent allocated).1 = false ∧
      SameBytes t (t.add_to_ancestors id apparent allocated).2
  refused : ∀ id, (t.tombstone_subtree id).1 = none → SameBytes t (t.tombstone_subtree id).2

/-- **Index accounting.** However an index was built, and whatever was removed from it since:
what it tells of its nodes is true. -/
theorem accounting (h : Built fit adds t) (ids : List NodeId) : Tells fit adds (t.removeAll ids) := by
  have hkept := h.whole.kept.removeAll ids
  generalize t.removeAll ids = t at hkept
  have hl := hkept.records.linked
  refine ⟨hkept.records.parent, fun hfit m n r hr hstate => ?_, fun n x r habove hr hstate rx hrx => ?_,
    fun id apparent allocated count t' heq => hkept.reported heq, fun d => ?_, fun n hn => ?_,
    fun id apparent allocated a r habove hr hfull => ?_, fun id hnone => hkept.refused hnone⟩
  · exact hkept.accounted hfit m n r hr ⟨r, hr, hstate⟩
  · by_contra hlive
    exact (live_iff hr).mp (hkept.closed n x habove ⟨rx, hrx, hlive⟩) hstate
  · rw [Tree.children, ← hkept.records.childrenOf]
    cases hr : t.record d with
    | none =>
      have hempty : t.childrenOf d = [] := by
        rw [eq_nil_iff_forall_not_mem]
        intro c hc
        obtain ⟨r, hr'⟩ := t.exists_record (hl.parent_lt (mem_childrenOf.mp hc))
        rw [hr] at hr'
        cases hr'
      rw [hempty, Option.bind_none]
      cases t.nodes.length <;> rfl
    | some r =>
      rw [Option.bind_some]
      refine childrenFrom_eq (hl.chain d r hr) (fun c hc => parentOf_lt (mem_childrenOf.mp hc)) ?_
      refine (length_filter_le _ _).trans ?_
      rw [length_range]
  · obtain ⟨names, hnames, hpath⟩ := hkept.records.pathUp hn hn []
    exact ⟨names, hnames, by rw [materialize_path, hpath, reverse_nil, append_nil]⟩
  · have hfalse := add_to_ancestors_full hl habove hr hfull
    exact ⟨hfalse, fun m n => add_to_ancestors_refused t id apparent allocated hfalse m n⟩

/-! ## A directory with two files -/

def emptyRoot : Tree := (Tree.new [47] ⟨1, 1⟩ 2).get (by decide)

/-- A file of the root. -/
def fileOf (name : UInt8) (inode apparent_bytes : UInt64) : Addition :=
  ⟨0, [name], .RegularFile, ⟨1, inode⟩, 1, apparent_bytes, 0, .Complete⟩

def withTwo (a b : Addition) : Option (Bool × Tree) := do
  let (fit, t) ← emptyRoot.add a
  let (fits, t) ← t.add b
  return (fit && fits, t)

theorem built_withTwo (h : withTwo a b = some (fit, t)) :
    Built fit [a, b] t := by
  have hnew : Tree.new [47] ⟨1, 1⟩ 2 = some emptyRoot := (Option.some_get _).symm
  simp only [withTwo, Option.bind_eq_bind, Option.bind_eq_some_iff, Option.pure_def,
    Option.some.injEq, Prod.mk.injEq] at h
  obtain ⟨⟨first, t₁⟩, h₁, ⟨second, t₂⟩, h₂, rfl, rfl⟩ := h
  exact ((Built.new hnew).add h₁).add h₂

/-- **Bytes that do not fit** are not counted. -/
theorem refused_addition_not_counted : ∃ (fit : Bool) (adds : List Addition) (t : Tree),
    Built fit adds t ∧ ∃ (m : Measure) (n : NodeId) (r : NodeRecord), t.record n = some r ∧ r.state ≠ .Tombstone ∧
      m.ofRecord r ≠ t.sumBelow (m.ownOf adds) n := by
  obtain ⟨⟨fit, t⟩, h⟩ := Option.isSome_iff_exists.mp
    (show (withTwo (fileOf 97 2 (2 ^ 64 - 1)) (fileOf 98 3 1)).isSome by decide +kernel)
  have hbuilt := built_withTwo h
  have hroot : (withTwo (fileOf 97 2 (2 ^ 64 - 1)) (fileOf 98 3 1)).map
      (fun p => (p.2.record 0).map fun r => (r.state, r.apparent_bytes.toNat)) =
        some (some (.Incomplete, 2 ^ 64 - 1)) := by decide +kernel
  rw [h, Option.map_some, Option.some.injEq, Option.map_eq_some_iff] at hroot
  obtain ⟨r, hr, heq⟩ := hroot
  obtain ⟨hstate, hbytes⟩ := Prod.mk.inj heq
  have hwhole := hbuilt.whole
  have hsum : t.sumBelow (Measure.apparent.ownOf [fileOf 97 2 (2 ^ 64 - 1), fileOf 98 3 1]) 0 =
      2 ^ 64 := by
    have hlength : t.nodes.length = 3 := hwhole.records.length
    have habove : ∀ i, i < 2 → t.Above 0 (i + 1) ∧ t.Live (i + 1) := by
      intro i hi
      refine ⟨.of_parent ?_, hwhole.live _ (hlength ▸ Nat.succ_lt_succ hi)⟩
      obtain rfl | rfl : i = 0 ∨ i = 1 := Nat.le_one_iff_eq_zero_or_eq_one.mp (Nat.le_of_lt_succ hi)
      · exact hwhole.records.parent 0 _ rfl
      · exact hwhole.records.parent 1 _ rfl
    have hzero : t.Above 0 0 ∧ t.Live 0 := ⟨.refl 0, hwhole.live 0 (hlength ▸ by decide)⟩
    rw [sumBelow, hlength, Finset.sum_range_succ, Finset.sum_range_succ, Finset.sum_range_one,
      if_pos hzero, if_pos (habove 0 (by decide)), if_pos (habove 1 (by decide))]
    decide +kernel
  refine ⟨fit, _, t, hbuilt, .apparent, 0, r, hr, hstate ▸ (by rintro ⟨⟩), ?_⟩
  rw [hsum, Measure.ofRecord, hbytes]
  decide

/-- A directory whose two files fit, and which is left with one of them. -/
theorem accounting_twoFiles : ∃ (fit : Bool) (t : Tree),
    withTwo (fileOf 97 2 5) (fileOf 98 3 7) = some (fit, t) ∧
    Tells fit [fileOf 97 2 5, fileOf 98 3 7] (t.removeAll [1]) := by
  obtain ⟨⟨fit, t⟩, h⟩ := Option.isSome_iff_exists.mp
    (show (withTwo (fileOf 97 2 5) (fileOf 98 3 7)).isSome by decide)
  exact ⟨fit, t, h, accounting (built_withTwo h) [1]⟩

end Tree

end Ish.Index
