import Ish.Index.Tombstones
import Ish.Index.States
import Mathlib.Algebra.Order.BigOperators.Group.Finset

/-!
# What the bytes of a node add up to

Each node of an index is appended, and its sizes are added to all nodes above it.
From then on the bytes of a node are those of the nodes below it that are left,
whatever is removed. The links say which these are, and in which order.
-/

namespace Ish.Index

open Ish.Lib.Forest List Option

/-- The arguments of `append`. -/
structure Addition where
  parent : NodeId
  name : List UInt8
  entry_type : EntryType
  identity : FileIdentity
  link_count : UInt64
  apparent_bytes : UInt64
  allocated_bytes : UInt64
  state : NodeStatus
  deriving DecidableEq

namespace Tree

/-- `append`, and then `add_to_ancestors` of the sizes of the new node. -/
def add (t : Tree) (a : Addition) : Option (Bool × Tree) := do
  let (_, t) ← t.append a.parent a.name a.entry_type a.identity a.link_count a.apparent_bytes
    a.allocated_bytes a.state
  return t.add_to_ancestors a.parent a.apparent_bytes a.allocated_bytes

/-- A tree that is built by additions, and whether all of them found room. -/
inductive Built : Bool → List Addition → Tree → Prop where
  | new {name : List UInt8} {identity : FileIdentity} {link_count : UInt64} {t : Tree} :
      Tree.new name identity link_count = some t → Built true [] t
  | add {fit fits : Bool} {adds : List Addition} {a : Addition} {t t' : Tree} :
      Built fit adds t → t.add a = some (fits, t') → Built (fit && fits) (adds ++ [a]) t'

/-- A tree after removals. -/
def removeAll (t : Tree) (ids : List NodeId) : Tree :=
  ids.foldl (fun t id => (t.tombstone_subtree id).2) t

end Tree

namespace Measure

def ofAddition : Measure → Addition → Nat
  | .apparent, a => a.apparent_bytes.toNat
  | .allocated, a => a.allocated_bytes.toNat

/-- What a node was appended with; the root has nothing of its own. -/
def ownOf (m : Measure) (adds : List Addition) (n : NodeId) : Nat :=
  if n = 0 then 0 else (adds[n - 1]?).elim 0 m.ofAddition

theorem ownOf_append_of_lt (m : Measure) (adds : List Addition) (a : Addition) {n : NodeId}
    (hn : n < adds.length + 1) : m.ownOf (adds ++ [a]) n = m.ownOf adds n := by
  rw [ownOf, ownOf]
  split
  · rfl
  · rename_i hzero
    have hlt : n - 1 < adds.length :=
      (Nat.sub_lt_iff_lt_add (Nat.pos_of_ne_zero hzero)).mpr hn
    rw [getElem?_append_left hlt]

theorem ownOf_append_new (m : Measure) (adds : List Addition) (a : Addition) :
    m.ownOf (adds ++ [a]) (adds.length + 1) = m.ofAddition a := by
  rw [ownOf, if_neg (Nat.succ_ne_zero _), Nat.add_sub_cancel, getElem?_concat_length,
    elim_some]

end Measure

namespace Tree

variable {t t' : Tree} {n x c id : NodeId} {own : Measure → NodeId → Nat} {m : Measure}

/-! ## Sums over subtrees -/

open Classical in
/-- The sum of what the nodes of a subtree that are left have of their own. -/
noncomputable def sumBelow (t : Tree) (own : NodeId → Nat) (n : NodeId) : Nat :=
  ∑ x ∈ Finset.range t.nodes.length, if t.Above n x ∧ t.Live x then own x else 0

variable {apparent allocated : UInt64}

theorem Removed.sumBelow (h : Removed t t' id apparent allocated)
    (own : NodeId → Nat) (habove : t.Above n id) :
    t.sumBelow own n = t'.sumBelow own n + t.sumBelow own id := by
  rw [Tree.sumBelow, Tree.sumBelow, Tree.sumBelow, h.shape.length, ← Finset.sum_add_distrib]
  refine Finset.sum_congr rfl fun x _ => ?_
  rw [h.shape.above, h.live]
  by_cases hx : t.Above n x ∧ t.Live x
  · by_cases hid : t.Above id x
    · rw [if_pos hx, if_neg fun h => h.2.2 hid, if_pos ⟨hid, hx.2⟩, Nat.zero_add]
    · rw [if_pos hx, if_pos ⟨hx.1, hx.2, hid⟩, if_neg fun h => hid h.1, Nat.add_zero]
  · rw [if_neg hx, if_neg fun h => hx ⟨h.1, h.2.1⟩, if_neg fun h => hx ⟨habove.trans h.1, h.2⟩]

theorem Removed.sumBelow_beside
    (h : Removed t t' id apparent allocated) (own : NodeId → Nat) (hnot : ¬ t.Above n id)
    (hleft : ¬ t.Above id n) : t'.sumBelow own n = t.sumBelow own n := by
  rw [Tree.sumBelow, Tree.sumBelow, h.shape.length]
  refine Finset.sum_congr rfl fun x _ => ?_
  rw [h.shape.above, h.live]
  by_cases hx : t.Above n x ∧ t.Live x
  · have hid : ¬ t.Above id x := fun hid => (hx.1.linear hid).elim hnot hleft
    rw [if_pos hx, if_pos ⟨hx.1, hx.2, hid⟩]
  · rw [if_neg hx, if_neg fun h => hx ⟨h.1, h.2.1⟩]

/-! ## The invariant -/

/-- Below what is removed, all is. -/
def Closed (t : Tree) : Prop := ∀ n x, t.Above n x → t.Live x → t.Live n

theorem Closed.below (h : t.Closed) (n : NodeId) : t.ClosedBelow n :=
  fun x y _ hxy hlive => h x y hxy hlive

/-- The bytes of each node that is left are the sum of what is left below it. -/
def Accounted (own : Measure → NodeId → Nat) (t : Tree) : Prop :=
  ∀ (m : Measure) (n : NodeId) (r : NodeRecord), t.record n = some r → t.Live n →
    m.ofRecord r = t.sumBelow (own m) n

theorem Removed.closed (h : Removed t t' id apparent allocated)
    (hclosed : t.Closed) : t'.Closed := by
  intro n x habove hlive
  rw [h.shape.above] at habove
  rw [h.live] at hlive ⊢
  exact ⟨hclosed n x habove hlive.1, fun hid => hlive.2 (hid.trans habove)⟩

theorem Removed.ofRecord (h : Removed t t' id r.apparent_bytes r.allocated_bytes) (hrn : t.record n = some rn) (hrn' : t'.record n = some rn')
    (habove : t.Above n id) (hne : n ≠ id) (m : Measure) :
    m.ofRecord rn = m.ofRecord rn' + m.ofRecord r := by
  obtain ⟨happarent, hallocated⟩ := h.above n rn rn' hrn hrn' habove hne
  cases m with
  | apparent => exact happarent
  | allocated => exact hallocated

theorem Removed.ofRecord_beside
    (h : Removed t t' id apparent allocated) (hrn : t.record n = some rn)
    (hrn' : t'.record n = some rn') (hnot : ¬ (t.Above n id ∧ n ≠ id)) (m : Measure) :
    m.ofRecord rn' = m.ofRecord rn := by
  obtain ⟨happarent, hallocated⟩ := h.beside n rn rn' hrn hrn' hnot
  cases m with
  | apparent => exact congrArg UInt64.toNat happarent
  | allocated => exact congrArg UInt64.toNat hallocated

/-- **A removal** keeps the sums. -/
theorem Removed.accounted
    (h : Removed t t' id r.apparent_bytes r.allocated_bytes) (hr : t.record id = some r)
    (hlive : t.Live id) (haccounted : t.Accounted own) : t'.Accounted own := by
  intro m n rn' hrn' hlive'
  obtain ⟨hn, hleft⟩ := (h.live n).mp hlive'
  obtain ⟨rn, hrn, -⟩ := h.shape.symm.exists_record hrn'
  have hbefore := haccounted m n rn hrn hn
  by_cases habove : t.Above n id
  · have hne : n ≠ id := fun heq => hleft (heq ▸ .refl n)
    have hbytes := h.ofRecord hrn hrn' habove hne m
    have hid := haccounted m id r hr hlive
    rw [hbefore, h.sumBelow (own m) habove, hid] at hbytes
    exact (Nat.add_right_cancel hbytes).symm
  · rw [h.ofRecord_beside hrn hrn' (fun hboth => habove hboth.1) m, hbefore,
      h.sumBelow_beside (own m) habove hleft]

/-! ## Adding to the nodes above -/

theorem overflowed_shape (r : NodeRecord) : (overflowed r).shape = r.shape := rfl

/-- What changes states only leaves the bytes. -/
theorem walkUp_bytes (hf : ∀ m r, Measure.ofRecord m (f r) = m.ofRecord r)
    (m : Measure) (fuel : Nat) (current : Option NodeId) (t : Tree) (n : NodeId) :
    ((t.walkUp f fuel current).record n).map m.ofRecord = (t.record n).map m.ofRecord := by
  induction fuel generalizing current t with
  | zero => rfl
  | succ fuel ih =>
    cases current with
    | none => rfl
    | some node =>
      rw [walkUp]
      split
      · rfl
      · rw [ih, record_modify]
        split
        · rw [Option.map_map]
          exact congrArg (fun g => (t.record n).map g) (funext fun r => hf m r)
        · rfl

/-- **An addition without room** changes no bytes. -/
theorem add_to_ancestors_refused (t : Tree) (id : NodeId) (apparent allocated : UInt64)
    (h : (t.add_to_ancestors id apparent allocated).1 = false) (m : Measure) (n : NodeId) :
    ((t.add_to_ancestors id apparent allocated).2.record n).map m.ofRecord =
      (t.record n).map m.ofRecord := by
  rw [add_to_ancestors] at h ⊢
  split
  · rfl
  · rename_i hfits
    rw [hfits] at h
    cases h
  · exact walkUp_bytes (fun m r => by cases m <;> rfl) m _ _ t n

/-- **An addition with room** is made for each node above. -/
theorem add_to_ancestors_fits (hl : t.Linked) (hid : id < t.nodes.length) (run : TokenTree.Run)
    (h : t.add_to_ancestors id run.apparent run.allocated = (true, t'))
    (hr : t.record n = some r) (hr' : t'.record n = some r') :
    (t.Above n id ∧ ∀ m : Measure, m.ofRecord r' = m.ofRecord r + m.ofRun run) ∨
      (¬ t.Above n id ∧ ∀ m : Measure, m.ofRecord r' = m.ofRecord r) := by
  obtain ⟨fits, hfits, hroom⟩ := fitsUp_eq run.apparent run.allocated hl hid hid
  rw [add_to_ancestors, hfits] at h
  cases fits with
  | false => cases h
  | true =>
    obtain rfl := (Prod.mk.inj h).2
    rcases walkUp_record (grown_shape run.apparent run.allocated) hl hid hid n with
      ⟨habove, hmap⟩ | ⟨hnot, hsame⟩
    · rw [hr', hr, map_some, some.injEq] at hmap
      exact .inl ⟨habove, fun m => hmap ▸ ofRecord_grown (hroom.mp rfl n r habove hr)⟩
    · rw [hr', hr, some.injEq] at hsame
      exact .inr ⟨hnot, fun m => hsame ▸ rfl⟩

theorem add_to_ancestors_shape (t : Tree) (id : NodeId) (apparent allocated : UInt64) :
    SameShape t (t.add_to_ancestors id apparent allocated).2 := by
  rw [add_to_ancestors]
  split
  · exact .refl t
  · exact walkUp_shape (grown_shape apparent allocated) _ _ t
  · exact walkUp_shape overflowed_shape _ _ t

/-- Nothing is removed by a walk that removes nothing. -/
theorem walkUp_live
    (hf : ∀ r, r.state ≠ .Tombstone → (f r).state ≠ .Tombstone) (fuel : Nat)
    (current : Option NodeId) (t : Tree) (h : t.Live n) :
    (t.walkUp f fuel current).Live n := by
  induction fuel generalizing current t with
  | zero => exact h
  | succ fuel ih =>
    cases current with
    | none => exact h
    | some node =>
      rw [walkUp]
      split
      · exact h
      · obtain ⟨r, hr, hstate⟩ := h
        refine ih _ _ ?_
        by_cases hn : node = n
        · exact ⟨f r, by rw [record_modify, if_pos hn, hr, map_some], hf r hstate⟩
        · exact ⟨r, by rw [record_modify, if_neg hn, hr], hstate⟩

theorem add_to_ancestors_live (id : NodeId) (apparent allocated : UInt64) (h : t.Live n) :
    (t.add_to_ancestors id apparent allocated).2.Live n := by
  rw [add_to_ancestors]
  split
  · exact h
  · exact walkUp_live (f := grown apparent allocated) (fun _ hstate => hstate) _ _ t h
  · exact walkUp_live (f := overflowed) (fun _ _ hstate => by cases hstate) _ _ t h

/-! ## Building -/

/-- What an index that is built records of its additions. -/
structure Records (adds : List Addition) (t : Tree) : Prop where
  linked : t.Linked
  length : t.nodes.length = adds.length + 1
  parent : ∀ i a, adds[i]? = some a → t.parentOf (i + 1) = some a.parent
  name : ∀ i a, adds[i]? = some a → t.name (i + 1) = some a.name

variable {adds : List Addition}

theorem Records.congr (h : Records adds t) (hshape : SameShape t t') :
    Records adds t' where
  linked := hshape.linked h.linked
  length := hshape.length.trans h.length
  parent := fun i a ha => hshape.parentOf ▸ h.parent i a ha
  name := fun i a ha => (hshape.name _).trans (h.name i a ha)

variable {parent_record new : NodeRecord}

theorem Records.append {a}
    (h : Records adds t) (happ : Appends t t' a.parent a.name parent_record new) :
    Records (adds ++ [a]) t' := by
  have hold : ∀ {i b}, adds[i]? = some b → i + 1 < t.nodes.length := fun {i b} hb => by
    rw [h.length]
    exact Nat.succ_lt_succ (List.getElem?_eq_some_iff.mp hb).1
  have hcases : ∀ {i b}, (adds ++ [a])[i]? = some b →
      adds[i]? = some b ∨ (i + 1 = t.nodes.length ∧ b = a) := by
    intro i b hb
    rcases Nat.lt_or_ge i adds.length with hlt | hge
    · rw [getElem?_append_left hlt] at hb
      exact .inl hb
    · rw [getElem?_append_right hge, getElem?_singleton] at hb
      split at hb
      · rename_i hzero
        exact .inr ⟨by rw [h.length, Nat.le_antisymm (Nat.sub_eq_zero_iff_le.mp hzero) hge],
          (some.inj hb).symm⟩
      · cases hb
  refine ⟨happ.linked h.linked, ?_, fun i b hb => ?_, fun i b hb => ?_⟩
  · rw [happ.length, h.length, length_append, length_singleton]
  · rcases hcases hb with hb | ⟨hi, rfl⟩
    · rw [happ.parentOf_of_lt (hold hb)]
      exact h.parent i b hb
    · rw [happ.parentOf, if_pos hi]
  · rcases hcases hb with hb | ⟨hi, rfl⟩
    · rw [happ.name_of_lt h.linked (hold hb)]
      exact h.name i b hb
    · rw [hi]
      exact happ.name_new

theorem Appends.sumBelow_of_lt {parent name}
    (happ : Appends t t' parent name parent_record new) (hl : t.Linked)
    (hlive : ∀ x < t.nodes.length, t.Live x) (hlive' : ∀ x < t'.nodes.length, t'.Live x)
    {own own'} (hown : ∀ x < t.nodes.length, own' x = own x)
    (hn : n < t.nodes.length) [Decidable (t.Above n parent)] :
    t'.sumBelow own' n =
      t.sumBelow own n + if t.Above n parent then own' t.nodes.length else 0 := by
  have hlength : t.nodes.length < t'.nodes.length := happ.length ▸ Nat.lt_succ_self _
  rw [sumBelow, sumBelow, happ.length, Finset.sum_range_succ]
  congr 1
  · refine Finset.sum_congr rfl fun x hx => ?_
    have hlt := Finset.mem_range.mp hx
    have habove := happ.above_of_lt hl hlt (a := n)
    rw [hown x hlt]
    by_cases hbelow : t.Above n x
    · rw [if_pos ⟨habove.mpr hbelow, hlive' x (hlt.trans hlength)⟩, if_pos ⟨hbelow, hlive x hlt⟩]
    · rw [if_neg fun h => hbelow (habove.mp h.1), if_neg fun h => hbelow h.1]
  · have habove := happ.above_new hl (a := n)
    by_cases hbelow : t.Above n parent
    · rw [if_pos hbelow, if_pos ⟨habove.mpr (.inr hbelow), hlive' _ hlength⟩]
    · rw [if_neg hbelow, if_neg fun h => (habove.mp h.1).elim (Nat.ne_of_lt hn) hbelow]

theorem Appends.sumBelow_new {parent name}
    (happ : Appends t t' parent name parent_record new) (hl : t.Linked)
    (hlive' : ∀ x < t'.nodes.length, t'.Live x) (own : NodeId → Nat) :
    t'.sumBelow own t.nodes.length = own t.nodes.length := by
  have hlength : t.nodes.length < t'.nodes.length := happ.length ▸ Nat.lt_succ_self _
  rw [sumBelow, Finset.sum_eq_single_of_mem t.nodes.length (Finset.mem_range.mpr hlength),
    if_pos ⟨.refl _, hlive' _ hlength⟩]
  intro x hx hne
  refine if_neg fun h => hne (Nat.le_antisymm ?_ (h.1.le (happ.linked hl).rising))
  have hlt := Finset.mem_range.mp hx
  rw [happ.length] at hlt
  exact Nat.le_of_lt_succ hlt

theorem SameShape.sumBelow (h : SameShape t t') (hlive : ∀ x < t.nodes.length, t.Live x)
    (hlive' : ∀ x < t'.nodes.length, t'.Live x) (own : NodeId → Nat) (n : NodeId) :
    t'.sumBelow own n = t.sumBelow own n := by
  rw [Tree.sumBelow, Tree.sumBelow, h.length]
  refine Finset.sum_congr rfl fun x hx => ?_
  have hlt := Finset.mem_range.mp hx
  by_cases hbelow : t.Above n x
  · rw [if_pos ⟨h.above.mpr hbelow, hlive' x (h.length ▸ hlt)⟩, if_pos ⟨hbelow, hlive x hlt⟩]
  · rw [if_neg fun h' => hbelow (h.above.mp h'.1), if_neg fun h => hbelow h.1]

/-- An index while it is built. -/
structure Whole (fit : Bool) (adds : List Addition) (t : Tree) : Prop where
  records : Records adds t
  live : ∀ n < t.nodes.length, t.Live n
  accounted : fit = true → t.Accounted fun m => m.ownOf adds

/-- **An addition** that finds room keeps the sums. -/
theorem Whole.add (h : Whole fit adds t)
    (hadd : t.add a = some (fits, t')) : Whole (fit && fits) (adds ++ [a]) t' := by
  classical
  simp only [Tree.add, bind_eq_bind, bind_eq_some_iff, Option.pure_def,
    some.injEq] at hadd
  obtain ⟨⟨id, t₁⟩, happend, hancestors⟩ := hadd
  dsimp only at hancestors
  obtain ⟨rfl, pr, happ⟩ := append_eq_some h.records.linked happend
  have hl := h.records.linked
  have hl₁ := happ.linked hl
  have hshape := add_to_ancestors_shape t₁ a.parent a.apparent_bytes a.allocated_bytes
  have hlive₁ : ∀ n < t₁.nodes.length, t₁.Live n := by
    intro n hn
    rw [happ.length] at hn
    rcases Nat.eq_or_lt_of_le (Nat.le_of_lt_succ hn) with rfl | hlt
    · exact ⟨_, happ.appended, by cases a.state <;> exact nofun⟩
    · obtain ⟨r, hr, hstate⟩ := h.live n hlt
      exact ⟨_, happ.old_record hr, hstate⟩
  have hlive : ∀ n < t'.nodes.length, t'.Live n := by
    intro n hn
    have hlive := add_to_ancestors_live a.parent a.apparent_bytes a.allocated_bytes
      (hlive₁ n (by rw [hancestors] at hshape; rwa [hshape.length] at hn))
    rwa [hancestors] at hlive
  rw [hancestors] at hshape
  refine ⟨(h.records.append happ).congr hshape, hlive, fun hfit m n r' hr' _ => ?_⟩
  obtain ⟨rfl, rfl⟩ := Bool.and_eq_true_iff.mp hfit
  have hparent : a.parent < t₁.nodes.length := happ.length ▸ Nat.lt_succ_of_lt happ.parent_lt
  obtain ⟨r₁, hr₁, -⟩ := hshape.symm.exists_record hr'
  have hsum := fun n => hshape.sumBelow hlive₁ hlive (m.ownOf (adds ++ [a])) n
  have hlength := h.records.length
  have hrun : m.ofRun ⟨a.parent, a.apparent_bytes, a.allocated_bytes, true, false⟩ =
      m.ofAddition a := by cases m <;> rfl
  have hgrown := add_to_ancestors_fits hl₁ hparent
    ⟨a.parent, a.apparent_bytes, a.allocated_bytes, true, false⟩ hancestors hr₁ hr'
  have hnew : m.ownOf (adds ++ [a]) t.nodes.length = m.ofAddition a := by
    rw [hlength, m.ownOf_append_new]
  rw [hsum]
  rcases happ.record_cases hr₁ with ⟨rfl, rfl⟩ | ⟨r, hr, rfl⟩
  · -- the new node is above nothing
    have hnot : ¬ t₁.Above t.nodes.length a.parent := fun habove =>
      Nat.not_le.mpr happ.parent_lt (habove.le hl₁.rising)
    obtain ⟨-, hbytes⟩ := hgrown.resolve_left fun hboth => hnot hboth.1
    rw [hbytes m, happ.sumBelow_new hl hlive₁, hnew]
    cases m <;> rfl
  · have hn := record_lt hr
    have hbefore := h.accounted rfl m n r hr (h.live n hn)
    have hrelink : m.ofRecord (relink a.parent t.nodes.length pr.last_child n r) = m.ofRecord r := by
      cases m <;> rfl
    have habove : t₁.Above n a.parent ↔ t.Above n a.parent := happ.above_of_lt hl happ.parent_lt
    rw [happ.sumBelow_of_lt hl h.live hlive₁
      (fun x hx => m.ownOf_append_of_lt adds a (hlength ▸ hx)) hn, ← hbefore, hnew]
    rcases hgrown with ⟨habove', hbytes⟩ | ⟨hnot, hbytes⟩
    · rw [hbytes m, hrelink, hrun, if_pos (habove.mp habove')]
    · rw [hbytes m, hrelink, if_neg (mt habove.mpr hnot), Nat.add_zero]

theorem Built.whole (h : Built fit adds t) : Whole fit adds t := by
  induction h with
  | new hnew =>
    obtain ⟨hl, hrecord⟩ := new_linked hnew
    obtain ⟨-, r, hnodes, -, -, -, -, -, hstate, happarent, hallocated⟩ := new_record hnew
    have hlength : (Tree.nodes _).length = 1 := congrArg List.length hnodes
    refine ⟨⟨hl, hlength, fun i a => by rintro ⟨⟩, fun i a => by rintro ⟨⟩⟩, fun n hn => ?_, fun _ m n r' hr' _ => ?_⟩
    · rw [hlength, Nat.lt_one_iff] at hn
      refine ⟨r, by rw [hn, record, hnodes]; rfl, by rw [hstate]; rintro ⟨⟩⟩
    · obtain ⟨rfl, hnodes'⟩ := hrecord n r' hr'
      obtain rfl := singleton_injective (hnodes'.symm.trans hnodes)
      have hzero : (fun m : Measure => m.ownOf []) m 0 = 0 := rfl
      rw [sumBelow, hlength, Finset.sum_range_one, hzero, ite_self]
      cases m with
      | apparent => exact congrArg UInt64.toNat happarent
      | allocated => exact congrArg UInt64.toNat hallocated
  | add _ hadd ih => exact ih.add hadd

end Tree

end Ish.Index
