import Ish.Fs.Index

/-!
# Lookups

A lookup goes to the left at an equal path and remembers it: in a tree sorted by
path and push order it ends with the first record of the path. The record is
then the one a walk over all records finds.
-/

namespace Ish.Fs

open Ish.Lib List Option
open EState (Does)
open UnixPath (Path)

/-- What `find_entry` returns of a record: its offset, its end and itself. -/
def entryAt (records : List Record) (offset : Nat) : Option (Nat × Nat × Record) :=
  (recordAt records offset).map fun record => (offset, offset + recordSize record, record)

theorem entryAt_of {records offset record}
    (h : recordAt records offset = some record) :
    entryAt records offset = some (offset, offset + recordSize record, record) := by
  rw [entryAt, h]
  rfl

/-- The offset has the path. -/
def named (records : List Record) (path : Path) (offset : Nat) : Bool :=
  keyAt records offset = UnixPath.key path

namespace Records

variable {a : Spool}

theorem findFrom_does {t left} (path : Path) (found : Option (Nat × Nat × Record))
    (hproper : Proper a.records t) (hstored : Stored a.node t) (hleft : t.size ≤ left)
    (hsorted : t.toList.Pairwise fun x y => keyAt a.records x ≤ keyAt a.records y) :
    Does Shows (findFrom path left (rootOf t) found) a
      (((t.toList.find? (named a.records path)).bind (entryAt a.records)).or found) a := by
  induction t generalizing left found with
  | leaf =>
    cases left <;> exact Does.pure _
  | node l offset r ihl ihr =>
    obtain ⟨hnode, hl, hr⟩ := hstored
    obtain ⟨record, hrecord⟩ := hproper.here
    rw [AvlTree.toList_node, pairwise_append, pairwise_cons] at hsorted
    obtain ⟨hsortedl, ⟨hafter, hsortedr⟩, hbetween⟩ := hsorted
    rw [AvlTree.size] at hleft
    obtain ⟨left, rfl⟩ : ∃ k, left = k + 1 := ⟨left - 1, by omega⟩
    have hroom : l.size ≤ left ∧ r.size ≤ left := by omega
    have hread := readNode_does hrecord
    rw [hnode] at hread
    have hnext := nextPresent_does "indexed record missing" hrecord
    have hne : ¬ rootOf (.node l offset r) = NO_CHILD := hproper.rootOf_ne
    have hkey := keyAt_of hrecord
    rw [findFrom, if_neg hne, AvlTree.toList_node, find?_append]
    refine hread.bind (hnext.bind ?_)
    cases horder : UnixPath.order record.source path with
    | lt =>
      -- the path is to the right of the record and of all left of it
      have hlt := UnixPath.order_eq_lt_iff.mp horder
      have hnone : l.toList.find? (named a.records path) = none := by
        refine find?_eq_none.mpr fun other hother hnamed => ?_
        have hle := hbetween other hother offset mem_cons_self
        rw [of_decide_eq_true hnamed, hkey] at hle
        exact absurd hlt (not_lt.mpr hle)
      have hhere : ¬ named a.records path offset = true := fun hnamed =>
        ne_of_lt hlt (hkey.symm.trans (of_decide_eq_true hnamed))
      rw [hnone, find?_cons_of_neg hhere, none_or]
      exact ihr found hproper.right hr hroom.2 hsortedr
    | eq =>
      have hhere : named a.records path offset = true :=
        decide_eq_true (hkey.trans (UnixPath.order_eq_eq_iff.mp horder))
      have hrest := ihl (some (offset, offset + recordSize record, record)) hproper.left hl
        hroom.1 hsortedl
      rw [find?_cons_of_pos hhere]
      cases hfirst : l.toList.find? (named a.records path) with
      | none =>
        rw [hfirst] at hrest
        rw [none_or, bind_some, entryAt_of hrecord]
        exact hrest
      | some first =>
        rw [hfirst] at hrest
        obtain ⟨other, hother⟩ := hproper.left.known first (mem_of_find?_eq_some hfirst)
        rw [bind_some, entryAt_of hother] at hrest
        rw [some_or, bind_some, entryAt_of hother]
        exact hrest
    | gt =>
      have hlt := UnixPath.order_eq_gt_iff.mp horder
      have hnone : (offset :: r.toList).find? (named a.records path) = none := by
        refine find?_eq_none.mpr fun other hother hnamed => ?_
        have hle : keyAt a.records offset ≤ keyAt a.records other := by
          rcases mem_cons.mp hother with rfl | hmem
          · exact le_refl _
          · exact hafter other hmem
        rw [of_decide_eq_true hnamed, hkey] at hle
        exact absurd hlt (not_lt.mpr hle)
      rw [hnone, or_none]
      exact ihl found hproper.left hl hroom.1 hsortedl

end Records

/-! ## The first record of a path -/

theorem Holds.filter_named {a t} (h : Holds a (offsets a.records) t)
    (path : Path) :
    t.toList.filter (named a.records path) = (offsets a.records).filter (named a.records path) := by
  have hperm := h.perm.filter (named a.records path)
  have hascending : (t.toList.filter (named a.records path)).Pairwise (· < ·) := by
    refine (h.sorted.filter _).imp_of_mem fun {x y} hx hy hcomes => ?_
    have hkeyx := of_decide_eq_true (mem_filter.mp hx).2
    have hkeyy := of_decide_eq_true (mem_filter.mp hy).2
    rcases hcomes with hlt | ⟨-, hlt⟩
    · rw [hkeyx, hkeyy] at hlt
      exact absurd hlt (lt_irrefl _)
    · exact hlt
  have hpushed := (pairwise_offsetsFrom 0 a.records).filter (named a.records path)
  exact hperm.eq_of_pairwise (fun x y _ _ hxy hyx => absurd hxy (lt_asymm hyx)) hascending hpushed

/-- The first entry of a path, in push order. -/
def firstEntry (records : List Record) (path : Path) : Option (Nat × Nat × Record) :=
  ((offsets records).find? (named records path)).bind (entryAt records)

namespace Records

/-- **A lookup finds the first record of the path**, and leaves an index behind. -/
theorem findEntry_does {a} (path : Path) (hindexed : Indexed a)
    (hsmall : spoolSize a.records < 2 ^ 64) :
    ∃ b, Does Shows (findEntry path) a (firstEntry a.records path) b ∧ b.records = a.records ∧
      Indexed b := by
  obtain ⟨b, t, hensure, hb, hbindexed, hholds⟩ := ensurePathIndex_does hindexed hsmall
  have hsmallb : spoolSize b.records < 2 ^ 64 := by rwa [hb]
  have hsize : t.size = b.records.length := by
    rw [← AvlTree.length_toList, hholds.perm.length_eq, offsets, length_offsetsFrom]
  have hfind : t.toList.find? (named b.records path) =
      (offsets b.records).find? (named b.records path) := by
    rw [← head?_filter, ← head?_filter, hholds.filter_named]
  refine ⟨b, hensure.bind (Does.bindGet fun s hs => ?_), hb, fun _ => ⟨t, hholds⟩⟩
  have hrun := findFrom_does path none
    (hholds.proper (append_nil _).symm hsmallb) hholds.stored (Nat.le_of_eq hsize)
    (hholds.sorted.imp fun hcomes => hcomes.le)
  rw [hfind, or_none] at hrun
  rw [hs.count, hs.root, hholds.root, ← hb]
  exact hrun

end Records

end Ish.Fs
