import Mathlib.Logic.Relation
import Mathlib.Data.List.Basic

/-!
# Forests by parents

Nodes are numbers, and each stands behind its parent. The nodes below one parent
are a chain: the first is known, and from each one the next.
-/

namespace Ish.Lib.Forest

variable {parent parent' : Nat → Option Nat} {a b n : Nat}

/-- Each node stands behind its parent. -/
def Rising (parent : Nat → Option Nat) : Prop :=
  ∀ child up, parent child = some up → up < child

/-- `a` is `n`, or above it. -/
def Above (parent : Nat → Option Nat) (a n : Nat) : Prop :=
  Relation.ReflTransGen (fun child up => parent child = some up) n a

theorem Above.refl (n : Nat) : Above parent n n := Relation.ReflTransGen.refl

theorem Above.of_parent (h : parent child = some up) : Above parent up child :=
  Relation.ReflTransGen.single h

theorem Above.trans (h : Above parent a b) (h' : Above parent b n) : Above parent a n :=
  Relation.ReflTransGen.trans h' h

/-- Above `n` are `n`, and what is above its parent. -/
theorem above_iff : Above parent a n ↔ a = n ∨ ∃ up, parent n = some up ∧ Above parent a up := by
  constructor
  · intro h
    rcases Relation.ReflTransGen.cases_head h with rfl | ⟨up, hup, habove⟩
    · exact .inl rfl
    · exact .inr ⟨up, hup, habove⟩
  · rintro (rfl | ⟨up, hup, habove⟩)
    · exact .refl a
    · exact habove.trans (.of_parent hup)

theorem above_iff_of_parent (h : parent child = some up) :
    Above parent a child ↔ a = child ∨ Above parent a up := by
  rw [above_iff]
  constructor
  · rintro (rfl | ⟨other, hother, habove⟩)
    · exact .inl rfl
    · rw [h, Option.some.injEq] at hother
      exact .inr (hother ▸ habove)
  · rintro (rfl | habove)
    · exact .inl rfl
    · exact .inr ⟨up, h, habove⟩

theorem Above.le (h : Above parent a n) (hrising : Rising parent) : a ≤ n := by
  induction h using Relation.ReflTransGen.head_induction_on with
  | refl => exact Nat.le_refl a
  | @head child up hup _ ih =>
    have hlt := hrising child up hup
    omega

theorem Above.linear (h : Above parent a n) (h' : Above parent b n) :
    Above parent a b ∨ Above parent b a := by
  induction h using Relation.ReflTransGen.head_induction_on with
  | refl => exact .inr h'
  | @head child up hup habove ih =>
    rcases (above_iff_of_parent hup).mp h' with rfl | hb
    · exact .inl (Relation.ReflTransGen.head hup habove)
    · exact ih hb

theorem Above.congr (h : Above parent a n) (hrising : Rising parent)
    (hsame : ∀ child ≤ n, parent' child = parent child) : Above parent' a n := by
  induction h using Relation.ReflTransGen.head_induction_on with
  | refl => exact .refl a
  | @head child up hup _ ih =>
    have hlt := hrising child up hup
    have hup' : parent' child = some up := by rw [hsame child (Nat.le_refl child), hup]
    exact (ih fun other hother => hsame other (by omega)).trans (.of_parent hup')

/-! ## Chains -/

/-- `next` leads from `first` through `members` to the end. -/
def Chain (next : Nat → Option Nat) : Option Nat → List Nat → Prop
  | first, [] => first = none
  | first, member :: members => first = some member ∧ Chain next (next member) members

theorem Chain.congr
    (h : Chain next first members) (hsame : ∀ member ∈ members, next' member = next member) :
    Chain next' first members := by
  induction members generalizing first with
  | nil => exact h
  | cons member members ih =>
    refine ⟨h.1, ?_⟩
    rw [hsame member List.mem_cons_self]
    exact ih h.2 fun other hother => hsame other (List.mem_cons_of_mem _ hother)

/-- A chain that ends in `last` goes on with `new` when `last` leads there. -/
theorem Chain.extend (h : Chain next first members) (hlast : members.getLast? = some last)
    (hnodup : members.Nodup) (hsame : ∀ member ∈ members, member ≠ last →
      next' member = next member) (hnext : next' last = some new) (hnew : next' new = none) :
    Chain next' first (members ++ [new]) := by
  induction members generalizing first with
  | nil => cases hlast
  | cons member members ih =>
    refine ⟨h.1, ?_⟩
    cases members with
    | nil =>
      obtain rfl : member = last := by simpa using hlast
      exact ⟨hnext, hnew⟩
    | cons second members =>
      have hmem : last ∈ second :: members := List.mem_of_getLast? (by simpa using hlast)
      have hne : member ≠ last := by
        rintro rfl
        exact (List.nodup_cons.mp hnodup).1 hmem
      rw [hsame member List.mem_cons_self hne]
      exact ih h.2 (by simpa using hlast) (List.nodup_cons.mp hnodup).2
        fun other hother => hsame other (List.mem_cons_of_mem _ hother)

end Ish.Lib.Forest
