import Mathlib.Data.List.Nodup

/-!
# Association lists with distinct keys

A list of pairs in which no key stands twice is a partial function: what it has
at a key does not depend on the order, and a concatenation is such a list when
its parts are and share no key.
-/

namespace Ish.Lib

open List

variable {K V : Type}

/-- No key stands twice. -/
def Distinct (list : List (K × V)) : Prop := (list.map Prod.fst).Nodup

namespace Distinct

variable {list front back : List (K × V)} {key : K} {value : V}

theorem cons {entry} :
    Distinct (entry :: list) ↔ (∀ other ∈ list, other.1 ≠ entry.1) ∧ Distinct list := by
  unfold Distinct
  rw [map_cons, nodup_cons]
  simp only [mem_map, not_exists, not_and]

/-- **A concatenation** has distinct keys when its parts have and share none. -/
theorem append :
    Distinct (front ++ back) ↔
      Distinct front ∧ Distinct back ∧ ∀ a ∈ front, ∀ b ∈ back, a.1 ≠ b.1 := by
  unfold Distinct
  rw [map_append, nodup_append]
  simp only [mem_map, forall_exists_index, and_imp, forall_apply_eq_imp_iff₂]

theorem filter (h : Distinct list) (keep : K × V → Bool) : Distinct (list.filter keep) :=
  h.sublist (List.Sublist.map _ filter_sublist)

theorem reverse (h : Distinct list) : Distinct list.reverse := by
  unfold Distinct
  rw [map_reverse]
  exact nodup_reverse.mpr h

variable [BEq K] [LawfulBEq K]

/-- **Looking up a key** finds the only entry it has. -/
theorem lookup_eq_some (h : Distinct list) :
    list.lookup key = some value ↔ (key, value) ∈ list := by
  induction list with
  | nil => simp
  | cons entry rest ih =>
    obtain ⟨first, kept⟩ := entry
    obtain ⟨hfirst, hrest⟩ := Distinct.cons.mp h
    rw [lookup_cons, mem_cons, Prod.mk.injEq]
    by_cases hkey : key = first
    · subst hkey
      have habsent : (key, value) ∉ rest := fun hmem => hfirst _ hmem rfl
      simp [habsent, eq_comm]
    · simp [beq_false_of_ne hkey, hkey, ih hrest]

theorem lookup_reverse (h : Distinct list) : list.reverse.lookup key = list.lookup key := by
  ext value
  rw [h.reverse.lookup_eq_some, h.lookup_eq_some, mem_reverse]

end Distinct

/-- Dropping entries by their keys drops the values of those keys. -/
theorem lookup_filter_key [BEq K] [LawfulBEq K] (keep : K → Bool) (list : List (K × V)) (key : K) :
    (list.filter fun entry => keep entry.1).lookup key =
      if keep key then list.lookup key else none := by
  induction list with
  | nil => simp
  | cons entry rest ih =>
    obtain ⟨first, value⟩ := entry
    by_cases hkey : key = first
    · subst hkey
      cases hkeep : keep key with
      | true => simp [hkeep]
      | false => simpa [hkeep] using ih
    · rw [lookup_cons, beq_false_of_ne hkey, ← ih]
      cases hkeep : keep first with
      | true =>
        rw [filter_cons_of_pos (by exact hkeep), lookup_cons, beq_false_of_ne hkey]
      | false => rw [filter_cons_of_neg (by simp [hkeep])]

theorem lookup_eq_none_of_ne [BEq K] [LawfulBEq K] {list : List (K × V)} {key}
    (h : ∀ entry ∈ list, entry.1 ≠ key) : list.lookup key = none := by
  rw [lookup_eq_none_iff]
  intro entry hentry
  rw [bne_iff_ne]
  exact (h entry hentry).symm

theorem lookup_isSome [BEq K] [LawfulBEq K] {list : List (K × V)} {entry}
    (h : entry ∈ list) : (list.lookup entry.1).isSome := by
  cases hlookup : list.lookup entry.1 with
  | none =>
    rw [lookup_eq_none_iff] at hlookup
    have hne := hlookup entry h
    rw [bne_self_eq_false] at hne
    cases hne
  | some value => rfl

end Ish.Lib
