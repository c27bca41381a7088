import Mathlib.Data.List.Basic

/-!
# Rising sequences

Lists whose keys rise strictly from a start value, and what a reader that has
seen a front part of such a list still has to read: exactly the elements whose
key is above the last one seen.
-/

namespace Ish.Lib.Rising

variable {α β : Type} (key : α → β)

/-- The keys of the list rise strictly, and are above `d`. -/
def Rises [LT β] : β → List α → Prop
  | _, [] => True
  | d, a :: as => d < key a ∧ Rises (key a) as

/-- The key of the last element, `d` when there is none. -/
def lastKey : β → List α → β
  | d, [] => d
  | _, a :: as => lastKey (key a) as

variable {key}

@[simp] theorem lastKey_append (d : β) (l r : List α) :
    lastKey key d (l ++ r) = lastKey key (lastKey key d l) r := by
  induction l generalizing d with
  | nil => rfl
  | cons a l ih => exact ih (key a)

theorem rises_append [LT β] {d l r} :
    Rises key d (l ++ r) ↔ Rises key d l ∧ Rises key (lastKey key d l) r := by
  induction l generalizing d with
  | nil => simp [Rises, lastKey]
  | cons a l ih =>
    rw [List.cons_append, Rises, ih, Rises, lastKey, and_assoc]

theorem rises_of_above [LT β] {a l}
    (h : (a :: l).Pairwise fun a b => key a < key b) : Rises key (key a) l := by
  induction l generalizing a with
  | nil => trivial
  | cons b l ih =>
    obtain ⟨habove, hrest⟩ := List.pairwise_cons.mp h
    exact ⟨habove b (by simp), ih hrest⟩

section Order

variable [LE β] [LT β] [Std.IsLinearOrder β] [Std.LawfulOrderLT β]

theorem Rises.lt {d l} (h : Rises key d l) : ∀ a ∈ l, d < key a := by
  induction l generalizing d with
  | nil => simp
  | cons a l ih =>
    intro b hb
    rcases List.mem_cons.mp hb with rfl | hb
    · exact h.1
    · exact Std.lt_trans h.1 (ih h.2 b hb)

theorem Rises.pairwise {d l} (h : Rises key d l) :
    l.Pairwise fun a b => key a < key b := by
  induction l generalizing d with
  | nil => exact .nil
  | cons a l ih => exact .cons h.2.lt (ih h.2)

theorem Rises.le_lastKey {d l} (h : Rises key d l) :
    d ≤ lastKey key d l ∧ ∀ a ∈ l, key a ≤ lastKey key d l := by
  induction l generalizing d with
  | nil => exact ⟨Std.le_refl d, by simp⟩
  | cons a l ih =>
    obtain ⟨hstart, hall⟩ := ih h.2
    refine ⟨Std.le_trans (Std.le_of_lt h.1) hstart, fun b hb => ?_⟩
    rcases List.mem_cons.mp hb with rfl | hb
    · exact hstart
    · exact hall b hb

/-- **What is left to read**: above the last key of the front part lies exactly
the rest of the list. -/
theorem Rises.filter_append [DecidableLT β] {d l r} (h : Rises key d (l ++ r)) :
    (l ++ r).filter (fun a => lastKey key d l < key a) = r := by
  obtain ⟨hl, hr⟩ := rises_append.mp h
  rw [List.filter_append, List.filter_eq_nil_iff.mpr, List.filter_eq_self.mpr,
    List.nil_append]
  · intro a ha
    exact decide_eq_true (hr.lt a ha)
  · intro a ha hlt
    exact Std.not_lt.mpr (hl.le_lastKey.2 a ha) (of_decide_eq_true hlt)

end Order

end Ish.Lib.Rising
