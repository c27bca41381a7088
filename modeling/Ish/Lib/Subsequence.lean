import Mathlib.Data.List.Basic

/-!
# Subsequences — the positions at which one list stands in another

A list is a subsequence of a text when increasing positions of the text spell
it. Positions in a part of the text are positions in the whole, moved by where
the part begins.
-/

namespace Ish.Lib

open List

/-- `found` are increasing positions of `text`, and what stands there is `query`. -/
structure Spells {α : Type} (query text : List α) (found : List Nat) : Prop where
  increasing : found.Pairwise (· < ·)
  spelled : found.map (text[·]?) = query.map some

namespace Spells

variable {α : Type} {query text : List α} {found : List Nat}

theorem length_eq (h : Spells query text found) : found.length = query.length := by
  have hlength := congrArg List.length h.spelled
  rwa [length_map, length_map] at hlength

theorem get (h : Spells query text found) {i p : Nat} (hp : found[i]? = some p) :
    ∃ a, text[p]? = some a ∧ query[i]? = some a := by
  have hat : (found.map (text[·]?))[i]? = some text[p]? := by
    rw [getElem?_map, hp]
    rfl
  rw [h.spelled, getElem?_map, Option.map_eq_some_iff] at hat
  obtain ⟨a, hquery, htext⟩ := hat
  exact ⟨a, htext.symm, hquery⟩

theorem lt (h : Spells query text found) {p : Nat} (hp : p ∈ found) : p < text.length := by
  obtain ⟨i, hi⟩ := mem_iff_getElem?.mp hp
  obtain ⟨a, htext, _⟩ := h.get hi
  exact (List.getElem?_eq_some_iff.mp htext).1

theorem take (h : Spells query text found) (n : Nat) :
    Spells (query.take n) text (found.take n) where
  increasing := h.increasing.sublist (take_sublist n found)
  spelled := by rw [map_take, h.spelled, map_take]

/-! ## Building positions -/

theorem nil (text : List α) : Spells [] text [] where
  increasing := List.Pairwise.nil
  spelled := rfl

/-- The positions in a part that begins at `start`. -/
theorem drop {start} (h : Spells query (text.drop start) found) :
    Spells query text (found.map (start + ·)) where
  increasing := by
    rw [pairwise_map]
    exact h.increasing.imp fun hlt => Nat.add_lt_add_left hlt start
  spelled := by
    rw [← h.spelled, map_map]
    apply map_congr_left
    intro p _
    exact getElem?_drop.symm

/-- An element that is passed over moves the positions on. -/
theorem skip {a} (h : Spells query text found) : Spells query (a :: text) (found.map (1 + ·)) :=
  @drop α query (a :: text) found 1 h

/-- An element that is taken is at the first position. -/
theorem cons {a} (h : Spells query text found) :
    Spells (a :: query) (a :: text) (0 :: found.map (1 + ·)) where
  increasing := by
    refine pairwise_cons.mpr ⟨?_, (h.skip (a := a)).increasing⟩
    intro p hp
    obtain ⟨_, _, rfl⟩ := mem_map.mp hp
    omega
  spelled := by
    rw [map_cons, (h.skip (a := a)).spelled]
    rfl

/-- The positions in the first elements. -/
theorem of_take {n} (h : Spells query (text.take n) found) : Spells query text found where
  increasing := h.increasing
  spelled := by
    rw [← h.spelled]
    apply map_congr_left
    intro p hp
    have hlt := h.lt hp
    rw [length_take] at hlt
    exact (getElem?_take_of_lt (by omega)).symm

/-- What stands at one place is spelled by the positions from there on. -/
theorem of_append (before after : List α) :
    Spells query (before ++ query ++ after) (List.range' before.length query.length) where
  increasing := pairwise_lt_range'
  spelled := by
    apply ext_getElem?
    intro i
    rw [getElem?_map, getElem?_map]
    by_cases hi : i < query.length
    · rw [getElem?_range' hi, Nat.one_mul, Option.map_some, append_assoc,
        getElem?_append_right (by omega), Nat.add_sub_cancel_left,
        getElem?_append_left hi, getElem?_eq_getElem hi]
      rfl
    · rw [getElem?_eq_none (by simpa using hi), getElem?_eq_none (by omega)]
      rfl

theorem of_isPrefix {start} (hstart : start ≤ text.length)
    (h : query <+: text.drop start) : Spells query text (List.range' start query.length) := by
  obtain ⟨after, hafter⟩ := h
  have hsplit : text.take start ++ query ++ after = text := by
    rw [append_assoc, hafter, take_append_drop]
  have hbefore : (text.take start).length = start := by
    rw [length_take]
    omega
  have hspells := @of_append _ query (text.take start) after
  rwa [hsplit, hbefore] at hspells

end Spells

end Ish.Lib
