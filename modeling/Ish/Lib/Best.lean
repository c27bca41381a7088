import Mathlib.Data.List.Sort

/-!
# The best of a list, kept in order

A list of at most `limit` rows that starts some sorted arrangement of all rows
seen so far. A new row is inserted, takes the place of the last one, or is
dropped: each keeps the list such a start, so no sort of all rows is needed.
-/

namespace Ish.Lib

open List

variable {α : Type} (r : α → α → Prop)

/-- `best` is the start of a sorted arrangement of `rows`. -/
def Best (limit : Nat) (rows best : List α) : Prop :=
  ∃ rest, (best ++ rest).Perm rows ∧ (best ++ rest).Pairwise r ∧
    best.length ≤ limit ∧ (best.length < limit → rest = [])

namespace Best

variable {r} {limit : Nat} {rows best : List α}

theorem nil : Best r limit [] [] :=
  ⟨[], List.Perm.refl _, List.Pairwise.nil, Nat.zero_le _, fun _ => rfl⟩

/-- **What is kept** is the start of a sorted arrangement, cut at the limit. -/
theorem eq_take (h : Best r limit rows best) :
    ∃ sorted : List α, sorted.Perm rows ∧ sorted.Pairwise r ∧ best = sorted.take limit := by
  obtain ⟨rest, hperm, hsorted, hlength, hrest⟩ := h
  refine ⟨best ++ rest, hperm, hsorted, ?_⟩
  by_cases hfull : best.length < limit
  · rw [hrest hfull, append_nil, take_of_length_le hlength]
  · rw [take_left' (by omega)]

variable [DecidableRel r]

theorem orderedInsert_append_cons {row worst} (hworst : r row worst) (front rest : List α) :
    (front ++ worst :: rest).orderedInsert r row = front.orderedInsert r row ++ worst :: rest := by
  induction front with
  | nil => simp [hworst]
  | cons first front ih =>
    by_cases hfirst : r row first
    · simp [hfirst]
    · simp [hfirst, ih]

theorem insertIdx_takeWhile (row : α) (front : List α) :
    front.insertIdx (front.takeWhile fun other => ¬ r row other).length row =
      front.orderedInsert r row := by
  induction front with
  | nil => rfl
  | cons first front ih =>
    by_cases hfirst : r row first
    · simp [hfirst]
    · simp only [takeWhile_cons, hfirst, not_false_eq_true, decide_true, if_true,
        length_cons, insertIdx_succ_cons, orderedInsert_cons, if_false]
      rw [ih]

theorem perm_insert {kept : List α} (hperm : kept.Perm rows) (row : α) :
    (kept.orderedInsert r row).Perm (rows ++ [row]) :=
  ((perm_orderedInsert r row kept).trans (hperm.cons row)).trans
    (perm_append_singleton row rows).symm

variable [Std.Total r] [IsTrans α r]

/-- **A row is inserted** while there is room. -/
theorem insert (h : Best r limit rows best) (hroom : best.length < limit) (row : α) :
    Best r limit (rows ++ [row]) (best.orderedInsert r row) := by
  obtain ⟨rest, hperm, hsorted, _, hrest⟩ := h
  rw [hrest hroom, append_nil] at hperm hsorted
  refine ⟨[], ?_, ?_, ?_, fun _ => rfl⟩
  · rw [append_nil]
    exact perm_insert hperm row
  · rw [append_nil]
    exact hsorted.orderedInsert row _
  · rw [orderedInsert_length]
    exact hroom

/-- **A row takes the place** of the last one when it precedes that. -/
theorem replace {front : List α} {worst} (h : Best r limit rows (front ++ [worst]))
    (hfull : (front ++ [worst]).length = limit) {row} (hrow : r row worst) :
    Best r limit (rows ++ [row]) (front.orderedInsert r row) := by
  obtain ⟨rest, hperm, hsorted, _, _⟩ := h
  rw [append_assoc, singleton_append] at hperm hsorted
  rw [length_append, length_singleton] at hfull
  refine ⟨worst :: rest, ?_, ?_, ?_, ?_⟩
  · rw [← orderedInsert_append_cons hrow]
    exact perm_insert hperm row
  · rw [← orderedInsert_append_cons hrow]
    exact hsorted.orderedInsert row _
  · rw [orderedInsert_length]
    omega
  · intro hlt
    rw [orderedInsert_length] at hlt
    omega

/-- **A row is dropped** when all that are kept precede it. -/
theorem skip (h : Best r limit rows best) (hfull : best.length = limit) {row : α}
    (hrow : ∀ kept ∈ best, r kept row) : Best r limit (rows ++ [row]) best := by
  obtain ⟨rest, hperm, hsorted, hlength, _⟩ := h
  obtain ⟨hbest, hrest, hacross⟩ := pairwise_append.mp hsorted
  refine ⟨rest.orderedInsert r row, ?_, ?_, hlength, fun hlt => absurd hlt (by omega)⟩
  · have hinserted := (perm_insert (r := r) (List.Perm.refl rest) row).append_left best
    rw [← append_assoc] at hinserted
    exact hinserted.trans (hperm.append_right [row])
  · refine pairwise_append.mpr ⟨hbest, hrest.orderedInsert row _, ?_⟩
    intro kept hkept other hother
    rcases (mem_orderedInsert r).mp hother with rfl | hold
    · exact hrow kept hkept
    · exact hacross kept hkept other hold

omit [DecidableRel r] [IsTrans α r] in
theorem before_last {front worst} (h : Best r limit rows (front ++ [worst]))
    {kept} (hkept : kept ∈ front ++ [worst]) : r kept worst := by
  obtain ⟨rest, _, hsorted, _, _⟩ := h
  have hbest := (pairwise_append.mp hsorted).1
  rcases mem_append.mp hkept with hfront | hlast
  · exact (pairwise_append.mp hbest).2.2 kept hfront worst (by simp)
  · rw [mem_singleton.mp hlast]
    exact (Std.Total.total worst worst).elim id id

end Best

end Ish.Lib
