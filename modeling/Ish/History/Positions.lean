import Ish.History.Ranking
import Ish.Lib.Subsequence

/-!
# Positions — what the highlighted positions of a result are

A subsequence is found three times over: the forward pass says where it first
ends, the backward passes from that end and from the last one look for the
tighter window, and the forward pass through the window records positions. The
backward pass finds a start only because the forward pass found an end; what it
finds is the last start from which the window still holds the query.
-/

namespace Ish.History

open Ish.Lib List
open Ish.Lib.Ascii (isAscii)
open Option (bind_eq_bind bind_eq_some_iff bind_some map_eq_some_iff)

/-! ## The passes -/

section Scans

variable {α β : Type} [DecidableEq β] (lower : α → β)

/-- The pass starts counting at `ti`. -/
theorem windowPositions_shift (query : List β) (ti : Nat) (text : List α) :
    windowPositions lower query ti text =
      (windowPositions lower query 0 text).map (ti + ·) := by
  induction text generalizing query ti with
  | nil => cases query <;> rfl
  | cons t text ih =>
    cases query with
    | nil => rfl
    | cons q query =>
      have hmove : ∀ found : List Nat,
          (found.map (0 + 1 + ·)).map (ti + ·) = found.map (ti + 1 + ·) := by
        intro found
        rw [map_map]
        apply map_congr_left
        intro p _
        simp only [Function.comp_apply]
        omega
      rw [windowPositions, windowPositions]
      by_cases hq : lower t = q
      · rw [if_pos hq, if_pos hq, ih query (ti + 1), ih query (0 + 1), map_cons, hmove]
        rfl
      · rw [if_neg hq, if_neg hq, ih _ (ti + 1), ih _ (0 + 1), hmove]

variable {query : List β}

/-- **The recording pass** spells the query, whenever it is a subsequence. -/
theorem spells_windowPositions (h : query.Sublist (text.map lower)) :
    Spells query (text.map lower) (windowPositions lower query 0 text) := by
  induction text generalizing query with
  | nil =>
    rw [map_nil, sublist_nil] at h
    rw [h]
    exact Spells.nil _
  | cons t text ih =>
    cases query with
    | nil => exact Spells.nil _
    | cons q query =>
      rw [windowPositions, windowPositions_shift lower _ (0 + 1), map_cons]
      rw [map_cons] at h
      by_cases hq : lower t = q
      · rw [if_pos hq, hq]
        rw [hq, cons_sublist_cons] at h
        exact (ih h).cons
      · rw [if_neg hq, windowPositions_shift lower _ (0 + 1)]
        rcases sublist_cons_iff.mp h with hrest | ⟨_, heq, _⟩
        · exact (ih hrest).skip
        · exact absurd (List.cons.inj heq).1.symm hq

/-- **The first end** is the end of the shortest part at the front that has the
query as a subsequence. -/
theorem firstEnd_iff (hquery : query ≠ [])
    (h : firstEnd lower query ti text = some stop) :
    ti ≤ stop ∧ stop < ti + text.length ∧
      ∀ n, query.Sublist ((text.take n).map lower) ↔ stop < ti + n := by
  induction text generalizing query ti with
  | nil => cases query <;> cases h
  | cons t text ih =>
    obtain ⟨q, query, rfl⟩ := exists_cons_of_ne_nil hquery
    rw [firstEnd] at h
    have hzero : ti ≤ stop → ((q :: query).Sublist (((t :: text).take 0).map lower) ↔
        stop < ti + 0) := by
      intro _
      simp only [take_zero, map_nil, sublist_nil, reduceCtorEq, false_iff]
      omega
    by_cases hq : lower t = q
    · rw [if_pos hq] at h
      by_cases hnil : query = []
      · rw [if_pos hnil] at h
        cases h
        refine ⟨Nat.le_refl _, by simp, ?_⟩
        intro n
        cases n with
        | zero => exact hzero (Nat.le_refl _)
        | succ n =>
          rw [take_succ_cons, map_cons, hq, hnil, cons_sublist_cons]
          simp
      · rw [if_neg hnil] at h
        obtain ⟨hle, hlt, hiff⟩ := ih hnil h
        rw [length_cons]
        refine ⟨by omega, by omega, ?_⟩
        intro n
        cases n with
        | zero => exact hzero (by omega)
        | succ n =>
          rw [take_succ_cons, map_cons, hq, cons_sublist_cons, hiff]
          omega
    · rw [if_neg hq] at h
      obtain ⟨hle, hlt, hiff⟩ := ih hquery h
      rw [length_cons]
      refine ⟨by omega, by omega, ?_⟩
      intro n
      cases n with
      | zero => exact hzero (by omega)
      | succ n =>
        rw [take_succ_cons, map_cons, sublist_cons_iff, hiff]
        constructor
        · rintro (hlt' | ⟨_, heq, _⟩)
          · omega
          · exact absurd (List.cons.inj heq).1.symm hq
        · intro hlt'
          exact Or.inl (by omega)

/-- The backward pass is the forward pass over the reversed text, counting down. -/
theorem backward_eq
    (h : firstEnd lower query seen text = some stop) :
    backward lower query (ti - seen) text = ti - stop := by
  induction text generalizing query seen with
  | nil => cases query <;> cases h
  | cons t text ih =>
    cases query with
    | nil => cases h
    | cons q query =>
      rw [firstEnd] at h
      rw [backward]
      have hdown : ti - seen - 1 = ti - (seen + 1) := by omega
      by_cases hq : lower t = q
      · rw [if_pos hq] at h ⊢
        by_cases hnil : query = []
        · rw [if_pos hnil] at h ⊢
          cases h
          rfl
        · rw [if_neg hnil] at h ⊢
          rw [hdown]
          exact ih h
      · rw [if_neg hq] at h ⊢
        rw [hdown]
        exact ih h

/-- Where the backward pass from `stop` ends. -/
def windowStart (query : List β) (text : List α) (stop : Nat) : Nat :=
  backward lower query.reverse stop (text.take (stop + 1)).reverse

/-- **The start of a window** is the last one from which the query still is a
subsequence, for an end that the forward passes found. -/
theorem le_windowStart_iff (hquery : query ≠ [])
    (hstop : stop < text.length) (h : query.Sublist ((text.take (stop + 1)).map lower)) :
    windowStart lower query text stop ≤ stop ∧
      ∀ m, query.Sublist (((text.take (stop + 1)).drop m).map lower) ↔
        m ≤ windowStart lower query text stop := by
  have hreverse : query.reverse ≠ [] := by simpa using hquery
  have hlength : (text.take (stop + 1)).length = stop + 1 := by
    rw [length_take]
    omega
  obtain ⟨last, hlast⟩ := Option.isSome_iff_exists.mp
    ((firstEnd_isSome lower hreverse 0 (text.take (stop + 1)).reverse).mpr
      (by rw [map_reverse, reverse_sublist]; exact h))
  obtain ⟨_, hlt, hiff⟩ := firstEnd_iff lower hreverse hlast
  rw [length_reverse, hlength] at hlt
  have hstart : windowStart lower query text stop = stop - last :=
    backward_eq lower hlast
  rw [hstart]
  refine ⟨by omega, ?_⟩
  intro m
  have hpart := hiff (stop + 1 - m)
  rw [take_reverse, hlength, map_reverse, reverse_sublist] at hpart
  by_cases hm : m ≤ stop + 1
  · rw [show stop + 1 - (stop + 1 - m) = m by omega] at hpart
    rw [hpart]
    omega
  · rw [drop_eq_nil_of_le (by omega), map_nil, sublist_nil]
    constructor
    · intro hnil
      exact absurd hnil hquery
    · intro hle
      omega

theorem lastEnd_bounds {last last_end ti text} (h : last_end ≤ ti) :
    last_end ≤ lastEnd lower last last_end ti text ∧
      (lastEnd lower last last_end ti text = last_end ∨
        lastEnd lower last last_end ti text < ti + text.length) := by
  induction text generalizing last_end ti with
  | nil => exact ⟨Nat.le_refl _, Or.inl rfl⟩
  | cons t text ih =>
    rw [lastEnd, length_cons]
    by_cases ht : lower t = last
    · rw [if_pos ht]
      obtain ⟨hle, hend⟩ := @ih ti (ti + 1) (by omega)
      omega
    · rw [if_neg ht]
      obtain ⟨hle, hend⟩ := @ih last_end (ti + 1) (by omega)
      omega

/-! ## The window -/

/-- The window of a subsequence: the passes of `subsequencePositions` before the
one that records. -/
def subsequenceWindow (query : List β) (text : List α) : Option (Nat × Nat) := do
  let last_q ← query.getLast?
  let first_end ← firstEnd lower query 0 text
  let last_end := lastEnd lower last_q first_end (first_end + 1) (text.drop (first_end + 1))
  return matchWindow lower query text first_end last_end

/-- What is recorded in a window. -/
def recorded (query : List β) (text : List α) (window : Nat × Nat) : List Nat :=
  windowPositions lower query window.1 ((text.take (window.2 + 1)).drop window.1)

theorem subsequencePositions_eq (query : List β) (text : List α) :
    subsequencePositions lower query text =
      (subsequenceWindow lower query text).map fun window =>
        (positions (recorded lower query text window), min query.length 32) := by
  rw [subsequencePositions, subsequenceWindow]
  cases query.getLast? with
  | none => rfl
  | some last =>
    cases firstEnd lower query 0 text with
    | none => rfl
    | some first_end => rfl

/-- The plain scan, from the left. -/
def leftmost (query : List β) (text : List α) : List Nat := windowPositions lower query 0 text

theorem getLast_leftmost (hquery : query ≠ [])
    (h : firstEnd lower query ti text = some stop) :
    (windowPositions lower query ti text).getLast? = some stop := by
  induction text generalizing query ti with
  | nil => cases query <;> cases h
  | cons t text ih =>
    obtain ⟨q, query, rfl⟩ := exists_cons_of_ne_nil hquery
    rw [firstEnd] at h
    rw [windowPositions]
    by_cases hq : lower t = q
    · rw [if_pos hq] at h ⊢
      by_cases hnil : query = []
      · rw [if_pos hnil] at h
        rw [hnil]
        cases text <;> exact h
      · rw [if_neg hnil] at h
        rw [getLast?_cons, ih hnil h]
        rfl
    · rw [if_neg hq] at h ⊢
      exact ih hquery h

/-- Nothing of a subsequence is left of where the plain scan begins. -/
theorem head_leftmost (hquery : query ≠ [])
    (h : query.Sublist ((text.take n).map lower)) :
    ∃ start, (leftmost lower query text).head? = some start ∧
      query.Sublist (((text.take n).drop start).map lower) := by
  induction text generalizing n with
  | nil =>
    rw [take_nil, map_nil, sublist_nil] at h
    exact absurd h hquery
  | cons t text ih =>
    obtain ⟨q, query, rfl⟩ := exists_cons_of_ne_nil hquery
    rw [leftmost, windowPositions]
    by_cases hq : lower t = q
    · rw [if_pos hq]
      exact ⟨0, rfl, h⟩
    · cases n with
      | zero =>
        rw [take_zero, map_nil, sublist_nil] at h
        exact absurd h hquery
      | succ n =>
        rw [take_succ_cons, map_cons] at h
        rw [if_neg hq, windowPositions_shift]
        rcases sublist_cons_iff.mp h with hrest | ⟨_, heq, _⟩
        · obtain ⟨start, hstart, hsub⟩ := ih hrest
          refine ⟨0 + 1 + start, ?_, ?_⟩
          · rw [leftmost] at hstart
            rw [head?_map, hstart]
            rfl
          · rw [take_succ_cons, show 0 + 1 + start = start + 1 by omega,
              drop_succ_cons]
            exact hsub
        · exact absurd (List.cons.inj heq).1.symm hq

/-- **The chosen window** holds the query, and is no wider than where the plain
scan finds it. -/
theorem subsequenceWindow_spec (hquery : query ≠ []) (h : subsequenceWindow lower query text = some window) :
    query.Sublist (((text.take (window.2 + 1)).drop window.1).map lower) ∧
      ∃ start stop, (leftmost lower query text).head? = some start ∧
        (leftmost lower query text).getLast? = some stop ∧
        window.2 - window.1 ≤ stop - start := by
  simp only [subsequenceWindow, bind_eq_bind, bind_eq_some_iff] at h
  obtain ⟨last, _, first_end, hfirst, hwindow⟩ := h
  obtain ⟨_, hlt, hiff⟩ := firstEnd_iff lower hquery hfirst
  have hends : ∀ stop, first_end ≤ stop → query.Sublist ((text.take (stop + 1)).map lower) := by
    intro stop hle
    exact (hiff (stop + 1)).mpr (by omega)
  obtain ⟨start, hstart, hpart⟩ := head_leftmost lower hquery (hends first_end (Nat.le_refl _))
  obtain ⟨hle1, hstart1⟩ := le_windowStart_iff lower hquery (by omega) (hends _ (Nat.le_refl _))
  -- The plain scan begins no later than the window of the first end.
  have hwide : first_end - windowStart lower query text first_end ≤ first_end - start := by
    have hbegins := (hstart1 start).mp hpart
    omega
  have hfirstWindow : query.Sublist
      (((text.take (first_end + 1)).drop (windowStart lower query text first_end)).map lower) :=
    (hstart1 _).mpr (Nat.le_refl _)
  have hstop := getLast_leftmost lower hquery hfirst
  obtain ⟨hlast, hinside⟩ := @lastEnd_bounds _ _ _ lower last first_end (first_end + 1)
    (text.drop (first_end + 1)) (by omega)
  rw [length_drop] at hinside
  generalize lastEnd lower last first_end (first_end + 1) (text.drop (first_end + 1)) = last_end
    at hwindow hlast hinside
  change some (if last_end = first_end then (windowStart lower query text first_end, first_end)
    else if last_end - windowStart lower query text last_end <
        first_end - windowStart lower query text first_end then
      (windowStart lower query text last_end, last_end)
    else (windowStart lower query text first_end, first_end)) = some window at hwindow
  rw [Option.some.injEq] at hwindow
  subst hwindow
  split
  · exact ⟨hfirstWindow, start, first_end, hstart, hstop, hwide⟩
  split
  · rename_i hnarrow
    obtain ⟨_, hstart2⟩ := le_windowStart_iff lower hquery (by omega) (hends last_end hlast)
    exact ⟨(hstart2 _).mpr (Nat.le_refl _), start, first_end, hstart, hstop, by dsimp only; omega⟩
  · exact ⟨hfirstWindow, start, first_end, hstart, hstop, hwide⟩

/-- **What is recorded in a window** spells the query inside it. -/
theorem spells_recorded
    (h : query.Sublist (((text.take (window.2 + 1)).drop window.1).map lower)) :
    Spells query (text.map lower) (recorded lower query text window) ∧
      ∀ p ∈ recorded lower query text window, window.1 ≤ p ∧ p ≤ window.2 := by
  have hpart := spells_windowPositions lower h
  rw [recorded, windowPositions_shift]
  constructor
  · rw [map_drop, map_take] at hpart
    exact hpart.drop.of_take
  · intro p hp
    obtain ⟨i, hi, rfl⟩ := mem_map.mp hp
    have hlt := hpart.lt hi
    rw [length_map, length_drop, length_take] at hlt
    omega

/-! ## Substrings -/

/-- Where a query may stand: behind a word boundary when `boundary_only` is set. -/
def Stands (isWordBoundary : α → Bool) (query : List β) (text : List α) (boundary_only : Bool)
    (start : Nat) : Prop :=
  query <+: (text.drop start).map lower ∧
    (boundary_only = true → start = 0 ∨ (text[start - 1]?).any isWordBoundary = true)

/-- **The scan for a substring** finds the first start there is. -/
theorem findSubstring_isLeast
    (h : findSubstring lower isWordBoundary query text boundary_only = some start) :
    IsLeast {s | Stands lower isWordBoundary query text boundary_only s} start ∧
      start ≤ text.length := by
  have htest : ∀ s, ((!boundary_only || s == 0 || (text[s - 1]?).any isWordBoundary) &&
      startsWith lower query (text.drop s)) = true ↔
        Stands lower isWordBoundary query text boundary_only s := by
    intro s
    rw [Bool.and_eq_true, startsWith_iff, Stands]
    cases boundary_only <;> simp [and_comm]
  rw [findSubstring] at h
  split at h
  · cases h
  · rw [find?_range_eq_some] at h
    obtain ⟨hstart, hmem, hbefore⟩ := h
    rw [mem_range] at hmem
    refine ⟨⟨(htest start).mp hstart, ?_⟩, by omega⟩
    intro s hs
    by_contra hlt
    have hnot := hbefore s (by omega)
    rw [(htest s).mpr hs] at hnot
    cases hnot

/-! ## Bytes and characters -/

section Alike

variable {γ δ : Type} [DecidableEq δ] (lower' : γ → δ) {f : β → δ}

/-- Elements that are lowered alike, up to `f`. -/
def LoweredAlike (f : β → δ) (t : α) (t' : γ) : Prop := lower' t' = f (lower t)

variable {lower lower'} (hf : Function.Injective f) {query : List β} {text : List α}
  {text' : List γ}

include hf

section

variable (h : List.Forall₂ (LoweredAlike lower lower' f) text text')
include h

theorem firstEnd_alike (ti : Nat) :
    firstEnd lower' (query.map f) ti text' = firstEnd lower query ti text := by
  induction h generalizing query ti with
  | nil => cases query <;> rfl
  | cons ht _ ih =>
    cases query with
    | nil => rfl
    | cons q query =>
      have hrest := @ih (q :: query) (ti + 1)
      rw [map_cons] at hrest ⊢
      rw [firstEnd, firstEnd, ht, hrest, ih]
      simp only [hf.eq_iff, map_eq_nil_iff]

theorem backward_alike (ti : Nat) :
    backward lower' (query.map f) ti text' = backward lower query ti text := by
  induction h generalizing query ti with
  | nil => cases query <;> rfl
  | cons ht _ ih =>
    cases query with
    | nil => rfl
    | cons q query =>
      have hrest := @ih (q :: query) (ti - 1)
      rw [map_cons] at hrest ⊢
      rw [backward, backward, ht, hrest, ih]
      simp only [hf.eq_iff, map_eq_nil_iff]

theorem windowPositions_alike (ti : Nat) :
    windowPositions lower' (query.map f) ti text' = windowPositions lower query ti text := by
  induction h generalizing query ti with
  | nil => cases query <;> rfl
  | cons ht _ ih =>
    cases query with
    | nil => rfl
    | cons q query =>
      have hrest := @ih (q :: query) (ti + 1)
      rw [map_cons] at hrest ⊢
      rw [windowPositions, windowPositions, ht, hrest, ih]
      simp only [hf.eq_iff]

theorem lastEnd_alike (last : β)
    (last_end ti : Nat) :
    lastEnd lower' (f last) last_end ti text' = lastEnd lower last last_end ti text := by
  induction h generalizing last_end ti with
  | nil => rfl
  | cons ht _ ih =>
    rw [lastEnd, lastEnd, ih, ht]
    simp only [hf.eq_iff]

theorem matchWindow_alike (first_end last_end : Nat) :
    matchWindow lower' (query.map f) text' first_end last_end =
      matchWindow lower query text first_end last_end := by
  have hstart : ∀ stop, backward lower' (query.map f).reverse stop (text'.take (stop + 1)).reverse =
      backward lower query.reverse stop (text.take (stop + 1)).reverse := by
    intro stop
    rw [← map_reverse]
    exact backward_alike hf (forall₂_reverse_iff.mpr (forall₂_take _ h)) stop
  simp only [matchWindow, hstart]

/-- **Both forms** of the search record the same positions. -/
theorem subsequencePositions_alike :
    subsequencePositions lower' (query.map f) text' = subsequencePositions lower query text := by
  have hpart : ∀ window : Nat × Nat, recorded lower' (query.map f) text' window =
      recorded lower query text window := by
    intro window
    exact windowPositions_alike hf (forall₂_drop _ (forall₂_take _ h)) _
  have hwindow : subsequenceWindow lower' (query.map f) text' =
      subsequenceWindow lower query text := by
    rw [subsequenceWindow, subsequenceWindow, getLast?_map, firstEnd_alike hf h]
    cases query.getLast? with
    | none => rfl
    | some last =>
      cases firstEnd lower query 0 text with
      | none => rfl
      | some first_end =>
        simp only [Option.map_some, bind_eq_bind, bind_some,
          lastEnd_alike hf (forall₂_drop _ h), matchWindow_alike hf h]
  simp only [subsequencePositions_eq, hwindow, hpart, length_map]

theorem startsWith_alike :
    startsWith lower' (query.map f) text' = startsWith lower query text := by
  induction h generalizing query with
  | nil => cases query <;> rfl
  | cons ht _ ih =>
    cases query with
    | nil => rfl
    | cons q query =>
      rw [map_cons, startsWith, startsWith, ht, ih]
      simp only [hf.eq_iff]

end

theorem findSubstring_alike {isWordBoundary isWordBoundary'}
    (h : List.Forall₂ (LoweredAlike lower lower' f) text text')
    (hboundary : List.Forall₂ (fun t t' => isWordBoundary' t' = isWordBoundary t) text text')
    (boundary_only : Bool) :
    findSubstring lower' isWordBoundary' (query.map f) text' boundary_only =
      findSubstring lower isWordBoundary query text boundary_only := by
  have hbehind : ∀ i : Nat, (text'[i]?).any isWordBoundary' = (text[i]?).any isWordBoundary := by
    intro i
    have hmap : text'.map isWordBoundary' = text.map isWordBoundary := by
      induction hboundary with
      | nil => rfl
      | cons ht _ ih => rw [map_cons, map_cons, ht, ih (forall₂_cons.mp h).2]
    have hat : (text'[i]?).map isWordBoundary' = (text[i]?).map isWordBoundary := by
      rw [← getElem?_map, hmap, getElem?_map]
    simpa only [Option.any_map, id_eq] using congrArg (Option.any id) hat
  have hstarts : ∀ start, startsWith lower' (query.map f) (text'.drop start) =
      startsWith lower query (text.drop start) :=
    fun start => startsWith_alike hf (forall₂_drop start h)
  simp only [findSubstring, length_map, h.length_eq, hbehind, hstarts]

end Alike

end Scans

/-! ## The loops over characters

The source's loops over characters skip by position where the loops over bytes
slice. -/

section Unicode

variable (lower : Char → Char)

/-- The second loop of `subsequence_match_unicode`. -/
def lastEndUnicode (last : Char) (first_end : Nat) : Nat → Nat → List Char → Nat
  | last_end, _, [] => last_end
  | last_end, ti, tc :: text =>
    lastEndUnicode last first_end
      (if first_end < ti ∧ lower tc = last then ti else last_end) (ti + 1) text

/-- `backward_unicode`, over the reversed query and characters with their positions. -/
def backwardUnicode (stop : Nat) : List Char → List (Char × Nat) → Nat
  | _, [] => 0
  | [], _ :: _ => 0
  | q :: query, (ch, ci) :: chars =>
    if stop < ci then backwardUnicode stop (q :: query) chars
    else if lower ch = q then
      if query = [] then ci else backwardUnicode stop query chars
    else backwardUnicode stop (q :: query) chars

/-- The last loop of `subsequence_match_unicode`. -/
def recordUnicode (window : Nat × Nat) : List Char → Nat → List Char → List Nat
  | _, _, [] => []
  | [], _, _ :: _ => []
  | q :: query, ti, tc :: text =>
    if ti < window.1 then recordUnicode window (q :: query) (ti + 1) text
    else if window.2 < ti then []
    else if lower tc = q then ti :: recordUnicode window query (ti + 1) text
    else recordUnicode window (q :: query) (ti + 1) text

/-- The loops of `subsequence_match_unicode`, for a query that is not empty. -/
def subsequenceLoopsUnicode (query text : List Char) : Option (List Nat × Nat) := do
  let last_qchar ← query.getLast?
  let first_end ← firstEnd lower query 0 text
  let last_end := lastEndUnicode lower last_qchar first_end first_end 0 text
  let max_end := max first_end last_end
  let chars_vec := (text.take (max_end + 1)).zipIdx
  let start1 := backwardUnicode lower first_end query.reverse chars_vec.reverse
  let window :=
    if last_end = first_end then (start1, first_end)
    else
      let start2 := backwardUnicode lower last_end query.reverse chars_vec.reverse
      if last_end - start2 < first_end - start1 then (start2, last_end) else (start1, first_end)
  return (positions (recordUnicode lower window query 0 text), min query.length 32)

theorem lastEndUnicode_behind (h : first_end < ti)
    (text : List Char) : lastEndUnicode lower last first_end last_end ti text =
      lastEnd lower last last_end ti text := by
  induction text generalizing last_end ti with
  | nil => rfl
  | cons tc text ih =>
    rw [lastEndUnicode, lastEnd, ih (by omega)]
    simp only [h, true_and]

theorem lastEndUnicode_eq {last first_end last_end ti} (h : ti ≤ first_end + 1)
    (text : List Char) : lastEndUnicode lower last first_end last_end ti text =
      lastEnd lower last last_end (first_end + 1) (text.drop (first_end + 1 - ti)) := by
  induction text generalizing ti with
  | nil =>
    rw [drop_nil]
    rfl
  | cons tc text ih =>
    by_cases hti : first_end < ti
    · rw [lastEndUnicode_behind lower hti, show first_end + 1 - ti = 0 by omega,
        show ti = first_end + 1 by omega]
      rfl
    · rw [lastEndUnicode, if_neg (fun hboth => hti hboth.1), ih (by omega),
        show first_end + 1 - ti = first_end + 1 - (ti + 1) + 1 by omega, drop_succ_cons]

/-- Characters behind `stop` are passed over. -/
theorem backwardUnicode_eq (stop : Nat) (query text : List Char) :
    backwardUnicode lower stop query text.zipIdx.reverse =
      backward lower query (min stop (text.length - 1)) (text.take (stop + 1)).reverse := by
  induction text using List.reverseRecOn generalizing query with
  | nil => cases query <;> rfl
  | append_singleton text c ih =>
    rw [zipIdx_append, reverse_append]
    simp only [zipIdx_cons, zipIdx_nil, reverse_singleton, singleton_append,
      Nat.zero_add, length_append, length_singleton, Nat.add_sub_cancel]
    by_cases hbehind : stop < text.length
    · -- `c` is behind the end, and no part of the slice.
      have hskip : backwardUnicode lower stop query ((c, text.length) :: text.zipIdx.reverse) =
          backwardUnicode lower stop query text.zipIdx.reverse := by
        cases query with
        | nil =>
          rw [backwardUnicode]
          cases text.zipIdx.reverse <;> rfl
        | cons q query => rw [backwardUnicode, if_pos hbehind]
      rw [hskip, ih, take_append_of_le_length (by omega), Nat.min_eq_left (by omega),
        Nat.min_eq_left (by omega)]
    · rw [Nat.min_eq_right (by omega), take_of_length_le (by simp; omega),
        reverse_append, reverse_singleton, singleton_append]
      rw [take_of_length_le (by omega), Nat.min_eq_right (by omega)] at ih
      cases query with
      | nil => rfl
      | cons q query => rw [backwardUnicode, backward, if_neg hbehind, ih, ih]

theorem recordUnicode_skip (h : ti ≤ window.1)
    (query text : List Char) : recordUnicode lower window query ti text =
      recordUnicode lower window query window.1 (text.drop (window.1 - ti)) := by
  induction text generalizing ti with
  | nil => cases query <;> rw [drop_nil] <;> rfl
  | cons tc text ih =>
    by_cases hti : ti < window.1
    · rw [show window.1 - ti = window.1 - (ti + 1) + 1 by omega, drop_succ_cons,
        ← ih (by omega)]
      cases query with
      | nil => cases text <;> rfl
      | cons q query => rw [recordUnicode, if_pos hti]
    · rw [show window.1 = ti by omega, Nat.sub_self, drop_zero]

theorem recordUnicode_inside (h : window.1 ≤ ti)
    (query text : List Char) : recordUnicode lower window query ti text =
      windowPositions lower query ti (text.take (window.2 + 1 - ti)) := by
  induction text generalizing query ti with
  | nil =>
    rw [take_nil]
    cases query <;> rfl
  | cons tc text ih =>
    by_cases hti : window.2 < ti
    · rw [show window.2 + 1 - ti = 0 by omega, take_zero]
      cases query with
      | nil => rfl
      | cons q query => rw [recordUnicode, if_neg (by omega), if_pos hti, windowPositions]
    · rw [show window.2 + 1 - ti = window.2 + 1 - (ti + 1) + 1 by omega, take_succ_cons]
      cases query with
      | nil => rfl
      | cons q query =>
        rw [recordUnicode, windowPositions, if_neg (by omega), if_neg hti, ih (by omega),
          ih (by omega)]

/-- **The loops over characters** are the passes. -/
theorem subsequenceLoopsUnicode_eq (query text : List Char) :
    subsequenceLoopsUnicode lower query text = subsequencePositions lower query text := by
  rw [subsequenceLoopsUnicode, subsequencePositions]
  cases query.getLast? with
  | none => rfl
  | some last =>
    cases hfirst : firstEnd lower query 0 text with
    | none => rfl
    | some first_end =>
      have hquery : query ≠ [] := by
        rintro rfl
        cases text <;> cases hfirst
      obtain ⟨_, hlt, _⟩ := firstEnd_iff lower hquery hfirst
      have hlast := @lastEndUnicode_eq lower last first_end first_end 0 (by omega) text
      obtain ⟨_, hinside⟩ := @lastEnd_bounds _ _ _ lower last first_end (first_end + 1)
        (text.drop (first_end + 1)) (by omega)
      rw [length_drop] at hinside
      rw [Nat.sub_zero] at hlast
      simp only [bind_eq_bind, bind_some, hlast]
      generalize lastEnd lower last first_end (first_end + 1)
        (text.drop (first_end + 1)) = last_end at hinside ⊢
      have hstart : ∀ stop, stop ≤ max first_end last_end → stop < text.length →
          backwardUnicode lower stop query.reverse
            (text.take (max first_end last_end + 1)).zipIdx.reverse =
              backward lower query.reverse stop (text.take (stop + 1)).reverse := by
        intro stop hle hstop
        rw [backwardUnicode_eq, take_take, length_take, Nat.min_eq_left (by omega),
          Nat.min_eq_left (by omega)]
      rw [hstart first_end (by omega) (by omega), hstart last_end (by omega) (by omega)]
      have hrecord : ∀ window : Nat × Nat, recordUnicode lower window query 0 text =
          windowPositions lower query window.1 ((text.take (window.2 + 1)).drop window.1) := by
        intro window
        rw [recordUnicode_skip lower (Nat.zero_le _), Nat.sub_zero,
          recordUnicode_inside lower (Nat.le_refl _), drop_take]
      simp only [hrecord]
      rfl

end Unicode

/-! ## ASCII text -/

theorem char_injective : Function.Injective Ascii.char :=
  Function.LeftInverse.injective Ascii.byte_char

theorem isWordBoundaryChar_char (b : UInt8) :
    isWordBoundaryChar (Ascii.char b) = isWordBoundaryByte b := by
  have hchar : ∀ c : UInt8, (Ascii.char b == Ascii.char c) = (b == c) := by
    intro c
    rw [Bool.eq_iff_iff, beq_iff_eq, beq_iff_eq, char_injective.eq_iff]
  rw [isWordBoundaryByte, ← hchar, ← hchar, ← hchar, ← hchar, ← hchar, ← hchar]
  rfl

section Text

variable (lower : Lowercase) {query text : List Char}

theorem lowered_bytes (h : isAscii text = true) :
    List.Forall₂ (LoweredAlike Ascii.lowercase lower.first Ascii.char) (text.map Ascii.byte)
        text ∧
      List.Forall₂ (fun b c => isWordBoundaryChar c = isWordBoundaryByte b)
        (text.map Ascii.byte) text := by
  induction text with
  | nil => exact ⟨.nil, .nil⟩
  | cons c text ih =>
    obtain ⟨hc, htext⟩ := isAscii_cons.mp h
    obtain ⟨hlowered, hboundary⟩ := ih htext
    refine ⟨.cons (lower.ascii c hc) hlowered, .cons ?_ hboundary⟩
    rw [← isWordBoundaryChar_char, Ascii.char_byte hc]

/-- **The three searches for a subsequence** agree on ASCII. -/
theorem subsequenceMatch_agree (hquery : isAscii query = true) (htext : isAscii text = true) :
    subsequenceMatchAscii query text = subsequenceMatchUnicode lower query text ∧
      subsequenceMatchAsciiBytes (query.map Ascii.byte) (Utf8.encode text) =
        subsequenceMatchUnicode lower query text := by
  have halike := @subsequencePositions_alike _ _ _ Ascii.lowercase _ _ _ lower.first _
    char_injective (query.map Ascii.byte) _ _ (lowered_bytes lower htext).1
  rw [map_char_byte hquery, ← Ascii.encode_of_isAscii htext] at halike
  exact ⟨halike.symm, halike.symm⟩

/-- **The three scans for a substring** agree on ASCII. -/
theorem findSubstring_agree (hquery : isAscii query = true) (htext : isAscii text = true)
    (boundary_only : Bool) :
    findSubstringIcaseAscii query (Utf8.encode text) boundary_only =
      findSubstring lower.first isWordBoundaryChar query text boundary_only := by
  obtain ⟨hlowered, hboundary⟩ := lowered_bytes lower htext
  have halike := @findSubstring_alike _ _ _ Ascii.lowercase _ _ _ lower.first _
    char_injective (query.map Ascii.byte) _ _ isWordBoundaryByte isWordBoundaryChar hlowered
    hboundary boundary_only
  rw [map_char_byte hquery, ← Ascii.encode_of_isAscii htext] at halike
  exact halike.symm

theorem subsequenceMatch_eq (hne : query ≠ []) :
    subsequenceMatch lower query text = subsequencePositions lower.first query text := by
  rw [subsequenceMatch, if_neg hne]
  split
  · rename_i hascii
    rw [Bool.and_eq_true] at hascii
    exact (subsequenceMatch_agree lower hascii.2 hascii.1).1
  · rfl

theorem findSubstringIcase_eq (hne : query ≠ []) (boundary_only : Bool) :
    findSubstringIcase lower query text boundary_only =
      findSubstring lower.first isWordBoundaryChar query text boundary_only := by
  rw [findSubstringIcase, if_neg hne]
  split
  · rename_i hascii
    rw [Bool.and_eq_true] at hascii
    exact findSubstring_agree lower hascii.2 hascii.1 boundary_only
  · rfl

/-! ## Results -/

/-- A place where the contiguous tier with this score has the query: the start of
the entry, behind a word boundary, or anywhere. -/
def TierStart (lower : Lowercase) (query text : List Char) (score start : Nat) : Prop :=
  lowercaseQuery lower query <+: (text.drop start).map lower.first ∧
    (score = 3 → start = 0) ∧
    (score = 2 → start = 0 ∨ (text[start - 1]?).any isWordBoundaryChar = true)

/-- What the positions of a result say about its entry. -/
structure Highlights (lower : Lowercase) (query text : List Char) (result : FuzzyMatch) :
    Prop where
  count : result.match_count = min 32 query.length
  spells : Spells ((lowercaseQuery lower query).take result.match_count) (text.map lower.first)
    (result.match_positions.take result.match_count)
  contiguous : result.score ≠ 0 →
    ∃ start, IsLeast {s | TierStart lower query text result.score s} start ∧
      result.match_positions.take result.match_count = List.range' start result.match_count
  window : result.score = 0 → query ≠ [] →
    ∃ window start stop,
      subsequenceWindow lower.first (lowercaseQuery lower query) text = some window ∧
      result.match_positions =
        positions (recorded lower.first (lowercaseQuery lower query) text window) ∧
      (∀ p ∈ result.match_positions.take result.match_count, window.1 ≤ p ∧ p ≤ window.2) ∧
      (leftmost lower.first (lowercaseQuery lower query) text).head? = some start ∧
      (leftmost lower.first (lowercaseQuery lower query) text).getLast? = some stop ∧
      window.2 - window.1 ≤ stop - start

theorem take_positions (hn : n ≤ 32) (h : n ≤ found.length) :
    (positions found).take n = found.take n := by
  rw [positions, take_append_of_le_length (by rw [length_take]; omega), take_take,
    Nat.min_eq_left hn]

/-- **A contiguous match** stands at its start and at no earlier place of its tier. -/
theorem highlights_contiguous (hscore : score ≠ 0)
    (h : IsLeast {s | TierStart lower query text score s} start) (hstart : start ≤ text.length) :
    Highlights lower query text (contiguousMatch entry_idx score start query.length) := by
  have hfound : (contiguousMatch entry_idx score start query.length).match_positions.take
      (min query.length 32) = List.range' start (min query.length 32) := by
    have hrange : (List.range (min query.length 32)).map (start + ·) =
        List.range' start (min query.length 32) := by
      rw [range_eq_range', map_add_range', Nat.add_zero]
    have hlength : (List.range' start (min query.length 32)).length = min query.length 32 :=
      length_range'
    have htake := take_positions (Nat.min_le_right query.length 32) hlength.ge
    rw [take_of_length_le hlength.le] at htake
    rw [contiguousMatch, hrange]
    exact htake
  have hspells : Spells (lowercaseQuery lower query) (text.map lower.first)
      (List.range' start query.length) := by
    have hpart := h.1.1
    rw [map_drop] at hpart
    have hwhole := Spells.of_isPrefix (by rwa [length_map]) hpart
    rwa [lowercaseQuery, length_map] at hwhole
  refine ⟨Nat.min_comm _ _, ?_, fun _ => ⟨start, h, hfound⟩, fun hzero => absurd hzero hscore⟩
  have htake := hspells.take (min query.length 32)
  rw [take_range'_of_length_ge (Nat.min_le_left _ _)] at htake
  change Spells ((lowercaseQuery lower query).take (min query.length 32)) _
    ((contiguousMatch entry_idx score start query.length).match_positions.take
      (min query.length 32))
  rw [hfound]
  exact htake

theorem length_lowercaseQuery : (lowercaseQuery lower query).length = query.length :=
  length_map _

theorem lowercaseQuery_ne_nil (hne : query ≠ []) : lowercaseQuery lower query ≠ [] := by
  rwa [lowercaseQuery, ne_eq, map_eq_nil_iff]

/-- **A subsequence match** records the query in the chosen window. -/
theorem highlights_subsequence (hne : query ≠ []) (h : subsequenceMatch lower (lowercaseQuery lower query) text =
      some (match_positions, match_count)) :
    Highlights lower query text { entry_idx, match_positions, match_count, score := 0 } := by
  have hquery := lowercaseQuery_ne_nil lower hne
  rw [subsequenceMatch_eq lower hquery, subsequencePositions_eq, map_eq_some_iff] at h
  obtain ⟨window, hwindow, hpair⟩ := h
  cases hpair
  obtain ⟨hsub, start, stop, hstart, hstop, hwide⟩ :=
    subsequenceWindow_spec lower.first hquery hwindow
  obtain ⟨hspells, hinside⟩ := spells_recorded lower.first hsub
  rw [length_lowercaseQuery]
  have hlength : min query.length 32 ≤
      (recorded lower.first (lowercaseQuery lower query) text window).length := by
    rw [hspells.length_eq, length_lowercaseQuery]
    exact Nat.min_le_left _ _
  have htake := take_positions (Nat.min_le_right query.length 32) hlength
  refine ⟨Nat.min_comm _ _, ?_, fun hzero => absurd rfl hzero, ?_⟩
  · dsimp only
    rw [htake]
    exact hspells.take _
  · intro _ _
    refine ⟨window, start, stop, hwindow, rfl, ?_, hstart, hstop, hwide⟩
    intro p hp
    rw [htake] at hp
    exact hinside p (mem_of_mem_take hp)

theorem tierStart_boundary : TierStart lower query text 2 start ↔
    Stands lower.first isWordBoundaryChar (lowercaseQuery lower query) text true start := by
  simp [TierStart, Stands]

theorem tierStart_anywhere : TierStart lower query text 1 start ↔
    Stands lower.first isWordBoundaryChar (lowercaseQuery lower query) text false start := by
  simp [TierStart, Stands]

/-- **What was ranked** is highlighted where it matches. -/
theorem highlights_rankMatch (hne : query ≠ [])
    (hrank : rankMatch lower (lowercaseQuery lower query) text = some rank)
    (h : materializeMatch lower rank idx text bytes (some (lowercaseQuery lower query)) =
      some result) : Highlights lower query text result := by
  have hquery := lowercaseQuery_ne_nil lower hne
  rw [rankMatch, findSubstringIcase_eq lower hquery, findSubstringIcase_eq lower hquery] at hrank
  have hcontiguous : ∀ {score start : Nat}, score ≠ 0 →
      IsLeast {s | TierStart lower query text score s} start ∧ start ≤ text.length →
      some (contiguousMatch idx score start (lowercaseQuery lower query).length) = some result →
      Highlights lower query text result := by
    intro score start hscore hstart hresult
    rw [Option.some.injEq, length_lowercaseQuery] at hresult
    rw [← hresult]
    exact highlights_contiguous lower hscore hstart.1 hstart.2
  split at hrank
  · rename_i hstart
    cases hrank
    have hzero : TierStart lower query text 3 0 :=
      ⟨(startsWith_iff _ _ _).mp hstart, fun _ => rfl, by rintro ⟨⟩⟩
    exact hcontiguous (by decide) ⟨⟨hzero, fun s _ => Nat.zero_le s⟩, Nat.zero_le _⟩ h
  split at hrank
  · rename_i start hfind
    cases hrank
    have hleast := findSubstring_isLeast lower.first hfind
    simp only [← tierStart_boundary] at hleast
    exact hcontiguous (by decide) hleast h
  split at hrank
  · rename_i start hfind
    cases hrank
    have hleast := findSubstring_isLeast lower.first hfind
    simp only [← tierStart_anywhere] at hleast
    exact hcontiguous (by decide) hleast h
  · rw [map_eq_some_iff] at hrank
    obtain ⟨found, _, hsubsequence⟩ := hrank
    cases hsubsequence
    simp only [materializeMatch, bind_eq_bind, bind_eq_some_iff] at h
    obtain ⟨⟨match_positions, match_count⟩, hfound, hresult⟩ := h
    cases hresult
    exact highlights_subsequence lower hne hfound

theorem highlights_empty (idx : Nat) :
    Highlights lower [] text (contiguousMatch idx 0 0 0) where
  count := rfl
  spells := Spells.nil _
  contiguous := fun hscore => absurd rfl hscore
  window := fun _ hne => absurd rfl hne

end Text

section Search

variable {lower : Lowercase} {tables : Tables} {request : Request}

/-- **One result**: it highlights the query in the text of its entry. -/
theorem highlights_rankText
    (hrank : (rankText lower request none text).1 = some rank)
    (h : materializeMatch lower rank idx text request.ascii
      (rankText lower request none text).2 = some result) :
    Highlights lower request.query text result := by
  simp only [rankText, Option.getD_none] at hrank h
  by_cases hempty : request.empty = true
  · rw [if_pos hempty] at hrank
    cases hrank
    cases h
    rw [query_eq_nil hempty]
    exact highlights_empty lower idx
  rw [if_neg hempty] at hrank h
  have hne := query_ne_nil hempty
  by_cases hascii : (request.is_ascii && isAscii text) = true
  · rw [if_pos hascii] at hrank h
    rw [Bool.and_eq_true] at hascii
    have hquery := isAscii_query hascii.1
    rw [ascii_eq hascii.1] at hrank h
    dsimp only at hrank h
    rw [rankMatchAscii_eq lower hne hquery hascii.2] at hrank
    rw [← materializeMatch_chars lower hquery hascii.2 hne] at h
    exact highlights_rankMatch lower hne hrank h
  · rw [if_neg hascii] at hrank h
    exact highlights_rankMatch lower hne hrank h

theorem highlights_materialize
    (h : materialize lower tables request none idxs = some results)
    (hresult : result ∈ results) :
    ∃ entry, tables.entries[result.entry_idx]? = some entry ∧
      Highlights lower request.query entry.text result := by
  induction idxs generalizing results with
  | nil =>
    cases h
    cases hresult
  | cons idx idxs ih =>
    simp only [materialize, bind_eq_bind, bind_eq_some_iff] at h
    obtain ⟨entry, hentry, rank, hrank, first, hfirst, rest, hrest, hcons⟩ := h
    cases hcons
    rcases mem_cons.mp hresult with rfl | hmem
    · rw [entry_idx_materializeMatch hfirst]
      exact ⟨entry, hentry, highlights_rankText hrank hfirst⟩
    · rw [materialize_congr (lowered_rankText (Or.inl rfl) entry.text)] at hrest
      exact ih hrest hmem

theorem lt_of_searchLoop {candidates : List Nat}
    (h : candidates.foldlM (searchStep lower tables request) state = some final) :
    ∀ idx ∈ candidates, idx < tables.entries.length := by
  induction candidates generalizing state with
  | nil => nofun
  | cons idx candidates ih =>
    rw [foldlM_cons, bind_eq_bind, bind_eq_some_iff] at h
    obtain ⟨next, hnext, hrest⟩ := h
    rw [searchStep, bind_eq_bind, bind_eq_some_iff] at hnext
    obtain ⟨entry, hentry, _⟩ := hnext
    exact forall_mem_cons.mpr ⟨(List.getElem?_eq_some_iff.mp hentry).1, ih hrest⟩

/-- **Highlighted positions are a real match**: of every result of a search, they
increase and spell the query in the lowered entry, from the first place of a
contiguous tier, else in a window no wider than the plain scan's; and the three
forms of the scans agree. -/
theorem searchLimited_highlights {candidates matched : List Nat} {results : List FuzzyMatch}
    (h : searchLimited lower tables request candidates = some (matched, results)) :
    (∀ result ∈ results, ∃ entry, tables.entries[result.entry_idx]? = some entry ∧
      Highlights lower request.query entry.text result) ∧
    (∀ query text, subsequenceLoopsUnicode lower.first query text =
      subsequenceMatchUnicode lower query text) ∧
    ∀ query text, isAscii query = true → isAscii text = true →
      subsequenceMatchAscii query text = subsequenceMatchUnicode lower query text ∧
      subsequenceMatchAsciiBytes (query.map Ascii.byte) (Utf8.encode text) =
        subsequenceMatchUnicode lower query text ∧
      ∀ boundary_only,
        findSubstringIcaseAscii query (Utf8.encode text) boundary_only =
          findSubstring lower.first isWordBoundaryChar query text boundary_only ∧
        (query ≠ [] → (∀ b ∈ query.map Ascii.byte, Ascii.lowercase b = b) →
          findSubstringIcaseAsciiBytes (query.map Ascii.byte) (Utf8.encode text) boundary_only =
            findSubstring lower.first isWordBoundaryChar query text boundary_only) := by
  refine ⟨?_, subsequenceLoopsUnicode_eq lower.first, ?_⟩
  · intro result hresult
    have hvalid : ∀ idx ∈ candidates, idx < tables.entries.length := by
      rw [searchLimited, bind_eq_bind, bind_eq_some_iff] at h
      obtain ⟨final, hloop, _⟩ := h
      exact lt_of_searchLoop hloop
    rw [searchLimited_eq hvalid, map_eq_some_iff] at h
    obtain ⟨found, hfound, hpair⟩ := h
    cases hpair
    split at hfound
    · cases hfound
      cases hresult
    · exact highlights_materialize hfound hresult
  · intro query text hquery htext
    obtain ⟨hchars, hbytes⟩ := subsequenceMatch_agree lower hquery htext
    refine ⟨hchars, hbytes, ?_⟩
    intro boundary_only
    have hscan := findSubstring_agree lower hquery htext boundary_only
    refine ⟨hscan, ?_⟩
    intro hne hlowered
    rw [findSubstringIcaseAsciiBytes_eq (by simpa using hne) hlowered]
    exact hscan

end Search

/-- `Gt` is spelled by the first and the last character of `git`. -/
def gitHighlights : FuzzyMatch :=
  { entry_idx := 0, match_positions := positions [0, 2], match_count := 2, score := 0 }

theorem searchLimited_highlights_git :
    ∃ entry, twoCommands.entries[0]? = some entry ∧
      Highlights Lowercase.asciiOnly ['G', 't'] entry.text gitHighlights :=
  (@searchLimited_highlights Lowercase.asciiOnly twoCommands
    { searchForG with query := ['G', 't'] } [0, 1] [0] [gitHighlights] (by decide)).1
      gitHighlights (mem_singleton.mpr rfl)

end Ish.History
