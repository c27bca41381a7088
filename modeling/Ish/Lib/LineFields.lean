import Mathlib.Data.List.DropRight

/-!
# A line cut into a given number of fields

A line of units, some of which delimit: a blank delimiter is white space, another one is
hard, and a unit that is escaped is never one. `cut` takes fields off the front and gives the
last one the rest of the line. `looseCut` is a reader that does not know which units are
escaped and takes any run of delimiters for one; where the two agree is `Alike`.
-/

namespace Ish.Lib.LineFields

open List Option

variable {β : Type} (delim blank escaped : β → Bool)

def white (u : β) : Bool := !escaped u && delim u && blank u

def hard (u : β) : Bool := !escaped u && delim u && !blank u

def kept (u : β) : Bool := escaped u || !delim u

/-! ## The definition -/

/-- The line after one delimiter: white space with at most one hard delimiter in it. -/
def skipDelimiter (line : List β) : List β :=
  match line.dropWhile (white delim blank escaped) with
  | u :: rest =>
    if hard delim blank escaped u then rest.dropWhile (white delim blank escaped) else u :: rest
  | [] => []

/-- The field a line starts with. -/
def field (line : List β) : List β := line.takeWhile (kept delim escaped)

/-- The line from its next field on. -/
def behind (line : List β) : List β :=
  skipDelimiter delim blank escaped (line.dropWhile (kept delim escaped))

/-- The rest of a line as the last field: a delimiter behind its only field is no part of
it, nor is white space at its end. -/
def lastField (line : List β) : List β :=
  if behind delim blank escaped line = [] then field delim escaped line
  else line.rdropWhile (white delim blank escaped)

/-- Some fields and the rest. -/
def cut : Nat → List β → List (List β)
  | 0, line => [lastField delim blank escaped line]
  | k + 1, line => field delim escaped line :: cut k (behind delim blank escaped line)

/-! ## The loose reader -/

def looseCut : Nat → List β → List (List β)
  | 0, line => [line.rdropWhile fun u => delim u && blank u]
  | k + 1, line =>
    (line.takeWhile fun u => !delim u) ::
      looseCut k ((line.dropWhile fun u => !delim u).dropWhile delim)

/-- The readers agree on `k + 1` fields of a line. No field but the last has a delimiter
that is escaped; the last one has no escaped blank at its end, and no hard delimiter behind
it; and a delimiter does not start the line behind a field, unless nothing else follows, a
hard one for each missing field at most. -/
def Alike : Nat → List β → Prop
  | 0, line =>
    (behind delim blank escaped line = [] →
      ∀ u ∈ line.dropWhile (kept delim escaped), white delim blank escaped u = true) ∧
    ∀ u, (lastField delim blank escaped line).getLast? = some u → (delim u && blank u) = false
  | k + 1, line =>
    (∀ u ∈ field delim escaped line, delim u = false) ∧
      if (behind delim blank escaped line).head?.any delim then
        (∀ u ∈ behind delim blank escaped line, kept delim escaped u = false) ∧
          (behind delim blank escaped line).countP (hard delim blank escaped) ≤ k + 1
      else Alike k (behind delim blank escaped line)

variable {delim blank escaped}

/-! ## Delimiters -/

variable {u : β}

theorem delim_of_white (h : white delim blank escaped u = true) : delim u = true := by
  simp only [white, Bool.and_eq_true] at h
  exact h.1.2

theorem delim_of_hard (h : hard delim blank escaped u = true) : delim u = true := by
  simp only [hard, Bool.and_eq_true] at h
  exact h.1.2

theorem hard_of_not (hkept : kept delim escaped u = false)
    (hwhite : white delim blank escaped u = false) : hard delim blank escaped u = true := by
  unfold kept at hkept
  unfold white at hwhite
  unfold hard
  cases hescaped : escaped u <;> cases hdelim : delim u <;> cases hblank : blank u <;> simp_all

theorem not_kept_of_white (h : white delim blank escaped u = true) :
    kept delim escaped u = false := by
  unfold white at h
  unfold kept
  cases hescaped : escaped u <;> cases hdelim : delim u <;> simp_all

theorem not_kept_of_hard (h : hard delim blank escaped u = true) :
    kept delim escaped u = false := by
  unfold hard at h
  unfold kept
  cases hescaped : escaped u <;> cases hdelim : delim u <;> simp_all

theorem not_white_of_hard (h : hard delim blank escaped u = true) :
    white delim blank escaped u = false := by
  unfold hard at h
  unfold white
  cases hblank : blank u <;> simp_all

/-- White space does not start what is left when it is dropped. -/
theorem head_dropWhile {line rest : List β}
    (h : line.dropWhile p = u :: rest) : p u = false := by
  have hhead := head?_dropWhile_not p line
  rw [h] at hhead
  exact hhead

variable {line : List β}

theorem dropWhile_eq_self_of_head
    (h : ∀ u, line.head? = some u → p u = false) : line.dropWhile p = line := by
  cases line with
  | nil => rfl
  | cons u rest => rw [dropWhile_cons_of_neg (by simp [h u rfl])]

theorem rdropWhile_append_of_all {line gap : List β} (h : ∀ u ∈ gap, p u = true) :
    (line ++ gap).rdropWhile p = line.rdropWhile p := by
  unfold List.rdropWhile
  rw [reverse_append, dropWhile_append_of_pos fun u hu => h u (mem_reverse.mp hu)]

theorem head_rdropWhile (h : p u = false) (rest : List β) :
    ((u :: rest).rdropWhile p).head? = some u := by
  obtain ⟨back, hback⟩ := List.rdropWhile_prefix p (u :: rest)
  cases hfront : (u :: rest).rdropWhile p with
  | nil =>
    rw [rdropWhile_eq_nil_iff] at hfront
    have hu := hfront u mem_cons_self
    rw [h] at hu
    cases hu
  | cons v front =>
    rw [hfront] at hback
    rw [head?_cons, (List.cons.inj hback).1]

variable (delim blank escaped) in
theorem skipDelimiter_split (line : List β) :
    ∃ gap, line = gap ++ skipDelimiter delim blank escaped line ∧
      (∀ u ∈ gap, delim u = true) ∧
      ∀ u, (skipDelimiter delim blank escaped line).head? = some u →
        white delim blank escaped u = false := by
  have hwhite := takeWhile_append_dropWhile (p := white delim blank escaped) (l := line)
  have hgap : ∀ u ∈ line.takeWhile (white delim blank escaped), delim u = true :=
    fun u hu => delim_of_white (mem_takeWhile_imp hu)
  unfold skipDelimiter
  cases hdrop : line.dropWhile (white delim blank escaped) with
  | nil =>
    rw [hdrop] at hwhite
    exact ⟨_, hwhite.symm, hgap, nofun⟩
  | cons u rest =>
    rw [hdrop] at hwhite
    by_cases hhard : hard delim blank escaped u = true
    · dsimp only
      rw [if_pos hhard]
      refine ⟨line.takeWhile (white delim blank escaped) ++
        u :: rest.takeWhile (white delim blank escaped), ?_, ?_, ?_⟩
      · rw [append_assoc, cons_append, takeWhile_append_dropWhile, hwhite]
      · intro v hv
        rcases mem_append.mp hv with hv | hv
        · exact hgap v hv
        · rcases mem_cons.mp hv with rfl | hv
          · exact delim_of_hard hhard
          · exact delim_of_white (mem_takeWhile_imp hv)
      · intro v hv
        cases hrest : rest.dropWhile (white delim blank escaped) with
        | nil => simp [hrest] at hv
        | cons w more =>
          rw [hrest] at hv
          cases hv
          exact head_dropWhile hrest
    · dsimp only
      rw [if_neg hhard]
      refine ⟨_, hwhite.symm, hgap, fun v hv => ?_⟩
      cases hv
      exact head_dropWhile hdrop

theorem behind_hard (h : hard delim blank escaped u = true) (rest : List β) :
    behind delim blank escaped (u :: rest) = rest.dropWhile (white delim blank escaped) := by
  unfold behind skipDelimiter
  rw [dropWhile_cons_of_neg (by simp [not_kept_of_hard h]),
    dropWhile_cons_of_neg (by simp [not_white_of_hard h])]
  dsimp only
  rw [if_pos h]

theorem field_hard (h : hard delim blank escaped u = true) (rest : List β) :
    field delim escaped (u :: rest) = [] := by
  unfold field
  rw [takeWhile_cons_of_neg (by simp [not_kept_of_hard h])]

theorem cut_nil (k : Nat) : cut delim blank escaped k [] = looseCut delim blank k [] := by
  induction k with
  | zero => rfl
  | succ k ih =>
    rw [cut, looseCut]
    exact congrArg (_ :: ·) ih

/-! ## Texts that show the same -/

section

variable {γ : Type} {f : β → γ}

theorem map_eq_iff_of_prefix (hleft : left <+: line)
    (hright : right <+: line) : left.map f = right.map f ↔ left = right := by
  refine ⟨fun h => ?_, congrArg _⟩
  have hlength := congrArg List.length h
  rw [length_map, length_map] at hlength
  exact (prefix_of_prefix_length_le hleft hright (by omega)).eq_of_length hlength

/-- A text that starts with a delimiter is not shown as one that does not. -/
theorem map_ne_of_head (hf : ∀ u v, f u = f v → delim u = delim v) {left right : List β}
    (hleft : ∀ v, left.head? = some v → delim v = false) (hu : right.head? = some u)
    (hdelim : delim u = true) : left.map f ≠ right.map f := by
  intro heq
  have hhead := congrArg List.head? heq
  rw [head?_map, head?_map, hu, map_some, map_eq_some_iff] at hhead
  obtain ⟨v, hv, hsame⟩ := hhead
  have hnot := hleft v hv
  rw [hf v u hsame, hdelim] at hnot
  cases hnot

variable (delim escaped) in
theorem field_starts (line : List β) : field delim escaped line <+: line :=
  List.takeWhile_prefix _

variable (delim blank escaped) in
theorem lastField_starts (line : List β) : lastField delim blank escaped line <+: line := by
  unfold lastField
  split
  · exact field_starts delim escaped line
  · exact List.rdropWhile_prefix _ _

end

/-! ## A delimiter at the start of the line behind a field -/

theorem head_looseCut
    (hline : ∀ v, line.head? = some v → delim v = false)
    (h : looseCut delim blank k line = first :: fields) (hu : first.head? = some u) :
    delim u = false := by
  cases k with
  | zero =>
    obtain ⟨rfl, -⟩ := List.cons.inj h
    obtain ⟨back, hback⟩ := List.rdropWhile_prefix (fun u => delim u && blank u) line
    refine hline u ?_
    rw [← hback, head?_append, hu, some_or]
  | succ k =>
    obtain ⟨rfl, -⟩ := List.cons.inj h
    have hmem := mem_takeWhile_imp (mem_of_mem_head? (mem_def.mpr hu))
    simpa using hmem

theorem head_cut
    (hu : kept delim escaped u = true)
    (h : cut delim blank escaped k (u :: rest) = first :: fields) : first.head? = some u := by
  have hfield : (field delim escaped (u :: rest)).head? = some u := by
    unfold field
    rw [takeWhile_cons_of_pos hu]
    rfl
  cases k with
  | zero =>
    obtain ⟨rfl, -⟩ := List.cons.inj h
    unfold lastField
    split
    · exact hfield
    · have hwhite : white delim blank escaped u = false := by
        by_contra hw
        rw [Bool.not_eq_false] at hw
        rw [not_kept_of_white hw] at hu
        cases hu
      exact head_rdropWhile hwhite rest
  | succ k =>
    obtain ⟨rfl, -⟩ := List.cons.inj h
    exact hfield

variable (delim blank escaped) in
theorem cut_cons (k : Nat) (line : List β) :
    ∃ first fields, cut delim blank escaped k line = first :: fields := by
  cases k with
  | zero => exact ⟨_, _, rfl⟩
  | succ k => exact ⟨_, _, rfl⟩

theorem head_dropWhile_delim : ∀ v, (line.dropWhile delim).head? = some v → delim v = false := by
  intro v hv
  cases hdrop : line.dropWhile delim with
  | nil => simp [hdrop] at hv
  | cons w rest =>
    rw [hdrop] at hv
    cases hv
    exact head_dropWhile hdrop

theorem dropWhile_delim_of_not_kept
    (h : ∀ u ∈ line, kept delim escaped u = false) : line.dropWhile delim = [] := by
  rw [dropWhile_eq_nil_iff]
  intro u hu
  have hkept := h u hu
  unfold kept at hkept
  simp only [Bool.or_eq_false_iff, Bool.not_eq_false'] at hkept
  exact hkept.2

/-- The units of white space in front of what is left. -/
theorem forall_dropWhile_white :
    (∀ u ∈ line.dropWhile (white delim blank escaped), kept delim escaped u = false) ↔
      ∀ u ∈ line, kept delim escaped u = false := by
  have hsplit := takeWhile_append_dropWhile (p := white delim blank escaped) (l := line)
  constructor
  · intro h u hu
    rw [← hsplit] at hu
    rcases mem_append.mp hu with hu | hu
    · exact not_kept_of_white (mem_takeWhile_imp hu)
    · exact h u hu
  · intro h u hu
    exact h u ((dropWhile_suffix _).subset hu)

theorem countP_dropWhile_white (line : List β) :
    (line.dropWhile (white delim blank escaped)).countP (hard delim blank escaped) =
      line.countP (hard delim blank escaped) := by
  have hsplit := takeWhile_append_dropWhile (p := white delim blank escaped) (l := line)
  have hnone : (line.takeWhile (white delim blank escaped)).countP (hard delim blank escaped) = 0 := by
    rw [countP_eq_zero]
    intro u hu hhard
    have hwhite := mem_takeWhile_imp hu
    rw [not_white_of_hard hhard] at hwhite
    cases hwhite
  conv_rhs => rw [← hsplit, countP_append, hnone, Nat.zero_add]

section

-- what a unit shows tells whether it delimits
variable {γ : Type} {f : β → γ} (hf : ∀ u v, f u = f v → delim u = delim v)

include hf

theorem looseCut_ne_of_kept (k : Nat) {rest : List β} (hdelim : delim u = true)
    (hkept : kept delim escaped u = true) :
    (looseCut delim blank k ((u :: rest).dropWhile delim)).map (List.map f) ≠
      (cut delim blank escaped k (u :: rest)).map (List.map f) := by
  intro heq
  obtain ⟨first, fields, hfirst⟩ := cut_cons delim blank escaped k (u :: rest)
  cases hloose : looseCut delim blank k ((u :: rest).dropWhile delim) with
  | nil =>
    rw [hloose, hfirst] at heq
    cases heq
  | cons text texts =>
    rw [hloose, hfirst] at heq
    exact map_ne_of_head hf (fun v hv => head_looseCut head_dropWhile_delim hloose hv)
      (head_cut hkept hfirst) hdelim (List.cons.inj heq).1

/-- **A delimiter in front of the next field.** The loose reader has taken it with the one
before: it agrees only if nothing but delimiters follows, a hard one for each field left. -/
theorem looseCut_delim_iff (k : Nat) {rest : List β} (hdelim : delim u = true)
    (hwhite : white delim blank escaped u = false) :
    (looseCut delim blank k ((u :: rest).dropWhile delim)).map (List.map f) =
        (cut delim blank escaped k (u :: rest)).map (List.map f) ↔
      (∀ v ∈ u :: rest, kept delim escaped v = false) ∧
        (u :: rest).countP (hard delim blank escaped) ≤ k + 1 := by
  induction k generalizing u rest with
  | zero =>
    by_cases hkept : kept delim escaped u = true
    · refine iff_of_false (looseCut_ne_of_kept hf 0 hdelim hkept) fun h => ?_
      rw [h.1 u mem_cons_self] at hkept
      cases hkept
    · rw [Bool.not_eq_true] at hkept
      have hhard := hard_of_not hkept hwhite
      rw [cut, lastField, behind_hard hhard, field_hard hhard, looseCut,
        countP_cons_of_pos hhard, ← countP_dropWhile_white rest]
      cases hrest : rest.dropWhile (white delim blank escaped) with
      | nil =>
        rw [if_pos rfl]
        have hall : ∀ v ∈ u :: rest, kept delim escaped v = false := by
          intro v hv
          rcases mem_cons.mp hv with rfl | hv
          · exact hkept
          · exact not_kept_of_white (dropWhile_eq_nil_iff.mp hrest v hv)
        rw [dropWhile_delim_of_not_kept hall]
        exact iff_of_true rfl ⟨hall, by simp⟩
      | cons w more =>
        rw [if_neg (by simp)]
        refine iff_of_false (fun heq => ?_) fun h => ?_
        · -- the rest of the line starts with the delimiter
          exact map_ne_of_head hf (fun v hv =>
              head_looseCut (k := 0) head_dropWhile_delim rfl hv) (head_rdropWhile hwhite rest)
            hdelim (List.cons.inj heq).1
        · -- what stands behind it is kept or another hard delimiter
          have hw : w ∈ rest := by
            refine (dropWhile_suffix (white delim blank escaped)).subset ?_
            rw [hrest]
            exact mem_cons_self
          have hhard' := hard_of_not (h.1 w (mem_cons_of_mem _ hw)) (head_dropWhile hrest)
          rw [countP_cons_of_pos hhard'] at h
          omega
  | succ k ih =>
    by_cases hkept : kept delim escaped u = true
    · refine iff_of_false (looseCut_ne_of_kept hf (k + 1) hdelim hkept) fun h => ?_
      rw [h.1 u mem_cons_self] at hkept
      cases hkept
    · rw [Bool.not_eq_true] at hkept
      have hhard := hard_of_not hkept hwhite
      rw [cut, looseCut, behind_hard hhard, field_hard hhard, countP_cons_of_pos hhard,
        ← countP_dropWhile_white rest]
      cases hline : (u :: rest).dropWhile delim with
      | cons w more =>
        -- a unit that is kept follows
        have hw : delim w = false := head_dropWhile hline
        refine iff_of_false (fun heq => ?_) fun h => ?_
        · rw [takeWhile_cons_of_pos (by simp [hw])] at heq
          cases (List.cons.inj heq).1
        · have hmem : w ∈ u :: rest := by
            refine (dropWhile_suffix delim).subset ?_
            rw [hline]
            exact mem_cons_self
          have hnot := h.1 w hmem
          unfold kept at hnot
          rw [hw, Bool.not_false, Bool.or_true] at hnot
          cases hnot
      | nil =>
        have hall := dropWhile_eq_nil_iff.mp hline
        change ([] :: (looseCut delim blank k []).map (List.map f) = _) ↔ _
        rw [map_cons, map_nil, List.cons.injEq, eq_self, true_and]
        have hfirst : (∀ v ∈ u :: rest, kept delim escaped v = false) ↔
            ∀ v ∈ rest.dropWhile (white delim blank escaped), kept delim escaped v = false := by
          rw [forall_dropWhile_white, forall_mem_cons]
          exact and_iff_right hkept
        rw [hfirst]
        cases hrest : rest.dropWhile (white delim blank escaped) with
        | nil => exact iff_of_true (by rw [cut_nil]) ⟨nofun, by simp⟩
        | cons w more =>
          have hback : ∀ v ∈ w :: more, delim v = true := by
            intro v hv
            refine hall v (mem_cons_of_mem _ ?_)
            exact (dropWhile_suffix (white delim blank escaped)).subset (hrest ▸ hv)
          have hnext := @ih w more (hback w mem_cons_self) (head_dropWhile hrest)
          rw [dropWhile_eq_nil_iff.mpr hback] at hnext
          rw [hnext]
          exact and_congr_right fun _ => by omega

/-! ## The agreement -/

omit hf in
/-- The last field, read by both. -/
theorem looseCut_zero_iff (line : List β) :
    (looseCut delim blank 0 line).map (List.map f) =
        (cut delim blank escaped 0 line).map (List.map f) ↔
      Alike delim blank escaped 0 line := by
  have hsplit := takeWhile_append_dropWhile (p := kept delim escaped) (l := line)
  rw [looseCut, cut, map_singleton, map_singleton, List.cons.injEq, eq_self, and_true,
    map_eq_iff_of_prefix (List.rdropWhile_prefix _ _) (lastField_starts delim blank escaped line),
    Alike]
  have hblank (front gap : List β) (hgap : ∀ u ∈ gap, white delim blank escaped u = true) :
      ((front ++ gap).rdropWhile fun u => delim u && blank u) = front ↔
        ∀ u, front.getLast? = some u → (delim u && blank u) = false := by
    rw [rdropWhile_append_of_all, rdropWhile_eq_self_iff]
    · constructor
      · intro h u hu
        have hne : front ≠ [] := by
          rintro rfl
          cases hu
        have hlast := h hne
        rw [some.inj ((getLast?_eq_some_getLast hne).symm.trans hu)] at hlast
        simpa using hlast
      · intro h hne
        simpa using h _ (getLast?_eq_some_getLast hne)
    · intro u hu
      have h := hgap u hu
      unfold white at h
      simp only [Bool.and_eq_true] at h ⊢
      exact ⟨h.1.2, h.2⟩
  unfold lastField
  by_cases hbehind : behind delim blank escaped line = []
  · rw [if_pos hbehind]
    by_cases hgap : ∀ u ∈ line.dropWhile (kept delim escaped), white delim blank escaped u = true
    · have hread := hblank (field delim escaped line) (line.dropWhile (kept delim escaped)) hgap
      rw [field, hsplit] at hread
      rw [field, hread]
      exact ⟨fun h => ⟨fun _ => hgap, h⟩, fun h => h.2⟩
    · refine iff_of_false (fun heq => ?_) fun h => hgap (h.1 hbehind)
      -- the hard delimiter behind the field is read as a part of it
      obtain ⟨u, hu, hhard⟩ : ∃ u ∈ line.dropWhile (kept delim escaped),
          hard delim blank escaped u = true := by
        unfold behind skipDelimiter at hbehind
        cases hdrop : (line.dropWhile (kept delim escaped)).dropWhile (white delim blank escaped) with
        | nil => exact absurd (dropWhile_eq_nil_iff.mp hdrop) hgap
        | cons u rest =>
          rw [hdrop] at hbehind
          dsimp only at hbehind
          split at hbehind
          · rename_i hhard
            refine ⟨u, (dropWhile_suffix (white delim blank escaped)).subset ?_, hhard⟩
            rw [hdrop]
            exact mem_cons_self
          · cases hbehind
      have hback : line.dropWhile (kept delim escaped) =
          line.rtakeWhile fun u => delim u && blank u := by
        have hline := rdropWhile_append_rtakeWhile (p := fun u => delim u && blank u) (l := line)
        rw [heq] at hline
        exact append_cancel_left (hsplit.trans hline.symm)
      rw [hback] at hu
      have hblank' := mem_rtakeWhile_imp hu
      unfold hard at hhard
      simp only [Bool.and_eq_true, Bool.not_eq_true'] at hblank' hhard
      rw [hhard.2] at hblank'
      cases hblank'.2
  · rw [if_neg hbehind]
    have hwhole := hblank (line.rdropWhile (white delim blank escaped))
      (line.rtakeWhile (white delim blank escaped)) fun u hu => mem_rtakeWhile_imp hu
    rw [rdropWhile_append_rtakeWhile] at hwhole
    rw [hwhole]
    exact ⟨fun h => ⟨fun hnil => absurd hnil hbehind, h⟩, fun h => h.2⟩

/-- **Where a reader that does not know what is escaped cuts a line alike.** -/
theorem looseCut_iff (k : Nat) (line : List β) :
    (looseCut delim blank k line).map (List.map f) =
        (cut delim blank escaped k line).map (List.map f) ↔
      Alike delim blank escaped k line := by
  induction k generalizing line with
  | zero => exact looseCut_zero_iff line
  | succ k ih =>
    rw [looseCut, cut, Alike, map_cons, map_cons, List.cons.injEq,
      map_eq_iff_of_prefix (List.takeWhile_prefix _) (field_starts delim escaped line)]
    by_cases hfield : ∀ u ∈ field delim escaped line, delim u = false
    · -- both read the same field, and the rest starts with its delimiter
      have hsplit := takeWhile_append_dropWhile (p := kept delim escaped) (l := line)
      have hstart : ∀ u, (line.dropWhile (kept delim escaped)).head? = some u →
          (!delim u) = false := by
        intro u hu
        cases hdrop : line.dropWhile (kept delim escaped) with
        | nil => simp [hdrop] at hu
        | cons v rest =>
          rw [hdrop] at hu
          cases hu
          have hkept := head_dropWhile hdrop
          unfold kept at hkept
          exact (Bool.or_eq_false_iff.mp hkept).2
      have hfront : ∀ u ∈ line.takeWhile (kept delim escaped), (!delim u) = true := by
        intro u hu
        rw [hfield u hu]
        rfl
      have htake : (line.takeWhile fun u => !delim u) = field delim escaped line := by
        conv_lhs => rw [← hsplit]
        rw [takeWhile_append_of_pos hfront]
        cases hdrop : line.dropWhile (kept delim escaped) with
        | nil => simp [field]
        | cons v rest =>
          rw [hdrop] at hstart
          rw [takeWhile_cons_of_neg (by simp [hstart v rfl]), append_nil]
          rfl
      have hdropped : (line.dropWhile fun u => !delim u) = line.dropWhile (kept delim escaped) := by
        conv_lhs => rw [← hsplit]
        rw [dropWhile_append_of_pos hfront]
        exact dropWhile_eq_self_of_head hstart
      obtain ⟨gap, hgap, hdelims, hhead⟩ := skipDelimiter_split delim blank escaped (line.dropWhile (kept delim escaped))
      have hskip : (line.dropWhile (kept delim escaped)).dropWhile delim =
          (behind delim blank escaped line).dropWhile delim := by
        conv_lhs => rw [hgap]
        rw [dropWhile_append_of_pos hdelims]
        rfl
      rw [htake, hdropped, hskip, eq_self, true_and, and_iff_right hfield]
      cases hbehind : behind delim blank escaped line with
      | nil =>
        rw [head?_nil, any_none, if_neg (by simp)]
        exact ih []
      | cons u rest =>
        rw [head?_cons, any_some]
        have hwhite : white delim blank escaped u = false := by
          refine hhead u ?_
          unfold behind at hbehind
          rw [hbehind]
          rfl
        by_cases hdelim : delim u = true
        · rw [if_pos hdelim]
          exact looseCut_delim_iff hf k hdelim hwhite
        · rw [if_neg hdelim, dropWhile_cons_of_neg (by simpa using hdelim)]
          exact ih (u :: rest)
    · refine iff_of_false (fun h => hfield fun u hu => ?_) fun h => hfield h.1
      rw [← h.1] at hu
      simpa using mem_takeWhile_imp hu

end

/-! ## Whole lines -/

variable (delim blank escaped)

/-- The fields of a line: white space at its start belongs to none. -/
def cutLine (k : Nat) (line : List β) : List (List β) :=
  cut delim blank escaped k (line.dropWhile (white delim blank escaped))

/-- The loose reader of a line. A single field it takes for what is between the delimiters
at both ends. -/
def looseLine : Nat → List β → List (List β)
  | 0, line => [(line.dropWhile delim).rdropWhile delim]
  | k + 1, line => looseCut delim blank (k + 1) (line.dropWhile fun u => delim u && blank u)

/-- The readers agree on `k + 1` fields of a whole line; a single field has no delimiter,
escaped or not, at either end. -/
def AlikeLine : Nat → List β → Prop
  | 0, line =>
    ∀ u, ((lastField delim blank escaped
        (line.dropWhile (white delim blank escaped))).head? = some u ∨
      (lastField delim blank escaped
        (line.dropWhile (white delim blank escaped))).getLast? = some u) → delim u = false
  | k + 1, line => Alike delim blank escaped (k + 1) (line.dropWhile (white delim blank escaped))

variable {delim blank escaped}

variable (delim blank escaped) in
theorem lastField_split (line : List β) :
    ∃ gap, line = lastField delim blank escaped line ++ gap ∧ ∀ u ∈ gap, delim u = true := by
  unfold lastField
  split
  · rename_i hbehind
    obtain ⟨gap, hgap, hdelims, -⟩ := skipDelimiter_split delim blank escaped (line.dropWhile (kept delim escaped))
    unfold behind at hbehind
    rw [hbehind, append_nil] at hgap
    refine ⟨gap, ?_, hdelims⟩
    rw [← hgap]
    exact takeWhile_append_dropWhile.symm
  · exact ⟨_, rdropWhile_append_rtakeWhile.symm,
      fun u hu => delim_of_white (mem_rtakeWhile_imp hu)⟩

theorem trim_iff {front text back : List β} (hfront : ∀ u ∈ front, delim u = true)
    (hback : ∀ u ∈ back, delim u = true) :
    ((front ++ (text ++ back)).dropWhile delim).rdropWhile delim = text ↔
      ∀ u, (text.head? = some u ∨ text.getLast? = some u) → delim u = false := by
  rw [dropWhile_append_of_pos hfront]
  cases text with
  | nil =>
    rw [nil_append, dropWhile_eq_nil_iff.mpr hback]
    exact iff_of_true rfl (by simp)
  | cons v rest =>
    constructor
    · intro h u hu
      rcases hu with hu | hu
      · -- the head of what trimming leaves
        obtain ⟨tail, htail⟩ := List.rdropWhile_prefix delim ((v :: rest ++ back).dropWhile delim)
        rw [h] at htail
        have hhead : ((v :: rest ++ back).dropWhile delim).head? = some u := by
          rw [← htail, head?_append, hu, some_or]
        exact head_dropWhile_delim u hhead
      · have hne : ((v :: rest ++ back).dropWhile delim).rdropWhile delim ≠ [] := by
          rw [h]
          exact cons_ne_nil _ _
        have hlast := rdropWhile_last_not delim _ hne
        have heq : (((v :: rest ++ back).dropWhile delim).rdropWhile delim).getLast? = some u := by
          rw [h, hu]
        rw [getLast?_eq_some_getLast hne] at heq
        rw [some.inj heq] at hlast
        simpa using hlast
    · intro h
      rw [cons_append, dropWhile_cons_of_neg (by simp [h v (Or.inl rfl)]),
        ← cons_append, rdropWhile_append_of_all hback, rdropWhile_eq_self_iff]
      intro hne
      simp [h _ (Or.inr (getLast?_eq_some_getLast hne))]

variable (delim blank escaped) in
theorem dropWhile_blank (line : List β) :
    (line.dropWhile fun u => delim u && blank u) =
      (line.dropWhile (white delim blank escaped)).dropWhile fun u => delim u && blank u := by
  have hsplit := takeWhile_append_dropWhile (p := white delim blank escaped) (l := line)
  conv_lhs => rw [← hsplit]
  refine dropWhile_append_of_pos fun u hu => ?_
  have h := mem_takeWhile_imp hu
  unfold white at h
  simp only [Bool.and_eq_true] at h ⊢
  exact ⟨h.1.2, h.2⟩

theorem head_field_of_blank (hu : line.head? = some u)
    (hwhite : white delim blank escaped u = false) (hblank : (delim u && blank u) = true) :
    (field delim escaped line).head? = some u := by
  rw [Bool.and_eq_true] at hblank
  have hkept : kept delim escaped u = true := by
    unfold white at hwhite
    unfold kept
    rw [hblank.1, hblank.2] at hwhite
    cases hescaped : escaped u <;> simp_all
  cases line with
  | nil => cases hu
  | cons v more =>
    cases hu
    unfold field
    rw [takeWhile_cons_of_pos hkept]
    rfl

/-- Trimming takes units away from a text. -/
theorem trim_sublist {text back : List β} (hback : ∀ u ∈ back, delim u = true) :
    List.Sublist (((text ++ back).dropWhile delim).rdropWhile delim) text := by
  rw [dropWhile_append]
  split
  · rw [dropWhile_eq_nil_iff.mpr hback]
    exact nil_sublist _
  · rw [rdropWhile_append_of_all hback]
    exact (List.rdropWhile_prefix _ _).sublist.trans (dropWhile_sublist _)

/-- **Where the two readers show the same fields of a line.** -/
theorem looseLine_iff {γ : Type} {f : β → γ} (hf : ∀ u v, f u = f v → delim u = delim v) (k : Nat)
    (line : List β) :
    (looseLine delim blank k line).map (List.map f) =
        (cutLine delim blank escaped k line).map (List.map f) ↔
      AlikeLine delim blank escaped k line := by
  cases k with
  | zero =>
    have hsplit := takeWhile_append_dropWhile (p := white delim blank escaped) (l := line)
    obtain ⟨gap, hgap, hdelims⟩ := lastField_split delim blank escaped
      (line.dropWhile (white delim blank escaped))
    have hfront : ∀ u ∈ line.takeWhile (white delim blank escaped), delim u = true :=
      fun u hu => delim_of_white (mem_takeWhile_imp hu)
    have htrim := @trim_iff β delim (line.takeWhile (white delim blank escaped))
      (lastField delim blank escaped (line.dropWhile (white delim blank escaped))) gap hfront hdelims
    have hsub := @trim_sublist β delim (lastField delim blank escaped
      (line.dropWhile (white delim blank escaped))) gap hdelims
    rw [← dropWhile_append_of_pos hfront] at hsub
    rw [← hgap, hsplit] at htrim hsub
    rw [looseLine, cutLine, cut, AlikeLine, map_singleton, map_singleton,
      List.cons.injEq, eq_self, and_true, ← htrim]
    refine ⟨fun h => hsub.eq_of_length ?_, congrArg _⟩
    have hlength := congrArg List.length h
    rwa [length_map, length_map] at hlength
  | succ k =>
    rw [looseLine, cutLine, AlikeLine, dropWhile_blank delim blank escaped line]
    generalize hline : line.dropWhile (white delim blank escaped) = rest
    by_cases hblank : ∀ u, rest.head? = some u → (delim u && blank u) = false
    · rw [dropWhile_eq_self_of_head hblank]
      exact looseCut_iff hf (k + 1) rest
    · -- an escaped blank starts the first field
      push Not at hblank
      obtain ⟨u, hu, hdelim⟩ := hblank
      rw [ne_eq, Bool.not_eq_false] at hdelim
      have hwhite : white delim blank escaped u = false := by
        cases rest with
        | nil => cases hu
        | cons v more =>
          cases hu
          exact head_dropWhile hline
      have hhead := head_field_of_blank hu hwhite hdelim
      have htrue : delim u = true := (Bool.and_eq_true_iff.mp hdelim).1
      refine iff_of_false (fun heq => ?_) fun h => ?_
      · refine map_ne_of_head hf (fun v hv => ?_) hhead htrue (List.cons.inj heq).1
        simpa using mem_takeWhile_imp (mem_of_mem_head? (mem_def.mpr hv))
      · have hfalse := h.1 u (mem_of_mem_head? (mem_def.mpr hhead))
        rw [htrue] at hfalse
        cases hfalse

/-! ## The units of the fields -/

variable {line text : List β}

theorem mem_of_mem_cut
    (htext : text ∈ cut delim blank escaped k line) (hu : u ∈ text) : u ∈ line := by
  induction k generalizing line with
  | zero =>
    rw [cut, mem_singleton] at htext
    rw [htext] at hu
    exact (lastField_starts delim blank escaped line).subset hu
  | succ k ih =>
    rw [cut, mem_cons] at htext
    rcases htext with rfl | htext
    · exact (field_starts delim escaped line).subset hu
    · have hbehind := ih htext
      obtain ⟨gap, hgap, -⟩ := skipDelimiter_split delim blank escaped
        (line.dropWhile (kept delim escaped))
      refine (dropWhile_suffix (kept delim escaped)).subset ?_
      rw [hgap]
      exact mem_append_right _ hbehind

theorem mem_of_mem_looseCut
    (htext : text ∈ looseCut delim blank k line) (hu : u ∈ text) : u ∈ line := by
  induction k generalizing line with
  | zero =>
    rw [looseCut, mem_singleton] at htext
    rw [htext] at hu
    exact (List.rdropWhile_prefix _ _).subset hu
  | succ k ih =>
    rw [looseCut, mem_cons] at htext
    rcases htext with rfl | htext
    · exact (List.takeWhile_prefix _).subset hu
    · exact (dropWhile_suffix _).subset ((dropWhile_suffix _).subset (ih htext))

theorem mem_of_mem_cutLine
    (htext : text ∈ cutLine delim blank escaped k line) (hu : u ∈ text) : u ∈ line :=
  (dropWhile_suffix _).subset (mem_of_mem_cut htext hu)

theorem mem_of_mem_looseLine
    (htext : text ∈ looseLine delim blank k line) (hu : u ∈ text) : u ∈ line := by
  cases k with
  | zero =>
    rw [looseLine, mem_singleton] at htext
    rw [htext] at hu
    exact (dropWhile_suffix _).subset ((List.rdropWhile_prefix _ _).subset hu)
  | succ k => exact (dropWhile_suffix _).subset (mem_of_mem_looseCut htext hu)

end Ish.Lib.LineFields
