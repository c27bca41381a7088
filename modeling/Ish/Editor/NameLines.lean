import Ish.Editor.Columns

/-!
# Name lines — long names of a listing

The model of `wrap_name` and `truncate_to_width` in `src/ls.rs`. The lines are those of the
array that are in use, each with the offset it starts at.
-/

namespace Ish.Editor

open List

def MAX_NAME_LINES : Nat := 3

structure WrappedName where
  lines : List (Nat × List Char)
  truncated : Bool
  deriving DecidableEq

/-- The loop of `truncate_to_width`, from a character on. -/
def truncateToWidth.go (max_width : Nat) : Nat → Bool → List Char → List Char
  | _, _, [] => []
  | used, after_joiner, ch :: text =>
    let w := if after_joiner then 0 else charWidth ch
    if max_width < used + w then []
    else ch :: truncateToWidth.go max_width (used + w) (ch == ZERO_WIDTH_JOINER) text

/-- `truncate_to_width` -/
def truncateToWidth (text : List Char) (max_width : Nat) : List Char :=
  truncateToWidth.go max_width 0 false text

/-- More than the lines there are: the last one makes room for what shows it. -/
def truncateLast (width : Nat) (lines : List (Nat × List Char)) : WrappedName where
  lines := lines.modify (MAX_NAME_LINES - 1) fun (start, line) =>
    (start, truncateToWidth line (width - 1))
  truncated := true

/-- The loop of `wrap_name` and what follows it, where `line` is the text from `start` to the
next character. -/
def wrapName.go (width : Nat) (lines : List (Nat × List Char)) (start : Nat) (line : List Char)
    (used : Nat) (after_joiner : Bool) : List Char → WrappedName
  | [] =>
    if lines = [] then ⟨[(start, line)], false⟩
    else if line = [] then ⟨lines, false⟩
    else if lines.length = MAX_NAME_LINES then truncateLast width lines
    else ⟨lines ++ [(start, line)], false⟩
  | ch :: text =>
    let w := if after_joiner then 0 else charWidth ch
    if 0 < used ∧ width < used + w then
      if lines.length = MAX_NAME_LINES then truncateLast width lines
      else wrapName.go width (lines ++ [(start, line)]) (start + byteLen line) [ch] w
        (ch == ZERO_WIDTH_JOINER) text
    else wrapName.go width lines start (line ++ [ch]) (used + w) (ch == ZERO_WIDTH_JOINER) text

/-- `wrap_name` -/
def wrapName (text : List Char) (width : Nat) : WrappedName :=
  wrapName.go width [] 0 [] 0 false text

/-! ## Greedy breaking -/

/-- The lines of a text where each one ends in front of the first character that does not
fit. -/
inductive Broken (width : Nat) : List Char → List (List Char) → Prop where
  | last {s : List Char} (hs : strWidth s ≤ width) : Broken width s [s]
  | more {s rest : List Char} {c : Char} {ls : List (List Char)} (hne : s ≠ [])
      (hs : strWidth s ≤ width) (hc : width < strWidth (s ++ [c]))
      (hrest : Broken width (c :: rest) ls) : Broken width (s ++ c :: rest) (s :: ls)

variable {width : Nat}

theorem Broken.flatten (h : Broken width text ls) :
    ls.flatten = text := by
  induction h with
  | last => exact append_nil _
  | more _ _ _ _ ih => rw [flatten_cons, ih]

theorem Broken.fits (h : Broken width text ls) :
    ∀ l ∈ ls, strWidth l ≤ width := by
  induction h with
  | last hs => exact fun l hl => mem_singleton.mp hl ▸ hs
  | more _ hs _ _ ih =>
    intro l hl
    rcases mem_cons.mp hl with rfl | hl
    · exact hs
    · exact ih l hl

theorem Broken.ne_nil (h : Broken width text ls)
    (htext : text ≠ []) : ∀ l ∈ ls, l ≠ [] := by
  induction h with
  | last => exact fun l hl => mem_singleton.mp hl ▸ htext
  | more hne _ _ _ ih =>
    intro l hl
    rcases mem_cons.mp hl with rfl | hl
    · exact hne
    · exact ih (cons_ne_nil _ _) l hl

/-- A text that fits is no longer than one behind which a character does not. -/
theorem length_le_of_full
    (htext : s ++ c :: rest = s' ++ rest') (hc : width < strWidth (s ++ [c]))
    (hs' : strWidth s' ≤ width) : s'.length ≤ s.length := by
  by_contra hlonger
  have hprefix : s ++ [c] <+: s' := by
    have hstart : s ++ [c] <+: s' ++ rest' := ⟨rest, (append_assoc ..).trans htext⟩
    refine prefix_of_prefix_length_le hstart (prefix_append s' rest') ?_
    · rw [length_append]
      exact Nat.not_le.mp hlonger
  exact absurd (hc.trans_le ((strWidth_mono hprefix).1.trans hs')) (Nat.lt_irrefl _)

theorem Broken.unique {text ls ls'} (h : Broken width text ls)
    (h' : Broken width text ls') : ls = ls' := by
  induction h generalizing ls' with
  | @last s hs =>
    generalize htext : s = text at h'
    cases h' with
    | last => rfl
    | @more s' rest c _ _ _ hc =>
      have hle := length_le_of_full (htext.symm.trans (append_nil s).symm) hc hs
      rw [htext, length_append, length_cons] at hle
      omega
  | @more s rest c ls _ hs hc _ ih =>
    generalize htext : s ++ c :: rest = text at h'
    cases h' with
    | last hs' =>
      have hle := length_le_of_full (htext.trans (append_nil _).symm) hc hs'
      rw [← htext, length_append, length_cons] at hle
      omega
    | @more s' rest' c' ls' _ hs' hc' hrest' =>
      have hlength : s.length = s'.length :=
        Nat.le_antisymm (length_le_of_full htext.symm hc' hs) (length_le_of_full htext hc hs')
      obtain ⟨rfl, hrest⟩ := append_inj htext hlength
      rw [ih (hrest ▸ hrest')]

/-! ## Cut lines -/

theorem truncateToWidth_go (max_width used : Nat) (after_joiner : Bool) (text : List Char)
    (hused : used ≤ max_width) :
    truncateToWidth.go max_width used after_joiner text <+: text ∧
      used + strWidth.go after_joiner (truncateToWidth.go max_width used after_joiner text) ≤
        max_width := by
  induction text generalizing used after_joiner with
  | nil => exact ⟨List.nil_prefix, hused⟩
  | cons ch text ih =>
    rw [truncateToWidth.go]
    by_cases hfull : max_width < used + if after_joiner then 0 else charWidth ch
    · rw [if_pos hfull]
      exact ⟨List.nil_prefix, hused⟩
    · rw [if_neg hfull, strWidth.go, ← Nat.add_assoc]
      obtain ⟨htext, hwidth⟩ := ih _ (ch == ZERO_WIDTH_JOINER) (Nat.not_lt.mp hfull)
      exact ⟨cons_prefix_cons.mpr ⟨rfl, htext⟩, hwidth⟩

/-! ## The lines of a name -/

/-- Lines behind one another, each with its offset. -/
def place (start : Nat) : List (List Char) → List (Nat × List Char)
  | [] => []
  | l :: ls => (start, l) :: place (start + byteLen l) ls

/-- What is left of the lines of a text. -/
def close (width : Nat) (lines : List (Nat × List Char)) : WrappedName :=
  if lines.length ≤ MAX_NAME_LINES then ⟨lines, false⟩
  else truncateLast width (lines.take MAX_NAME_LINES)

theorem charWidth_le_two (c : Char) : charWidth c ≤ 2 := by
  unfold charWidth
  dsimp only
  split_ifs <;> decide

theorem close_of_full (hlength : lines.length = MAX_NAME_LINES)
    (hmore : more ≠ []) : close width (lines ++ more) = truncateLast width lines := by
  have := length_pos_iff.mpr hmore
  rw [close, if_neg (by rw [length_append]; omega), take_left' hlength]

/-- The loop breaks the text as described. -/
theorem wrapName_go (hwidth : 2 ≤ width) (lines : List (Nat × List Char)) (start : Nat)
    (line text : List Char) (hlines : lines.length ≤ MAX_NAME_LINES)
    (hline : lines ≠ [] → line ≠ []) (hfits : strWidth line ≤ width) :
    ∃ ls, Broken width (line ++ text) ls ∧
      wrapName.go width lines start line (strWidth line) (line.getLast? == some ZERO_WIDTH_JOINER)
        text = close width (lines ++ place start ls) := by
  induction text generalizing lines start line with
  | nil =>
    rw [append_nil]
    refine ⟨[line], .last hfits, ?_⟩
    rw [wrapName.go]
    by_cases hnil : lines = []
    · rw [if_pos hnil, hnil]
      rfl
    · rw [if_neg hnil, if_neg (hline hnil)]
      split
      · next hfull => exact (close_of_full hfull (cons_ne_nil _ _)).symm
      · next hroom =>
        rw [close, if_pos]
        · rfl
        · rw [length_append]
          exact Nat.lt_of_le_of_ne hlines hroom
  | cons ch text ih =>
    rw [wrapName.go]
    obtain ⟨hjoined, hplain⟩ := strWidth_concat line ch
    have hends : (line.getLast? == some ZERO_WIDTH_JOINER) = true ↔ EndsJoined line := beq_iff_eq
    have hlast : ((line ++ [ch]).getLast? == some ZERO_WIDTH_JOINER) = (ch == ZERO_WIDTH_JOINER) := by
      rw [getLast?_concat]
      rfl
    have hnext : strWidth line + (if line.getLast? == some ZERO_WIDTH_JOINER then 0 else charWidth ch) =
        strWidth (line ++ [ch]) := by
      by_cases h : EndsJoined line
      · rw [if_pos (hends.mpr h), hjoined h, Nat.add_zero]
      · rw [if_neg fun hend => h (hends.mp hend), hplain h]
    rw [hnext]
    by_cases hbreak : 0 < strWidth line ∧ width < strWidth (line ++ [ch])
    · rw [if_pos hbreak]
      -- Behind a joiner nothing is added, so the next line starts with a width of its own.
      have hnot : ¬ EndsJoined line := fun h => by
        rw [hjoined h] at hbreak
        omega
      have hne : line ≠ [] := by
        rintro rfl
        exact absurd hbreak.1 (by decide)
      have hone : strWidth [ch] = charWidth ch := Nat.add_zero _
      have hfirst : strWidth [ch] ≤ width := hone ▸ (charWidth_le_two ch).trans hwidth
      split
      · next hfull =>
        obtain ⟨ls, hbroken, -⟩ := ih [] 0 [ch] (Nat.zero_le _) (fun _ => cons_ne_nil _ _) hfirst
        exact ⟨line :: ls, .more hne hfits hbreak.2 hbroken,
          (close_of_full hfull (cons_ne_nil _ _)).symm⟩
      · next hroom =>
        have hlength : (lines ++ [(start, line)]).length ≤ MAX_NAME_LINES := by
          rw [length_append]
          exact Nat.lt_of_le_of_ne hlines hroom
        obtain ⟨ls, hbroken, hgo⟩ := ih _ (start + byteLen line) [ch] hlength
          (fun _ => cons_ne_nil _ _) hfirst
        refine ⟨line :: ls, .more hne hfits hbreak.2 hbroken, ?_⟩
        rw [if_neg fun h => hnot (hends.mp h), ← hone]
        refine hgo.trans ?_
        rw [append_assoc]
        rfl
    · rw [if_neg hbreak]
      have hfits' : strWidth (line ++ [ch]) ≤ width := by
        have hle := (strWidth_le_concat line ch).2
        have htwo := charWidth_le_two ch
        omega
      obtain ⟨ls, hbroken, hgo⟩ := ih lines start (line ++ [ch]) hlines
        (fun _ => by simp) hfits'
      rw [append_assoc] at hbroken
      exact ⟨ls, hbroken, hlast ▸ hgo⟩

/-- The name that is shown. -/
def WrappedName.name (wrapped : WrappedName) : List Char := (wrapped.lines.map Prod.snd).flatten

theorem map_place (start : Nat) (ls : List (List Char)) : (place start ls).map Prod.snd = ls := by
  induction ls generalizing start with
  | nil => rfl
  | cons l ls ih => rw [place, map_cons, ih]

/-- Three lines with more behind them. -/
theorem close_three :
    close width (place 0 (l₁ :: l₂ :: l₃ :: l₄ :: more)) =
      ⟨place 0 [l₁, l₂, truncateToWidth l₃ (width - 1)], true⟩ := by
  rw [close, if_neg (by simp [place, MAX_NAME_LINES])]
  rfl

/-- **A name is wrapped greedily, and nothing is lost but what is cut off.** -/
theorem wrapName_keeps {text : List Char} (hwidth : 2 ≤ width) :
    let wrapped := wrapName text width
    wrapped.lines.length ≤ MAX_NAME_LINES ∧
      wrapped.lines = place 0 (wrapped.lines.map Prod.snd) ∧
      wrapped.name <+: text ∧ (wrapped.truncated = false ↔ wrapped.name = text) ∧
      (∃ ls, Broken width text ls) ∧
      (∀ ls, Broken width text ls → (wrapped.truncated = true ↔ MAX_NAME_LINES < ls.length)) ∧
      (∀ l ∈ wrapped.lines, strWidth l.2 ≤ width) ∧
      (wrapped.truncated = true → ∀ l ∈ wrapped.lines.getLast?, strWidth l.2 ≤ width - 1) := by
  intro wrapped
  obtain ⟨ls, hbroken, hgo⟩ := wrapName_go hwidth [] 0 [] text (Nat.zero_le _)
    (absurd rfl) (Nat.zero_le _)
  have hwrapped : wrapped = close width (place 0 ls) := hgo
  have hlength : (place 0 ls).length = ls.length := by rw [← length_map, map_place]
  clear_value wrapped
  rw [nil_append] at hbroken
  by_cases hshort : ls.length ≤ MAX_NAME_LINES
  · have hclose : wrapped = ⟨place 0 ls, false⟩ := by
      rw [hwrapped, close, if_pos (hlength.trans_le hshort)]
    have hname : wrapped.name = text := by rw [hclose, WrappedName.name, map_place, hbroken.flatten]
    refine ⟨?_, ?_, hname ▸ prefix_rfl, ?_, ⟨ls, hbroken⟩, ?_, ?_, ?_⟩
    · rwa [hclose, hlength]
    · rw [hclose, map_place]
    · rw [hname, hclose]
      exact iff_of_true rfl rfl
    · intro ls' hbroken'
      rw [hclose, ← hbroken.unique hbroken']
      exact iff_of_false nofun (Nat.not_lt.mpr hshort)
    · intro l hl
      rw [hclose] at hl
      exact hbroken.fits _ (map_place 0 ls ▸ mem_map_of_mem hl)
    · intro htruncated
      rw [hclose] at htruncated
      cases htruncated
  · obtain ⟨l₁, l₂, l₃, l₄, more, rfl⟩ : ∃ l₁ l₂ l₃ l₄ more, ls = l₁ :: l₂ :: l₃ :: l₄ :: more := by
      match ls, hshort with
      | [], h | [_], h | [_, _], h | [_, _, _], h => exact absurd (by simp [MAX_NAME_LINES]) h
      | l₁ :: l₂ :: l₃ :: l₄ :: more, _ => exact ⟨l₁, l₂, l₃, l₄, more, rfl⟩
    have hne : text ≠ [] := by
      rintro rfl
      cases hbroken.unique (.last (Nat.zero_le _))
    obtain ⟨hcut, hcutWidth⟩ := truncateToWidth_go (width - 1) 0 false l₃ (Nat.zero_le _)
    rw [← truncateToWidth] at hcut hcutWidth
    have hclose : wrapped = ⟨place 0 [l₁, l₂, truncateToWidth l₃ (width - 1)], true⟩ :=
      hwrapped.trans close_three
    have hname : wrapped.name = l₁ ++ (l₂ ++ truncateToWidth l₃ (width - 1)) := by
      rw [hclose, WrappedName.name, map_place]
      simp
    have htext : text = l₁ ++ (l₂ ++ (l₃ ++ (l₄ ++ more.flatten))) := by simpa using hbroken.flatten.symm
    have hproper : wrapped.name <+: text ∧ wrapped.name ≠ text := by
      rw [hname, htext, prefix_append_right_inj, prefix_append_right_inj]
      refine ⟨hcut.trans (prefix_append l₃ _), fun heq => ?_⟩
      have hle := hcut.length_le
      have hlast := length_pos_iff.mpr (hbroken.ne_nil hne l₄ (by simp))
      have := congrArg List.length heq
      simp only [length_append] at this
      omega
    have hfits := hbroken.fits
    refine ⟨?_, ?_, hproper.1, ?_, ⟨_, hbroken⟩, ?_, ?_, ?_⟩
    · rw [hclose]
      exact le_rfl
    · rw [hclose, map_place]
    · rw [hclose]
      exact iff_of_false nofun (hclose ▸ hproper.2)
    · intro ls' hbroken'
      rw [hclose, ← hbroken.unique hbroken']
      exact iff_of_true rfl (Nat.not_le.mp hshort)
    · intro l hl
      rw [hclose] at hl
      simp only [place, mem_cons, not_mem_nil, or_false] at hl
      rcases hl with rfl | rfl | rfl
      · exact hfits l₁ (by simp)
      · exact hfits l₂ (by simp)
      · exact (strWidth_mono hcut).1.trans (hfits l₃ (by simp))
    · rintro - l hl
      rw [hclose] at hl
      simp only [place, getLast?_cons_cons, getLast?_singleton, Option.mem_some_iff] at hl
      rw [← hl]
      exact (Nat.zero_add _).symm.trans_le hcutWidth

/-- A name of seven columns on lines of two. -/
theorem wrapName_keeps_seven :
    let wrapped := wrapName ['a', 'b', 'c', 'd', 'e', 'f', 'g'] 2
    wrapped.lines.length ≤ MAX_NAME_LINES ∧
      wrapped.lines = place 0 (wrapped.lines.map Prod.snd) ∧
      wrapped.name <+: ['a', 'b', 'c', 'd', 'e', 'f', 'g'] ∧
      (wrapped.truncated = false ↔ wrapped.name = ['a', 'b', 'c', 'd', 'e', 'f', 'g']) ∧
      (∃ ls, Broken 2 ['a', 'b', 'c', 'd', 'e', 'f', 'g'] ls) ∧
      (∀ ls, Broken 2 ['a', 'b', 'c', 'd', 'e', 'f', 'g'] ls →
        (wrapped.truncated = true ↔ MAX_NAME_LINES < ls.length)) ∧
      (∀ l ∈ wrapped.lines, strWidth l.2 ≤ 2) ∧
      (wrapped.truncated = true → ∀ l ∈ wrapped.lines.getLast?, strWidth l.2 ≤ 2 - 1) :=
  wrapName_keeps (by decide)

end Ish.Editor
