import Ish.Editor.LineBuffer
import Ish.Lib.Ascii

/-!
# Columns — displayed widths of a line

The model of `str_width`, `char_width` and of their two inverses, `offset_at_column` and
`byte_offset_for_display_pos`, in `src/line.rs`. The inverses add up the widths of
characters; `str_width` leaves out a character behind a zero-width joiner.
-/

namespace Ish.Editor

open Ish.Lib List

/-! ## Widths -/

/-- Characters without a width of their own: soft hyphen, marks that are not shown, selectors,
skin tones, and the combining marks. -/
def ZERO_WIDTH : List (Nat × Nat) :=
  [(0xAD, 0xAD), (0x200B, 0x200F), (0x2028, 0x202E), (0x2060, 0x2064), (0xFEFF, 0xFEFF),
    (0xFE00, 0xFE0F), (0x1F3FB, 0x1F3FF), (0x0300, 0x036F), (0x1AB0, 0x1AFF), (0x1DC0, 0x1DFF),
    (0x20D0, 0x20FF), (0xFE20, 0xFE2F)]

def WIDE : List (Nat × Nat) :=
  [(0x1100, 0x115F), (0x231A, 0x231B), (0x2329, 0x232A), (0x23E9, 0x23F3), (0x23F8, 0x23FA),
    (0x25FD, 0x25FE), (0x2614, 0x2615), (0x2648, 0x2653), (0x267F, 0x267F), (0x2693, 0x2693),
    (0x26A1, 0x26A1), (0x26AA, 0x26AB), (0x26BD, 0x26BE), (0x26C4, 0x26C5), (0x26CE, 0x26CE),
    (0x26D4, 0x26D4), (0x26EA, 0x26EA), (0x26F2, 0x26F3), (0x26F5, 0x26F5), (0x26FA, 0x26FA),
    (0x26FD, 0x26FD), (0x2702, 0x2702), (0x2705, 0x2705), (0x2708, 0x270D), (0x270F, 0x270F),
    (0x2712, 0x2712), (0x2714, 0x2714), (0x2716, 0x2716), (0x271D, 0x271D), (0x2721, 0x2721),
    (0x2728, 0x2728), (0x2733, 0x2734), (0x2744, 0x2744), (0x2747, 0x2747), (0x274C, 0x274C),
    (0x274E, 0x274E), (0x2753, 0x2755), (0x2757, 0x2757), (0x2763, 0x2764), (0x2795, 0x2797),
    (0x27A1, 0x27A1), (0x27B0, 0x27B0), (0x27BF, 0x27BF), (0x2934, 0x2935), (0x2B05, 0x2B07),
    (0x2B1B, 0x2B1C), (0x2B50, 0x2B50), (0x2B55, 0x2B55), (0x2E80, 0x303E), (0x3040, 0x33BF),
    (0x3400, 0x4DBF), (0x4E00, 0xA4CF), (0xA960, 0xA97C), (0xAC00, 0xD7A3), (0xF900, 0xFAFF),
    (0xFE10, 0xFE19), (0xFE30, 0xFE6B), (0xFF01, 0xFF60), (0xFFE0, 0xFFE6), (0x1F004, 0x1F004),
    (0x1F0CF, 0x1F0CF), (0x1F170, 0x1F171), (0x1F17E, 0x1F17F), (0x1F18E, 0x1F18E),
    (0x1F191, 0x1F19A), (0x1F1E0, 0x1F1FF), (0x1F200, 0x1F202), (0x1F210, 0x1F23B),
    (0x1F240, 0x1F248), (0x1F250, 0x1F251), (0x1F260, 0x1F265), (0x1F300, 0x1F9FF),
    (0x1FA00, 0x1FA6F), (0x1FA70, 0x1FAFF), (0x20000, 0x2FA1F), (0x30000, 0x3134F)]

def inRanges (cp : Nat) (ranges : List (Nat × Nat)) : Bool :=
  ranges.any fun (first, last) => first ≤ cp && cp ≤ last

/-- `char::is_control` -/
def isControl (c : Char) : Bool := c.toNat < 0x20 || (0x7F ≤ c.toNat && c.toNat < 0xA0)

/-- `char_width` -/
def charWidth (c : Char) : Nat :=
  let cp := c.toNat
  if cp < 0x7F then 1
  else if isControl c then 1
  else if inRanges cp ZERO_WIDTH then 0
  else if inRanges cp WIDE then 2
  else 1

def ZERO_WIDTH_JOINER : Char := '\u200D'

/-- The loop of `str_width`. -/
def strWidth.go : Bool → List Char → Nat
  | _, [] => 0
  | after_joiner, c :: s =>
    (if after_joiner then 0 else charWidth c) + strWidth.go (c == ZERO_WIDTH_JOINER) s

/-- `str_width` -/
def strWidth (s : List Char) : Nat := strWidth.go false s

/-- The widths of the characters, added up. -/
def charWidths (s : List Char) : Nat := (s.map charWidth).sum

/-- `display_cursor_pos` -/
def LineBuffer.displayCursorPos (line : LineBuffer) : Nat :=
  if Ascii.isAscii line.buf then line.cursor else strWidth line.before

/-- `display_len` -/
def LineBuffer.displayLen (line : LineBuffer) : Nat :=
  if Ascii.isAscii line.buf then byteLen line.buf else strWidth line.buf

/-! ## From columns to offsets -/

/-- The loop of `offset_at_column`, at the offset `i`. -/
def offsetAtColumn.go (col : Nat) : Nat → Nat → List Char → Nat
  | _, i, [] => i
  | width, i, c :: line =>
    if col ≤ width then i else offsetAtColumn.go col (width + charWidth c) (i + c.utf8Size) line

/-- `offset_at_column` -/
def offsetAtColumn (line : List Char) (col : Nat) : Nat := offsetAtColumn.go col 0 0 line

/-- The loop of `byte_offset_for_display_pos`, at the offset `byte`. -/
def byteOffsetForDisplayPos.go (target : Nat) : Nat → Nat → List Char → Nat
  | _, byte, [] => byte
  | display, byte, c :: text =>
    let next := display + charWidth c
    if target < next then byte
    else if target = next then byte + c.utf8Size
    else byteOffsetForDisplayPos.go target next (byte + c.utf8Size) text

/-- `byte_offset_for_display_pos` -/
def byteOffsetForDisplayPos (text : List Char) (target : Nat) : Nat :=
  if target = 0 then 0 else byteOffsetForDisplayPos.go target 0 0 text

/-! ## Widths of prefixes -/

/-- The text ends in a joiner. -/
def EndsJoined (s : List Char) : Prop := s.getLast? = some ZERO_WIDTH_JOINER

theorem charWidths_append (s t : List Char) : charWidths (s ++ t) = charWidths s + charWidths t := by
  rw [charWidths, map_append, sum_append]
  rfl

theorem charWidths_singleton (c : Char) : charWidths [c] = charWidth c := Nat.add_zero _

theorem strWidth_go_append (after_joiner : Bool) (s t : List Char) (c : Char) :
    strWidth.go after_joiner (s ++ c :: t) =
      strWidth.go after_joiner (s ++ [c]) + strWidth.go (c == ZERO_WIDTH_JOINER) t := by
  induction s generalizing after_joiner with
  | nil =>
    rw [nil_append, nil_append, strWidth.go, strWidth.go, strWidth.go]
    rfl
  | cons d s ih => rw [cons_append, cons_append, strWidth.go, strWidth.go, ih, Nat.add_assoc]

/-- What one more character adds to the width. -/
theorem strWidth_concat (s : List Char) (c : Char) :
    (EndsJoined s → strWidth (s ++ [c]) = strWidth s) ∧
      (¬ EndsJoined s → strWidth (s ++ [c]) = strWidth s + charWidth c) := by
  rcases eq_nil_or_concat s with rfl | ⟨s, d, rfl⟩
  · refine ⟨fun h => ?_, fun _ => ?_⟩
    · cases h
    · rw [nil_append, strWidth, strWidth.go, strWidth, strWidth.go, strWidth.go, if_neg nofun,
        Nat.add_comm]
  · rw [concat_eq_append, append_assoc, singleton_append, strWidth,
      strWidth_go_append, strWidth.go, strWidth.go, ← strWidth, EndsJoined,
      getLast?_append, getLast?_singleton]
    refine ⟨fun h => ?_, fun h => ?_⟩
    · rw [if_pos (beq_iff_eq.mpr (Option.some.inj h))]
      rfl
    · rw [if_neg fun heq => h (congrArg some (beq_iff_eq.mp heq))]
      rfl

theorem strWidth_le_concat (s : List Char) (c : Char) :
    strWidth s ≤ strWidth (s ++ [c]) ∧ strWidth (s ++ [c]) ≤ strWidth s + charWidth c := by
  obtain ⟨hjoined, hplain⟩ := strWidth_concat s c
  by_cases h : EndsJoined s
  · rw [hjoined h]
    exact ⟨Nat.le_refl _, Nat.le_add_right _ _⟩
  · rw [hplain h]
    exact ⟨Nat.le_add_right _ _, Nat.le_refl _⟩

/-- A longer prefix is no narrower, and wider by no more than its characters. -/
theorem strWidth_mono (h : p <+: q) :
    strWidth p ≤ strWidth q ∧ strWidth q + charWidths p ≤ strWidth p + charWidths q := by
  obtain ⟨r, rfl⟩ := h
  induction r using List.reverseRecOn with
  | nil =>
    rw [append_nil]
    exact ⟨Nat.le_refl _, Nat.le_refl _⟩
  | append_singleton r c ih =>
    have hstep := strWidth_le_concat (p ++ r) c
    rw [← append_assoc, charWidths_append (p ++ r), charWidths_singleton]
    omega

theorem charWidths_mono (h : p <+: q) : charWidths p ≤ charWidths q := by
  obtain ⟨r, rfl⟩ := h
  rw [charWidths_append]
  exact Nat.le_add_right _ _

theorem strWidth_le_charWidths (s : List Char) : strWidth s ≤ charWidths s := by
  have h := (strWidth_mono (List.nil_prefix (l := s))).2
  simpa [charWidths, strWidth, strWidth.go] using h

theorem joined_of_lt (h : strWidth s < charWidths s) :
    ∃ before c after, s = before ++ c :: after ∧ EndsJoined before ∧ 0 < charWidth c ∧
      strWidth before = charWidths before := by
  induction s using List.reverseRecOn with
  | nil => cases h
  | append_singleton s c ih =>
    by_cases hlt : strWidth s < charWidths s
    · obtain ⟨before, d, after, rfl, hbefore⟩ := ih hlt
      exact ⟨before, d, after ++ [c], by simp, hbefore⟩
    · have heq : strWidth s = charWidths s :=
        Nat.le_antisymm (strWidth_le_charWidths s) (Nat.not_lt.mp hlt)
      obtain ⟨hjoined, hplain⟩ := strWidth_concat s c
      rw [charWidths_append, charWidths_singleton] at h
      by_cases hends : EndsJoined s
      · rw [hjoined hends, heq] at h
        exact ⟨s, c, [], rfl, hends, Nat.pos_of_lt_add_right h, heq⟩
      · rw [hplain hends, heq] at h
        exact absurd h (Nat.lt_irrefl _)

/-- A wider prefix has a character that adds to its width. -/
theorem widens_of_lt (h : strWidth p < strWidth (p ++ r)) :
    ∃ middle d after, r = middle ++ d :: after ∧ ¬ EndsJoined (p ++ middle) ∧ 0 < charWidth d := by
  induction r using List.reverseRecOn with
  | nil =>
    rw [append_nil] at h
    exact absurd h (Nat.lt_irrefl _)
  | append_singleton r c ih =>
    by_cases hlt : strWidth p < strWidth (p ++ r)
    · obtain ⟨middle, d, after, rfl, hmiddle⟩ := ih hlt
      exact ⟨middle, d, after ++ [c], by simp, hmiddle⟩
    · obtain ⟨hjoined, hplain⟩ := strWidth_concat (p ++ r) c
      rw [← append_assoc] at h
      by_cases hends : EndsJoined (p ++ r)
      · exact absurd (hjoined hends ▸ h) hlt
      · refine ⟨r, c, [], rfl, hends, ?_⟩
        rw [hplain hends] at h
        omega

/-! ## What the loops return -/

theorem offsetAtColumn_go (col width i : Nat) (line : List Char) :
    ∃ before after, line = before ++ after ∧
      offsetAtColumn.go col width i line = i + byteLen before ∧
      (∀ p, p <+: before → p ≠ before → width + charWidths p < col) ∧
      (after = [] ∨ col ≤ width + charWidths before) := by
  induction line generalizing width i with
  | nil =>
    refine ⟨[], [], rfl, rfl, fun p hp hne => ?_, .inl rfl⟩
    exact absurd (prefix_nil.mp hp) hne
  | cons c line ih =>
    rw [offsetAtColumn.go]
    split
    · next hcol =>
        refine ⟨[], c :: line, rfl, rfl, fun p hp hne => ?_, .inr hcol⟩
        exact absurd (prefix_nil.mp hp) hne
    · next hcol =>
        obtain ⟨before, after, rfl, hgo, hshort, hstop⟩ := ih (width + charWidth c) (i + c.utf8Size)
        have hwidth (p : List Char) :
            width + charWidths (c :: p) = width + charWidth c + charWidths p := by
          rw [charWidths, map_cons, sum_cons, charWidths, Nat.add_assoc]
        refine ⟨c :: before, after, rfl, ?_, fun p hp hne => ?_, ?_⟩
        · rw [hgo, byteLen_cons, Nat.add_assoc]
        · cases p with
          | nil => exact Nat.not_le.mp hcol
          | cons d p =>
            obtain ⟨rfl, htail⟩ := cons_prefix_cons.mp hp
            rw [hwidth]
            exact hshort p htail fun heq => hne (congrArg _ heq)
        · rw [hwidth]
          exact hstop

theorem offsetAtColumn_stops (line : List Char) (col : Nat) :
    ∃ before after, line = before ++ after ∧ byteLen before = offsetAtColumn line col ∧
      (∀ p, p <+: before → p ≠ before → charWidths p < col) ∧
      (after = [] ∨ col ≤ charWidths before) := by
  obtain ⟨before, after, hline, hgo, hshort, hstop⟩ := offsetAtColumn_go col 0 0 line
  rw [Nat.zero_add] at hgo hstop
  exact ⟨before, after, hline, hgo.symm, fun p hp hne => Nat.zero_add (charWidths p) ▸ hshort p hp hne,
    hstop⟩

theorem byteOffsetForDisplayPos_go (target display byte : Nat) (text : List Char)
    (hdisplay : display ≤ target) :
    ∃ before after, text = before ++ after ∧
      byteOffsetForDisplayPos.go target display byte text = byte + byteLen before ∧
      display + charWidths before ≤ target ∧
      ∀ p, p <+: text → display + charWidths p ≤ target → charWidths p ≤ charWidths before := by
  have hwidth (c : Char) (p : List Char) : charWidths (c :: p) = charWidth c + charWidths p := by
    rw [charWidths, map_cons, sum_cons, charWidths]
  induction text generalizing display byte with
  | nil =>
    refine ⟨[], [], rfl, rfl, hdisplay, fun p hp _ => ?_⟩
    rw [prefix_nil.mp hp]
  | cons c text ih =>
    rw [byteOffsetForDisplayPos.go]
    split
    · next hlt =>
        refine ⟨[], c :: text, rfl, rfl, hdisplay, fun p hp hle => ?_⟩
        cases p with
        | nil => exact Nat.le_refl _
        | cons d p =>
          obtain ⟨rfl, -⟩ := cons_prefix_cons.mp hp
          rw [hwidth] at hle
          omega
    · next hle =>
        split
        · next heq =>
            refine ⟨[c], text, rfl, ?_, ?_, fun p hp hfits => ?_⟩
            · rw [byteLen_cons]
              rfl
            · rw [charWidths_singleton]
              exact Nat.le_of_eq heq.symm
            · rw [charWidths_singleton]
              omega
        · next hne =>
            obtain ⟨before, after, rfl, hgo, hfits, hmost⟩ :=
              ih (display + charWidth c) (byte + c.utf8Size) (Nat.not_lt.mp hle)
            refine ⟨c :: before, after, rfl, ?_, ?_, fun p hp hp_fits => ?_⟩
            · rw [hgo, byteLen_cons, Nat.add_assoc]
            · rw [hwidth, ← Nat.add_assoc]
              exact hfits
            · cases p with
              | nil => exact Nat.zero_le _
              | cons d p =>
                obtain ⟨rfl, htail⟩ := cons_prefix_cons.mp hp
                rw [hwidth, ← Nat.add_assoc] at hp_fits
                rw [hwidth, hwidth]
                exact Nat.add_le_add_left (hmost p htail hp_fits) _

/-- An offset whose characters come as close to the column as any. -/
theorem byteOffsetForDisplayPos_stops (text : List Char) (target : Nat) :
    ∃ before after, text = before ++ after ∧
      byteLen before = byteOffsetForDisplayPos text target ∧ charWidths before ≤ target ∧
      ∀ p, p <+: text → charWidths p ≤ target → charWidths p ≤ charWidths before := by
  rw [byteOffsetForDisplayPos]
  split
  · next hzero =>
      refine ⟨[], text, rfl, rfl, Nat.zero_le _, fun p _ hle => ?_⟩
      rw [hzero] at hle
      exact hle
  · obtain ⟨before, after, htext, hgo, hfits, hmost⟩ :=
      byteOffsetForDisplayPos_go target 0 0 text (Nat.zero_le target)
    rw [Nat.zero_add] at hgo hfits
    exact ⟨before, after, htext, hgo.symm, hfits, fun p hp hle => hmost p hp (by omega)⟩

/-! ## Offsets that keep the column -/

/-- The text in front of the offset is as narrow as any that reaches the column, or as the
line where none does. -/
def ReachesColumn (line : List Char) (col offset : Nat) : Prop :=
  ∃ before after, line = before ++ after ∧ byteLen before = offset ∧
    min col (strWidth line) ≤ strWidth before ∧
    ∀ p, p <+: line → min col (strWidth line) ≤ strWidth p → strWidth before ≤ strWidth p

/-- The text in front of the offset is as wide as any that fits in front of the column. -/
def FitsColumn (line : List Char) (col offset : Nat) : Prop :=
  ∃ before after, line = before ++ after ∧ byteLen before = offset ∧ strWidth before ≤ col ∧
    ∀ p, p <+: line → strWidth p ≤ col → strWidth p ≤ strWidth before

/-- The texts in front of an offset are the same. -/
theorem before_unique {before after before' after'}
    (h : before ++ after = before' ++ after') (hlen : byteLen before = byteLen before') :
    before = before' := by
  have hsplit := splitBytes_append before after
  rw [h, hlen, splitBytes_append] at hsplit
  exact (Prod.mk.inj hsplit).1.symm

theorem reachesColumn_iff (line : List Char) (col : Nat) :
    ReachesColumn line col (offsetAtColumn line col) ↔
      ∀ p, p <+: line → col ≤ charWidths p → min col (strWidth line) ≤ strWidth p := by
  obtain ⟨before, after, hline, hlen, hshort, hstop⟩ := offsetAtColumn_stops line col
  have hbefore : before <+: line := ⟨after, hline.symm⟩
  -- any other prefix is longer, or too short for the column
  have hcases (p : List Char) (hp : p <+: line) : before <+: p ∨ charWidths p < col := by
    rcases prefix_or_prefix_of_prefix hbefore hp with h | h
    · exact .inl h
    · by_cases heq : p = before
      · exact .inl (heq ▸ prefix_rfl)
      · exact .inr (hshort p h heq)
  constructor
  · rintro ⟨before', after', hline', hlen', hreaches, -⟩ p hp hcol
    rw [← before_unique (hline ▸ hline') (hlen.trans hlen'.symm)] at hreaches
    rcases hcases p hp with h | h
    · exact Nat.le_trans hreaches (strWidth_mono h).1
    · omega
  · intro h
    refine ⟨before, after, hline, hlen, ?_, fun p hp hreaches => ?_⟩
    · rcases hstop with rfl | hcol
      · rw [append_nil] at hline
        rw [hline]
        exact Nat.min_le_right _ _
      · exact h before hbefore hcol
    · rcases hcases p hp with hle | hlt
      · exact (strWidth_mono hle).1
      · have hp_width := strWidth_le_charWidths p
        have hbefore_width := (strWidth_mono hbefore).1
        omega

theorem fitsColumn_iff (line : List Char) (col : Nat) :
    FitsColumn line col (byteOffsetForDisplayPos line col) ↔
      ∀ p, p <+: line → strWidth p ≤ col →
        ∃ q, q <+: line ∧ charWidths q ≤ col ∧ strWidth p ≤ strWidth q := by
  obtain ⟨before, after, hline, hlen, hfits, hmost⟩ := byteOffsetForDisplayPos_stops line col
  have hbefore : before <+: line := ⟨after, hline.symm⟩
  constructor
  · rintro ⟨before', after', hline', hlen', -, hwidest⟩ p hp hcol
    rw [← before_unique (hline ▸ hline') (hlen.trans hlen'.symm)] at hwidest
    exact ⟨before, hbefore, hfits, hwidest p hp hcol⟩
  · intro h
    refine ⟨before, after, hline, hlen, Nat.le_trans (strWidth_le_charWidths before) hfits,
      fun p hp hcol => ?_⟩
    obtain ⟨q, hq, hq_fits, hle⟩ := h p hp hcol
    refine Nat.le_trans hle ?_
    have hq_most := hmost q hq hq_fits
    rcases prefix_or_prefix_of_prefix hq hbefore with hshorter | hlonger
    · exact (strWidth_mono hshorter).1
    · -- what `q` has behind `before` has no width
      have hexcess := (strWidth_mono hlonger).2
      omega

/-! ## Characters behind a joiner -/

/-- A character of some width stands behind a joiner, and a character that adds to the width
somewhere behind it. -/
def WidensBehindJoined (line : List Char) : Prop :=
  ∃ before c middle d after, line = before ++ c :: middle ++ d :: after ∧ EndsJoined before ∧
    0 < charWidth c ∧ ¬ EndsJoined (before ++ c :: middle) ∧ 0 < charWidth d

theorem strWidth_eq_of_joined {line before p c after}
    (hline : ¬ WidensBehindJoined line) (hp : p <+: line) (hsplit : p = before ++ c :: after)
    (hjoined : EndsJoined before) (hpos : 0 < charWidth c) : strWidth p = strWidth before := by
  obtain ⟨rest, rfl⟩ := hp
  have hconcat : strWidth (before ++ [c]) = strWidth before := (strWidth_concat before c).1 hjoined
  have happend : p = before ++ [c] ++ after := by rw [hsplit, append_assoc]; rfl
  have hle := (strWidth_mono ⟨after, happend.symm⟩).1
  refine Nat.le_antisymm (Nat.not_lt.mp fun hlt => ?_) (hconcat ▸ hle)
  rw [← hconcat, happend] at hlt
  obtain ⟨middle, d, tail, rfl, hends, hadds⟩ := widens_of_lt hlt
  refine hline ⟨before, c, middle, d, tail ++ rest, ?_, hjoined, hpos, ?_, hadds⟩
  · simp [hsplit]
  · simpa using hends

theorem reachesColumn_of_not_widens (h : ¬ WidensBehindJoined line) (col : Nat) :
    ReachesColumn line col (offsetAtColumn line col) := by
  refine (reachesColumn_iff line col).mpr fun p hp hcol => ?_
  by_cases hlt : strWidth p < charWidths p
  · obtain ⟨before, c, after, hsplit, hjoined, hpos, -⟩ := joined_of_lt hlt
    obtain ⟨rest, rfl⟩ := hp
    have hp_width := strWidth_eq_of_joined h (prefix_append p rest) hsplit hjoined hpos
    have hline : p ++ rest = before ++ c :: (after ++ rest) := by simp [hsplit]
    rw [strWidth_eq_of_joined h prefix_rfl hline hjoined hpos, hp_width]
    exact Nat.min_le_right _ _
  · exact Nat.le_trans (Nat.min_le_left _ _) (Nat.le_trans hcol (Nat.not_lt.mp hlt))

theorem fitsColumn_of_not_widens (h : ¬ WidensBehindJoined line) (col : Nat) :
    FitsColumn line col (byteOffsetForDisplayPos line col) := by
  refine (fitsColumn_iff line col).mpr fun p hp hcol => ?_
  by_cases hlt : strWidth p < charWidths p
  · obtain ⟨before, c, after, hsplit, hjoined, hpos, hexact⟩ := joined_of_lt hlt
    have hwidth := strWidth_eq_of_joined h hp hsplit hjoined hpos
    have hbefore : before <+: p := ⟨c :: after, hsplit.symm⟩
    refine ⟨before, hbefore.trans hp, ?_, Nat.le_of_eq hwidth⟩
    rw [← hexact, ← hwidth]
    exact hcol
  · exact ⟨p, hp, Nat.le_trans (Nat.not_lt.mp hlt) hcol, Nat.le_refl _⟩

theorem lt_of_joined {before middle c} (hjoined : EndsJoined before)
    (hpos : 0 < charWidth c) :
    strWidth (before ++ c :: middle) < charWidths (before ++ c :: middle) := by
  have hconcat : strWidth (before ++ [c]) = strWidth before := (strWidth_concat before c).1 hjoined
  have hbefore := strWidth_le_charWidths before
  have hprefix : before ++ [c] <+: before ++ c :: middle := ⟨middle, by simp⟩
  have hexcess := (strWidth_mono hprefix).2
  rw [charWidths_append before [c], charWidths_singleton] at hexcess
  omega

/-- **Where the inverses agree with `str_width`**: at a column, if the prefixes that the
characters take there are those of the text; at every column of a line, if and only if
nothing adds to the width behind a joined character. -/
theorem columns_iff (line : List Char) :
    (∀ col, ReachesColumn line col (offsetAtColumn line col) ↔
      ∀ p, p <+: line → col ≤ charWidths p → min col (strWidth line) ≤ strWidth p) ∧
    (∀ col, FitsColumn line col (byteOffsetForDisplayPos line col) ↔
      ∀ p, p <+: line → strWidth p ≤ col →
        ∃ q, q <+: line ∧ charWidths q ≤ col ∧ strWidth p ≤ strWidth q) ∧
    ((∀ col, ReachesColumn line col (offsetAtColumn line col)) ↔ ¬ WidensBehindJoined line) ∧
    ((∀ col, FitsColumn line col (byteOffsetForDisplayPos line col)) ↔
      ¬ WidensBehindJoined line) := by
  refine ⟨reachesColumn_iff line, fitsColumn_iff line, ⟨?_, reachesColumn_of_not_widens⟩,
    ⟨?_, fitsColumn_of_not_widens⟩⟩
  · rintro h ⟨before, c, middle, d, after, rfl, hjoined, hpos, hends, hadds⟩
    -- one column behind the joiner, where the joined character seems to stand
    have hc : before ++ [c] <+: before ++ c :: middle ++ d :: after := ⟨middle ++ d :: after, by simp⟩
    have hd : before ++ c :: middle ++ [d] <+: before ++ c :: middle ++ d :: after :=
      ⟨after, by simp⟩
    have hexcess := @lt_of_joined before [] c hjoined hpos
    have hconcat := (strWidth_concat before c).1 hjoined
    have hwide := (strWidth_concat (before ++ c :: middle) d).2 hends
    have hbefore := (strWidth_mono (prefix_append before (c :: middle))).1
    have hline := (strWidth_mono hd).1
    have hreaches := (reachesColumn_iff _ _).mp (h (strWidth before + 1)) _ hc (by omega)
    omega
  · rintro h ⟨before, c, middle, d, after, rfl, hjoined, hpos, hends, hadds⟩
    -- the column behind the character that adds
    have hd : before ++ c :: middle ++ [d] <+: before ++ c :: middle ++ d :: after :=
      ⟨after, by simp⟩
    have hexcess := @lt_of_joined before middle c hjoined hpos
    have hwide := (strWidth_concat (before ++ c :: middle) d).2 hends
    have hsum := charWidths_append (before ++ c :: middle) [d]
    rw [charWidths_singleton] at hsum
    obtain ⟨q, hq, hfits, hle⟩ :=
      (fitsColumn_iff _ _).mp (h (strWidth (before ++ c :: middle ++ [d]))) _ hd (Nat.le_refl _)
    have hlonger ( hprefix : before ++ c :: middle ++ [d] <+: q) : False := by
      have hq_sum := charWidths_mono hprefix
      omega
    rcases prefix_or_prefix_of_prefix hd hq with hprefix | hprefix
    · exact hlonger hprefix
    · rcases prefix_concat_iff.mp hprefix with rfl | hshorter
      · exact hlonger prefix_rfl
      · have hq_width := (strWidth_mono hshorter).1
        omega

/-- Two persons, joined, and a letter behind them. -/
def joinedPair : List Char := [Char.ofNat 0x1F468, ZERO_WIDTH_JOINER, Char.ofNat 0x1F469, 'x']

/-- The end of the line, at column 3, is not found. -/
theorem joined_column_is_lost :
    ¬ ReachesColumn joinedPair 3 (offsetAtColumn joinedPair 3) ∧
      ¬ FitsColumn joinedPair 3 (byteOffsetForDisplayPos joinedPair 3) := by
  constructor
  · intro h
    have hreaches := (reachesColumn_iff joinedPair 3).mp h (joinedPair.take 3)
      (List.take_prefix 3 joinedPair) (by decide)
    exact absurd hreaches (by decide)
  · rintro ⟨before, after, hline, hlen, -, hmost⟩
    have hbefore : joinedPair.take 2 = before := by
      refine @before_unique _ (joinedPair.drop 2) before after ?_ ?_
      · rw [take_append_drop, hline]
      · rw [hlen]
        decide
    rw [← hbefore] at hmost
    exact absurd (hmost joinedPair prefix_rfl (by decide)) (by decide)

end Ish.Editor
