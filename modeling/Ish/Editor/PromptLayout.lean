import Ish.Editor.Columns
import Ish.Lib.Terminal

/-!
# PromptLayout — rows and columns of an edited line

The model of `layout_single_line_prompt` and `layout_multiline_prompt` in `src/render.rs`,
next to a terminal on which the prompt and the lines of the text are written.
-/

namespace Ish.Editor

open Ish.Lib Terminal List

/-! ## The layouts -/

/-- `RenderedRegion`, as the layouts fill it in. -/
structure RenderedRegion where
  anchored : Bool
  painted_rows : Nat
  cursor_row : Nat
  cursor_col : Nat
  deriving DecidableEq

structure PromptLayout where
  region : RenderedRegion
  rows_up_from_end : Nat
  needs_forced_wrap : Bool
  deriving DecidableEq

/-- `n as u16` -/
def asU16 (n : Nat) : Nat := n % 2 ^ 16

/-- `layout_single_line_prompt` -/
def layoutSingleLinePrompt (prompt_display_len : Nat) (line : LineBuffer)
    (suggestion_display_len cols : Nat) : PromptLayout :=
  let total_before_cursor := prompt_display_len + line.displayCursorPos
  let total_full := prompt_display_len + line.displayLen + suggestion_display_len
  let cursor_row := total_before_cursor / cols
  let cursor_col := total_before_cursor % cols
  let total_rows := total_full / cols
  { region := {
      anchored := false
      painted_rows := asU16 (total_rows + 1)
      cursor_row := asU16 cursor_row
      cursor_col := asU16 cursor_col }
    rows_up_from_end := asU16 (total_rows - cursor_row)
    needs_forced_wrap := 0 < total_full && total_full % cols == 0 }

/-- `text.split('\n')` -/
def segments : List Char → List (List Char)
  | [] => [[]]
  | c :: text => if c = '\n' then [] :: segments text else (segments text).modifyHead (c :: ·)

/-- The width of what stands in front of a line of the text. -/
def prefixWidth (prompt_display_len i : Nat) : Nat := if i = 0 then prompt_display_len else 2

/-- What the loop over the lines has counted. -/
structure LayoutScan where
  row : Nat := 0
  cursor_row : Nat := 0
  cursor_col : Nat := 0
  line_idx : Nat := 0
  last_seg_width : Nat := 0

/-- The cursor is placed if it is in the line `i`, or at its end. -/
def LayoutScan.placeCursor (prompt_display_len cols cursor_byte i : Nat) (segment : List Char)
    (scan : LayoutScan) : LayoutScan :=
  let seg_start := scan.line_idx
  let seg_end := seg_start + byteLen segment
  if seg_start ≤ cursor_byte ∧ cursor_byte ≤ seg_end then
    let display_before := strWidth (splitBytes segment (cursor_byte - seg_start)).1
    let total := prefixWidth prompt_display_len i + display_before
    { scan with cursor_row := scan.row + total / cols, cursor_col := total % cols }
  else scan

/-- The loop of `layout_multiline_prompt`, from the line `i` on. -/
def scanSegments (prompt_display_len cols cursor_byte : Nat) :
    Nat → List (List Char) → LayoutScan → LayoutScan
  | _, [], scan => scan
  | i, segment :: rest, scan =>
    let placed := scan.placeCursor prompt_display_len cols cursor_byte i segment
    let seg_width := prefixWidth prompt_display_len i + strWidth segment
    let row := if 0 < seg_width then scan.row + (seg_width - 1) / cols else scan.row
    scanSegments prompt_display_len cols cursor_byte (i + 1) rest
      { placed with
        row := if rest = [] then row else row + 1
        last_seg_width := seg_width
        line_idx := scan.line_idx + byteLen segment + 1 }

/-- `layout_multiline_prompt` -/
def layoutMultilinePrompt (prompt_display_len : Nat) (line : LineBuffer) (cols : Nat) :
    PromptLayout :=
  let scan := scanSegments prompt_display_len cols line.cursor 0 (segments line.buf) {}
  let needs_forced_wrap := 0 < scan.last_seg_width && scan.last_seg_width % cols == 0
  let row := if needs_forced_wrap then scan.row + 1 else scan.row
  { region := {
      anchored := false
      painted_rows := asU16 (row + 1)
      cursor_row := asU16 scan.cursor_row
      cursor_col := asU16 scan.cursor_col }
    rows_up_from_end := asU16 (row - scan.cursor_row)
    needs_forced_wrap }

/-! ## The terminal -/

/-- Where a cursor stands behind `before` cells of a line of `width` cells that starts at a
row: on the next cell of the line; at the end of a line that others follow, it waits in the
row of that line. -/
def cursorCell (cols row width before : Nat) (last : Bool) : Pos :=
  if before = width ∧ last = false then
    let pos := write cols row before
    ⟨pos.row, min pos.col (cols - 1)⟩
  else settle cols (write cols row before)

/-- The rows that lines take, the last of which is wrapped if its row is full. -/
def paintedRows (cols : Nat) (widths : List Nat) : Nat :=
  (settle cols (write cols (rowBehind cols widths.dropLast 0) (widths.getLast?.getD 0))).row + 1

/-- The layout is what a terminal shows of lines, with the cursor behind `before` cells of the
line `k`. -/
structure Matches (layout : PromptLayout) (cols : Nat) (widths : List Nat) (k before : Nat) :
    Prop where
  cursor : (⟨layout.region.cursor_row, layout.region.cursor_col⟩ : Pos) =
    cursorCell cols (rowBehind cols (widths.take k) 0) (widths[k]?.getD 0) before
      (k + 1 == widths.length)
  painted_rows : layout.region.painted_rows = paintedRows cols widths
  own_row : rowBehind cols (widths.take k) 0 ≤ layout.region.cursor_row ∧
    (k + 1 < widths.length → layout.region.cursor_row < rowBehind cols (widths.take (k + 1)) 0)
  cursor_painted : layout.region.cursor_row < layout.region.painted_rows
  rows_up : layout.rows_up_from_end = layout.region.painted_rows - 1 - layout.region.cursor_row
  forced_wrap : layout.needs_forced_wrap = true ↔
    (write cols (rowBehind cols widths.dropLast 0) (widths.getLast?.getD 0)).col = cols

/-- The widths of the lines of a text, with what stands in front of them. -/
def segmentWidths (prompt_display_len : Nat) : Nat → List (List Char) → List Nat
  | _, [] => []
  | i, segment :: rest =>
    (prefixWidth prompt_display_len i + strWidth segment) ::
      segmentWidths prompt_display_len (i + 1) rest

namespace LineBuffer

variable (prompt_display_len : Nat) (line : LineBuffer)

def lineWidths : List Nat := segmentWidths prompt_display_len 0 (segments line.buf)

/-- The number of the line that the cursor is in. -/
def cursorLine : Nat := (segments line.before).length - 1

/-- The cells in front of the cursor in its line. -/
def cursorWidth : Nat :=
  prefixWidth prompt_display_len line.cursorLine +
    strWidth ((segments line.before).getLast?.getD [])

end LineBuffer

/-- A cursor is shown in a row of the line behind its own: it stands behind the last cell of a
line that fills its rows and is not the last one. -/
def OnNextLine (cols : Nat) (widths : List Nat) (k before : Nat) : Prop :=
  k + 1 < widths.length ∧ before = widths[k]?.getD 0 ∧ 0 < before ∧ before % cols = 0

/-! ## Lines of a text -/

/-- The bytes of lines, with their newlines. -/
def linesLen (lines : List (List Char)) : Nat := (lines.map (byteLen · + 1)).sum

theorem linesLen_cons (line : List Char) (lines : List (List Char)) :
    linesLen (line :: lines) = byteLen line + 1 + linesLen lines := by
  rw [linesLen, map_cons, sum_cons]
  rfl

/-- A cursor cuts one line of the text in two. -/
theorem segments_split (before : List Char) :
    ∃ front p, segments before = front ++ [p] ∧ byteLen before = linesLen front + byteLen p ∧
      ∀ after q back, segments after = q :: back →
        segments (before ++ after) = front ++ (p ++ q) :: back := by
  induction before with
  | nil => exact ⟨[], [], rfl, rfl, fun after q back h => h⟩
  | cons c before ih =>
    obtain ⟨front, p, hsegments, hlen, hsplit⟩ := ih
    by_cases hc : c = '\n'
    · refine ⟨[] :: front, p, ?_, ?_, fun after q back h => ?_⟩
      · rw [segments, if_pos hc, hsegments]
        rfl
      · rw [byteLen_cons, hlen, hc, linesLen_cons, Nat.add_assoc]
        rfl
      · rw [cons_append, segments, if_pos hc, hsplit after q back h]
        rfl
    · cases front with
      | nil =>
        refine ⟨[], c :: p, ?_, ?_, fun after q back h => ?_⟩
        · rw [segments, if_neg hc, hsegments]
          rfl
        · rw [byteLen_cons, byteLen_cons, hlen, linesLen, map_nil, sum_nil]
          omega
        · rw [cons_append, segments, if_neg hc, hsplit after q back h]
          rfl
      | cons line front =>
        refine ⟨(c :: line) :: front, p, ?_, ?_, fun after q back h => ?_⟩
        · rw [segments, if_neg hc, hsegments]
          rfl
        · rw [byteLen_cons, hlen, linesLen_cons, linesLen_cons, byteLen_cons]
          omega
        · rw [cons_append, segments, if_neg hc, hsplit after q back h]
          rfl

theorem segments_cons (text : List Char) : ∃ q back, segments text = q :: back := by
  obtain ⟨front, p, hsegments, -⟩ := segments_split text
  cases front with
  | nil => exact ⟨p, [], hsegments⟩
  | cons line front => exact ⟨line, front ++ [p], hsegments⟩

section

variable {prompt_display_len : Nat}

theorem length_segmentWidths (i : Nat) (lines : List (List Char)) :
    (segmentWidths prompt_display_len i lines).length = lines.length := by
  induction lines generalizing i with
  | nil => rfl
  | cons line lines ih => rw [segmentWidths, length_cons, ih, length_cons]

theorem segmentWidths_append (i : Nat) (lines more : List (List Char)) :
    segmentWidths prompt_display_len i (lines ++ more) =
      segmentWidths prompt_display_len i lines ++
        segmentWidths prompt_display_len (i + lines.length) more := by
  induction lines generalizing i with
  | nil => rfl
  | cons line lines ih =>
    rw [cons_append, segmentWidths, ih, segmentWidths, length_cons, cons_append,
      Nat.add_assoc, Nat.add_comm 1]

end

/-! ## What the loop counts -/

section

variable {prompt_display_len cols cursor_byte : Nat} (hcols : 0 < cols)

include hcols

/-- The row behind a line, as the loop adds it up. -/
theorem scanned_row (row width : Nat) :
    (if 0 < width then row + (width - 1) / cols else row) = (write cols row width).row := by
  rw [row_write hcols]
  split
  · rfl
  · next h =>
      rw [Nat.eq_zero_of_not_pos h, Nat.zero_sub, Nat.zero_div]
      rfl

omit hcols in
theorem placeCursor_outside (i : Nat) (segment : List Char) {scan : LayoutScan}
    (h : cursor_byte < scan.line_idx ∨ scan.line_idx + byteLen segment < cursor_byte) :
    scan.placeCursor prompt_display_len cols cursor_byte i segment = scan :=
  if_neg (by omega)

omit hcols in
theorem placeCursor_inside (i : Nat) (p q : List Char) {scan : LayoutScan}
    (h : cursor_byte = scan.line_idx + byteLen p) :
    scan.placeCursor prompt_display_len cols cursor_byte i (p ++ q) =
      { scan with
        cursor_row := scan.row + (prefixWidth prompt_display_len i + strWidth p) / cols
        cursor_col := (prefixWidth prompt_display_len i + strWidth p) % cols } := by
  have hlen := byteLen_append p q
  rw [LayoutScan.placeCursor, if_pos (by omega), h, Nat.add_sub_cancel_left, splitBytes_append]

theorem scanSegments_rows (i : Nat) {lines} (hlines : lines ≠ [])
    (scan : LayoutScan) :
    let widths := segmentWidths prompt_display_len i lines
    let after := scanSegments prompt_display_len cols cursor_byte i lines scan
    after.row = (write cols (rowBehind cols widths.dropLast scan.row) (widths.getLast?.getD 0)).row ∧
      after.last_seg_width = widths.getLast?.getD 0 := by
  induction lines generalizing i scan with
  | nil => exact absurd rfl hlines
  | cons line rest ih =>
    dsimp only
    rw [scanSegments, segmentWidths]
    cases rest with
    | nil =>
      exact ⟨scanned_row hcols _ _, rfl⟩
    | cons next rest =>
      obtain ⟨hrow, hwidth⟩ := ih (i + 1) (cons_ne_nil next rest) _
      rw [hrow, hwidth, segmentWidths]
      dsimp only
      rw [dropLast_cons_cons, getLast?_cons_cons, rowBehind, scanned_row hcols,
        if_neg (cons_ne_nil next rest)]
      exact ⟨rfl, rfl⟩

omit hcols in
theorem scanSegments_behind (i : Nat) (lines : List (List Char)) {scan : LayoutScan}
    (hcursor : cursor_byte < scan.line_idx) :
    let after := scanSegments prompt_display_len cols cursor_byte i lines scan
    after.cursor_row = scan.cursor_row ∧ after.cursor_col = scan.cursor_col := by
  induction lines generalizing i scan with
  | nil => exact ⟨rfl, rfl⟩
  | cons line rest ih =>
    dsimp only
    rw [scanSegments, placeCursor_outside i line (.inl hcursor)]
    exact ih (i + 1) (by dsimp only; omega)

theorem scanSegments_cursor (i : Nat) (front : List (List Char)) (p q : List Char)
    (back : List (List Char)) {scan : LayoutScan}
    (hcursor : cursor_byte = scan.line_idx + linesLen front + byteLen p) :
    let before := prefixWidth prompt_display_len (i + front.length) + strWidth p
    let after := scanSegments prompt_display_len cols cursor_byte i (front ++ (p ++ q) :: back) scan
    after.cursor_row = rowBehind cols (segmentWidths prompt_display_len i front) scan.row +
        before / cols ∧ after.cursor_col = before % cols := by
  induction front generalizing i scan with
  | nil =>
    replace hcursor : cursor_byte = scan.line_idx + byteLen p := hcursor
    have hlen := byteLen_append p q
    dsimp only
    rw [nil_append, scanSegments, placeCursor_inside i p q hcursor]
    exact scanSegments_behind (i + 1) back (by dsimp only; omega)
  | cons line front ih =>
    rw [linesLen_cons] at hcursor
    have hne : front ++ (p ++ q) :: back ≠ [] := by simp
    dsimp only
    rw [cons_append, scanSegments, placeCursor_outside i line (.inr (by omega)), if_neg hne]
    have htail := @ih (i + 1) { scan with
      row := (if 0 < prefixWidth prompt_display_len i + strWidth line then
        scan.row + (prefixWidth prompt_display_len i + strWidth line - 1) / cols
        else scan.row) + 1
      last_seg_width := prefixWidth prompt_display_len i + strWidth line
      line_idx := scan.line_idx + byteLen line + 1 } (by dsimp only; omega)
    rw [scanned_row hcols] at htail
    rw [scanned_row hcols, segmentWidths, rowBehind, length_cons, Nat.add_comm front.length,
      ← Nat.add_assoc]
    exact htail

end

/-! ## When the layout is right -/

theorem asU16_eq (h : n < 2 ^ 16) : asU16 n = n := Nat.mod_eq_of_lt h

section

variable {cols : Nat} (hcols : 0 < cols)

include hcols

theorem forced_row (row width : Nat) :
    (if (0 < width && width % cols == 0) = true then (write cols row width).row + 1
      else (write cols row width).row) = (settle cols (write cols row width)).row := by
  have hfull : (0 < width && width % cols == 0) = true ↔ (write cols row width).col = cols := by
    rw [col_write_eq_iff hcols]
    simp
  rw [settle]
  split
  · next h =>
      rw [if_pos (hfull.mp h)]
  · next h =>
      rw [if_neg fun heq => h (hfull.mpr heq)]

theorem cursor_row_le {front width before} (hbefore : before ≤ width)
    (back : List Nat) :
    rowBehind cols front 0 + before / cols + 1 ≤ paintedRows cols (front ++ width :: back) := by
  have hdiv : before / cols ≤ width / cols := Nat.div_le_div_right hbefore
  rw [paintedRows, settle_write hcols]
  rcases eq_nil_or_concat back with rfl | ⟨back, last, rfl⟩
  · rw [dropLast_concat, getLast?_concat]
    dsimp only [Option.getD_some]
    omega
  · have hstep : width / cols ≤ (width - 1) / cols + 1 := by
      have hsettle := settle_write hcols 0 width
      have hrow := row_write hcols 0 width
      rw [settle] at hsettle
      split at hsettle
      · have h := congrArg Pos.row hsettle
        dsimp only at h
        omega
      · have h := congrArg Pos.row hsettle
        dsimp only at h
        omega
    have happend : front ++ width :: (back.concat last) = (front ++ width :: back) ++ [last] := by
      simp
    have hle := le_rowBehind hcols back (rowBehind cols front 0 + (width - 1) / cols + 1)
    rw [happend, dropLast_concat, getLast?_concat, rowBehind_append, rowBehind_cons hcols]
    dsimp only [Option.getD_some]
    generalize last / cols = behind
    omega

/-- **A layout** is what the terminal shows, if the rows fit in a `u16` and the cursor is not
shown on the line behind its own. -/
theorem matches_iff (hu16 : cols < 2 ^ 16) {layout front back}
    {width before row} (hbefore : before ≤ width)
    (hrow : row + 1 = paintedRows cols (front ++ width :: back))
    (hpainted : layout.region.painted_rows = asU16 (row + 1))
    (hcursor_row : layout.region.cursor_row = asU16 (rowBehind cols front 0 + before / cols))
    (hcursor_col : layout.region.cursor_col = asU16 (before % cols))
    (hrows_up : layout.rows_up_from_end = asU16 (row - (rowBehind cols front 0 + before / cols)))
    (hforced : layout.needs_forced_wrap = true ↔
      (write cols (rowBehind cols (front ++ width :: back).dropLast 0)
        ((front ++ width :: back).getLast?.getD 0)).col = cols) :
    Matches layout cols (front ++ width :: back) front.length before ↔
      ¬ OnNextLine cols (front ++ width :: back) front.length before ∧
        paintedRows cols (front ++ width :: back) < 2 ^ 16 := by
  have hle := @cursor_row_le cols hcols front width before hbefore back
  have htake : (front ++ width :: back).take front.length = front := take_left
  have hwidth : (front ++ width :: back)[front.length]?.getD 0 = width := by simp
  have hlast : front.length + 1 < (front ++ width :: back).length ↔ back ≠ [] := by
    rw [length_append, length_cons]
    cases back with
    | nil => exact iff_of_false (Nat.lt_irrefl _) fun h => h rfl
    | cons next back => exact iff_of_true (by rw [length_cons]; omega) (cons_ne_nil _ _)
  have hsettle := settle_write hcols (rowBehind cols front 0) before
  have hfull := @col_write_eq_iff cols hcols (rowBehind cols front 0) before
  have hfits : row + 1 < 2 ^ 16 → layout.region.painted_rows = row + 1 ∧
      layout.region.cursor_row = rowBehind cols front 0 + before / cols := by
    intro hlt
    rw [hpainted, hcursor_row, asU16_eq hlt, asU16_eq (by omega)]
    exact ⟨rfl, rfl⟩
  constructor
  · intro h
    have hlt : row + 1 < 2 ^ 16 := by
      rw [hrow, ← h.painted_rows, hpainted]
      exact Nat.mod_lt _ (by decide)
    refine ⟨?_, hrow ▸ hlt⟩
    rintro ⟨hnext, heq, hpos, hzero⟩
    rw [hwidth] at heq
    have hcell := congrArg Pos.row h.cursor
    rw [htake, hwidth, cursorCell, if_pos ⟨heq, by simpa using Nat.ne_of_lt hnext⟩,
      (hfits hlt).2] at hcell
    rw [settle, if_pos (hfull.mpr ⟨hpos, hzero⟩)] at hsettle
    have hrow_settle := congrArg Pos.row hsettle
    dsimp only at hcell hrow_settle
    omega
  · rintro ⟨hnot, hlt⟩
    rw [← hrow] at hlt
    obtain ⟨hpainted_eq, hcursor_eq⟩ := hfits hlt
    -- at the end of a line that others follow, no row is full
    have hwaits (hnext : back ≠ []) (heq : before = width) :
        write cols (rowBehind cols front 0) before =
          ⟨rowBehind cols front 0 + before / cols, before % cols⟩ := by
      rw [settle, if_neg] at hsettle
      · exact hsettle
      · rw [hfull]
        exact fun h => hnot ⟨hlast.mpr hnext, heq.trans hwidth.symm, h⟩
    refine ⟨?_, hpainted_eq.trans hrow, ⟨?_, fun hnext => ?_⟩, ?_, ?_, hforced⟩
    · have hcol : layout.region.cursor_col = before % cols := by
        rw [hcursor_col, asU16_eq (Nat.lt_trans (Nat.mod_lt _ hcols) hu16)]
      rw [htake, hwidth, hcursor_eq, hcol, cursorCell]
      split
      · next h =>
          have hnext : front.length + 1 < (front ++ width :: back).length := by
            have hne := h.2
            rw [beq_eq_false_iff_ne, length_append, length_cons] at hne
            rw [length_append, length_cons]
            omega
          have hmod := Nat.mod_lt before hcols
          rw [hwaits (hlast.mp hnext) h.1]
          dsimp only
          rw [Nat.min_eq_left (by omega)]
      · exact hsettle.symm
    · rw [htake, hcursor_eq]
      exact Nat.le_add_right _ _
    · have htake_succ : (front ++ width :: back).take (front.length + 1) = front ++ [width] := by
        simp [take_append, take_of_length_le]
      rw [htake_succ, rowBehind_append, rowBehind_cons hcols, hcursor_eq, rowBehind]
      refine Nat.lt_succ_of_le (Nat.add_le_add_left ?_ _)
      by_cases heq : before = width
      · have hrow_write := row_write hcols (rowBehind cols front 0) before
        rw [hwaits (hlast.mp hnext) heq] at hrow_write
        dsimp only at hrow_write
        rw [← heq]
        omega
      · exact Nat.div_le_div_right (by omega)
    · rw [hpainted_eq, hcursor_eq]
      omega
    · rw [hrows_up, hpainted_eq, hcursor_eq, Nat.add_sub_cancel, asU16_eq (by omega)]

end

/-! ## Widths of ASCII text -/

theorem charWidth_ascii (h : c.toNat < 0x80) : charWidth c = 1 := by
  rw [charWidth]
  split
  · rfl
  · next hlt =>
      rw [if_pos]
      rw [isControl, Bool.or_eq_true, Bool.and_eq_true, decide_eq_true_iff, decide_eq_true_iff,
        decide_eq_true_iff]
      omega

theorem strWidth_ascii (h : Ascii.isAscii text = true) :
    strWidth text = byteLen text := by
  have hgo : strWidth.go false text = text.length := by
    induction text with
    | nil => rfl
    | cons c text ih =>
      rw [Ascii.isAscii, all_cons, Bool.and_eq_true, decide_eq_true_iff] at h
      have hjoiner : (c == ZERO_WIDTH_JOINER) = false := by
        rw [beq_eq_false_iff_ne]
        rintro rfl
        exact absurd h.1 (by decide)
      rw [strWidth.go, if_neg (by rintro ⟨⟩), charWidth_ascii h.1, hjoiner, ih h.2, length_cons,
        Nat.add_comm]
  rw [strWidth, hgo, byteLen, Ascii.encode_of_isAscii h, length_map]

namespace LineBuffer

variable {line : LineBuffer}

theorem before_eq {before after} (hbuf : line.buf = before ++ after)
    (hcursor : byteLen before = line.cursor) : line.before = before := by
  rw [LineBuffer.before, hbuf, ← hcursor, splitBytes_append]

theorem displayCursorPos_eq (h : line.AtBoundary) : line.displayCursorPos = strWidth line.before := by
  obtain ⟨before, after, hbuf, hcursor⟩ := h
  rw [displayCursorPos]
  split
  · next hascii =>
      rw [hbuf, Ascii.isAscii, all_append, Bool.and_eq_true] at hascii
      rw [before_eq hbuf hcursor, strWidth_ascii hascii.1, hcursor]
  · rfl

theorem displayLen_eq : line.displayLen = strWidth line.buf := by
  rw [displayLen]
  split
  · next hascii => rw [strWidth_ascii hascii]
  · rfl

end LineBuffer

/-! ## Both layouts -/

section

variable {cols : Nat} (hcols : 0 < cols) (hu16 : cols < 2 ^ 16) (prompt_display_len : Nat)
  {line : LineBuffer} (hline : line.AtBoundary)

include hcols hu16 hline

/-- What the loop counts of a line, and what the terminal shows of it. -/
theorem layoutMultilinePrompt_matches :
    Matches (layoutMultilinePrompt prompt_display_len line cols) cols
        (line.lineWidths prompt_display_len) line.cursorLine (line.cursorWidth prompt_display_len) ↔
      ¬ OnNextLine cols (line.lineWidths prompt_display_len) line.cursorLine
          (line.cursorWidth prompt_display_len) ∧
        paintedRows cols (line.lineWidths prompt_display_len) < 2 ^ 16 := by
  obtain ⟨before, after, hbuf, hcursor⟩ := hline
  obtain ⟨front, p, hbefore, hlen, hsplit⟩ := segments_split before
  obtain ⟨q, back, hafter⟩ := segments_cons after
  have hsegments := hsplit after q back hafter
  have hfront : (segmentWidths prompt_display_len 0 front).length = front.length :=
    length_segmentWidths 0 front
  have hline_before : segments line.before = front ++ [p] := by
    rw [LineBuffer.before_eq hbuf hcursor, hbefore]
  have hcursorLine : line.cursorLine = (segmentWidths prompt_display_len 0 front).length := by
    rw [LineBuffer.cursorLine, hline_before, hfront, length_append]
    rfl
  have hcursorWidth : line.cursorWidth prompt_display_len =
      prefixWidth prompt_display_len front.length + strWidth p := by
    rw [LineBuffer.cursorWidth, hcursorLine, hfront, hline_before, getLast?_concat]
    rfl
  have hwidths : line.lineWidths prompt_display_len =
      segmentWidths prompt_display_len 0 front ++
        (prefixWidth prompt_display_len front.length + strWidth (p ++ q)) ::
          segmentWidths prompt_display_len (front.length + 1) back := by
    rw [LineBuffer.lineWidths, hbuf, hsegments, segmentWidths_append, segmentWidths, Nat.zero_add]
  have hne : segments line.buf ≠ [] := by
    rw [hbuf, hsegments]
    simp
  obtain ⟨hrow, hlast⟩ := @scanSegments_rows prompt_display_len cols line.cursor hcols 0 _ hne {}
  have hplace := @scanSegments_cursor prompt_display_len cols line.cursor hcols 0 front p q back {}
    (by rw [← hcursor, hlen]; exact congrArg (· + _) (Nat.zero_add _).symm)
  rw [← hsegments, ← hbuf, Nat.zero_add] at hplace
  change _ = (write cols (rowBehind cols (line.lineWidths prompt_display_len).dropLast 0)
    ((line.lineWidths prompt_display_len).getLast?.getD 0)).row at hrow
  change _ = (line.lineWidths prompt_display_len).getLast?.getD 0 at hlast
  -- the rows, with the wrap that is forced
  have hforced := forced_row hcols (rowBehind cols (line.lineWidths prompt_display_len).dropLast 0)
    ((line.lineWidths prompt_display_len).getLast?.getD 0)
  have hfull := @col_write_eq_iff cols hcols
    (rowBehind cols (line.lineWidths prompt_display_len).dropLast 0)
    ((line.lineWidths prompt_display_len).getLast?.getD 0)
  rw [← hrow, ← hlast] at hforced
  have hwidth : prefixWidth prompt_display_len front.length + strWidth p ≤
      prefixWidth prompt_display_len front.length + strWidth (p ++ q) :=
    Nat.add_le_add_left (strWidth_mono (prefix_append p q)).1 _
  rw [hcursorLine, hcursorWidth, hwidths]
  refine matches_iff hcols hu16 hwidth ?_ (congrArg (asU16 <| · + 1) hforced)
    (congrArg asU16 hplace.1) (congrArg asU16 hplace.2)
    (congrArg asU16 (congrArg₂ (· - ·) hforced hplace.1)) ?_
  · rw [paintedRows, ← hwidths, hlast]
  · rw [← hwidths, hfull, ← hlast]
    simp [layoutMultilinePrompt]

theorem layoutSingleLinePrompt_matches (suggestion_display_len : Nat) :
    Matches (layoutSingleLinePrompt prompt_display_len line suggestion_display_len cols) cols
        [prompt_display_len + line.displayLen + suggestion_display_len] 0
        (prompt_display_len + line.displayCursorPos) ↔
      paintedRows cols [prompt_display_len + line.displayLen + suggestion_display_len] < 2 ^ 16 := by
  obtain ⟨before, after, hbuf, hcursor⟩ := id hline
  have hle : line.displayCursorPos ≤ line.displayLen := by
    rw [LineBuffer.displayCursorPos_eq hline, LineBuffer.displayLen_eq,
      LineBuffer.before_eq hbuf hcursor, hbuf]
    exact (strWidth_mono (prefix_append before after)).1
  generalize hwidth : prompt_display_len + line.displayLen + suggestion_display_len = width
  have hsettle := settle_write hcols 0 width
  have hfull := @col_write_eq_iff cols hcols 0 width
  have hrows : width / cols + 1 = paintedRows cols [width] := by
    rw [paintedRows]
    change _ = (settle cols (write cols 0 width)).row + 1
    rw [hsettle, Nat.zero_add]
  have hmatches := @matches_iff cols hcols hu16
    (layoutSingleLinePrompt prompt_display_len line suggestion_display_len cols) [] []
    width (prompt_display_len + line.displayCursorPos) (width / cols) (by omega) hrows
    (by rw [← hwidth]; rfl) (congrArg asU16 (Nat.zero_add _).symm) rfl
    (by rw [rowBehind, Nat.zero_add, ← hwidth]; rfl)
    (by change _ ↔ (write cols 0 width).col = cols
        rw [hfull, ← hwidth]
        simp [layoutSingleLinePrompt])
  have hnot : ¬ OnNextLine cols [width] 0 (prompt_display_len + line.displayCursorPos) :=
    fun h => absurd h.1 (Nat.lt_irrefl 1)
  refine hmatches.trans ⟨fun h => h.2, fun h => ⟨hnot, h⟩⟩

omit hu16 in
theorem layouts_agree (hnewline : '\n' ∉ line.buf) :
    layoutMultilinePrompt prompt_display_len line cols =
      layoutSingleLinePrompt prompt_display_len line 0 cols := by
  have hsingle {text : List Char} (h : '\n' ∉ text) : segments text = [text] := by
    induction text with
    | nil => rfl
    | cons c text ih =>
      rw [mem_cons, not_or] at h
      rw [segments, if_neg (Ne.symm h.1), ih h.2]
      rfl
  obtain ⟨before, after, hbuf, hcursor⟩ := id hline
  obtain ⟨hcursor_row, hcursor_col⟩ := @scanSegments_cursor prompt_display_len cols line.cursor
    hcols 0 [] before after [] {} (by rw [← hcursor]; exact (Nat.zero_add _).symm)
  obtain ⟨hrow, hlast⟩ := @scanSegments_rows prompt_display_len cols line.cursor hcols 0 [line.buf]
    (cons_ne_nil _ _) {}
  have hforced := forced_row hcols 0 (prompt_display_len + strWidth line.buf)
  rw [settle_write hcols, Nat.zero_add] at hforced
  rw [nil_append, ← hbuf] at hcursor_row hcursor_col
  replace hcursor_row : (scanSegments prompt_display_len cols line.cursor 0 [line.buf] {}).cursor_row =
      (prompt_display_len + strWidth before) / cols := hcursor_row.trans (Nat.zero_add _)
  replace hcursor_col : (scanSegments prompt_display_len cols line.cursor 0 [line.buf] {}).cursor_col =
      (prompt_display_len + strWidth before) % cols := hcursor_col
  replace hrow : (scanSegments prompt_display_len cols line.cursor 0 [line.buf] {}).row =
      (write cols 0 (prompt_display_len + strWidth line.buf)).row := hrow
  replace hlast : (scanSegments prompt_display_len cols line.cursor 0 [line.buf] {}).last_seg_width =
      prompt_display_len + strWidth line.buf := hlast
  rw [layoutMultilinePrompt, layoutSingleLinePrompt, hsingle hnewline, hcursor_row, hcursor_col, hrow,
    hlast, LineBuffer.displayCursorPos_eq hline, LineBuffer.displayLen_eq,
    LineBuffer.before_eq hbuf hcursor, hforced]
  rfl

end

/-- A line that fills a row of four cells, the cursor at its end, and another line. -/
def fullLine : LineBuffer := { buf := ['a', 'b', '\n', 'c'], cursor := 2, kill_ring := [] }

theorem fullLine_atBoundary : fullLine.AtBoundary := ⟨['a', 'b'], ['\n', 'c'], rfl, rfl⟩

end Ish.Editor
