import Ish.Editor.PromptLayout

/-!
# Selection — the selected entry is on the screen

The model of `layout_pager` and `layout_completion_grid` in `src/render.rs`, with the
movements in the grid of `CompletionState` and `compute_grid` in `src/complete.rs`, and of
`update_mode_layout_for_resize` in `src/editor.rs`.
-/

namespace Ish.Editor

/-! ## The pager -/

structure PagerInput where
  prefix_width : Nat
  query_width : Nat
  suffix_width : Nat
  query_cursor : Nat
  total_entries : Nat
  selected : Nat
  term_rows : Nat
  term_cols : Nat
  deriving DecidableEq

structure PagerLayout where
  region : RenderedRegion
  rows_up_from_end : Nat
  header_rows : Nat
  needs_forced_wrap : Bool
  max_results : Nat
  max_width : Nat
  scroll : Nat
  term_rows : Nat
  term_cols : Nat
  deriving DecidableEq

/-- The first entry of a window of `max_results` entries. -/
def pagerScroll (total_entries selected max_results : Nat) : Nat :=
  if total_entries ≤ max_results ∨ selected < max_results / 2 then 0
  else if total_entries ≤ selected + max_results / 2 then total_entries - max_results
  else selected - max_results / 2

/-- `layout_pager` -/
def layoutPager (input : PagerInput) : PagerLayout :=
  let cols := max input.term_cols 1
  let header_before_cursor := PagerInput.prefix_width input + input.query_cursor
  let header_full := PagerInput.prefix_width input + input.query_width + input.suffix_width
  let header_rows := (header_full - 1) / cols + 1
  let cursor_row := header_before_cursor / cols
  let cursor_col := header_before_cursor % cols
  let max_results := max (input.term_rows - header_rows) 1
  let displayed := min input.total_entries max_results
  let last_row := header_rows + (displayed - 1)
  { region := {
      anchored := false
      painted_rows := asU16 (header_rows + displayed)
      cursor_row := asU16 cursor_row
      cursor_col := asU16 cursor_col }
    rows_up_from_end := asU16 (last_row - cursor_row)
    header_rows := asU16 header_rows
    needs_forced_wrap := 0 < header_full && header_full % cols == 0
    max_results
    max_width := input.term_cols - 2
    scroll := pagerScroll input.total_entries input.selected max_results
    term_rows := input.term_rows
    term_cols := input.term_cols }

/-- How many entries the pager shows. -/
def PagerInput.displayed (input : PagerInput) : Nat :=
  min input.total_entries (layoutPager input).max_results

/-! ## The grid -/

/-- What the grid uses of a `CompletionEntry`. -/
structure GridEntry where
  name_display_width : Nat
  flags : UInt8
  deriving DecidableEq

def GridEntry.displayWidth (entry : GridEntry) : Nat :=
  entry.name_display_width + if entry.flags &&& 1 != 0 || entry.flags &&& 8 != 0 then 1 else 0

/-- `col_widths`, for entries that stand in columns of `rows` entries. -/
def colWidths (entries : List GridEntry) (cols rows : Nat) : List Nat :=
  entries.zipIdx.foldl (fun widths (entry, i) =>
    let col := i / rows
    if col < cols then widths.modify col (max · entry.displayWidth) else widths)
    (List.replicate 6 0)

/-- `n.div_ceil(cols)` -/
def divCeil (n cols : Nat) : Nat := (n + (cols - 1)) / cols

/-- Whether the entries fit in so many columns. -/
def fitsInCols (entries : List GridEntry) (term_cols cols : Nat) : Bool :=
  let rows := divCeil entries.length cols
  ((colWidths entries cols rows).take cols).sum + (cols - 1) * 2 ≤ term_cols

/-- `compute_grid`: the columns and rows. -/
def computeGrid (entries : List GridEntry) (term_cols : Nat) : Nat × Nat :=
  let n := entries.length
  if n = 0 then (0, 0)
  else
    match (List.range' 1 (min 6 n)).reverse.find? (fitsInCols entries term_cols) with
    | some cols => (cols, divCeil n cols)
    | none => (1, n)

/-- No entry is selected: `usize::MAX`. -/
def NONE_SELECTED : Nat := 2 ^ 64 - 1

/-- What `CompletionState` holds of its grid. -/
structure GridState where
  entries : List GridEntry
  selected : Nat
  cols : Nat
  rows : Nat
  scroll : Nat
  term_cols : Nat
  term_rows : Nat
  deriving DecidableEq

namespace GridState

variable (state : GridState)

/-- `move_up` -/
def moveUp : GridState :=
  if state.rows = 0 ∨ state.entries = [] then state
  else if state.entries.length ≤ state.selected then
    { state with selected := state.entries.length - 1 }
  else
    let row := state.selected % state.rows
    let col := state.selected / state.rows
    if row = 0 then
      let last_col := if 0 < col then col - 1 else (state.entries.length - 1) / state.rows
      let idx := last_col * state.rows + state.rows - 1
      { state with selected := min idx (state.entries.length - 1) }
    else { state with selected := state.selected - 1 }

/-- `move_down` -/
def moveDown : GridState :=
  if state.rows = 0 ∨ state.entries = [] then state
  else if state.entries.length ≤ state.selected then { state with selected := 0 }
  else
    let row := state.selected % state.rows
    let col := state.selected / state.rows
    if state.rows ≤ row + 1 ∨ state.entries.length ≤ state.selected + 1 then
      let idx := (col + 1) * state.rows
      { state with selected := if idx < state.entries.length then idx else 0 }
    else { state with selected := state.selected + 1 }

/-- `move_left` -/
def moveLeft : GridState :=
  if state.rows = 0 ∨ state.entries = [] then state
  else if state.entries.length ≤ state.selected then
    { state with selected := state.entries.length - 1 }
  else
    let col := state.selected / state.rows
    let row := state.selected % state.rows
    if col = 0 then
      let last_col := (state.entries.length - 1) / state.rows
      { state with selected := min (last_col * state.rows + row) (state.entries.length - 1) }
    else { state with selected := state.selected - state.rows }

/-- `move_right` -/
def moveRight : GridState :=
  if state.rows = 0 ∨ state.entries = [] then state
  else if state.entries.length ≤ state.selected then { state with selected := 0 }
  else
    let col := state.selected / state.rows
    let row := state.selected % state.rows
    let next := (col + 1) * state.rows + row
    { state with
      selected := if next < state.entries.length then next
        else min row (state.entries.length - 1) }

/-- `update_mode_layout_for_resize` -/
def resize (shell_cols shell_rows : Nat) : GridState :=
  let (cols, rows) := computeGrid state.entries shell_cols
  { state with
    cols
    rows
    term_cols := shell_cols
    term_rows := shell_rows
    selected := if state.selected = NONE_SELECTED then state.selected
      else min state.selected (state.entries.length - 1)
    scroll := min state.scroll (rows - 1) }

/-- `grid_visible_rows` -/
def visibleRows : Nat :=
  if state.entries = [] ∨ state.rows = 0 then 0
  else min state.rows (max (state.term_rows - 1) 1)

end GridState

structure CompletionGridLayout where
  visible_rows : Nat
  scroll_start : Nat
  col_widths : List Nat
  deriving DecidableEq

/-- `layout_completion_grid` -/
def layoutCompletionGrid (state : GridState) : CompletionGridLayout :=
  let visible_rows := state.visibleRows
  if visible_rows = 0 then ⟨0, 0, List.replicate 6 0⟩
  else
    let scroll_start :=
      if state.entries.length ≤ state.selected then min state.scroll (state.rows - visible_rows)
      else
        let selected_row := state.selected % state.rows
        if selected_row < state.scroll then selected_row
        else if state.scroll + visible_rows ≤ selected_row then selected_row + 1 - visible_rows
        else state.scroll
    ⟨visible_rows, scroll_start, colWidths state.entries state.cols state.rows⟩

/-! ## The window of the pager -/

/-- **The window** holds the selected entry, and no row of it is empty while entries are
left out. -/
theorem pagerScroll_spec {total_entries selected max_results}
    (hselected : selected < total_entries) (hresults : 0 < max_results) :
    let scroll := pagerScroll total_entries selected max_results
    scroll ≤ selected ∧ selected < scroll + max_results ∧
      scroll + min total_entries max_results ≤ total_entries := by
  intro scroll
  simp only [scroll, pagerScroll]
  split
  · omega
  split
  · omega
  · omega

theorem layoutPager_max_results (input : PagerInput) : 0 < (layoutPager input).max_results := by
  simp only [layoutPager]
  omega

/-! ## Moving in the grid -/

namespace GridState

/-- A state of a grid with entries: `selected` is one of them, or none. -/
structure Sound (state : GridState) : Prop where
  entries : state.entries ≠ []
  rows : 0 < state.rows
  selected : state.selected < state.entries.length ∨ state.selected = NONE_SELECTED

variable {state : GridState}

theorem Sound.length_pos (h : state.Sound) : 0 < state.entries.length :=
  List.length_pos_of_ne_nil h.entries

theorem Sound.select (h : state.Sound) {selected} (hlt : selected < state.entries.length) :
    Sound { state with selected } :=
  ⟨h.entries, h.rows, .inl hlt⟩

theorem Sound.moveUp (h : state.Sound) : state.moveUp.Sound := by
  have hlength := h.length_pos
  rw [GridState.moveUp]
  split
  · exact h
  split
  · exact h.select (by omega)
  dsimp only
  split
  · exact h.select (by omega)
  · exact h.select (by omega)

theorem Sound.moveDown (h : state.Sound) : state.moveDown.Sound := by
  have hlength := h.length_pos
  rw [GridState.moveDown]
  split
  · exact h
  split
  · exact h.select hlength
  dsimp only
  split
  · refine h.select ?_
    split
    · assumption
    · exact hlength
  · exact h.select (by omega)

theorem Sound.moveLeft (h : state.Sound) : state.moveLeft.Sound := by
  have hlength := h.length_pos
  rw [GridState.moveLeft]
  split
  · exact h
  split
  · exact h.select (by omega)
  dsimp only
  split
  · exact h.select (by omega)
  · exact h.select (by omega)

theorem Sound.moveRight (h : state.Sound) : state.moveRight.Sound := by
  have hlength := h.length_pos
  rw [GridState.moveRight]
  split
  · exact h
  split
  · exact h.select hlength
  refine h.select ?_
  split
  · assumption
  · omega

theorem computeGrid_rows {entries} (h : entries ≠ []) (term_cols : Nat) :
    0 < (computeGrid entries term_cols).2 := by
  have hlength := List.length_pos_of_ne_nil h
  rw [computeGrid, if_neg (Nat.ne_of_gt hlength)]
  split
  · next cols hfind =>
      have hmem := List.mem_of_find?_eq_some hfind
      rw [List.mem_reverse, List.mem_range'_1] at hmem
      exact Nat.div_pos (by omega) (by omega)
  · exact hlength

theorem Sound.resize (h : state.Sound) (shell_cols shell_rows : Nat) :
    (state.resize shell_cols shell_rows).Sound where
  entries := h.entries
  rows := computeGrid_rows h.entries shell_cols
  selected := by
    have hlength := h.length_pos
    simp only [GridState.resize]
    split
    · exact .inr ‹_›
    · exact .inl (by omega)

/-- What happens to an open grid. -/
inductive Event where
  | up
  | down
  | left
  | right
  | resized (cols rows : Nat)
  deriving DecidableEq

def step (state : GridState) : Event → GridState
  | .up => state.moveUp
  | .down => state.moveDown
  | .left => state.moveLeft
  | .right => state.moveRight
  | .resized cols rows => state.resize cols rows

/-- The grid of new completions. -/
def opened (entries : List GridEntry) (selected term_cols term_rows : Nat) : GridState :=
  { entries
    selected
    cols := (computeGrid entries term_cols).1
    rows := (computeGrid entries term_cols).2
    scroll := 0
    term_cols
    term_rows }

theorem Sound.step (h : state.Sound) (event : Event) : (state.step event).Sound := by
  cases event with
  | up => exact h.moveUp
  | down => exact h.moveDown
  | left => exact h.moveLeft
  | right => exact h.moveRight
  | resized cols rows => exact h.resize cols rows

theorem Sound.run (h : state.Sound) (events : List Event) :
    (events.foldl GridState.step state).Sound := by
  induction events generalizing state with
  | nil => exact h
  | cons event events ih => exact ih (h.step event)

/-- **The layout** shows the row of the selected entry. -/
theorem Sound.layout (h : state.Sound) (hselected : state.selected < state.entries.length) :
    let layout := layoutCompletionGrid state
    layout.scroll_start ≤ state.selected % state.rows ∧
      state.selected % state.rows < layout.scroll_start + layout.visible_rows := by
  have hvisible : 0 < state.visibleRows := by
    have hrows := h.rows
    rw [visibleRows, if_neg (by simp [h.entries]; omega)]
    omega
  intro layout
  simp only [layout, layoutCompletionGrid]
  rw [if_neg (Nat.ne_of_gt hvisible), if_neg (Nat.not_le.mpr hselected)]
  dsimp only
  split
  · omega
  split
  · omega
  · omega

end GridState

/-- **The selection is always visible**: in the pager, and in the grid whatever was done to
it since it was opened. -/
theorem selection_visible (input : PagerInput) (hinput : input.selected < input.total_entries)
    {entries : List GridEntry} (hentries : entries ≠ []) {selected : Nat}
    (hselected : selected < entries.length ∨ selected = NONE_SELECTED) (term_cols term_rows : Nat)
    (events : List GridState.Event) :
    ((layoutPager input).scroll ≤ input.selected ∧
      input.selected < (layoutPager input).scroll + (layoutPager input).max_results ∧
      (layoutPager input).scroll + input.displayed ≤ input.total_entries) ∧
    let state := events.foldl GridState.step (.opened entries selected term_cols term_rows)
    (state.selected < state.entries.length ∨ state.selected = NONE_SELECTED) ∧
      (state.selected < state.entries.length →
        (layoutCompletionGrid state).scroll_start ≤ state.selected % state.rows ∧
        state.selected % state.rows <
          (layoutCompletionGrid state).scroll_start + (layoutCompletionGrid state).visible_rows) := by
  have hopened : (GridState.opened entries selected term_cols term_rows).Sound :=
    ⟨hentries, GridState.computeGrid_rows hentries term_cols, hselected⟩
  have hsound := hopened.run events
  exact ⟨pagerScroll_spec hinput (layoutPager_max_results input), hsound.selected, hsound.layout⟩

/-- A terminal of one row, and a step to the first of two entries. -/
theorem selection_visible_one_row :
    ((layoutPager ⟨8, 0, 0, 0, 3, 2, 1, 80⟩).scroll ≤ 2 ∧
      2 < (layoutPager ⟨8, 0, 0, 0, 3, 2, 1, 80⟩).scroll +
        (layoutPager ⟨8, 0, 0, 0, 3, 2, 1, 80⟩).max_results ∧
      (layoutPager ⟨8, 0, 0, 0, 3, 2, 1, 80⟩).scroll +
        (⟨8, 0, 0, 0, 3, 2, 1, 80⟩ : PagerInput).displayed ≤ 3) ∧
    let state := [GridState.Event.down].foldl GridState.step
      (.opened [⟨1, 0⟩, ⟨2, 1⟩] NONE_SELECTED 80 1)
    (state.selected < state.entries.length ∨ state.selected = NONE_SELECTED) ∧
      (state.selected < state.entries.length →
        (layoutCompletionGrid state).scroll_start ≤ state.selected % state.rows ∧
        state.selected % state.rows <
          (layoutCompletionGrid state).scroll_start + (layoutCompletionGrid state).visible_rows) :=
  selection_visible ⟨8, 0, 0, 0, 3, 2, 1, 80⟩ (by decide) (by decide) (.inr rfl) 80 1 [.down]

end Ish.Editor
