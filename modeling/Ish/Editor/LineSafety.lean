import Ish.Editor.Columns
import Ish.Epsh.Units

/-!
# LineSafety — the operations of a line, with their checks

The public operations of `LineBuffer` in `src/line.rs`, where `none` is a panic: a cut
inside a character, or a byte behind the end. The sums of a grid motion wrap. None of the
operations panics on a line that was built by them.
-/

namespace Ish.Editor

open Ish.Lib List Option

/-! ## Cuts that are checked -/

theorem some_bind {α β : Type} (a : α) (f : α → Option β) : (some a >>= f) = f a := rfl

/-- `text[..offset]` and `text[offset..]` -/
def cut (text : List Char) (offset : Nat) : Option (List Char × List Char) :=
  if isCharBoundary text offset then some (splitBytes text offset) else none

/-- `text.as_bytes()[i]` -/
def byteAt (text : List Char) (i : Nat) : Option UInt8 := (Utf8.encode text)[i]?

/-- `text[start..stop]` -/
def slice (text : List Char) (start stop : Nat) : Option (List Char) := do
  let (front, _) ← cut text stop
  let (_, piece) ← cut front start
  return piece

/-- `text.find('\n')` -/
def findNewline : List Char → Option Nat
  | [] => none
  | c :: text => if c = '\n' then some 0 else (findNewline text).map (c.utf8Size + ·)

/-- `text.rfind('\n')` -/
def rfindNewline : List Char → Option Nat
  | [] => none
  | c :: text =>
    ((rfindNewline text).map (c.utf8Size + ·)).or (if c = '\n' then some 0 else none)

/-- A sum of `usize`. -/
def usize (n : Nat) : Nat := n % 2 ^ 64

namespace Checked

variable (line : LineBuffer)

/-! ## Boundaries -/

def prevCharBoundary : Option Nat :=
  if line.cursor = 0 then some 0
  else do
    let byte ← byteAt line.buf (line.cursor - 1)
    return if byte < 0x80 then line.cursor - 1 else line.boundaryBack (line.cursor - 1)

def nextCharBoundary : Option Nat :=
  let next := line.cursor + 1
  if byteLen line.buf ≤ next then some (byteLen line.buf)
  else do
    let byte ← byteAt line.buf line.cursor
    return if byte < 0x80 then next
      else min (line.boundaryOn (byteLen line.buf) next) (byteLen line.buf)

def charBeforeCursor : Option (Option Char) :=
  if line.cursor = 0 then some none
  else do
    let byte ← byteAt line.buf (line.cursor - 1)
    if byte < 0x80 then return some (Char.ofNat byte.toNat)
    else return (← cut line.buf line.cursor).1.getLast?

def charAtCursor : Option (Option Char) :=
  if byteLen line.buf ≤ line.cursor then some none
  else do
    let byte ← byteAt line.buf line.cursor
    if byte < 0x80 then return some (Char.ofNat byte.toNat)
    else return (← cut line.buf line.cursor).2.head?

/-! ## Edits -/

def insertStr (s : List Char) : Option LineBuffer := do
  let (before, after) ← cut line.buf line.cursor
  return { line with buf := before ++ s ++ after, cursor := line.cursor + byteLen s }

def drain (start stop : Nat) : Option LineBuffer := do
  let (front, back) ← cut line.buf stop
  let (front, _) ← cut front start
  return { line with buf := front ++ back }

def deleteBack : Option (LineBuffer × Bool) :=
  if line.cursor = 0 then some (line, false)
  else do
    let prev ← prevCharBoundary line
    let drained ← drain line prev line.cursor
    return ({ drained with cursor := prev }, true)

def deleteForward : Option (LineBuffer × Bool) :=
  if byteLen line.buf ≤ line.cursor then some (line, false)
  else do return (← drain line line.cursor (← nextCharBoundary line), true)

/-! ## Motions -/

def moveLeft : Option (LineBuffer × Bool) :=
  if line.cursor = 0 then some (line, false)
  else do return ({ line with cursor := ← prevCharBoundary line }, true)

def moveRight : Option (LineBuffer × Bool) :=
  if byteLen line.buf ≤ line.cursor then some (line, false)
  else do return ({ line with cursor := ← nextCharBoundary line }, true)

def leftWhile (p : Char → Bool) : Nat → LineBuffer → Option LineBuffer
  | 0, line => some line
  | fuel + 1, line =>
    if 0 < line.cursor then do
      if (← charBeforeCursor line).any p then
        leftWhile p fuel { line with cursor := ← prevCharBoundary line }
      else return line
    else some line

def rightWhile (p : Char → Bool) : Nat → LineBuffer → Option LineBuffer
  | 0, line => some line
  | fuel + 1, line =>
    if line.cursor < byteLen line.buf then do
      if (← charAtCursor line).any p then
        rightWhile p fuel { line with cursor := ← nextCharBoundary line }
      else return line
    else some line

def moveWordLeft : Option LineBuffer := do
  let line ← leftWhile Text.isWhitespace line.cursor line
  leftWhile (!Text.isWhitespace ·) line.cursor line

def moveWordRight : Option LineBuffer := do
  let line ← rightWhile (!Text.isWhitespace ·) (byteLen line.buf) line
  rightWhile Text.isWhitespace (byteLen line.buf) line

def displayCursorPos : Option Nat :=
  if Ascii.isAscii line.buf then some line.cursor
  else do return strWidth (← cut line.buf line.cursor).1

def gridCursorPosition (prompt_display_len term_cols : Nat) : Option (Nat × Nat) := do
  let cols := max term_cols 1
  let total := usize (prompt_display_len + (← displayCursorPos line))
  return (total / cols, total % cols)

/-- `move_grid`, and whether it is `move_grid_up` that calls it -/
def moveGrid (up : Bool) (prompt_display_len term_cols target_col : Nat) :
    Option (LineBuffer × Bool) :=
  if line.buf = [] then some (line, false)
  else do
    let cols := max term_cols 1
    let (row, _) ← gridCursorPosition line prompt_display_len term_cols
    let last_row := usize (prompt_display_len + line.displayLen) / cols
    let target_row :=
      if up then if prompt_display_len / cols < row then some (row - 1) else none
      else if row < last_row then some (row + 1) else none
    match target_row with
    | none => return (line, false)
    | some target_row =>
      let target_total := usize (target_row * cols + min target_col (cols - 1))
      let target_display := target_total - prompt_display_len
      return ({ line with cursor := byteOffsetForDisplayPos line.buf target_display }, true)

def onFirstLine : Option Bool := do return !(← cut line.buf line.cursor).1.contains '\n'

def onLastLine : Option Bool := do return !(← cut line.buf line.cursor).2.contains '\n'

def moveLineUp : Option (LineBuffer × Bool) := do
  match rfindNewline (← cut line.buf line.cursor).1 with
  | none => return (line, false)
  | some i => do
    let cur_line_start := i + 1
    let col := strWidth (← slice line.buf cur_line_start line.cursor)
    let prev_line_start :=
      ((rfindNewline (← cut line.buf (cur_line_start - 1)).1).map (· + 1)).getD 0
    let prev_line ← slice line.buf prev_line_start (cur_line_start - 1)
    return ({ line with cursor := prev_line_start + offsetAtColumn prev_line col }, true)

def moveLineDown : Option (LineBuffer × Bool) := do
  let cur_line_start := ((rfindNewline (← cut line.buf line.cursor).1).map (· + 1)).getD 0
  let col := strWidth (← slice line.buf cur_line_start line.cursor)
  match findNewline (← cut line.buf line.cursor).2 with
  | none => return (line, false)
  | some i => do
    let next_line_start := line.cursor + i + 1
    let next_line_end :=
      ((findNewline (← cut line.buf next_line_start).2).map (next_line_start + ·)).getD
        (byteLen line.buf)
    let next_line ← slice line.buf next_line_start next_line_end
    return ({ line with cursor := next_line_start + offsetAtColumn next_line col }, true)

/-! ## Kills -/

def killToEnd : Option LineBuffer :=
  if line.cursor < byteLen line.buf then do
    let (before, after) ← cut line.buf line.cursor
    return { line with kill_ring := after, buf := before }
  else some line

def killToStart : Option LineBuffer :=
  if 0 < line.cursor then do
    let (before, after) ← cut line.buf line.cursor
    return { line with kill_ring := before, buf := after, cursor := 0 }
  else some line

def killWordBack : Option LineBuffer := do
  let stop := line.cursor
  let line ← leftWhile Text.isWhitespace line.cursor line
  let line ← leftWhile (!Text.isWhitespace ·) line.cursor line
  if line.cursor < stop then do
    let kill_ring ← slice line.buf line.cursor stop
    return { ← drain line line.cursor stop with kill_ring }
  else return line

def killWordForward : Option LineBuffer := do
  let start := line.cursor
  let line ← rightWhile Text.isWhitespace (byteLen line.buf) line
  let line ← rightWhile (!Text.isWhitespace ·) (byteLen line.buf) line
  if start < line.cursor then do
    let kill_ring ← slice line.buf start line.cursor
    return { ← drain line start line.cursor with kill_ring, cursor := start }
  else return line

def yank : Option LineBuffer :=
  if line.kill_ring = [] then some line else insertStr line line.kill_ring

end Checked

/-! ## All operations -/

/-- The public operations, with their arguments. -/
inductive Op where
  | set (s : List Char)
  | setWithCursor (s : List Char) (cursor : Nat)
  | insertChar (c : Char)
  | insertStr (s : List Char)
  | deleteBack
  | deleteForward
  | moveLeft
  | moveRight
  | moveHome
  | moveEnd
  | moveWordLeft
  | moveWordRight
  | moveGridUp (prompt_display_len term_cols target_col : Nat)
  | moveGridDown (prompt_display_len term_cols target_col : Nat)
  | moveLineUp
  | moveLineDown
  | displayCursorPos
  | gridCursorPosition (prompt_display_len term_cols : Nat)
  | onFirstLine
  | onLastLine
  | killToEnd
  | killToStart
  | killWordBack
  | killWordForward
  | yank
  deriving DecidableEq

namespace Op

/-- The line after an operation; none if it panics. -/
def run (line : LineBuffer) : Op → Option LineBuffer
  | set s => some (line.set s)
  | setWithCursor s cursor => some (line.setWithCursor s cursor)
  | insertChar c => Checked.insertStr line [c]
  | insertStr s => Checked.insertStr line s
  | deleteBack => (Checked.deleteBack line).map Prod.fst
  | deleteForward => (Checked.deleteForward line).map Prod.fst
  | moveLeft => (Checked.moveLeft line).map Prod.fst
  | moveRight => (Checked.moveRight line).map Prod.fst
  | moveHome => some line.moveHome
  | moveEnd => some line.moveEnd
  | moveWordLeft => Checked.moveWordLeft line
  | moveWordRight => Checked.moveWordRight line
  | moveGridUp prompt cols target => (Checked.moveGrid line true prompt cols target).map Prod.fst
  | moveGridDown prompt cols target => (Checked.moveGrid line false prompt cols target).map Prod.fst
  | moveLineUp => (Checked.moveLineUp line).map Prod.fst
  | moveLineDown => (Checked.moveLineDown line).map Prod.fst
  | displayCursorPos => (Checked.displayCursorPos line).map fun _ => line
  | gridCursorPosition prompt cols => (Checked.gridCursorPosition line prompt cols).map fun _ => line
  | onFirstLine => (Checked.onFirstLine line).map fun _ => line
  | onLastLine => (Checked.onLastLine line).map fun _ => line
  | killToEnd => Checked.killToEnd line
  | killToStart => Checked.killToStart line
  | killWordBack => Checked.killWordBack line
  | killWordForward => Checked.killWordForward line
  | yank => Checked.yank line

/-- The operation moves the cursor, or only looks at the line. -/
def isMotion : Op → Bool
  | moveLeft | moveRight | moveHome | moveEnd | moveWordLeft | moveWordRight | moveGridUp ..
  | moveGridDown .. | moveLineUp | moveLineDown | displayCursorPos | gridCursorPosition ..
  | onFirstLine | onLastLine => true
  | _ => false

def isKill : Op → Bool
  | killToEnd | killToStart | killWordBack | killWordForward => true
  | _ => false

end Op

/-- The line after a sequence of operations. -/
def runOps (ops : List Op) (line : LineBuffer) : Option LineBuffer :=
  ops.foldlM (fun line op => op.run line) line

/-! ## Offsets between characters -/

/-- Behind the first byte, a character has continuations only. -/
theorem continuation_of_pos
    (h : (String.utf8EncodeChar c)[i + 1]? = some b) : (!(0x80 ≤ b && b < 0xc0)) = false := by
  have hall : ∀ n : Fin 256, (!(0x80 ≤ (UInt8.ofNat n &&& 0x3f ||| 0x80) &&
      (UInt8.ofNat n &&& 0x3f ||| 0x80) < 0xc0)) = false := by decide +kernel
  have hmasked (x : UInt8) : (!(0x80 ≤ (x &&& 0x3f ||| 0x80) && (x &&& 0x3f ||| 0x80) < 0xc0)) =
      false := by
    have hx := hall ⟨x.toNat, x.toNat_lt⟩
    rwa [UInt8.ofNat_toNat] at hx
  rcases c.utf8Size_eq with hsize | hsize | hsize | hsize
  · rw [String.utf8EncodeChar_eq_singleton hsize] at h
    cases h
  · rw [String.utf8EncodeChar_eq_cons_cons hsize] at h
    rcases i with _ | i
    · exact some.inj h ▸ hmasked _
    · cases h
  · rw [String.utf8EncodeChar_eq_cons_cons_cons hsize] at h
    rcases i with _ | _ | i
    · exact some.inj h ▸ hmasked _
    · exact some.inj h ▸ hmasked _
    · cases h
  · rw [String.utf8EncodeChar_eq_cons_cons_cons_cons hsize] at h
    rcases i with _ | _ | _ | i
    · exact some.inj h ▸ hmasked _
    · exact some.inj h ▸ hmasked _
    · exact some.inj h ▸ hmasked _
    · cases h

variable {text : List Char}

/-- `is_char_boundary` finds the offsets between characters. -/
theorem isCharBoundary_iff :
    isCharBoundary text offset = true ↔ IsBoundary text offset := by
  constructor
  · intro h
    induction text generalizing offset with
    | nil =>
      have hzero : offset = 0 := by simpa [isCharBoundary, byteLen] using h
      exact ⟨[], [], rfl, hzero.symm⟩
    | cons c text ih =>
      by_cases hle : c.utf8Size ≤ offset
      · have htail : isCharBoundary text (offset - c.utf8Size) = true := by
          rw [isCharBoundary, Utf8.encode_cons, getElem?_append_right
            (by rwa [String.length_utf8EncodeChar]), String.length_utf8EncodeChar, byteLen_cons] at h
          rw [isCharBoundary]
          cases hbyte : (Utf8.encode text)[offset - c.utf8Size]? with
          | none =>
            rw [hbyte] at h
            rw [beq_iff_eq] at h ⊢
            omega
          | some byte =>
            rw [hbyte] at h
            exact h
        obtain ⟨before, after, rfl, hlen⟩ := ih htail
        refine ⟨c :: before, after, rfl, ?_⟩
        rw [byteLen_cons]
        omega
      · cases offset with
        | zero => exact ⟨[], c :: text, rfl, rfl⟩
        | succ offset =>
          have hlt : offset + 1 < (String.utf8EncodeChar c).length := by
            rw [String.length_utf8EncodeChar]
            omega
          rw [isCharBoundary, Utf8.encode_cons, getElem?_append_left hlt,
            getElem?_eq_getElem hlt] at h
          have hcontinuation := continuation_of_pos (getElem?_eq_getElem hlt)
          exact absurd (h.symm.trans hcontinuation) (by rintro ⟨⟩)
  · rintro ⟨before, after, rfl, rfl⟩
    exact isCharBoundary_append before after

theorem cut_append (before after : List Char) :
    cut (before ++ after) (byteLen before) = some (before, after) := by
  rw [cut, if_pos (isCharBoundary_append before after), splitBytes_append]

theorem slice_append (before piece after : List Char) :
    slice (before ++ piece ++ after) (byteLen before) (byteLen (before ++ piece)) = some piece := by
  rw [slice, cut_append, some_bind]
  dsimp only
  rw [cut_append]
  rfl

/-- Of two offsets the one in front cuts off less. -/
theorem split_of_le {before after front back} (h : front ++ back = before ++ after)
    (hle : byteLen front ≤ byteLen before) :
    ∃ piece, before = front ++ piece ∧ back = piece ++ after := by
  rcases append_eq_append_iff.mp h with ⟨piece, hbefore, hback⟩ | ⟨piece, hfront, hafter⟩
  · exact ⟨piece, hbefore, hback⟩
  · have hpiece : piece = [] := by
      cases piece with
      | nil => rfl
      | cons c piece =>
        rw [hfront, byteLen_append, byteLen_cons] at hle
        have hpos := c.utf8Size_pos
        omega
    subst hpiece
    rw [append_nil] at hfront
    exact ⟨[], by rw [hfront, append_nil], hafter.symm⟩

theorem byteLen_pos (h : text ≠ []) : 0 < byteLen text := by
  cases text with
  | nil => exact absurd rfl h
  | cons c text =>
    rw [byteLen_cons]
    exact Nat.add_pos_left c.utf8Size_pos _

theorem byteAt_of_lt {i} (h : i < byteLen text) :
    ∃ b, byteAt text i = some b := ⟨_, getElem?_eq_getElem h⟩

theorem byteAt_ascii {before after b} (hb : b < 0x80)
    (h : byteAt (before ++ after) (byteLen before) = some b) :
    ∃ rest, after = Char.ofNat b.toNat :: rest := by
  rw [byteAt, Utf8.encode_append, byteLen, getElem?_append_right (Nat.le_refl _),
    Nat.sub_self] at h
  cases after with
  | nil => cases h
  | cons c rest =>
    have hlt : 0 < (String.utf8EncodeChar c).length := by
      rw [String.length_utf8EncodeChar]
      exact c.utf8Size_pos
    rw [Utf8.encode_cons, getElem?_append_left hlt] at h
    exact ⟨rest, by rw [Utf8.eq_of_ascii_mem hb (mem_of_getElem? h)]⟩

/-! ## The line as two texts -/

/-- The line with a text in front of the cursor and a text behind it. -/
def lineAt (before after kill_ring : List Char) : LineBuffer :=
  { buf := before ++ after, cursor := byteLen before, kill_ring }

section

variable (before after kill_ring : List Char)

theorem lineAt_of_boundary (h : line.AtBoundary) :
    ∃ before after, line = lineAt before after line.kill_ring := by
  obtain ⟨before, after, hbuf, hcursor⟩ := h
  exact ⟨before, after, by rw [lineAt, ← hbuf, hcursor]⟩

theorem atBoundary_lineAt : (lineAt before after kill_ring).AtBoundary :=
  ⟨before, after, rfl, rfl⟩

theorem cut_lineAt : cut (lineAt before after kill_ring).buf (lineAt before after kill_ring).cursor =
    some (before, after) := cut_append before after

theorem lineAt_append (front piece : List Char) :
    { lineAt (front ++ piece) after kill_ring with cursor := byteLen front } =
      lineAt front (piece ++ after) kill_ring := by
  rw [lineAt, lineAt, append_assoc]

theorem lineAt_append_right (piece back : List Char) :
    { lineAt before (piece ++ back) kill_ring with cursor := byteLen (before ++ piece) } =
      lineAt (before ++ piece) back kill_ring := by
  rw [lineAt, lineAt, append_assoc]

end

/-! ## Steps to the next boundary -/

theorem boundaryBack_spec (line : LineBuffer) (pos : Nat) :
    isCharBoundary line.buf (line.boundaryBack pos) = true ∧ line.boundaryBack pos ≤ pos := by
  induction pos with
  | zero => exact ⟨isCharBoundary_iff.mpr ⟨[], line.buf, rfl, rfl⟩, Nat.le_refl 0⟩
  | succ pos ih =>
    rw [LineBuffer.boundaryBack]
    split
    · next h => exact ⟨h, Nat.le_refl _⟩
    · exact ⟨ih.1, Nat.le_succ_of_le ih.2⟩

theorem boundaryOn_spec (line : LineBuffer) (fuel pos : Nat) (hfuel : byteLen line.buf ≤ pos + fuel) :
    (isCharBoundary line.buf (line.boundaryOn fuel pos) = true ∨
      byteLen line.buf ≤ line.boundaryOn fuel pos) ∧ pos ≤ line.boundaryOn fuel pos := by
  induction fuel generalizing pos with
  | zero => exact ⟨.inr hfuel, Nat.le_refl pos⟩
  | succ fuel ih =>
    rw [LineBuffer.boundaryOn]
    split
    · have htail := ih (pos + 1) (by omega)
      exact ⟨htail.1, Nat.le_of_succ_le htail.2⟩
    · next h =>
        refine ⟨?_, Nat.le_refl pos⟩
        rw [not_and_or] at h
        rcases h with h | h
        · exact .inr (Nat.not_lt.mp h)
        · exact .inl (by simpa using h)

theorem asciiAt_eq {line : LineBuffer} (h : byteAt line.buf i = some b) :
    line.asciiAt i = if b < 0x80 then some (Char.ofNat b.toNat) else none := by
  rw [byteAt] at h
  rw [LineBuffer.asciiAt, h, bind_some]

section

variable {before after : List Char} (kill_ring : List Char)

theorem prevCharBoundary_lineAt (hne : before ≠ []) :
    ∃ front piece, before = front ++ piece ∧ piece ≠ [] ∧
      Checked.prevCharBoundary (lineAt before after kill_ring) = some (byteLen front) ∧
      (lineAt before after kill_ring).prevCharBoundary = byteLen front := by
  have hpos := byteLen_pos hne
  have hlen := byteLen_append before after
  obtain ⟨b, hb⟩ := @byteAt_of_lt (before ++ after) (byteLen before - 1) (by omega)
  have hback := boundaryBack_spec (lineAt before after kill_ring) (byteLen before - 1)
  -- the result, whichever way it is found
  have hfound : ∃ pos, IsBoundary (before ++ after) pos ∧ pos < byteLen before ∧
      Checked.prevCharBoundary (lineAt before after kill_ring) = some pos ∧
      (lineAt before after kill_ring).prevCharBoundary = pos := by
    have hcursor : ¬ (lineAt before after kill_ring).cursor = 0 := Nat.ne_of_gt hpos
    have hbyte : byteAt (lineAt before after kill_ring).buf
        ((lineAt before after kill_ring).cursor - 1) = some b := hb
    rw [Checked.prevCharBoundary, LineBuffer.prevCharBoundary, if_neg hcursor, if_neg hcursor, hbyte,
      asciiAt_eq hbyte]
    by_cases hascii : b < 0x80
    · refine ⟨byteLen before - 1, isCharBoundary_iff.mp ?_, by omega, ?_, ?_⟩
      · rw [byteAt] at hb
        rw [isCharBoundary, hb]
        have hnot : ¬ 0x80 ≤ b := UInt8.not_le.mpr hascii
        simp [hnot]
      · rw [some_bind, if_pos hascii]
        rfl
      · rw [if_pos hascii, isSome_some, if_pos rfl]
        rfl
    · refine ⟨_, isCharBoundary_iff.mp hback.1, by omega, ?_, ?_⟩
      · rw [some_bind, if_neg hascii]
        rfl
      · rw [if_neg hascii, isSome_none, if_neg (by rintro ⟨⟩)]
        rfl
  obtain ⟨pos, ⟨front, back, hsplit, rfl⟩, hlt, hchecked, htotal⟩ := hfound
  obtain ⟨piece, rfl, -⟩ := split_of_le hsplit.symm (Nat.le_of_lt hlt)
  refine ⟨front, piece, rfl, ?_, hchecked, htotal⟩
  rintro rfl
  rw [append_nil] at hlt
  exact absurd hlt (Nat.lt_irrefl _)

theorem after_ne_nil (h : ¬ byteLen (before ++ after) ≤ byteLen before) : after ≠ [] := by
  rintro rfl
  rw [append_nil] at h
  exact h (Nat.le_refl _)

theorem nextCharBoundary_lineAt (hne : after ≠ []) :
    ∃ piece back, after = piece ++ back ∧ piece ≠ [] ∧
      Checked.nextCharBoundary (lineAt before after kill_ring) = some (byteLen (before ++ piece)) ∧
      (lineAt before after kill_ring).nextCharBoundary = byteLen (before ++ piece) := by
  have hpos := byteLen_pos hne
  have hlen := byteLen_append before after
  obtain ⟨b, hb⟩ := @byteAt_of_lt (before ++ after) (byteLen before) (by omega)
  have hbyte : byteAt (lineAt before after kill_ring).buf (lineAt before after kill_ring).cursor =
    some b := hb
  have hon := boundaryOn_spec (lineAt before after kill_ring) (byteLen (before ++ after))
    (byteLen before + 1) (Nat.le_add_left _ _)
  have hfound : ∃ pos, IsBoundary (before ++ after) pos ∧ byteLen before < pos ∧
      Checked.nextCharBoundary (lineAt before after kill_ring) = some pos ∧
      (lineAt before after kill_ring).nextCharBoundary = pos := by
    have hend : IsBoundary (before ++ after) (byteLen (before ++ after)) :=
      ⟨before ++ after, [], (append_nil _).symm, rfl⟩
    rw [Checked.nextCharBoundary, LineBuffer.nextCharBoundary, hbyte, asciiAt_eq hbyte]
    split
    · exact ⟨_, hend, by omega, rfl, rfl⟩
    · by_cases hascii : b < 0x80
      · obtain ⟨rest, rfl⟩ := byteAt_ascii hascii hb
        have hone : (Char.ofNat b.toNat).utf8Size = 1 := by
          rw [← String.length_utf8EncodeChar, Utf8.encodeChar_of_ascii hascii]
          rfl
        refine ⟨byteLen before + 1, ⟨before ++ [Char.ofNat b.toNat], rest, by simp, ?_⟩, by omega,
          ?_, ?_⟩
        · rw [byteLen_append, byteLen_cons, hone]
          rfl
        · rw [some_bind, if_pos hascii]
          rfl
        · rw [if_pos hascii, isSome_some, if_pos rfl]
          rfl
      · have hmin : IsBoundary (before ++ after) (min ((lineAt before after kill_ring).boundaryOn
            (byteLen (before ++ after)) (byteLen before + 1)) (byteLen (before ++ after))) := by
          rcases Nat.le_total ((lineAt before after kill_ring).boundaryOn
            (byteLen (before ++ after)) (byteLen before + 1)) (byteLen (before ++ after)) with h | h
          · rw [Nat.min_eq_left h]
            rcases hon.1 with hfound | hfound
            · exact isCharBoundary_iff.mp hfound
            · rw [Nat.le_antisymm h hfound]
              exact hend
          · rw [Nat.min_eq_right h]
            exact hend
        have hle := hon.2
        refine ⟨_, hmin, by omega, ?_, ?_⟩
        · rw [some_bind, if_neg hascii]
          rfl
        · rw [if_neg hascii, isSome_none, if_neg nofun]
          rfl
  obtain ⟨pos, ⟨front, back, hsplit, rfl⟩, hlt, hchecked, htotal⟩ := hfound
  obtain ⟨piece, rfl, hafter⟩ := split_of_le hsplit (Nat.le_of_lt hlt)
  refine ⟨piece, back, hafter, ?_, hchecked, htotal⟩
  rintro rfl
  rw [append_nil] at hlt
  exact absurd hlt (Nat.lt_irrefl _)

/-- The character in front of the cursor is looked up alike. -/
theorem charBeforeCursor_lineAt : Checked.charBeforeCursor (lineAt before after kill_ring) =
    some (lineAt before after kill_ring).charBeforeCursor := by
  rw [Checked.charBeforeCursor, LineBuffer.charBeforeCursor]
  split
  · rfl
  · next hcursor =>
      have hpos : byteLen before ≠ 0 := hcursor
      have hlen := byteLen_append before after
      obtain ⟨b, hb⟩ := @byteAt_of_lt (before ++ after) (byteLen before - 1) (by omega)
      have hbyte : byteAt (lineAt before after kill_ring).buf
          ((lineAt before after kill_ring).cursor - 1) = some b := hb
      have hbefore : (lineAt before after kill_ring).before = before :=
        congrArg Prod.fst (splitBytes_append before after)
      rw [hbyte, asciiAt_eq hbyte, cut_lineAt, hbefore]
      by_cases hascii : b < 0x80
      · rw [some_bind, if_pos hascii, if_pos hascii]
        rfl
      · rw [some_bind, if_neg hascii, if_neg hascii]
        rfl

theorem charAtCursor_lineAt : Checked.charAtCursor (lineAt before after kill_ring) =
    some (lineAt before after kill_ring).charAtCursor := by
  rw [Checked.charAtCursor, LineBuffer.charAtCursor]
  split
  · rfl
  · next hcursor =>
      obtain ⟨b, hb⟩ := byteAt_of_lt (Nat.not_le.mp hcursor)
      have hafter : (lineAt before after kill_ring).after = after :=
        congrArg Prod.snd (splitBytes_append before after)
      rw [hb, asciiAt_eq hb, cut_lineAt, hafter]
      by_cases hascii : b < 0x80
      · rw [some_bind, if_pos hascii, if_pos hascii]
        rfl
      · rw [some_bind, if_neg hascii, if_neg hascii]
        rfl

/-- The cursor goes back over a piece of the text. -/
theorem leftWhile_lineAt (p : Char → Bool) (fuel : Nat) :
    ∃ front piece, before = front ++ piece ∧
      Checked.leftWhile p fuel (lineAt before after kill_ring) =
        some (lineAt front (piece ++ after) kill_ring) ∧
      LineBuffer.leftWhile p fuel (lineAt before after kill_ring) =
        lineAt front (piece ++ after) kill_ring := by
  induction fuel generalizing before after with
  | zero => exact ⟨before, [], (append_nil _).symm, rfl, rfl⟩
  | succ fuel ih =>
    rw [Checked.leftWhile, LineBuffer.leftWhile]
    by_cases hcursor : 0 < (lineAt before after kill_ring).cursor
    · rw [if_pos hcursor, charBeforeCursor_lineAt, some_bind]
      by_cases hany : (lineAt before after kill_ring).charBeforeCursor.any p = true
      · have hne : before ≠ [] := by
          rintro rfl
          exact absurd hcursor (Nat.lt_irrefl 0)
        obtain ⟨front, piece, rfl, -, hchecked, htotal⟩ := prevCharBoundary_lineAt kill_ring hne
        obtain ⟨front', piece', rfl, hloop, hloop'⟩ := @ih front (piece ++ after)
        refine ⟨front', piece' ++ piece, by simp, ?_, ?_⟩
        · rw [if_pos hany, hchecked, some_bind, lineAt_append, hloop,
            append_assoc]
        · rw [if_pos ⟨hcursor, hany⟩, htotal, lineAt_append, hloop', append_assoc]
      · rw [if_neg hany, if_neg fun h => hany h.2]
        exact ⟨before, [], (append_nil _).symm, rfl, rfl⟩
    · rw [if_neg hcursor, if_neg fun h => hcursor h.1]
      exact ⟨before, [], (append_nil _).symm, rfl, rfl⟩

/-- The cursor goes on over a piece of the text. -/
theorem rightWhile_lineAt (p : Char → Bool) (fuel : Nat) :
    ∃ piece back, after = piece ++ back ∧
      Checked.rightWhile p fuel (lineAt before after kill_ring) =
        some (lineAt (before ++ piece) back kill_ring) ∧
      LineBuffer.rightWhile p fuel (lineAt before after kill_ring) =
        lineAt (before ++ piece) back kill_ring := by
  induction fuel generalizing before after with
  | zero => exact ⟨[], after, rfl, by rw [append_nil]; rfl, by rw [append_nil]; rfl⟩
  | succ fuel ih =>
    have hstays : ∃ piece back, after = piece ++ back ∧
        some (lineAt before after kill_ring) = some (lineAt (before ++ piece) back kill_ring) ∧
        lineAt before after kill_ring = lineAt (before ++ piece) back kill_ring :=
      ⟨[], after, rfl, by rw [append_nil], by rw [append_nil]⟩
    rw [Checked.rightWhile, LineBuffer.rightWhile]
    by_cases hcursor : (lineAt before after kill_ring).cursor <
        byteLen (lineAt before after kill_ring).buf
    · rw [if_pos hcursor, charAtCursor_lineAt, some_bind]
      by_cases hany : (lineAt before after kill_ring).charAtCursor.any p = true
      · obtain ⟨piece, back, rfl, -, hchecked, htotal⟩ :=
          nextCharBoundary_lineAt kill_ring (after_ne_nil (Nat.not_le.mpr hcursor))
        obtain ⟨piece', back', rfl, hloop, hloop'⟩ := @ih (before ++ piece) back
        refine ⟨piece ++ piece', back', by simp, ?_, ?_⟩
        · rw [if_pos hany, hchecked, some_bind, lineAt_append_right,
            hloop, append_assoc]
        · rw [if_pos ⟨hcursor, hany⟩, htotal, lineAt_append_right, hloop', append_assoc]
      · rw [if_neg hany, if_neg fun h => hany h.2]
        exact hstays
    · rw [if_neg hcursor, if_neg fun h => hcursor h.1]
      exact hstays

end

/-! ## What each operation does -/

/-- What an operation leaves of a line: a text in front of the cursor and a text behind it. -/
structure Leaves (op : Op) (line : LineBuffer) (front back ring : List Char) : Prop where
  run : op.run line = some (lineAt front back ring)
  motion : op.isMotion = true → front ++ back = line.buf
  kill : op.isKill = true → front ++ back = line.buf ∨ front ++ ring ++ back = line.buf ∧ ring ≠ []

section

variable {before after kill_ring : List Char}

/-- An operation that only moves the cursor, or looks at the line. -/
theorem leaves_motion
    (hrun : op.run (lineAt before after kill_ring) = some (lineAt front back kill_ring))
    (hbuf : front ++ back = before ++ after) :
    Leaves op (lineAt before after kill_ring) front back kill_ring :=
  ⟨hrun, fun _ => hbuf, fun _ => .inl hbuf⟩

theorem leaves_edit (hmotion : op.isMotion = false)
    (hkill : op.isKill = false)
    (hrun : op.run (lineAt before after kill_ring) = some (lineAt front back ring)) :
    Leaves op (lineAt before after kill_ring) front back ring :=
  ⟨hrun, fun h => absurd (hmotion.symm.trans h) nofun, fun h => absurd (hkill.symm.trans h) nofun⟩

theorem leaves_kill (hmotion : op.isMotion = false)
    (hrun : op.run (lineAt before after kill_ring) = some (lineAt front back piece))
    (hbuf : front ++ piece ++ back = before ++ after) (hne : piece ≠ []) :
    Leaves op (lineAt before after kill_ring) front back piece :=
  ⟨hrun, fun h => absurd (hmotion.symm.trans h) nofun, fun _ => .inr ⟨hbuf, hne⟩⟩

variable (before after kill_ring)

theorem insertStr_lineAt (s : List Char) : Checked.insertStr (lineAt before after kill_ring) s =
    some (lineAt (before ++ s) after kill_ring) := by
  rw [Checked.insertStr, cut_lineAt, some_bind, lineAt, lineAt,
    byteLen_append]
  rfl

theorem drain_lineAt {line front piece back}
    (hbuf : line.buf = front ++ piece ++ back) :
    Checked.drain line (byteLen front) (byteLen (front ++ piece)) =
      some { line with buf := front ++ back } := by
  rw [Checked.drain, hbuf, cut_append, some_bind]
  dsimp only
  rw [cut_append]
  rfl

theorem deleteBack_lineAt : ∃ front, Op.deleteBack.run (lineAt before after kill_ring) =
    some (lineAt front after kill_ring) := by
  rw [Op.run, Checked.deleteBack]
  split
  · exact ⟨before, rfl⟩
  · next hcursor =>
      have hne : before ≠ [] := fun h => hcursor (h ▸ rfl)
      obtain ⟨front, piece, rfl, -, hprev, -⟩ :=
        @prevCharBoundary_lineAt before after kill_ring hne
      refine ⟨front, ?_⟩
      rw [hprev, some_bind]
      rw [show (lineAt (front ++ piece) after kill_ring).cursor = byteLen (front ++ piece) from rfl,
        @drain_lineAt (lineAt (front ++ piece) after kill_ring) front piece after rfl]
      rfl

theorem deleteForward_lineAt : ∃ back, Op.deleteForward.run (lineAt before after kill_ring) =
    some (lineAt before back kill_ring) := by
  rw [Op.run, Checked.deleteForward]
  split
  · exact ⟨after, rfl⟩
  · next hcursor =>
      obtain ⟨piece, back, rfl, -, hnext, -⟩ :=
        @nextCharBoundary_lineAt before after kill_ring (after_ne_nil hcursor)
      refine ⟨back, ?_⟩
      rw [hnext, some_bind]
      rw [show (lineAt before (piece ++ back) kill_ring).cursor = byteLen before from rfl,
        @drain_lineAt (lineAt before (piece ++ back) kill_ring) before piece back
          (append_assoc _ _ _).symm]
      rfl

theorem moveLeft_lineAt : ∃ front piece, before = front ++ piece ∧
    Op.moveLeft.run (lineAt before after kill_ring) =
      some (lineAt front (piece ++ after) kill_ring) := by
  rw [Op.run, Checked.moveLeft]
  split
  · exact ⟨before, [], (append_nil _).symm, rfl⟩
  · next hcursor =>
      have hne : before ≠ [] := fun h => hcursor (h ▸ rfl)
      obtain ⟨front, piece, rfl, -, hprev, -⟩ :=
        @prevCharBoundary_lineAt before after kill_ring hne
      refine ⟨front, piece, rfl, ?_⟩
      rw [hprev, some_bind, lineAt_append]
      rfl

theorem moveRight_lineAt : ∃ piece back, after = piece ++ back ∧
    Op.moveRight.run (lineAt before after kill_ring) =
      some (lineAt (before ++ piece) back kill_ring) := by
  rw [Op.run, Checked.moveRight]
  split
  · exact ⟨[], after, rfl, by rw [append_nil]; rfl⟩
  · next hcursor =>
      obtain ⟨piece, back, rfl, -, hnext, -⟩ :=
        @nextCharBoundary_lineAt before after kill_ring (after_ne_nil hcursor)
      refine ⟨piece, back, rfl, ?_⟩
      rw [hnext, some_bind, lineAt_append_right]
      rfl

theorem moveWordLeft_lineAt : ∃ front piece, before = front ++ piece ∧
    Checked.moveWordLeft (lineAt before after kill_ring) =
      some (lineAt front (piece ++ after) kill_ring) := by
  obtain ⟨front, piece, rfl, hloop, -⟩ := @leftWhile_lineAt before after kill_ring
    Text.isWhitespace (lineAt before after kill_ring).cursor
  obtain ⟨front', piece', rfl, hloop', -⟩ := @leftWhile_lineAt front (piece ++ after) kill_ring
    (!Text.isWhitespace ·) (lineAt front (piece ++ after) kill_ring).cursor
  refine ⟨front', piece' ++ piece, by simp, ?_⟩
  rw [Checked.moveWordLeft, hloop, some_bind, hloop', append_assoc]

theorem rightWhile_twice (p q : Char → Bool) : ∃ piece back, after = piece ++ back ∧
    (do let line ← Checked.rightWhile p (byteLen (before ++ after)) (lineAt before after kill_ring)
        Checked.rightWhile q (byteLen line.buf) line) =
      some (lineAt (before ++ piece) back kill_ring) := by
  obtain ⟨piece, back, rfl, hloop, -⟩ := @rightWhile_lineAt before after kill_ring p
    (byteLen (before ++ after))
  obtain ⟨piece', back', rfl, hloop', -⟩ := @rightWhile_lineAt (before ++ piece) back kill_ring q
    (byteLen (lineAt (before ++ piece) back kill_ring).buf)
  refine ⟨piece ++ piece', back', by simp, ?_⟩
  rw [hloop, some_bind, hloop', append_assoc]

/-- The cursor is set to another offset of the text. -/
theorem withCursor_eq {front back} (h : before ++ after = front ++ back) :
    { lineAt before after kill_ring with cursor := byteLen front } = lineAt front back kill_ring := by
  rw [lineAt, lineAt, h]

theorem displayCursorPos_lineAt :
    ∃ pos, Checked.displayCursorPos (lineAt before after kill_ring) = some pos := by
  rw [Checked.displayCursorPos]
  split
  · exact ⟨_, rfl⟩
  · exact ⟨_, by rw [cut_lineAt]; rfl⟩

theorem gridCursorPosition_lineAt (prompt_display_len term_cols : Nat) :
    ∃ position, Checked.gridCursorPosition (lineAt before after kill_ring) prompt_display_len
      term_cols = some position := by
  obtain ⟨pos, hpos⟩ := displayCursorPos_lineAt before after kill_ring
  exact ⟨_, by rw [Checked.gridCursorPosition, hpos]; rfl⟩

theorem moveGrid_lineAt (up : Bool) (prompt_display_len term_cols target_col : Nat) :
    ∃ front back, front ++ back = before ++ after ∧
      (Checked.moveGrid (lineAt before after kill_ring) up prompt_display_len term_cols
        target_col).map Prod.fst = some (lineAt front back kill_ring) := by
  obtain ⟨⟨row, col⟩, hposition⟩ :=
    gridCursorPosition_lineAt before after kill_ring prompt_display_len term_cols
  rw [Checked.moveGrid]
  split
  · exact ⟨before, after, rfl, rfl⟩
  · rw [hposition, some_bind]
    dsimp only
    split
    · exact ⟨before, after, rfl, rfl⟩
    · obtain ⟨front, back, hbuf, hlen, -⟩ :=
        byteOffsetForDisplayPos_stops (lineAt before after kill_ring).buf _
      refine ⟨front, back, hbuf.symm, ?_⟩
      rw [← hlen, withCursor_eq before after kill_ring hbuf]
      rfl

end

/-! ## Lines of a text -/

theorem findNewline_spec (h : findNewline text = some i) :
    ∃ before after, text = before ++ '\n' :: after ∧ byteLen before = i := by
  induction text generalizing i with
  | nil => cases h
  | cons c text ih =>
    rw [findNewline] at h
    split at h
    · next hc =>
        cases h
        exact ⟨[], text, by rw [hc]; rfl, rfl⟩
    · obtain ⟨j, hj, rfl⟩ := map_eq_some_iff.mp h
      obtain ⟨before, after, rfl, rfl⟩ := ih hj
      exact ⟨c :: before, after, rfl, byteLen_cons c before⟩

theorem rfindNewline_spec (h : rfindNewline text = some i) :
    ∃ before after, text = before ++ '\n' :: after ∧ byteLen before = i := by
  induction text generalizing i with
  | nil => cases h
  | cons c text ih =>
    rw [rfindNewline, or_eq_some_iff] at h
    rcases h with h | ⟨-, h⟩
    · obtain ⟨j, hj, rfl⟩ := map_eq_some_iff.mp h
      obtain ⟨before, after, rfl, rfl⟩ := ih hj
      exact ⟨c :: before, after, rfl, byteLen_cons c before⟩
    · split at h
      · next hc =>
          cases h
          exact ⟨[], text, by rw [hc]; rfl, rfl⟩
      · cases h

theorem byteLen_newline (before : List Char) : byteLen (before ++ ['\n']) = byteLen before + 1 := by
  rw [byteLen_append]
  rfl

theorem lineStart_spec (text : List Char) : ∃ front line, text = front ++ line ∧
    ((rfindNewline text).map (· + 1)).getD 0 = byteLen front := by
  cases hfind : rfindNewline text with
  | none => exact ⟨[], text, rfl, rfl⟩
  | some i =>
    obtain ⟨before, after, rfl, rfl⟩ := rfindNewline_spec hfind
    refine ⟨before ++ ['\n'], after, by simp, ?_⟩
    rw [byteLen_newline]
    rfl

theorem lineEnd_spec (text : List Char) (start : Nat) : ∃ line back, text = line ++ back ∧
    ((findNewline text).map (start + ·)).getD (start + byteLen text) = start + byteLen line := by
  cases hfind : findNewline text with
  | none => exact ⟨text, [], (append_nil text).symm, rfl⟩
  | some i =>
    obtain ⟨before, after, rfl, rfl⟩ := findNewline_spec hfind
    exact ⟨before, '\n' :: after, rfl, rfl⟩

section

variable (before after kill_ring : List Char)

theorem moveLineUp_lineAt : ∃ front back, front ++ back = before ++ after ∧
    Op.moveLineUp.run (lineAt before after kill_ring) = some (lineAt front back kill_ring) := by
  rw [Op.run, Checked.moveLineUp, cut_lineAt, some_bind]
  dsimp only
  split
  · exact ⟨before, after, rfl, rfl⟩
  · next i hfind =>
      obtain ⟨x, y, rfl, rfl⟩ := rfindNewline_spec hfind
      obtain ⟨front, line, rfl, hstart⟩ := lineStart_spec x
      obtain ⟨p, q, rfl, hcolumn, -⟩ := offsetAtColumn_stops line (strWidth y)
      -- the line of the cursor, and the line above it
      have hcur : slice (lineAt (front ++ (p ++ q) ++ '\n' :: y) after kill_ring).buf
          (byteLen (front ++ (p ++ q)) + 1)
          (lineAt (front ++ (p ++ q) ++ '\n' :: y) after kill_ring).cursor = some y := by
        have hslice := slice_append (front ++ (p ++ q) ++ ['\n']) y after
        rw [byteLen_newline, append_assoc _ ['\n'] y] at hslice
        exact hslice
      have hcut : cut (lineAt (front ++ (p ++ q) ++ '\n' :: y) after kill_ring).buf
          (byteLen (front ++ (p ++ q))) = some (front ++ (p ++ q), '\n' :: y ++ after) := by
        rw [lineAt, append_assoc]
        exact cut_append _ _
      have hprev : slice (lineAt (front ++ (p ++ q) ++ '\n' :: y) after kill_ring).buf
          (byteLen front) (byteLen (front ++ (p ++ q))) = some (p ++ q) := by
        rw [lineAt, append_assoc]
        exact slice_append front (p ++ q) _
      refine ⟨front ++ p, q ++ '\n' :: y ++ after, by simp, ?_⟩
      rw [hcur, Nat.add_sub_cancel, hcut, some_bind, some_bind,
        hstart, hprev, some_bind, ← hcolumn, ← byteLen_append,
        @withCursor_eq _ _ kill_ring (front ++ p) (q ++ '\n' :: y ++ after) (by simp)]
      rfl

theorem moveLineDown_lineAt : ∃ front back, front ++ back = before ++ after ∧
    Op.moveLineDown.run (lineAt before after kill_ring) = some (lineAt front back kill_ring) := by
  obtain ⟨start, cur_line, rfl, hstart⟩ := lineStart_spec before
  have hcur : slice (lineAt (start ++ cur_line) after kill_ring).buf (byteLen start)
      (lineAt (start ++ cur_line) after kill_ring).cursor = some cur_line :=
    slice_append start cur_line after
  rw [Op.run, Checked.moveLineDown, cut_lineAt, some_bind, hstart]
  dsimp only
  rw [hcur, some_bind, some_bind]
  dsimp only
  generalize start ++ cur_line = before
  split
  · exact ⟨before, after, rfl, rfl⟩
  · next i hfind =>
      obtain ⟨x, y, rfl, rfl⟩ := findNewline_spec hfind
      obtain ⟨line, back, rfl, hend⟩ := lineEnd_spec y (byteLen (before ++ x ++ ['\n']))
      obtain ⟨p, q, rfl, hcolumn, -⟩ := offsetAtColumn_stops line (strWidth cur_line)
      have hnext : (lineAt before (x ++ '\n' :: (p ++ q ++ back)) kill_ring).cursor + byteLen x + 1 =
          byteLen (before ++ x ++ ['\n']) := by
        rw [byteLen_newline, byteLen_append]
        rfl
      have hbuf : (lineAt before (x ++ '\n' :: (p ++ q ++ back)) kill_ring).buf =
          before ++ x ++ ['\n'] ++ (p ++ q ++ back) := by
        rw [lineAt]
        simp
      have hcut := cut_append (before ++ x ++ ['\n']) (p ++ q ++ back)
      have hslice := slice_append (before ++ x ++ ['\n']) (p ++ q) back
      rw [byteLen_append _ (p ++ q), append_assoc _ (p ++ q) back] at hslice
      rw [← byteLen_append] at hend
      refine ⟨before ++ x ++ ['\n'] ++ p, q ++ back, by simp, ?_⟩
      rw [hnext, hbuf, hcut, some_bind]
      dsimp only
      rw [hend, hslice, some_bind, ← hcolumn, ← byteLen_append, ← hbuf,
        @withCursor_eq before _ kill_ring (before ++ x ++ ['\n'] ++ p) (q ++ back) (by simp)]
      rfl

/-- A piece is cut out that stands between two offsets. -/
theorem kill_piece {line front piece back}
    (hbuf : line.buf = front ++ piece ++ back) (f : List Char → LineBuffer → LineBuffer) :
    (do let ring ← slice line.buf (byteLen front) (byteLen (front ++ piece))
        let drained ← Checked.drain line (byteLen front) (byteLen (front ++ piece))
        return f ring drained) =
      some (f piece { line with buf := front ++ back }) := by
  rw [drain_lineAt hbuf, hbuf, slice_append]
  rfl

theorem killWordBack_lineAt : ∃ front piece, before = front ++ piece ∧
    Checked.killWordBack (lineAt before after kill_ring) =
      if piece = [] then some (lineAt before after kill_ring)
      else some (lineAt front after piece) := by
  obtain ⟨front, piece, rfl, hmoved⟩ := moveWordLeft_lineAt before after kill_ring
  refine ⟨front, piece, rfl, ?_⟩
  have hword : Checked.killWordBack (lineAt (front ++ piece) after kill_ring) =
      (Checked.moveWordLeft (lineAt (front ++ piece) after kill_ring)).bind fun line =>
        if line.cursor < byteLen (front ++ piece) then do
          let ring ← slice line.buf line.cursor (byteLen (front ++ piece))
          let drained ← Checked.drain line line.cursor (byteLen (front ++ piece))
          return { drained with kill_ring := ring }
        else some line := by
    rw [Checked.moveWordLeft, Checked.killWordBack, bind_eq_bind, bind_assoc]
    rfl
  rw [hword, hmoved, bind_some]
  by_cases hpiece : piece = []
  · rw [if_pos hpiece, if_neg]
    · rw [hpiece, append_nil]
      rfl
    · rw [hpiece, append_nil]
      exact Nat.lt_irrefl _
  · have hlt : byteLen front < byteLen (front ++ piece) := by
      rw [byteLen_append]
      exact Nat.lt_add_of_pos_right (byteLen_pos hpiece)
    rw [if_neg hpiece]
    refine (if_pos hlt).trans ?_
    exact @kill_piece (lineAt front (piece ++ after) kill_ring) front piece after
      (append_assoc _ _ _).symm fun kill_ring line => { line with kill_ring }

theorem killWordForward_lineAt : ∃ piece back, after = piece ++ back ∧
    Checked.killWordForward (lineAt before after kill_ring) =
      if piece = [] then some (lineAt before after kill_ring)
      else some (lineAt before back piece) := by
  obtain ⟨piece, back, rfl, hmoved⟩ := rightWhile_twice before after kill_ring Text.isWhitespace
    (!Text.isWhitespace ·)
  refine ⟨piece, back, rfl, ?_⟩
  have hword : Checked.killWordForward (lineAt before (piece ++ back) kill_ring) =
      (do let line ← Checked.rightWhile Text.isWhitespace (byteLen (before ++ (piece ++ back)))
            (lineAt before (piece ++ back) kill_ring)
          Checked.rightWhile (!Text.isWhitespace ·) (byteLen line.buf) line).bind fun line =>
        if byteLen before < line.cursor then
          (do let ring ← slice line.buf (byteLen before) line.cursor
              let drained ← Checked.drain line (byteLen before) line.cursor
              return { drained with kill_ring := ring, cursor := byteLen before })
        else some line := by
    rw [Checked.killWordForward, bind_eq_bind, bind_assoc]
    rfl
  rw [hword, hmoved, bind_some]
  by_cases hpiece : piece = []
  · rw [if_pos hpiece, if_neg]
    · rw [hpiece, append_nil]
      rfl
    · rw [hpiece, append_nil]
      exact Nat.lt_irrefl _
  · have hlt : byteLen before < byteLen (before ++ piece) := by
      rw [byteLen_append]
      exact Nat.lt_add_of_pos_right (byteLen_pos hpiece)
    rw [if_neg hpiece]
    refine (if_pos hlt).trans ?_
    exact @kill_piece (lineAt (before ++ piece) back kill_ring) before piece back rfl
      fun kill_ring line => { line with kill_ring, cursor := byteLen before }

end

/-! ## Every operation -/

/-- **No operation panics** on a line whose cursor stands between two characters, and it
leaves such a line. -/
theorem run_leaves (op : Op) (h : line.AtBoundary) :
    ∃ front back ring, Leaves op line front back ring := by
  obtain ⟨before, after, hline⟩ := lineAt_of_boundary h
  rw [hline]
  generalize line.kill_ring = kill_ring
  cases op with
  | set s =>
    refine ⟨s, [], kill_ring, leaves_edit rfl rfl ?_⟩
    rw [lineAt, lineAt, append_nil]
    rfl
  | setWithCursor s cursor =>
    obtain ⟨front, back, hbuf, hlen⟩ := isCharBoundary_iff.mp (boundaryBack_spec
      { lineAt before after kill_ring with buf := s } (min cursor (byteLen s))).1
    refine ⟨front, back, kill_ring, leaves_edit rfl rfl ?_⟩
    replace hbuf : s = front ++ back := hbuf
    rw [Op.run, LineBuffer.setWithCursor]
    dsimp only
    rw [← hlen, lineAt, lineAt, ← hbuf]
  | insertChar c =>
    exact ⟨_, _, _, leaves_edit rfl rfl
      (insertStr_lineAt before after kill_ring [c])⟩
  | insertStr s =>
    exact ⟨_, _, _, leaves_edit rfl rfl
      (insertStr_lineAt before after kill_ring s)⟩
  | deleteBack =>
    obtain ⟨front, hrun⟩ := deleteBack_lineAt before after kill_ring
    exact ⟨_, _, _, leaves_edit rfl rfl hrun⟩
  | deleteForward =>
    obtain ⟨back, hrun⟩ := deleteForward_lineAt before after kill_ring
    exact ⟨_, _, _, leaves_edit rfl rfl hrun⟩
  | moveLeft =>
    obtain ⟨front, piece, rfl, hrun⟩ := moveLeft_lineAt before after kill_ring
    exact ⟨_, _, _, leaves_motion hrun (append_assoc _ _ _).symm⟩
  | moveRight =>
    obtain ⟨piece, back, rfl, hrun⟩ := moveRight_lineAt before after kill_ring
    exact ⟨_, _, _, leaves_motion hrun (append_assoc _ _ _)⟩
  | moveHome => exact ⟨_, _, _, leaves_motion
      (congrArg some (@withCursor_eq before after kill_ring [] _ rfl)) rfl⟩
  | moveEnd => exact ⟨_, _, _, leaves_motion
      (congrArg some (@withCursor_eq before after kill_ring _ [] (append_nil _).symm))
      (append_nil _)⟩
  | moveWordLeft =>
    obtain ⟨front, piece, rfl, hrun⟩ := moveWordLeft_lineAt before after kill_ring
    exact ⟨_, _, _, leaves_motion hrun (append_assoc _ _ _).symm⟩
  | moveWordRight =>
    obtain ⟨piece, back, rfl, hrun⟩ := rightWhile_twice before after kill_ring
      (!Text.isWhitespace ·) Text.isWhitespace
    exact ⟨_, _, _, leaves_motion hrun (append_assoc _ _ _)⟩
  | moveGridUp prompt_display_len term_cols target_col =>
    obtain ⟨front, back, hbuf, hrun⟩ := moveGrid_lineAt before after kill_ring true
      prompt_display_len term_cols target_col
    exact ⟨_, _, _, leaves_motion hrun hbuf⟩
  | moveGridDown prompt_display_len term_cols target_col =>
    obtain ⟨front, back, hbuf, hrun⟩ := moveGrid_lineAt before after kill_ring false
      prompt_display_len term_cols target_col
    exact ⟨_, _, _, leaves_motion hrun hbuf⟩
  | moveLineUp =>
    obtain ⟨front, back, hbuf, hrun⟩ := moveLineUp_lineAt before after kill_ring
    exact ⟨_, _, _, leaves_motion hrun hbuf⟩
  | moveLineDown =>
    obtain ⟨front, back, hbuf, hrun⟩ := moveLineDown_lineAt before after kill_ring
    exact ⟨_, _, _, leaves_motion hrun hbuf⟩
  | displayCursorPos =>
    obtain ⟨pos, hpos⟩ := displayCursorPos_lineAt before after kill_ring
    refine ⟨_, _, _, leaves_motion ?_ rfl⟩
    rw [Op.run, hpos]
    rfl
  | gridCursorPosition prompt_display_len term_cols =>
    obtain ⟨position, hposition⟩ :=
      gridCursorPosition_lineAt before after kill_ring prompt_display_len term_cols
    refine ⟨_, _, _, leaves_motion ?_ rfl⟩
    rw [Op.run, hposition]
    rfl
  | onFirstLine =>
    refine ⟨_, _, _, leaves_motion ?_ rfl⟩
    rw [Op.run, Checked.onFirstLine, cut_lineAt]
    rfl
  | onLastLine =>
    refine ⟨_, _, _, leaves_motion ?_ rfl⟩
    rw [Op.run, Checked.onLastLine, cut_lineAt]
    rfl
  | killToEnd =>
    by_cases hne : after = []
    · subst hne
      refine ⟨_, _, _, leaves_motion ?_ rfl⟩
      refine (if_neg ?_).trans rfl
      rw [lineAt, append_nil]
      exact Nat.lt_irrefl _
    · have hlt : byteLen before < byteLen (before ++ after) := by
        rw [byteLen_append]
        exact Nat.lt_add_of_pos_right (byteLen_pos hne)
      refine ⟨before, [], after, leaves_kill rfl ?_ (by simp) hne⟩
      refine (if_pos hlt).trans ?_
      rw [cut_lineAt, lineAt, lineAt, append_nil]
      rfl
  | killToStart =>
    by_cases hne : before = []
    · subst hne
      exact ⟨_, _, _, leaves_motion rfl rfl⟩
    · refine ⟨[], after, before, leaves_kill rfl ?_ rfl hne⟩
      refine (if_pos (byteLen_pos hne)).trans ?_
      rw [cut_lineAt]
      rfl
  | killWordBack =>
    obtain ⟨front, piece, rfl, hrun⟩ := killWordBack_lineAt before after kill_ring
    split at hrun
    · exact ⟨_, _, _, leaves_motion hrun rfl⟩
    · next hpiece => exact ⟨_, _, _, leaves_kill rfl hrun rfl hpiece⟩
  | killWordForward =>
    obtain ⟨piece, back, rfl, hrun⟩ := killWordForward_lineAt before after kill_ring
    split at hrun
    · exact ⟨_, _, _, leaves_motion hrun rfl⟩
    · next hpiece =>
        exact ⟨_, _, _, leaves_kill rfl hrun (append_assoc _ _ _) hpiece⟩
  | yank =>
    by_cases hring : kill_ring = []
    · exact ⟨_, _, _, leaves_motion (if_pos hring) rfl⟩
    · exact ⟨_, _, _, leaves_edit rfl rfl ((if_neg hring).trans
        (insertStr_lineAt before after kill_ring kill_ring))⟩

theorem runOps_boundary (ops : List Op) {line} (h : line.AtBoundary) :
    ∃ line', runOps ops line = some line' ∧ line'.AtBoundary := by
  induction ops generalizing line with
  | nil => exact ⟨line, rfl, h⟩
  | cons op ops ih =>
    obtain ⟨front, back, ring, hleaves⟩ := run_leaves op h
    obtain ⟨line', hrun, hline'⟩ := ih (atBoundary_lineAt front back ring)
    refine ⟨line', ?_, hline'⟩
    rw [runOps, foldlM_cons, hleaves.run]
    exact hrun

/-- A text is killed and put back. -/
structure Restores (line killed : LineBuffer) : Prop where
  exists_piece : ∃ front piece back restored, line.buf = front ++ piece ++ back ∧
    killed.buf = front ++ back ∧ killed.kill_ring = piece ∧ Op.yank.run killed = some restored ∧
    restored.buf = line.buf ∧ restored.cursor = byteLen (front ++ piece)

/-- **After any sequence of operations** on an empty line no operation panics, the cursor
stands between two characters, a motion keeps the text, and a yank puts back what a kill
has removed. -/
theorem line_safe (ops : List Op) :
    ∃ line, runOps ops .new = some line ∧ line.cursor ≤ byteLen line.buf ∧
      isCharBoundary line.buf line.cursor = true ∧
      ∀ op : Op, ∃ next, op.run line = some next ∧
        (op.isMotion = true → next.buf = line.buf) ∧
        (op.isKill = true → next.buf ≠ line.buf → Restores line next) := by
  obtain ⟨line, hrun, hline⟩ := @runOps_boundary ops .new ⟨[], [], rfl, rfl⟩
  refine ⟨line, hrun, ?_, isCharBoundary_iff.mpr hline, fun op => ?_⟩
  · obtain ⟨before, after, hbuf, hcursor⟩ := hline
    rw [hbuf, ← hcursor, byteLen_append]
    exact Nat.le_add_right _ _
  · obtain ⟨front, back, ring, hleaves⟩ := run_leaves op hline
    refine ⟨_, hleaves.run, hleaves.motion, fun hkill hchanged => ⟨?_⟩⟩
    rcases hleaves.kill hkill with hsame | ⟨hbuf, hne⟩
    · exact absurd hsame hchanged
    · refine ⟨front, ring, back, lineAt (front ++ ring) back ring, hbuf.symm, rfl, rfl, ?_, ?_, rfl⟩
      · exact (if_neg hne).trans (insertStr_lineAt front back ring ring)
      · exact hbuf

/-- At the end of a line nothing is killed, and what is put back is the text killed before. -/
theorem empty_kill_restores_another :
    ∃ line killed restored, runOps [.insertStr ['a', 'b'], .killToStart, .insertChar 'c'] .new =
        some line ∧ Op.killToEnd.run line = some killed ∧ Op.yank.run killed = some restored ∧
      restored.buf ≠ line.buf :=
  ⟨_, _, _, rfl, rfl, rfl, by decide⟩

end Ish.Editor
