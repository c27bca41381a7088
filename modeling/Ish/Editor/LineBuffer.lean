import Ish.Lib.Text
import Ish.Lib.Utf8

/-!
# LineBuffer — an edited line

The model of `LineBuffer` in `src/line.rs`: a text, the byte offset of the
cursor in it, and the text that was killed last.
-/

namespace Ish.Editor

open Ish.Lib List

/-! ## Byte offsets into a text -/

/-- `str::len` -/
def byteLen (text : List Char) : Nat := (Utf8.encode text).length

theorem byteLen_append (text more : List Char) :
    byteLen (text ++ more) = byteLen text + byteLen more := by
  rw [byteLen, Utf8.encode_append, length_append]
  rfl

/-- `text[..offset]` and `text[offset..]` -/
def splitBytes : List Char → Nat → List Char × List Char
  | [], _ => ([], [])
  | c :: text, offset =>
    if c.utf8Size ≤ offset then
      let (before, after) := splitBytes text (offset - c.utf8Size)
      (c :: before, after)
    else ([], c :: text)

def isCharBoundary (text : List Char) (offset : Nat) : Bool :=
  match (Utf8.encode text)[offset]? with
  | none => offset == byteLen text
  | some byte => !(0x80 ≤ byte && byte < 0xc0)

theorem byteLen_cons (c : Char) (text : List Char) :
    byteLen (c :: text) = c.utf8Size + byteLen text := by
  rw [byteLen, Utf8.encode_cons, length_append, String.length_utf8EncodeChar, byteLen]

theorem splitBytes_append (before after : List Char) :
    splitBytes (before ++ after) (byteLen before) = (before, after) := by
  induction before with
  | nil =>
    cases after with
    | nil => rfl
    | cons c after =>
      rw [nil_append, splitBytes]
      exact if_neg (Nat.not_le.mpr c.utf8Size_pos)
  | cons c before ih =>
    rw [cons_append, splitBytes, byteLen_cons, if_pos (Nat.le_add_right _ _),
      Nat.add_sub_cancel_left, ih]

/-- The first byte of a character continues none. -/
theorem isCharBoundary_append (before after : List Char) :
    isCharBoundary (before ++ after) (byteLen before) = true := by
  have hfirst (b : UInt8) (hb : b.IsUTF8FirstByte) : (!(0x80 ≤ b && b < 0xc0)) = true := by
    have hall : ∀ n : Fin 256, (UInt8.ofNat n).IsUTF8FirstByte →
        (!(0x80 ≤ UInt8.ofNat n && UInt8.ofNat n < 0xc0)) = true := by decide +kernel
    have hof : UInt8.ofNat b.toNat = b := UInt8.ofNat_toNat
    exact hof ▸ hall ⟨b.toNat, b.toNat_lt⟩ (hof.symm ▸ hb)
  cases after with
  | nil =>
    rw [append_nil, isCharBoundary, byteLen, getElem?_eq_none (Nat.le_refl _)]
    exact decide_eq_true rfl
  | cons c after =>
    have hlt : 0 < (String.utf8EncodeChar c).length := by
      rw [String.length_utf8EncodeChar]
      exact c.utf8Size_pos
    have hbyte : (Utf8.encode (before ++ c :: after))[byteLen before]? =
        some (String.utf8EncodeChar c)[0] := by
      rw [Utf8.encode_append, byteLen, getElem?_append_right (Nat.le_refl _), Nat.sub_self,
        Utf8.encode_cons, getElem?_append_left hlt, getElem?_eq_getElem hlt]
    rw [isCharBoundary, hbyte]
    exact hfirst _ (UInt8.isUTF8FirstByte_getElem_utf8EncodeChar.mpr rfl)

structure LineBuffer where
  buf : List Char
  cursor : Nat
  kill_ring : List Char
  deriving DecidableEq, Repr

namespace LineBuffer

def new : LineBuffer := { buf := [], cursor := 0, kill_ring := [] }

variable (line : LineBuffer)

def before : List Char := (splitBytes line.buf line.cursor).1
def after : List Char := (splitBytes line.buf line.cursor).2

/-- The byte at `offset` of the text is ASCII. -/
def asciiAt (offset : Nat) : Option Char :=
  ((Utf8.encode line.buf)[offset]?).bind fun byte =>
    if byte < 0x80 then some (Char.ofNat byte.toNat) else none

/-! ## Boundaries -/

/-- Back to the next character boundary at or in front of a position. -/
def boundaryBack : Nat → Nat
  | 0 => 0
  | pos + 1 => if isCharBoundary line.buf (pos + 1) then pos + 1 else boundaryBack pos

def prevCharBoundary : Nat :=
  if line.cursor = 0 then 0
  else if (line.asciiAt (line.cursor - 1)).isSome then line.cursor - 1
  else line.boundaryBack (line.cursor - 1)

/-- On to the next character boundary at or behind a position. -/
def boundaryOn : Nat → Nat → Nat
  | 0, pos => pos
  | fuel + 1, pos =>
    if pos < byteLen line.buf ∧ !isCharBoundary line.buf pos then boundaryOn fuel (pos + 1)
    else pos

def nextCharBoundary : Nat :=
  let next := line.cursor + 1
  if byteLen line.buf ≤ next then byteLen line.buf
  else if (line.asciiAt line.cursor).isSome then next
  else min (line.boundaryOn (byteLen line.buf) next) (byteLen line.buf)

def charBeforeCursor : Option Char :=
  if line.cursor = 0 then none
  else (line.asciiAt (line.cursor - 1)).or line.before.getLast?

def charAtCursor : Option Char :=
  if byteLen line.buf ≤ line.cursor then none
  else (line.asciiAt line.cursor).or line.after.head?

/-! ## Edits -/

def set (s : List Char) : LineBuffer := { line with buf := s, cursor := byteLen s }

/-- `set_with_cursor` -/
def setWithCursor (line : LineBuffer) (s : List Char) (cursor : Nat) : LineBuffer :=
  let line := { line with buf := s }
  { line with cursor := line.boundaryBack (min cursor (byteLen s)) }

def insertStr (s : List Char) : LineBuffer :=
  { line with buf := line.before ++ s ++ line.after, cursor := line.cursor + byteLen s }

def insertChar (c : Char) : LineBuffer := line.insertStr [c]

/-- `self.buf.drain(start..end)` -/
def drain (start stop : Nat) : LineBuffer :=
  { line with buf := (splitBytes line.buf start).1 ++ (splitBytes line.buf stop).2 }

def deleteBack : LineBuffer :=
  if line.cursor = 0 then line
  else
    let prev := line.prevCharBoundary
    { line.drain prev line.cursor with cursor := prev }

def deleteForward : LineBuffer :=
  if byteLen line.buf ≤ line.cursor then line
  else line.drain line.cursor line.nextCharBoundary

/-! ## Motions -/

def moveLeft : LineBuffer :=
  if line.cursor = 0 then line else { line with cursor := line.prevCharBoundary }

def moveRight : LineBuffer :=
  if byteLen line.buf ≤ line.cursor then line else { line with cursor := line.nextCharBoundary }

def moveHome : LineBuffer := { line with cursor := 0 }

def moveEnd : LineBuffer := { line with cursor := byteLen line.buf }

/-- The cursor that the loops of the word motions end with. -/
def leftWhile (p : Char → Bool) : Nat → LineBuffer → LineBuffer
  | 0, line => line
  | fuel + 1, line =>
    if 0 < line.cursor ∧ line.charBeforeCursor.any p then
      leftWhile p fuel { line with cursor := line.prevCharBoundary }
    else line

def rightWhile (p : Char → Bool) : Nat → LineBuffer → LineBuffer
  | 0, line => line
  | fuel + 1, line =>
    if line.cursor < byteLen line.buf ∧ line.charAtCursor.any p then
      rightWhile p fuel { line with cursor := line.nextCharBoundary }
    else line

def moveWordLeft : LineBuffer :=
  let line := leftWhile Text.isWhitespace line.cursor line
  leftWhile (!Text.isWhitespace ·) line.cursor line

def moveWordRight : LineBuffer :=
  let line := rightWhile (!Text.isWhitespace ·) (byteLen line.buf) line
  rightWhile Text.isWhitespace (byteLen line.buf) line

/-! ## Kills -/

def killToEnd : LineBuffer :=
  if line.cursor < byteLen line.buf then
    { line with kill_ring := line.after, buf := line.before }
  else line

def killToStart : LineBuffer :=
  if 0 < line.cursor then
    { line with kill_ring := line.before, buf := line.after, cursor := 0 }
  else line

def killWordBack : LineBuffer :=
  let moved := line.moveWordLeft
  if moved.cursor < line.cursor then
    { moved.drain moved.cursor line.cursor with
      kill_ring := (splitBytes line.before moved.cursor).2 }
  else moved

def yank : LineBuffer :=
  if line.kill_ring = [] then line else line.insertStr line.kill_ring

end LineBuffer

/-! ## The cursor between characters -/

theorem boundaryBack_eq {line : LineBuffer} {pos}
    (h : isCharBoundary line.buf pos = true) : line.boundaryBack pos = pos := by
  cases pos with
  | zero => rfl
  | succ pos => rw [LineBuffer.boundaryBack, if_pos h]

theorem setWithCursor_append (line : LineBuffer) (before after : List Char) :
    line.setWithCursor (before ++ after) (byteLen before) =
      { line with buf := before ++ after, cursor := byteLen before } := by
  have hlen : byteLen before ≤ byteLen (before ++ after) := by
    rw [byteLen, byteLen, Utf8.encode_append, length_append]
    exact Nat.le_add_right _ _
  rw [LineBuffer.setWithCursor, Nat.min_eq_left hlen]
  dsimp only
  rw [boundaryBack_eq (isCharBoundary_append before after)]

/-- The offset is one between two characters, or an end. -/
def IsBoundary (text : List Char) (offset : Nat) : Prop :=
  ∃ before after, text = before ++ after ∧ byteLen before = offset

/-- The cursor stands between two characters. -/
def LineBuffer.AtBoundary (line : LineBuffer) : Prop := IsBoundary line.buf line.cursor

namespace LineBuffer

variable (line : LineBuffer)

/-! ## Motions keep the text -/

@[simp] theorem buf_moveLeft : line.moveLeft.buf = line.buf := by
  rw [moveLeft]
  split <;> rfl

@[simp] theorem buf_moveRight : line.moveRight.buf = line.buf := by
  rw [moveRight]
  split <;> rfl

@[simp] theorem buf_moveHome : line.moveHome.buf = line.buf := rfl

@[simp] theorem buf_moveEnd : line.moveEnd.buf = line.buf := rfl

@[simp] theorem buf_leftWhile (p : Char → Bool) (fuel : Nat) :
    (leftWhile p fuel line).buf = line.buf := by
  induction fuel generalizing line with
  | zero => rfl
  | succ fuel ih =>
    rw [leftWhile]
    split
    · exact ih _
    · rfl

@[simp] theorem buf_rightWhile (p : Char → Bool) (fuel : Nat) :
    (rightWhile p fuel line).buf = line.buf := by
  induction fuel generalizing line with
  | zero => rfl
  | succ fuel ih =>
    rw [rightWhile]
    split
    · exact ih _
    · rfl

@[simp] theorem buf_moveWordLeft : line.moveWordLeft.buf = line.buf := by
  simp [moveWordLeft]

@[simp] theorem buf_moveWordRight : line.moveWordRight.buf = line.buf := by
  simp [moveWordRight]

example : ({ buf := "né x".toList, cursor := 5, kill_ring := [] } : LineBuffer).killWordBack =
    { buf := "né ".toList, cursor := 4, kill_ring := ['x'] } := by decide

end LineBuffer

end Ish.Editor
