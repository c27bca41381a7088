import Mathlib.Data.List.Basic
import Mathlib.Data.List.DropRight

/-!
# Cutting text into lines and parts

What the standard library's `split_once`, `split_terminator` and `lines` do,
over lists of characters.
-/

namespace Ish.Lib.Text

open List

/-- The text before and after the first `c`. -/
def splitOnce (c : Char) : List Char → Option (List Char × List Char)
  | [] => none
  | x :: xs =>
    if x = c then some ([], xs)
    else (splitOnce c xs).map fun (before, after) => (x :: before, after)

/-- Pieces that end in `c`, and a last one that need not. -/
def splitInclusive (c : Char) : List Char → List (List Char)
  | [] => []
  | x :: xs =>
    if x = c then [x] :: splitInclusive c xs
    else match splitInclusive c xs with
      | [] => [[x]]
      | piece :: pieces => (x :: piece) :: pieces

/-- The text without a last `c`, or the text when it ends otherwise. -/
def stripSuffix (c : Char) (line : List Char) : List Char :=
  if line.getLast? = some c then line.dropLast else line

def splitTerminator (c : Char) (text : List Char) : List (List Char) :=
  (splitInclusive c text).map (stripSuffix c)

/-- `str::lines`: a `\r` goes with the `\n` it stands before. -/
def lines (text : List Char) : List (List Char) :=
  (splitInclusive '\n' text).map fun line =>
    if line.getLast? = some '\n' then stripSuffix '\r' line.dropLast else line

/-- `char::is_whitespace`, the Unicode property `White_Space`. -/
def isWhitespace (c : Char) : Bool :=
  let n := c.toNat
  n == 0x20 || (0x09 ≤ n && n ≤ 0x0D) || n == 0x85 || n == 0xA0 || n == 0x1680 ||
    (0x2000 ≤ n && n ≤ 0x200A) || n == 0x2028 || n == 0x2029 || n == 0x202F ||
    n == 0x205F || n == 0x3000

/-- `str::trim` -/
def trim (text : List Char) : List Char :=
  (text.dropWhile isWhitespace).rdropWhile isWhitespace

variable {c : Char}

/-- A text that trimming does not shorten is not changed by it. -/
theorem trim_eq_self {text} (h : text.length ≤ (trim text).length) :
    trim text = text := by
  have hback := List.rdropWhile_prefix isWhitespace (text.dropWhile isWhitespace)
  have hfront := dropWhile_suffix (l := text) isWhitespace
  have hmiddle : trim text = text.dropWhile isWhitespace := by
    refine hback.eq_of_length_le ?_
    exact hfront.length_le.trans h
  rw [hmiddle] at h ⊢
  exact hfront.eq_of_length_le h

theorem length_trim_le (text : List Char) : (trim text).length ≤ text.length :=
  (List.rdropWhile_prefix isWhitespace (text.dropWhile isWhitespace)).length_le.trans
    (dropWhile_suffix isWhitespace).length_le

theorem splitOnce_append {before} (h : c ∉ before) (after : List Char) :
    splitOnce c (before ++ c :: after) = some (before, after) := by
  induction before with
  | nil => simp [splitOnce]
  | cons x before ih =>
    simp only [mem_cons, not_or] at h
    rw [cons_append, splitOnce, if_neg (Ne.symm h.1), ih h.2]
    rfl

theorem splitInclusive_append {line} (h : c ∉ line) (rest : List Char) :
    splitInclusive c (line ++ c :: rest) = (line ++ [c]) :: splitInclusive c rest := by
  induction line with
  | nil => simp [splitInclusive]
  | cons x line ih =>
    simp only [mem_cons, not_or] at h
    rw [cons_append, splitInclusive, if_neg (Ne.symm h.1), ih h.2]
    rfl

theorem splitTerminator_append {line} (h : c ∉ line) (rest : List Char) :
    splitTerminator c (line ++ c :: rest) = line :: splitTerminator c rest := by
  rw [splitTerminator, splitInclusive_append h, map_cons]
  simp [stripSuffix, splitTerminator]

@[simp] theorem splitTerminator_nil : splitTerminator c [] = [] := rfl

/-- Lines written one after another, each closed by `c`, are read back. -/
theorem splitTerminator_flatMap {lines} (h : ∀ line ∈ lines, c ∉ line) :
    splitTerminator c (lines.flatMap fun line => line ++ [c]) = lines := by
  induction lines with
  | nil => rfl
  | cons line lines ih =>
    have hline : c ∉ line := h line (by simp)
    rw [flatMap_cons, append_assoc, singleton_append,
      splitTerminator_append hline, ih fun l hl => h l (by simp [hl])]

end Ish.Lib.Text
