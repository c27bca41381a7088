import Mathlib.Logic.Function.Iterate

/-!
# Terminal — cells on rows of a fixed width

A terminal writes a line cell by cell. Behind the last cell of a row it waits: the next cell
starts a row, and so does the next line.
-/

namespace Ish.Lib.Terminal

/-- A row, and the cells that stand in it. -/
structure Pos where
  row : Nat
  col : Nat
  deriving DecidableEq

variable (cols : Nat)

def put (pos : Pos) : Pos :=
  if pos.col = cols then ⟨pos.row + 1, 1⟩ else ⟨pos.row, pos.col + 1⟩

/-- Behind the first `width` cells of a line that starts at a row. -/
def write (row width : Nat) : Pos := (put cols)^[width] ⟨row, 0⟩

/-- Where the next cell stands. -/
def settle (pos : Pos) : Pos := if pos.col = cols then ⟨pos.row + 1, 0⟩ else pos

/-- The row behind some lines. -/
def rowBehind : List Nat → Nat → Nat
  | [], row => row
  | width :: widths, row => rowBehind widths ((write cols row width).row + 1)

/-! ## Division -/

theorem succ_div_mod {cols} (hcols : 0 < cols) (n : Nat) :
    (n % cols + 1 = cols → (n + 1) / cols = n / cols + 1 ∧ (n + 1) % cols = 0) ∧
      (n % cols + 1 ≠ cols → (n + 1) / cols = n / cols ∧ (n + 1) % cols = n % cols + 1) := by
  have hn := Nat.div_add_mod n cols
  have hlt := Nat.mod_lt n hcols
  refine ⟨fun hfull => ?_, fun hnot => ?_⟩
  · have heq : n + 1 = cols * (n / cols + 1) := by
      rw [Nat.mul_add, Nat.mul_one]
      omega
    rw [heq, Nat.mul_div_cancel_left _ hcols, Nat.mul_mod_right]
    exact ⟨rfl, rfl⟩
  · have heq : n + 1 = n % cols + 1 + cols * (n / cols) := by omega
    rw [heq, Nat.add_mul_div_left _ _ hcols, Nat.div_eq_of_lt (by omega), Nat.zero_add,
      Nat.add_mul_mod_self_left, Nat.mod_eq_of_lt (by omega)]
    exact ⟨rfl, rfl⟩

/-! ## Cells of a line -/

section

variable {cols : Nat} (hcols : 0 < cols)

include hcols

theorem write_succ (row n : Nat) : write cols row (n + 1) = ⟨row + n / cols, n % cols + 1⟩ := by
  induction n with
  | zero =>
    rw [Nat.zero_div, Nat.zero_mod]
    exact if_neg (Nat.ne_of_lt hcols)
  | succ n ih =>
    obtain ⟨hfull, hnot⟩ := succ_div_mod hcols n
    rw [write, Function.iterate_succ_apply', ← write, ih, put]
    by_cases h : n % cols + 1 = cols
    · rw [if_pos h, (hfull h).1, (hfull h).2, Nat.add_assoc]
    · rw [if_neg h, (hnot h).1, (hnot h).2]

/-- The next cell of a line stands where its number says. -/
theorem settle_write (row width : Nat) :
    settle cols (write cols row width) = ⟨row + width / cols, width % cols⟩ := by
  cases width with
  | zero =>
    rw [Nat.zero_div, Nat.zero_mod]
    exact if_neg (Nat.ne_of_lt hcols)
  | succ n =>
    obtain ⟨hfull, hnot⟩ := succ_div_mod hcols n
    rw [write_succ hcols, settle]
    by_cases h : n % cols + 1 = cols
    · rw [if_pos h, (hfull h).1, (hfull h).2, Nat.add_assoc]
    · rw [if_neg h, (hnot h).1, (hnot h).2]

theorem row_write (row width : Nat) : (write cols row width).row = row + (width - 1) / cols := by
  cases width with
  | zero =>
    rw [Nat.zero_sub, Nat.zero_div]
    rfl
  | succ n =>
    rw [write_succ hcols]
    rfl

theorem rowBehind_cons (width row : Nat) (widths : List Nat) :
    rowBehind cols (width :: widths) row = rowBehind cols widths (row + (width - 1) / cols + 1) := by
  rw [rowBehind, row_write hcols]

theorem le_rowBehind (widths : List Nat) (row : Nat) : row ≤ rowBehind cols widths row := by
  induction widths generalizing row with
  | nil => exact Nat.le_refl row
  | cons width widths ih =>
    rw [rowBehind_cons hcols]
    exact Nat.le_trans (Nat.le_succ_of_le (Nat.le_add_right row _)) (ih _)

/-- A line waits at the end of a row if its cells fill its rows. -/
theorem col_write_eq_iff {row width} :
    (write cols row width).col = cols ↔ 0 < width ∧ width % cols = 0 := by
  cases width with
  | zero => exact iff_of_false (Nat.ne_of_lt hcols) fun h => Nat.lt_irrefl 0 h.1
  | succ n =>
    obtain ⟨hfull, hnot⟩ := succ_div_mod hcols n
    rw [write_succ hcols]
    by_cases h : n % cols + 1 = cols
    · exact iff_of_true h ⟨Nat.succ_pos n, (hfull h).2⟩
    · refine iff_of_false h fun hzero => ?_
      rw [(hnot h).2] at hzero
      exact nomatch hzero.2

omit hcols in
theorem rowBehind_append (widths more : List Nat) (row : Nat) :
    rowBehind cols (widths ++ more) row = rowBehind cols more (rowBehind cols widths row) := by
  induction widths generalizing row with
  | nil => rfl
  | cons width widths ih => rw [List.cons_append, rowBehind, rowBehind, ih]

end

end Ish.Lib.Terminal
