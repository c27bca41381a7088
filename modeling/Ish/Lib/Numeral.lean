import Mathlib.Algebra.Group.Int.Defs
import Mathlib.Algebra.GroupWithZero.Nat
import Mathlib.Data.List.Basic

/-!
# Decimal numerals of fixed-width integers

What the standard library's `FromStr` and `to_string` do for `u64` and `i64`,
over lists of characters: an optional sign, at least one digit, nothing else,
and no value out of range.
-/

namespace Ish.Lib.Numeral

/-- One or more decimal digits. -/
def parseDigits (cs : List Char) : Option Nat :=
  if cs ≠ [] ∧ cs.all Char.isDigit then some (Nat.ofDigitChars 10 cs 0) else none

/-- The text after one optional `+`. -/
def stripPlus : List Char → List Char
  | '+' :: ds => ds
  | ds => ds

/-- The value of a numeral that may carry either sign. -/
def parseInt : List Char → Option Int
  | '-' :: ds => (parseDigits ds).map fun n => -Int.ofNat n
  | ds => (parseDigits (stripPlus ds)).map Int.ofNat

def parseU64 (cs : List Char) : Option UInt64 :=
  (parseDigits (stripPlus cs)).bind fun n =>
    if n < 2 ^ 64 then some (UInt64.ofNat n) else none

def parseI64 (cs : List Char) : Option Int64 :=
  (parseInt cs).bind fun n =>
    if -(2 ^ 63) ≤ n ∧ n < 2 ^ 63 then some (Int64.ofInt n) else none

def u64ToString (n : UInt64) : List Char := Nat.toDigits 10 n.toNat

def i64ToString (n : Int64) : List Char :=
  if n.toInt < 0 then '-' :: Nat.toDigits 10 n.toInt.natAbs
  else Nat.toDigits 10 n.toInt.natAbs

theorem isDigit_of_mem_toDigits {n c}
    (h : c ∈ Nat.toDigits 10 n) : c.isDigit = true :=
  Nat.isDigit_of_mem_toDigits (by decide) (by decide) h

@[simp] theorem parseDigits_toDigits (n : Nat) : parseDigits (Nat.toDigits 10 n) = some n := by
  have hall : ∀ c ∈ Nat.toDigits 10 n, c.isDigit = true :=
    fun c hc => isDigit_of_mem_toDigits hc
  rw [parseDigits, if_pos ⟨Nat.toDigits_ne_nil, by rwa [List.all_eq_true]⟩,
    Nat.ofDigitChars_ten_toDigits]

theorem toDigits_ne_sign (n : Nat) (c : Char) (ds : List Char)
    (hc : c.isDigit = false) : Nat.toDigits 10 n ≠ c :: ds := by
  intro h
  have hmem : c ∈ Nat.toDigits 10 n := by simp [h]
  rw [isDigit_of_mem_toDigits hmem] at hc
  cases hc

@[simp] theorem stripPlus_toDigits (n : Nat) :
    stripPlus (Nat.toDigits 10 n) = Nat.toDigits 10 n := by
  rw [stripPlus.eq_def]
  split
  · next ds heq => exact absurd heq (toDigits_ne_sign _ '+' ds (by decide))
  · rfl

@[simp] theorem parseInt_toDigits (n : Nat) :
    parseInt (Nat.toDigits 10 n) = some (Int.ofNat n) := by
  rw [parseInt.eq_def]
  split
  · next ds heq => exact absurd heq (toDigits_ne_sign _ '-' ds (by decide))
  · simp

@[simp] theorem parseU64_u64ToString (n : UInt64) : parseU64 (u64ToString n) = some n := by
  simpa [parseU64, u64ToString] using n.toNat_lt

@[simp] theorem parseI64_i64ToString (n : Int64) : parseI64 (i64ToString n) = some n := by
  have hle := n.le_toInt
  have hlt := n.toInt_lt
  have hparse : parseInt (i64ToString n) = some n.toInt := by
    rw [i64ToString]
    split
    · have habs : -Int.ofNat n.toInt.natAbs = n.toInt := by
        simp only [Int.ofNat_eq_natCast]
        omega
      simp only [parseInt, parseDigits_toDigits, Option.map_some, habs]
    · have habs : Int.ofNat n.toInt.natAbs = n.toInt := by
        simp only [Int.ofNat_eq_natCast]
        omega
      rw [parseInt_toDigits, habs]
  rw [parseI64, hparse, Option.bind_some, if_pos ⟨hle, hlt⟩]
  simp

end Ish.Lib.Numeral
