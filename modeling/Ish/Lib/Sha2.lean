import Mathlib.Data.Nat.Find
import Mathlib.Data.Nat.Prime.Basic
import Mathlib.Data.Fin.VecNotation
import Mathlib.Data.List.Induction

/-!
# The secure hash standard — SHA-256

The digest of a message of bits: its padding, the words of a block, the message schedule and
the rounds. The constants are the first bits of the roots of the first primes.
-/

namespace Ish.Lib.Sha2

open List

/-! ## Bits -/

/-- The `width` bits of a number, the highest one first. -/
def bitsOf (width n : Nat) : List Bool := (List.range width).map fun i => n.testBit (width - 1 - i)

def number (bits : List Bool) : Nat := bits.foldl (fun n bit => 2 * n + bit.toNat) 0

/-- A one, zeros, and the length in the last 64 bits of a block. -/
def padded (message : List Bool) : List Bool :=
  message ++ true :: List.replicate ((959 - message.length % 512) % 512) false ++
    bitsOf 64 message.length

/-- The `t`-th word of the `i`-th block. -/
def word (bits : List Bool) (i t : Nat) : BitVec 32 :=
  BitVec.ofNat 32 (number ((bits.drop (512 * i + 32 * t)).take 32))

/-! ## Constants -/

/-- The whole part of a root. -/
def root (n a : Nat) : Nat := Nat.findGreatest (fun r => r ^ n ≤ a) a

/-- The first 32 bits of the fractional part of a root. -/
def fraction (n p : Nat) : BitVec 32 := BitVec.ofNat 32 (root n (p * 2 ^ (32 * n)))

def primes : List Nat := (List.range 312).filter fun n => n.Prime

def K (t : Nat) : BitVec 32 := fraction 3 (primes.getD t 0)

abbrev Hash := Fin 8 → BitVec 32

def initial : Hash := fun i => fraction 2 (primes.getD i 0)

/-! ## Compression -/

/-- The message schedule of a block. -/
def schedule (M : Nat → BitVec 32) (t : Nat) : BitVec 32 :=
  if t < 16 then M t
  else
    let σ₀ (x : BitVec 32) := x.rotateRight 7 ^^^ x.rotateRight 18 ^^^ x >>> 3
    let σ₁ (x : BitVec 32) := x.rotateRight 17 ^^^ x.rotateRight 19 ^^^ x >>> 10
    σ₁ (schedule M (t - 2)) + schedule M (t - 7) + σ₀ (schedule M (t - 15)) + schedule M (t - 16)

def round (k w : BitVec 32) (v : Hash) : Hash :=
  let Ch := (v 4 &&& v 5) ^^^ (~~~v 4 &&& v 6)
  let Maj := (v 0 &&& v 1) ^^^ (v 0 &&& v 2) ^^^ (v 1 &&& v 2)
  let Sigma₀ := (v 0).rotateRight 2 ^^^ (v 0).rotateRight 13 ^^^ (v 0).rotateRight 22
  let Sigma₁ := (v 4).rotateRight 6 ^^^ (v 4).rotateRight 11 ^^^ (v 4).rotateRight 25
  let T₁ := v 7 + Sigma₁ + Ch + k + w
  let T₂ := Sigma₀ + Maj
  ![T₁ + T₂, v 0, v 1, v 2, v 3 + T₁, v 4, v 5, v 6]

def compress (M : Nat → BitVec 32) (H : Hash) : Hash :=
  let v := (List.range 64).foldl (fun v t => round (K t) (schedule M t) v) H
  fun i => H i + v i

/-- The digest of a message. -/
def digest (message : List Bool) : List Bool :=
  let bits := padded message
  let H := (List.range (bits.length / 512)).foldl (fun H i => compress (word bits i) H) initial
  (List.ofFn H).flatMap fun w => bitsOf 32 w.toNat

/-- Lowercase hexadecimal. -/
def hex : List Bool → List Char
  | a :: b :: c :: d :: rest => Nat.digitChar (number [a, b, c, d]) :: hex rest
  | _ => []

/-! ## Roots -/

theorem root_eq {n a r} (hn : n ≠ 0) (hle : r ^ n ≤ a) (hlt : a < (r + 1) ^ n) :
    root n a = r := by
  refine (Nat.findGreatest_eq_iff).mpr ⟨?_, fun _ => hle, fun s hs _ hs' => ?_⟩
  · exact (Nat.le_self_pow hn r).trans hle
  · exact absurd (hlt.trans_le ((Nat.pow_le_pow_left hs n).trans hs')) (lt_irrefl a)

/-- A word with a whole part in front of it is the first 32 bits of the fraction if the two
are the root. -/
theorem fraction_eq {n p whole w} (hn : n ≠ 0)
    (hle : (2 ^ 32 * whole + w.toNat) ^ n ≤ p * 2 ^ (32 * n))
    (hlt : p * 2 ^ (32 * n) < (2 ^ 32 * whole + w.toNat + 1) ^ n) : fraction n p = w := by
  rw [fraction, root_eq hn hle hlt]
  apply BitVec.eq_of_toNat_eq
  rw [BitVec.toNat_ofNat, Nat.mul_add_mod]
  exact Nat.mod_eq_of_lt w.isLt

theorem primes_eq : primes = (List.range 312).filter fun n =>
    2 ≤ n ∧ ∀ m < n, m ∣ n → m = 1 :=
  filter_congr fun _ _ => decide_eq_decide.mpr Nat.prime_def_lt

/-! ## Numbers -/

theorem length_bitsOf (width n : Nat) : (bitsOf width n).length = width := by
  rw [bitsOf, length_map, length_range]

theorem bitsOf_add (a b n : Nat) : bitsOf (a + b) n = bitsOf a (n / 2 ^ b) ++ bitsOf b n := by
  unfold bitsOf
  rw [range_add, map_append, map_map]
  congr 1
  · refine map_congr_left fun i hi => ?_
    have hindex : a + b - 1 - i = a - 1 - i + b := by
      have := mem_range.mp hi
      omega
    rw [Nat.testBit_div_two_pow, hindex]
  · refine map_congr_left fun i _ => ?_
    have hindex : a + b - 1 - (a + i) = b - 1 - i := by omega
    rw [Function.comp, hindex]

theorem bitsOf_mod (width n : Nat) : bitsOf width (n % 2 ^ width) = bitsOf width n := by
  refine map_congr_left fun i hi => ?_
  have hlt : width - 1 - i < width := by
    have := mem_range.mp hi
    omega
  rw [Nat.testBit_mod_two_pow, decide_eq_true hlt, Bool.true_and]

theorem number_concat (bits : List Bool) (bit : Bool) :
    number (bits ++ [bit]) = 2 * number bits + bit.toNat := by
  rw [number, foldl_append]
  rfl

theorem number_append (a b : List Bool) : number (a ++ b) = 2 ^ b.length * number a + number b := by
  induction b using List.reverseRecOn with
  | nil => simp [number]
  | append_singleton b bit ih =>
    rw [← append_assoc, number_concat, ih, number_concat, length_append, length_singleton,
      Nat.pow_succ', Nat.mul_assoc]
    omega

theorem number_bitsOf (width n : Nat) : number (bitsOf width n) = n % 2 ^ width := by
  induction width generalizing n with
  | zero => rw [Nat.pow_zero, Nat.mod_one]; rfl
  | succ width ih =>
    have hlast : (Nat.testBit n 0).toNat = n % 2 := by
      rw [Nat.testBit_zero]
      rcases Nat.mod_two_eq_zero_or_one n with h | h <;> rw [h] <;> rfl
    have hsplit : bitsOf (width + 1) n = bitsOf width (n / 2) ++ [n.testBit 0] := bitsOf_add width 1 n
    rw [hsplit, number_concat, ih, hlast, Nat.pow_succ', Nat.mod_mul, Nat.add_comm]

theorem hex_bitsOf (n : Nat) (rest : List Bool) :
    hex (bitsOf 4 n ++ rest) = Nat.digitChar (n % 16) :: hex rest :=
  congrArg (Nat.digitChar · :: hex rest) (number_bitsOf 4 n)

/-! ## Bits of bytes -/

/-- The bits of a message of bytes. -/
def toBits (bytes : List UInt8) : List Bool := bytes.flatMap fun byte => bitsOf 8 byte.toNat

@[simp] theorem toBits_append (a b : List UInt8) : toBits (a ++ b) = toBits a ++ toBits b :=
  flatMap_append

@[simp] theorem length_toBits (bytes : List UInt8) : (toBits bytes).length = 8 * bytes.length := by
  induction bytes with
  | nil => rfl
  | cons byte bytes ih =>
    rw [toBits, flatMap_cons, length_append, length_bitsOf, ← toBits, ih, length_cons]
    omega

theorem take_toBits (bytes : List UInt8) (n : Nat) :
    (toBits bytes).take (8 * n) = toBits (bytes.take n) := by
  rcases Nat.le_total n bytes.length with h | h
  · conv_lhs => rw [← take_append_drop n bytes, toBits_append]
    exact take_left' (by rw [length_toBits, length_take_of_le h])
  · rw [take_of_length_le h, take_of_length_le (by rw [length_toBits]; omega)]

theorem drop_toBits (bytes : List UInt8) (n : Nat) :
    (toBits bytes).drop (8 * n) = toBits (bytes.drop n) := by
  apply @append_cancel_left _ ((toBits bytes).take (8 * n))
  rw [take_append_drop, take_toBits, ← toBits_append, take_append_drop]

theorem toBits_cons (byte : UInt8) (bytes : List UInt8) :
    toBits (byte :: bytes) = bitsOf 8 byte.toNat ++ toBits bytes := rfl

theorem number_toBits_concat (bytes : List UInt8) (byte : UInt8) :
    number (toBits (bytes ++ [byte])) = 256 * number (toBits bytes) + byte.toNat := by
  rw [toBits_append, number_append, length_toBits, toBits_cons, number_append, number_bitsOf,
    Nat.mod_eq_of_lt byte.toNat_lt]
  simp [toBits, number]

theorem word_toBits (bytes : List UInt8) (i t : Nat) :
    word (toBits bytes) i t =
      BitVec.ofNat 32 (number (toBits ((bytes.drop (64 * i + 4 * t)).take 4))) := by
  have hindex : 512 * i + 32 * t = 8 * (64 * i + 4 * t) := by omega
  rw [word, hindex, drop_toBits, ← take_toBits]

end Ish.Lib.Sha2
