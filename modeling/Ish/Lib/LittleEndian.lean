import Mathlib.Algebra.GroupWithZero.Nat
import Mathlib.Data.Nat.Basic

/-!
# Little-endian numbers

The low bytes of a number, least significant first, and the number that bytes
spell. The fixed-width faces at the end are the ones a file format names.
-/

namespace Ish.Lib.LittleEndian

/-- The low `k` bytes of `n`. -/
def bytes : Nat → Nat → List UInt8
  | 0, _ => []
  | k + 1, n => UInt8.ofNat n :: bytes k (n / 256)

/-- The number that `bs` spell. -/
def value : List UInt8 → Nat
  | [] => 0
  | b :: bs => b.toNat + 256 * value bs

@[simp] theorem length_bytes (k n : Nat) : (bytes k n).length = k := by
  induction k generalizing n with
  | zero => rfl
  | succ k ih => rw [bytes, List.length_cons, ih]

theorem value_bytes (k n : Nat) : value (bytes k n) = n % 256 ^ k := by
  induction k generalizing n with
  | zero => simp [bytes, value, Nat.mod_one]
  | succ k ih =>
    have hbyte : (UInt8.ofNat n).toNat = n % 256 := by simp
    rw [bytes, value, ih, hbyte, Nat.pow_succ', Nat.mod_mul]

theorem value_lt (bs : List UInt8) : value bs < 256 ^ bs.length := by
  induction bs with
  | nil => exact Nat.one_pos
  | cons b bs ih =>
    have hb := b.toNat_lt
    rw [value, List.length_cons, Nat.pow_succ']
    omega

/-- The bytes are the only ones that spell their number in this width. -/
theorem bytes_value (bs : List UInt8) : bytes bs.length (value bs) = bs := by
  induction bs with
  | nil => rfl
  | cons b bs ih =>
    have hb : b.toNat < 256 := b.toNat_lt
    have hlow : UInt8.ofNat (b.toNat + 256 * value bs) = b := by
      rw [← UInt8.toNat_inj, UInt8.toNat_ofNat', Nat.add_mul_mod_self_left,
        Nat.mod_eq_of_lt hb]
    have hhigh : (b.toNat + 256 * value bs) / 256 = value bs := by omega
    rw [value, List.length_cons, bytes, hlow, hhigh, ih]

/-! ## Fixed widths -/

def u32 (n : UInt32) : List UInt8 := bytes 4 n.toNat
def u64 (n : UInt64) : List UInt8 := bytes 8 n.toNat
def i64 (n : Int64) : List UInt8 := u64 n.toUInt64

def toU32 (bs : List UInt8) : UInt32 := UInt32.ofNat (value bs)
def toU64 (bs : List UInt8) : UInt64 := UInt64.ofNat (value bs)
def toI64 (bs : List UInt8) : Int64 := (toU64 bs).toInt64

@[simp] theorem length_u32 (n : UInt32) : (u32 n).length = 4 := length_bytes ..
@[simp] theorem length_u64 (n : UInt64) : (u64 n).length = 8 := length_bytes ..
@[simp] theorem length_i64 (n : Int64) : (i64 n).length = 8 := length_bytes ..

@[simp] theorem toU32_u32 (n : UInt32) : toU32 (u32 n) = n := by
  have hlt : n.toNat < 256 ^ 4 := n.toNat_lt
  rw [toU32, u32, value_bytes, Nat.mod_eq_of_lt hlt]
  exact UInt32.ofNat_toNat

@[simp] theorem toU64_u64 (n : UInt64) : toU64 (u64 n) = n := by
  have hlt : n.toNat < 256 ^ 8 := n.toNat_lt
  rw [toU64, u64, value_bytes, Nat.mod_eq_of_lt hlt]
  exact UInt64.ofNat_toNat

@[simp] theorem toI64_i64 (n : Int64) : toI64 (i64 n) = n := by
  rw [toI64, i64, toU64_u64]
  exact Int64.toInt64_toUInt64 n

theorem u32_toU32 {bs} (h : bs.length = 4) : u32 (toU32 bs) = bs := by
  have hlt : value bs < 2 ^ 32 := by
    have hvalue := value_lt bs
    rw [h] at hvalue
    exact hvalue
  rw [u32, toU32, UInt32.toNat_ofNat', Nat.mod_eq_of_lt hlt, ← h, bytes_value]

theorem u64_toU64 {bs} (h : bs.length = 8) : u64 (toU64 bs) = bs := by
  have hlt : value bs < 2 ^ 64 := by
    have hvalue := value_lt bs
    rw [h] at hvalue
    exact hvalue
  rw [u64, toU64, UInt64.toNat_ofNat', Nat.mod_eq_of_lt hlt, ← h, bytes_value]

theorem i64_toI64 {bs} (h : bs.length = 8) : i64 (toI64 bs) = bs := by
  rw [i64, toI64, UInt64.toUInt64_toInt64, u64_toU64 h]

end Ish.Lib.LittleEndian
