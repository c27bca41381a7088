import Ish.Lib.Utf8

/-!
# ASCII — letter case, and text that is one byte a character
-/

namespace Ish.Lib.Ascii

/-- `u8::to_ascii_lowercase` -/
def lowercase (b : UInt8) : UInt8 := if 0x41 ≤ b ∧ b ≤ 0x5a then b + 0x20 else b

/-- `u8::to_ascii_uppercase` -/
def uppercase (b : UInt8) : UInt8 := if 0x61 ≤ b ∧ b ≤ 0x7a then b - 0x20 else b

/-- `str::is_ascii` -/
def isAscii (text : List Char) : Bool := text.all (·.toNat < 0x80)

/-- `c as u8` -/
def byte (c : Char) : UInt8 := c.toNat.toUInt8

/-- `b as char` -/
def char (b : UInt8) : Char := Char.ofNat b.toNat

theorem toNat_of_isAlphanum {c : Char} (h : c.isAlphanum = true) : c.toNat < 0x80 := by
  have hz : 'z'.val.toNat = 122 := rfl
  have hZ : 'Z'.val.toNat = 90 := rfl
  have hnine : '9'.val.toNat = 57 := rfl
  have hval : c.toNat = c.val.toNat := rfl
  unfold Char.isAlphanum Char.isAlpha Char.isUpper Char.isLower Char.isDigit at h
  simp only [Bool.or_eq_true, Bool.and_eq_true, decide_eq_true_iff, ge_iff_le,
    UInt32.le_iff_toNat_le] at h
  omega

theorem toNat_lowercase (b : UInt8) :
    (lowercase b).toNat = if 0x41 ≤ b.toNat ∧ b.toNat ≤ 0x5a then b.toNat + 0x20 else b.toNat := by
  have hb := b.toNat_lt
  simp only [lowercase, UInt8.le_iff_toNat_le, show (0x41 : UInt8).toNat = 0x41 from rfl,
    show (0x5a : UInt8).toNat = 0x5a from rfl]
  split
  · rw [UInt8.toNat_add]
    exact Nat.mod_eq_of_lt (by simp only [show (0x20 : UInt8).toNat = 0x20 from rfl]; omega)
  · rfl

theorem toNat_uppercase (b : UInt8) :
    (uppercase b).toNat = if 0x61 ≤ b.toNat ∧ b.toNat ≤ 0x7a then b.toNat - 0x20 else b.toNat := by
  simp only [uppercase, UInt8.le_iff_toNat_le, show (0x61 : UInt8).toNat = 0x61 from rfl,
    show (0x7a : UInt8).toNat = 0x7a from rfl]
  split
  · rename_i h
    exact UInt8.toNat_sub_of_le _ _ (UInt8.le_iff_toNat_le.mpr
      (Nat.le_trans (show (0x20 : UInt8).toNat ≤ 0x61 by decide) h.1))
  · rfl

@[simp] theorem lowercase_lowercase (b : UInt8) : lowercase (lowercase b) = lowercase b := by
  rw [← UInt8.toNat_inj, toNat_lowercase (lowercase b), toNat_lowercase b]
  grind

theorem eq_or_eq_uppercase {b c} (hb : lowercase b = b) :
    c = b ∨ c = uppercase b ↔ lowercase c = b := by
  have hlow := toNat_lowercase b
  rw [hb] at hlow
  rw [← UInt8.toNat_inj, ← UInt8.toNat_inj, ← UInt8.toNat_inj (a := lowercase c), toNat_uppercase,
    toNat_lowercase]
  split <;> split <;> split at hlow <;> omega

theorem byte_char (b : UInt8) : byte (char b) = b := by
  have hb := b.toNat_lt
  rw [byte, char, Utf8.toNat_charOfNat (Or.inl (by omega))]
  exact UInt8.ofNat_toNat

theorem char_byte {c} (h : c.toNat < 0x80) : char (byte c) = c := by
  rw [char, byte, Nat.toUInt8, UInt8.toNat_ofNat', Nat.mod_eq_of_lt (by omega), Char.ofNat_toNat]

theorem toNat_byte {c} (h : c.toNat < 0x80) : (byte c).toNat = c.toNat := by
  rw [byte, Nat.toUInt8, UInt8.toNat_ofNat', Nat.mod_eq_of_lt (by omega)]

theorem encode_of_isAscii {text} (h : isAscii text = true) :
    Utf8.encode text = text.map byte := by
  induction text with
  | nil => rfl
  | cons c text ih =>
    simp only [isAscii, List.all_cons, Bool.and_eq_true, decide_eq_true_iff] at h
    have hsize : c.utf8Size = 1 := by
      rw [Char.utf8Size_eq_one_iff, UInt32.le_iff_toNat_le]
      exact Nat.le_of_lt_succ h.1
    have hbyte : String.utf8EncodeChar c = [byte c] := String.utf8EncodeChar_eq_singleton hsize
    rw [Utf8.encode_cons, hbyte, ih h.2]
    rfl

end Ish.Lib.Ascii
