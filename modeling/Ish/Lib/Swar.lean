import Ish.Lib.LittleEndian
import Mathlib.Tactic.Ring

/-!
# Swar — searching a byte in a 64-bit word

The lowest bit of `zeroByteMask word` is the top bit of the first zero byte of
the word. Bytes above it may be marked wrongly, by a borrow of the subtraction,
so only the lowest bit counts.
-/

namespace Ish.Lib.Swar

open List

open LittleEndian (value toU64)

def BYTE_WORD_ONES : UInt64 := 0x0101010101010101
def BYTE_WORD_HIGHS : UInt64 := 0x8080808080808080

def zeroByteMask (word : UInt64) : UInt64 :=
  (word - BYTE_WORD_ONES) &&& ~~~word &&& BYTE_WORD_HIGHS

/-- The position of the lowest bit that is set. -/
def trailingZeros (n : UInt64) : Nat := ((List.range 64).find? n.toNat.testBit).getD 64

/-! ## Bytes of a word -/

theorem value_lt (bs : List UInt8) : value bs < 256 ^ bs.length := by
  induction bs with
  | nil => exact Nat.one_pos
  | cons b bs ih =>
    have hb := b.toNat_lt
    rw [value, length_cons, Nat.pow_succ']
    omega

theorem value_append (bs cs : List UInt8) :
    value (bs ++ cs) = value bs + 256 ^ bs.length * value cs := by
  induction bs with
  | nil => simp [value]
  | cons b bs ih =>
    rw [cons_append, value, ih, value, length_cons, Nat.pow_succ']
    ring

variable {bs : List UInt8}

theorem toNat_toU64 (h : bs.length = 8) : (toU64 bs).toNat = value bs := by
  have hlt := value_lt bs
  rw [h] at hlt
  rw [toU64, UInt64.toNat_ofNat']
  exact Nat.mod_eq_of_lt hlt

/-- Bit `j` of byte `i`. -/
theorem testBit_value (bs : List UInt8) (i : Nat) (hj : j < 8) :
    (value bs).testBit (8 * i + j) = (bs.getD i 0).toNat.testBit j := by
  induction bs generalizing i with
  | nil => simp [value]
  | cons b bs ih =>
    have hb : b.toNat < 2 ^ 8 := b.toNat_lt
    rw [value, Nat.add_comm, show (256 : Nat) = 2 ^ 8 from rfl,
      Nat.testBit_two_pow_mul_add _ hb]
    cases i with
    | zero =>
      rw [if_pos (by omega)]
      simp
    | succ i =>
      rw [if_neg (by omega), show 8 * (i + 1) + j - 8 = 8 * i + j by omega, ih]
      simp

/-- Words are equal when their bytes are. -/
theorem eq_value_of_testBit (hn : n < 256 ^ bs.length)
    (h : ∀ i j, i < bs.length → j < 8 →
      n.testBit (8 * i + j) = (bs.getD i 0).toNat.testBit j) : n = value bs := by
  have hpow : 256 ^ bs.length = 2 ^ (8 * bs.length) := by
    rw [show (256 : Nat) = 2 ^ 8 from rfl, ← Nat.pow_mul]
  apply Nat.eq_of_testBit_eq
  intro k
  by_cases hk : k / 8 < bs.length
  · have hsplit : 8 * (k / 8) + k % 8 = k := Nat.div_add_mod k 8
    rw [← hsplit, h _ _ hk (Nat.mod_lt k (by decide)), testBit_value _ _ (Nat.mod_lt k (by decide))]
  · have hlarge : 2 ^ (8 * bs.length) ≤ 2 ^ k := Nat.pow_le_pow_right (by decide) (by omega)
    have hvalue := value_lt bs
    rw [hpow] at hn hvalue
    rw [Nat.testBit_lt_two_pow (Nat.lt_of_lt_of_le hn hlarge),
      Nat.testBit_lt_two_pow (Nat.lt_of_lt_of_le hvalue hlarge)]

/-- A byte in every place. -/
theorem toNat_mul_ones (b : UInt8) :
    (b.toUInt64 * BYTE_WORD_ONES).toNat = value (List.replicate 8 b) := by
  have hb := b.toNat_lt
  rw [UInt64.toNat_mul, UInt8.toNat_toUInt64, show BYTE_WORD_ONES.toNat = 72340172838076673 from rfl,
    Nat.mod_eq_of_lt (by omega)]
  simp only [List.replicate, value]
  omega

theorem toU64_xor_byte (h : bs.length = 8) (b : UInt8) :
    toU64 bs ^^^ (b.toUInt64 * BYTE_WORD_ONES) = toU64 (bs.map (· ^^^ b)) := by
  rw [← UInt64.toNat_inj, toNat_toU64 (by simpa using h)]
  apply eq_value_of_testBit
  · rw [length_map, h]
    exact UInt64.toNat_lt _
  intro i j hi hj
  rw [length_map, h] at hi
  have hbyte : (List.replicate 8 b).getD i 0 = b := by
    rw [getD_eq_getElem?_getD, getElem?_replicate, if_pos hi]
    rfl
  rw [UInt64.toNat_xor, Nat.testBit_xor, toNat_toU64 h, toNat_mul_ones, testBit_value _ _ hj,
    testBit_value _ _ hj, hbyte]
  simp [getD_eq_getElem?_getD, hi, h]

/-! ## The first zero byte -/

theorem value_pred (h : 0 ∉ bs) :
    value bs = value (bs.map (· - 1)) + value (List.replicate bs.length 1) := by
  induction bs with
  | nil => rfl
  | cons b bs ih =>
    simp only [mem_cons, not_or] at h
    have hpos : b.toNat ≠ 0 := fun hzero => h.1 (UInt8.toNat_inj.mp hzero).symm
    have hpred : (b - 1).toNat = b.toNat - 1 :=
      UInt8.toNat_sub_of_le _ _ (UInt8.le_iff_toNat_le.mpr (Nat.pos_of_ne_zero hpos))
    have hone : (1 : UInt8).toNat = 1 := rfl
    rw [map_cons, length_cons, replicate_succ, value, value, value, ih h.2,
      hpred, hone]
    omega

variable {before after : List UInt8}

/-- The bytes of the difference, up to the first zero byte: each one less, and
the zero byte turned to `0xff`. -/
theorem sub_ones_mod (h : 0 ∉ before) (hlen : (before ++ 0 :: after).length = 8) :
    (toU64 (before ++ 0 :: after) - BYTE_WORD_ONES).toNat % 256 ^ (before.length + 1) =
      value (before.map (· - 1) ++ [0xff]) := by
  have hsum : before.length + 1 + after.length = 8 := by
    rw [length_append, length_cons] at hlen
    omega
  have hones : BYTE_WORD_ONES.toNat = value (List.replicate before.length 1 ++
      1 :: List.replicate after.length 1) := by
    rw [← replicate_succ, replicate_append_replicate,
      show before.length + (after.length + 1) = 8 by omega]
    rfl
  -- the bytes behind the zero byte, as numbers
  have hroom := value_lt (List.replicate after.length 1)
  rw [length_replicate] at hroom
  obtain ⟨slack, hslack⟩ : ∃ slack, 256 ^ after.length =
      slack + 1 + value (List.replicate after.length 1) :=
    ⟨256 ^ after.length - 1 - value (List.replicate after.length 1), by omega⟩
  have hword : (2 : Nat) ^ 64 =
      256 ^ (before.length + 1) * (slack + 1 + value (List.replicate after.length 1)) := by
    rw [← hslack, ← Nat.pow_add, hsum]
    rfl
  have htotal : value (before ++ 0 :: after) + 2 ^ 64 = BYTE_WORD_ONES.toNat +
      (value (before.map (· - 1) ++ [0xff]) +
        256 ^ (before.length + 1) * (value after + slack)) := by
    rw [hword, hones, value_append, value_append, value_append, value_pred h, value, value, value,
      value, length_map, length_replicate, Nat.pow_succ,
      show (0 : UInt8).toNat = 0 from rfl, show (1 : UInt8).toNat = 1 from rfl,
      show (0xff : UInt8).toNat = 255 from rfl]
    ring
  have hsmall := value_lt (before.map (· - 1) ++ [0xff])
  rw [length_append, length_map, length_singleton] at hsmall
  have hdvd : 256 ^ (before.length + 1) ∣ 2 ^ 64 := ⟨_, hword⟩
  have hle : BYTE_WORD_ONES.toNat ≤ 2 ^ 64 := by decide
  rw [UInt64.toNat_sub, toNat_toU64 hlen, Nat.mod_mod_of_dvd _ hdvd,
    show 2 ^ 64 - BYTE_WORD_ONES.toNat + value (before ++ 0 :: after) =
      value (before.map (· - 1) ++ [0xff]) +
        256 ^ (before.length + 1) * (value after + slack) by omega,
    Nat.add_mul_mod_self_left, Nat.mod_eq_of_lt hsmall]

/-- The difference when there is no zero byte. -/
theorem sub_ones (h : 0 ∉ bs) (hlen : bs.length = 8) :
    (toU64 bs - BYTE_WORD_ONES).toNat = value (bs.map (· - 1)) := by
  have hpred := value_pred h
  have hsmall := value_lt (bs.map (· - 1))
  rw [hlen, show value (List.replicate 8 1) = BYTE_WORD_ONES.toNat from rfl] at hpred
  rw [length_map, hlen] at hsmall
  have hle : BYTE_WORD_ONES.toNat ≤ 2 ^ 64 := by decide
  rw [UInt64.toNat_sub, toNat_toU64 hlen, hpred,
    show 2 ^ 64 - BYTE_WORD_ONES.toNat + (value (bs.map (· - 1)) + BYTE_WORD_ONES.toNat) =
      value (bs.map (· - 1)) + 2 ^ 64 by omega, Nat.add_mod_right]
  exact Nat.mod_eq_of_lt hsmall

theorem testBit_not (n : UInt64) (hk : k < 64) :
    (~~~n).toNat.testBit k = !n.toNat.testBit k := by
  rw [UInt64.toNat_not, show UInt64.size - 1 - n.toNat = 2 ^ 64 - (n.toNat + 1) by
    simp only [UInt64.size]; omega, Nat.testBit_two_pow_sub_succ n.toNat_lt]
  simp [hk]

/-- Only the top bits of bytes are marked. -/
theorem testBit_zeroByteMask (word : UInt64) (hi : i < 8) (hj : j < 8) :
    (zeroByteMask word).toNat.testBit (8 * i + j) =
      ((word - BYTE_WORD_ONES).toNat.testBit (8 * i + j) && !word.toNat.testBit (8 * i + j) &&
        j == 7) := by
  have hbyte : (List.replicate 8 (0x80 : UInt8)).getD i 0 = 0x80 := by
    rw [getD_eq_getElem?_getD, getElem?_replicate, if_pos hi]
    rfl
  have hhigh : (0x80 : UInt8).toNat.testBit j = (j == 7) := by
    revert j
    decide
  rw [zeroByteMask, UInt64.toNat_and, UInt64.toNat_and, Nat.testBit_and, Nat.testBit_and,
    testBit_not _ (by omega),
    show BYTE_WORD_HIGHS.toNat = value (List.replicate 8 0x80) from rfl, testBit_value _ _ hj,
    hbyte, hhigh]

/-- A byte that is not zero is not marked. -/
theorem testBit_pred {b : UInt8} (h : b ≠ 0) :
    ((b - 1).toNat.testBit 7 && !b.toNat.testBit 7) = false := by
  have hpos : b.toNat ≠ 0 := fun hzero => h (UInt8.toNat_inj.mp hzero)
  have hpred : (b - 1).toNat = b.toNat - 1 :=
    UInt8.toNat_sub_of_le _ _ (UInt8.le_iff_toNat_le.mpr (Nat.pos_of_ne_zero hpos))
  have hb := b.toNat_lt
  rw [hpred, Nat.testBit_eq_decide_div_mod_eq, Nat.testBit_eq_decide_div_mod_eq]
  simp only [Bool.and_eq_false_iff, decide_eq_false_iff_not, Bool.not_eq_false',
    decide_eq_true_iff]
  omega

/-- The lowest bit of `mask` is the top bit of byte `i`. -/
structure Marks (mask : UInt64) (i : Nat) : Prop where
  byte : i < 8
  set : mask.toNat.testBit (8 * i + 7) = true
  lowest : ∀ k < 8 * i + 7, mask.toNat.testBit k = false

theorem trailingZeros_of_marks (h : Marks mask i) :
    trailingZeros mask / 8 = i := by
  have hfind : (List.range 64).find? mask.toNat.testBit = some (8 * i + 7) := by
    rw [find?_range_eq_some]
    have hbyte := h.byte
    exact ⟨h.set, mem_range.mpr (by omega), fun k hk => by rw [h.lowest k hk]; rfl⟩
  rw [trailingZeros, hfind, Option.getD_some]
  omega

theorem Marks.ne_zero (h : Marks mask i) : mask ≠ 0 := by
  rintro rfl
  have hset := h.set
  simp at hset

/-- **The first zero byte is found.** -/
theorem zeroByteMask_marks (h : 0 ∉ before) (hlen : (before ++ 0 :: after).length = 8) :
    Marks (zeroByteMask (toU64 (before ++ 0 :: after))) before.length := by
  have hi : before.length < 8 := by
    rw [length_append, length_cons] at hlen
    omega
  have hlow : ∀ k j, k ≤ before.length → j < 8 →
      (toU64 (before ++ 0 :: after) - BYTE_WORD_ONES).toNat.testBit (8 * k + j) =
        ((before.map (· - 1) ++ [0xff]).getD k 0).toNat.testBit j := by
    intro k j hk hj
    rw [← testBit_value _ _ hj, ← sub_ones_mod h hlen, show (256 : Nat) = 2 ^ 8 from rfl,
      ← Nat.pow_mul, Nat.testBit_mod_two_pow, decide_eq_true (by omega), Bool.true_and]
  refine ⟨hi, ?_, ?_⟩
  · rw [testBit_zeroByteMask _ hi (by decide), hlow _ _ (Nat.le_refl _) (by decide),
      toNat_toU64 hlen, testBit_value _ _ (by decide)]
    simp [getD_eq_getElem?_getD]
    decide
  · intro k hk
    have hsplit : 8 * (k / 8) + k % 8 = k := Nat.div_add_mod k 8
    have hj := Nat.mod_lt k (show 0 < 8 by decide)
    rw [← hsplit, testBit_zeroByteMask _ (by omega) hj]
    by_cases htop : k % 8 = 7
    · -- a byte in front of the zero byte
      have hlt : k / 8 < before.length := by omega
      have hne : before[k / 8] ≠ 0 := fun hzero => h (hzero ▸ getElem_mem hlt)
      rw [hlow _ _ (by omega) hj, toNat_toU64 hlen, testBit_value _ _ hj, htop]
      simp only [getD_eq_getElem?_getD, getElem?_append_left, hlt, length_map,
        getElem?_eq_getElem, getElem_map, Option.getD_some]
      rw [testBit_pred hne, Bool.false_and]
    · rw [beq_eq_false_iff_ne.mpr htop, Bool.and_false]

theorem zeroByteMask_eq_zero (h : 0 ∉ bs) (hlen : bs.length = 8) : zeroByteMask (toU64 bs) = 0 := by
  rw [← UInt64.toNat_inj]
  apply Nat.eq_of_testBit_eq
  intro k
  rw [show (0 : UInt64).toNat = 0 from rfl, Nat.zero_testBit]
  by_cases hk : k / 8 < 8
  · have hsplit : 8 * (k / 8) + k % 8 = k := Nat.div_add_mod k 8
    have hj := Nat.mod_lt k (show 0 < 8 by decide)
    rw [← hsplit, testBit_zeroByteMask _ hk hj]
    by_cases htop : k % 8 = 7
    · have hlt : k / 8 < bs.length := by omega
      have hne : bs[k / 8] ≠ 0 := fun hzero => h (hzero ▸ getElem_mem hlt)
      rw [sub_ones h hlen, toNat_toU64 hlen, testBit_value _ _ hj, testBit_value _ _ hj, htop]
      simp only [getD_eq_getElem?_getD, hlt, getElem?_map, getElem?_eq_getElem,
        Option.map_some, Option.getD_some]
      rw [testBit_pred hne, Bool.false_and]
    · rw [beq_eq_false_iff_ne.mpr htop, Bool.and_false]
  · have hlarge : 2 ^ 64 ≤ 2 ^ k := Nat.pow_le_pow_right (by decide) (by omega)
    exact Nat.testBit_lt_two_pow (Nat.lt_of_lt_of_le (UInt64.toNat_lt _) hlarge)

/-! ## Any two bytes -/

/-- The bytes of the word that are `b` are marked. -/
def byteMask (word : UInt64) (b : UInt8) : UInt64 :=
  zeroByteMask (word ^^^ b.toUInt64 * BYTE_WORD_ONES)

theorem zero_mem_map_xor : 0 ∈ bs.map (· ^^^ b) ↔ b ∈ bs := by
  simp

theorem byteMask_eq_zero (h : b ∉ bs) (hlen : bs.length = 8) :
    byteMask (toU64 bs) b = 0 := by
  rw [byteMask, toU64_xor_byte hlen]
  exact zeroByteMask_eq_zero (mt zero_mem_map_xor.mp h) (by simpa using hlen)

theorem byteMask_marks (h : b ∉ before) (hlen : (before ++ b :: after).length = 8) :
    Marks (byteMask (toU64 (before ++ b :: after)) b) before.length := by
  have hmarks := @zeroByteMask_marks _ (after.map (· ^^^ b)) (mt zero_mem_map_xor.mp h)
    (by simpa using hlen)
  rw [byteMask, toU64_xor_byte hlen, map_append, map_cons, UInt8.xor_self]
  simpa using hmarks

/-- A byte that is not in front of a position is marked from there on, if at all. -/
theorem byteMask_from (h : b ∉ before)
    (hlen : (before ++ rest).length = 8) :
    byteMask (toU64 (before ++ rest)) b = 0 ∨
      ∃ k, before.length ≤ k ∧ Marks (byteMask (toU64 (before ++ rest)) b) k := by
  by_cases hmem : b ∈ rest
  · obtain ⟨between, after, rfl, hbetween⟩ := eq_append_cons_of_mem hmem
    rw [← append_assoc] at hlen ⊢
    refine Or.inr ⟨_, ?_, byteMask_marks ?_ hlen⟩
    · rw [length_append]
      exact Nat.le_add_right _ _
    · rw [mem_append, not_or]
      exact ⟨h, hbetween⟩
  · refine Or.inl (byteMask_eq_zero ?_ hlen)
    rw [mem_append, not_or]
    exact ⟨h, hmem⟩

theorem Marks.or {m n i} (hm : Marks m i)
    (hn : n = 0 ∨ ∃ k, i ≤ k ∧ Marks n k) : Marks (m ||| n) i := by
  refine ⟨hm.byte, ?_, ?_⟩
  · rw [UInt64.toNat_or, Nat.testBit_or, hm.set, Bool.true_or]
  · intro k hk
    rw [UInt64.toNat_or, Nat.testBit_or, hm.lowest k hk, Bool.false_or]
    rcases hn with rfl | ⟨lane, hle, hmarks⟩
    · simp
    · exact hmarks.lowest k (by omega)

/-- **The first of two bytes** is marked. -/
theorem eitherMask_marks {b first second}
    (hfirst : first ∉ before) (hsecond : second ∉ before) (h : b = first ∨ b = second)
    (hlen : (before ++ b :: after).length = 8) :
    Marks (byteMask (toU64 (before ++ b :: after)) first |||
      byteMask (toU64 (before ++ b :: after)) second) before.length := by
  rcases h with rfl | rfl
  · exact (byteMask_marks hfirst hlen).or (byteMask_from hsecond hlen)
  · rw [UInt64.or_comm]
    exact (byteMask_marks hsecond hlen).or (byteMask_from hfirst hlen)

theorem eitherMask_eq_zero (hfirst : first ∉ bs)
    (hsecond : second ∉ bs) (hlen : bs.length = 8) :
    byteMask (toU64 bs) first ||| byteMask (toU64 bs) second = 0 := by
  rw [byteMask_eq_zero hfirst hlen, byteMask_eq_zero hsecond hlen, UInt64.or_self]

end Ish.Lib.Swar
