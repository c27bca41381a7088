import Mathlib.Algebra.GroupWithZero.Nat
import Mathlib.Data.List.Basic

/-!
# UTF-8 over lists of bytes

The list face of the core library's `ByteArray.utf8DecodeChar?`: decoding one
character at the front of a byte list, and splitting a byte list at the end of
its longest valid prefix. Nothing here depends on a program.

All recursion is structural (explicit fuel), so that a run on a closed byte
list reduces in the kernel.
-/

namespace Ish.Lib.Utf8

open List

/-- The UTF-8 bytes of a text. -/
def encode (cs : List Char) : List UInt8 :=
  cs.flatMap String.utf8EncodeChar

@[simp] theorem encode_nil : encode [] = [] := rfl

@[simp] theorem encode_cons (c : Char) (cs : List Char) :
    encode (c :: cs) = String.utf8EncodeChar c ++ encode cs := rfl

@[simp] theorem encode_append (cs ds : List Char) :
    encode (cs ++ ds) = encode cs ++ encode ds := flatMap_append

/-- The character whose encoding starts `bs`, when there is one. -/
def decodeChar? (bs : List UInt8) : Option Char :=
  bs.toByteArray.utf8DecodeChar? 0

@[simp] theorem decodeChar?_nil : decodeChar? [] = none := by decide

@[simp] theorem decodeChar?_encodeChar_append (c : Char) (rest : List UInt8) :
    decodeChar? (String.utf8EncodeChar c ++ rest) = some c := by
  have hc : (String.utf8EncodeChar c).toByteArray = [c].utf8Encode := by
    simp [List.utf8Encode]
  rw [decodeChar?, toByteArray_append, hc]
  exact utf8DecodeChar?_utf8Encode_singleton_append

private theorem extract_toByteArray (bs : List UInt8) (n : Nat) :
    bs.toByteArray.extract 0 n = (bs.take n).toByteArray := by
  apply ByteArray.ext
  simp [data_toByteArray, extract_eq_take_drop]

theorem eq_encodeChar_append {bs c} (h : decodeChar? bs = some c) :
    bs = String.utf8EncodeChar c ++ bs.drop c.utf8Size := by
  have hsome : (bs.toByteArray.utf8DecodeChar? 0).isSome := by
    rw [decodeChar?] at h
    simp [h]
  have hc : bs.toByteArray.utf8DecodeChar 0 hsome = c :=
    Option.get_of_eq_some hsome h
  have henc := ByteArray.utf8EncodeChar_utf8DecodeChar (h := hsome)
  rw [hc, Nat.zero_add, extract_toByteArray, toByteArray_inj] at henc
  rw [henc, take_append_drop]

theorem toNat_charOfNat {n} (h : n.isValidChar) : (Char.ofNat n).toNat = n := by
  rw [Char.ofNat, dif_pos h]
  rfl

private theorem encodeChar_ascii : ∀ n : Fin 128,
    String.utf8EncodeChar (Char.ofNat n) = [UInt8.ofNat n] := by decide

/-- Only `0x80` and above can be the first byte of an invalid sequence. -/
theorem le_of_decodeChar?_eq_none {b bs}
    (h : decodeChar? (b :: bs) = none) : 0x80 ≤ b := by
  by_contra hlt
  have hb : b.toNat < 128 := by
    simpa [UInt8.le_iff_toNat_le] using hlt
  have henc : String.utf8EncodeChar (Char.ofNat b.toNat) = [b] := by
    simpa using encodeChar_ascii ⟨b.toNat, hb⟩
  have hdec := decodeChar?_encodeChar_append (Char.ofNat b.toNat) bs
  rw [henc] at hdec
  simp [h] at hdec

/-! ## The longest valid prefix -/

/-- The text of the longest valid prefix of `bs` and the bytes after it;
`bs.length` is always fuel enough. -/
def splitFuel : Nat → List UInt8 → List Char × List UInt8
  | 0, bs => ([], bs)
  | fuel + 1, bs =>
    match decodeChar? bs with
    | none => ([], bs)
    | some c =>
      let (cs, rest) := splitFuel fuel (bs.drop c.utf8Size)
      (c :: cs, rest)

def split (bs : List UInt8) : List Char × List UInt8 :=
  splitFuel bs.length bs

theorem splitFuel_append : ∀ (fuel : Nat) (bs : List UInt8),
    encode (splitFuel fuel bs).1 ++ (splitFuel fuel bs).2 = bs := by
  intro fuel
  induction fuel with
  | zero => intro bs; rfl
  | succ fuel ih =>
    intro bs
    rw [splitFuel]
    cases h : decodeChar? bs with
    | none => rfl
    | some c =>
      simp only [encode_cons, append_assoc]
      rw [ih, ← eq_encodeChar_append h]

theorem splitFuel_stuck : ∀ (fuel : Nat) (bs : List UInt8), bs.length ≤ fuel →
    decodeChar? (splitFuel fuel bs).2 = none := by
  intro fuel
  induction fuel with
  | zero =>
    intro bs h
    have : bs = [] := length_eq_zero_iff.mp (by omega)
    subst this
    rfl
  | succ fuel ih =>
    intro bs h
    rw [splitFuel]
    cases hd : decodeChar? bs with
    | none => exact hd
    | some c =>
      have hpos := Char.utf8Size_pos c
      exact ih _ (by rw [length_drop]; omega)

/-- **The split is a partition**: the prefix's bytes and the rest are the
input. -/
theorem split_append (bs : List UInt8) :
    encode (split bs).1 ++ (split bs).2 = bs := splitFuel_append _ _

/-- What is left starts no character, so the prefix is the longest. -/
theorem split_stuck (bs : List UInt8) : decodeChar? (split bs).2 = none :=
  splitFuel_stuck _ _ (Nat.le_refl _)

theorem splitFuel_encode_append : ∀ (cs : List Char) {rest : List UInt8}
    {fuel : Nat}, decodeChar? rest = none → cs.length ≤ fuel →
    splitFuel fuel (encode cs ++ rest) = (cs, rest) := by
  intro cs
  induction cs with
  | nil =>
    intro rest fuel hrest _
    cases fuel with
    | zero => rfl
    | succ fuel => simp [splitFuel, hrest]
  | cons c cs ih =>
    intro rest fuel hrest hfuel
    cases fuel with
    | zero => simp at hfuel
    | succ fuel =>
      have hdrop : (String.utf8EncodeChar c ++ (encode cs ++ rest)).drop
          c.utf8Size = encode cs ++ rest := by
        rw [← String.length_utf8EncodeChar, drop_left]
      rw [encode_cons, append_assoc, splitFuel,
        decodeChar?_encodeChar_append]
      simp only [hdrop, ih hrest (Nat.le_of_succ_le_succ hfuel)]

theorem length_le_length_encode (cs : List Char) : cs.length ≤ (encode cs).length := by
  induction cs with
  | nil => exact Nat.le_refl _
  | cons c cs ih =>
    have hpos := Char.utf8Size_pos c
    simp only [encode_cons, length_append, length_cons,
      String.length_utf8EncodeChar]
    omega

/-- A text followed by bytes that start no character splits there. -/
theorem split_encode_append (cs : List Char) {rest} (hrest : decodeChar? rest = none) :
    split (encode cs ++ rest) = (cs, rest) := by
  have := length_le_length_encode cs
  exact splitFuel_encode_append cs hrest (by rw [length_append]; omega)

@[simp] theorem split_encode (cs : List Char) : split (encode cs) = (cs, []) := by
  simpa using split_encode_append cs decodeChar?_nil

theorem encode_injective {cs ds} (h : encode cs = encode ds) : cs = ds := by
  have := congrArg (fun bs => (split bs).1) h
  simpa using this

/-- **Longest prefix**: every valid prefix of `bs` is a prefix of the split's. -/
theorem prefix_split : ∀ (cs : List Char) {bs : List UInt8},
    encode cs <+: bs → cs <+: (split bs).1 := by
  intro cs bs h
  obtain ⟨rest, rfl⟩ := h
  have hsplit : split (encode cs ++ rest)
      = (cs ++ (split rest).1, (split rest).2) := by
    conv_lhs => rw [← split_append rest, ← append_assoc, ← encode_append]
    exact split_encode_append _ (split_stuck rest)
  rw [hsplit]
  exact prefix_append _ _

end Ish.Lib.Utf8
