import Ish.Epsh.Encoding
import Ish.Lib.Ascii

/-!
# Shell text around ASCII

An ASCII byte is never part of a longer character, so the encoding of bytes as shell
text can be cut at it. The units of a byte string are what `bytes_to_str` reads it as.
-/

namespace Ish.Lib.Utf8

open List

theorem isUTF8FirstByte_of_ascii {a : UInt8} (ha : a < 0x80) : a.IsUTF8FirstByte := by
  have hall : ∀ n : Fin 128, (UInt8.ofNat n).IsUTF8FirstByte := by decide
  have hlt : a.toNat < 128 := by simpa [UInt8.lt_iff_toNat_lt] using ha
  simpa using hall ⟨a.toNat, hlt⟩

theorem encodeChar_of_ascii (ha : a < 0x80) :
    String.utf8EncodeChar (Char.ofNat a.toNat) = [a] := by
  have hall : ∀ n : Fin 128, String.utf8EncodeChar (Char.ofNat n) = [UInt8.ofNat n] := by decide
  have hlt : a.toNat < 128 := by simpa [UInt8.lt_iff_toNat_lt] using ha
  simpa using hall ⟨a.toNat, hlt⟩

/-- Only the first byte of a character can be ASCII. -/
theorem eq_nil_of_encodeChar (ha : a < 0x80)
    (h : String.utf8EncodeChar c = x ++ a :: w) : x = [] := by
  have hlt : x.length < (String.utf8EncodeChar c).length := by
    rw [h]
    simp
  have hget : (String.utf8EncodeChar c)[x.length] = a := by simp [h]
  have hzero := (@UInt8.isUTF8FirstByte_getElem_utf8EncodeChar c x.length hlt).mp
    (hget ▸ isUTF8FirstByte_of_ascii ha)
  exact length_eq_zero_iff.mp hzero

theorem eq_of_ascii_mem (ha : a < 0x80)
    (h : a ∈ String.utf8EncodeChar c) : c = Char.ofNat a.toNat := by
  obtain ⟨x, w, hsplit⟩ := append_of_mem h
  have hx := eq_nil_of_encodeChar ha hsplit
  have hc := decodeChar?_encodeChar_append c []
  have ha' := decodeChar?_encodeChar_append (Char.ofNat a.toNat) w
  rw [append_nil, hsplit, hx] at hc
  rw [encodeChar_of_ascii ha] at ha'
  exact Option.some.inj (hc.symm.trans ha')

theorem split_encodeChar_append (c : Char) (rest : List UInt8) :
    split (String.utf8EncodeChar c ++ rest) = (c :: (split rest).1, (split rest).2) := by
  conv_lhs => rw [← split_append rest, ← append_assoc, ← encode_cons]
  exact split_encode_append _ (split_stuck rest)

theorem split_of_stuck (h : decodeChar? bs = none) : split bs = ([], bs) := by
  simpa using split_encode_append [] h

/-- Whether a character starts `x` does not depend on an ASCII byte behind it. -/
theorem decodeChar?_append_ascii (hx : x ≠ []) (ha : a < 0x80)
    (y : List UInt8) : decodeChar? (x ++ a :: y) = decodeChar? x := by
  cases h : decodeChar? x with
  | some c =>
    rw [eq_encodeChar_append h, append_assoc]
    exact decodeChar?_encodeChar_append c _
  | none =>
    cases h' : decodeChar? (x ++ a :: y) with
    | none => rfl
    | some c =>
      -- the character would be all of `x` and the byte behind it
      have henc := eq_encodeChar_append h'
      rcases append_eq_append_iff.mp henc with ⟨w, hc, hw⟩ | ⟨w, hc, hw⟩
      · cases w with
        | nil =>
          rw [append_nil] at hc
          have hdec := decodeChar?_encodeChar_append c []
          rw [append_nil, hc, h] at hdec
          cases hdec
        | cons b w =>
          obtain ⟨rfl, -⟩ := List.cons.inj hw
          exact absurd (eq_nil_of_encodeChar ha hc) hx
      · have hdec := decodeChar?_encodeChar_append c w
        rw [← hc, h] at hdec
        cases hdec

theorem exists_ascii (h : c.utf8Size = 1) :
    ∃ a : UInt8, a < 0x80 ∧ c = Char.ofNat a.toNat := by
  have hval := Char.utf8Size_eq_one_iff.mp h
  have hlt : c.toNat < 128 := Nat.lt_succ_of_le (UInt32.le_iff_toNat_le.mp hval)
  have htoNat : (UInt8.ofNat c.toNat).toNat = c.toNat := by
    rw [UInt8.toNat_ofNat']
    omega
  refine ⟨UInt8.ofNat c.toNat, ?_, ?_⟩
  · rw [UInt8.lt_iff_toNat_lt, htoNat]
    exact hlt
  · rw [htoNat, Char.ofNat_toNat]

end Ish.Lib.Utf8

namespace Ish.Epsh

open Ish.Lib List

/-! ## One step of the encoder -/

/-- The mark of a byte that is no part of a character. -/
def rawMark (b : UInt8) : Char := Char.ofNat (PUA_BASE + b.toNat)

theorem bytesToStrLoop_fuel (f g : Nat) (bytes : List UInt8) (hf : bytes.length ≤ f)
    (hg : bytes.length ≤ g) : bytesToStrLoop f bytes = bytesToStrLoop g bytes := by
  induction f generalizing g bytes with
  | zero =>
    obtain rfl := length_eq_zero_iff.mp (Nat.le_zero.mp hf)
    cases g <;> rfl
  | succ f ih =>
    cases g with
    | zero =>
      obtain rfl := length_eq_zero_iff.mp (Nat.le_zero.mp hg)
      rfl
    | succ g =>
      cases hutf : fromUtf8 bytes with
      | ok text => simp [bytesToStrLoop, hutf]
      | error n =>
        obtain ⟨text, b, rest, rfl, -, rfl⟩ := fromUtf8_eq_error hutf
        simp only [length_append, length_cons] at hf hg
        have hrest := ih g rest (by omega) (by omega)
        simp [bytesToStrLoop, hutf, take_left', drop_left', hrest]

theorem bytesToStr_split (bytes : List UInt8) :
    bytesToStr bytes = pushText (Utf8.split bytes).1 true ++
      match (Utf8.split bytes).2 with
      | [] => []
      | b :: rest => rawMark b :: bytesToStr rest := by
  have happend := Utf8.split_append bytes
  rcases hsplit : Utf8.split bytes with ⟨text, _ | ⟨b, rest⟩⟩
  · have hutf : fromUtf8 bytes = .ok text := by simp [fromUtf8, hsplit]
    cases bytes with
    | nil =>
      rw [Utf8.split_of_stuck Utf8.decodeChar?_nil] at hsplit
      obtain ⟨rfl, -⟩ := Prod.mk.inj hsplit
      rfl
    | cons b bytes => simp [bytesToStr, bytesToStrLoop, hutf]
  · have hutf : fromUtf8 bytes = .error (Utf8.encode text).length := by simp [fromUtf8, hsplit]
    rw [hsplit] at happend
    subst happend
    have hrest := bytesToStrLoop_fuel (Utf8.encode text ++ rest).length rest.length rest
      (by simp) (Nat.le_refl _)
    have hlength : (Utf8.encode text ++ b :: rest).length =
        (Utf8.encode text ++ rest).length + 1 := by
      simp
      omega
    rw [bytesToStr, hlength]
    simp only [bytesToStrLoop, hutf, take_left', drop_left', fromUtf8_encode]
    rw [if_neg (by simp), hrest]
    rfl

theorem bytesToStr_char (c : Char) (rest : List UInt8) :
    bytesToStr (String.utf8EncodeChar c ++ rest) = pushText [c] true ++ bytesToStr rest := by
  rw [bytesToStr_split, Utf8.split_encodeChar_append, bytesToStr_split rest, ← append_assoc]
  simp [pushText]

theorem bytesToStr_stuck (h : Utf8.decodeChar? (b :: rest) = none) :
    bytesToStr (b :: rest) = rawMark b :: bytesToStr rest := by
  rw [bytesToStr_split, Utf8.split_of_stuck h]
  rfl

/-! ## Cutting at an ASCII byte -/

theorem pushText_ascii {a : UInt8} (ha : a < 0x80) :
    pushText [Char.ofNat a.toNat] true = [Char.ofNat a.toNat] := by
  have hall : ∀ n : Fin 128, pushText [Char.ofNat n] true = [Char.ofNat n] := by decide
  have hlt : a.toNat < 128 := by simpa [UInt8.lt_iff_toNat_lt] using ha
  exact hall ⟨a.toNat, hlt⟩

theorem bytesToStr_ascii_cons (ha : a < 0x80) (rest : List UInt8) :
    bytesToStr (a :: rest) = Char.ofNat a.toNat :: bytesToStr rest := by
  have h := bytesToStr_char (Char.ofNat a.toNat) rest
  rw [Utf8.encodeChar_of_ascii ha, pushText_ascii ha] at h
  exact h

/-- A byte string is read character by character; a byte that starts no character
stands for itself. -/
theorem shell_induction {p : List UInt8 → Prop} (nil : p [])
    (char : ∀ c rest, p rest → p (String.utf8EncodeChar c ++ rest))
    (raw : ∀ b rest, Utf8.decodeChar? (b :: rest) = none → p rest → p (b :: rest))
    (bytes : List UInt8) : p bytes := by
  induction hn : bytes.length using Nat.strongRecOn generalizing bytes with
  | ind n ih =>
    cases bytes with
    | nil => exact nil
    | cons b bytes =>
      cases hc : Utf8.decodeChar? (b :: bytes) with
      | none => exact raw b bytes hc (ih _ (by simp [← hn]) bytes rfl)
      | some c =>
        have henc := Utf8.eq_encodeChar_append hc
        generalize (b :: bytes).drop c.utf8Size = rest at henc
        have hlt : rest.length < n := by
          rw [← hn, henc, length_append, String.length_utf8EncodeChar]
          have hpos := c.utf8Size_pos
          omega
        rw [henc]
        exact char c rest (ih _ hlt rest rfl)

/-- **Shell text can be cut at an ASCII byte.** -/
theorem bytesToStr_append_ascii (x : List UInt8) {a : UInt8} (ha : a < 0x80) (y : List UInt8) :
    bytesToStr (x ++ a :: y) = bytesToStr x ++ bytesToStr (a :: y) := by
  induction x using shell_induction with
  | nil => rfl
  | char c x ih =>
    rw [append_assoc, bytesToStr_char, bytesToStr_char, ih, append_assoc]
  | raw b x hstuck ih =>
    have hdecode := Utf8.decodeChar?_append_ascii (cons_ne_nil b x) ha y
    rw [hstuck, cons_append] at hdecode
    rw [cons_append, bytesToStr_stuck hdecode, bytesToStr_stuck hstuck, ih,
      cons_append]

/-- Empty, or an ASCII byte first: text that can be cut off. -/
def StartsAscii (bytes : List UInt8) : Prop := ∀ a ∈ bytes.head?, a < 0x80

theorem bytesToStr_append (x : List UInt8) (hy : StartsAscii y) :
    bytesToStr (x ++ y) = bytesToStr x ++ bytesToStr y := by
  cases y with
  | nil => rw [append_nil, show bytesToStr [] = [] from rfl, append_nil]
  | cons a y => exact bytesToStr_append_ascii x (hy a rfl) y

/-- A stray byte stays one in front of ASCII. -/
theorem bytesToStr_raw
    (h : Utf8.decodeChar? (b :: rest) = none) (hy : StartsAscii y) :
    bytesToStr (b :: y) = rawMark b :: bytesToStr y := by
  have hb : Utf8.decodeChar? [b] = none := by
    cases hc : Utf8.decodeChar? [b] with
    | none => rfl
    | some c =>
      have henc := Utf8.eq_encodeChar_append hc
      have hlong := congrArg (· ++ rest) henc
      rw [append_assoc] at hlong
      have hdec := Utf8.decodeChar?_encodeChar_append c (List.drop c.utf8Size [b] ++ rest)
      rw [← hlong, singleton_append, h] at hdec
      cases hdec
  have happend := bytesToStr_append [b] hy
  rw [singleton_append, bytesToStr_stuck hb] at happend
  exact happend

/-! ## Units -/

theorem shellChars_text_append (u : ShellUnit) (rest : List Char) :
    shellChars (u.text ++ rest) = u.text :: shellChars rest := by
  cases u with
  | char c =>
    simp only [ShellUnit.text, pushText, flatMap_cons, flatMap_nil, append_nil]
    split
    · simp [shellChars]
    · rename_i h
      simp only [Bool.true_and, Bool.or_eq_true, not_or, Bool.not_eq_true] at h
      rw [singleton_append, shellChars_cons h.1.1]
  | byte b high =>
    rw [ShellUnit.text, singleton_append, shellChars_cons (rawMark_ne_escape high)]

theorem shellChars_units (us : List ShellUnit) :
    shellChars (us.flatMap ShellUnit.text) = us.map ShellUnit.text := by
  induction us with
  | nil => rfl
  | cons u us ih => rw [flatMap_cons, shellChars_text_append, ih, map_cons]

theorem strToBytes_text (u : ShellUnit) : strToBytes u.text = u.bytes := by
  have h := strToBytes_text_append u []
  rwa [append_nil, show strToBytes [] = [] from rfl, append_nil] at h

theorem bytesToStr_unit (u : ShellUnit) (hy : StartsAscii y) :
    bytesToStr (u.bytes ++ y) = u.text ++ bytesToStr y := by
  cases u with
  | char c => exact bytesToStr_char c y
  | byte b high =>
    have hstuck : Utf8.decodeChar? [b] = none := by
      cases hc : Utf8.decodeChar? [b] with
      | none => rfl
      | some c =>
        have henc := Utf8.eq_encodeChar_append hc
        have hlen := congrArg List.length henc
        have hpos := c.utf8Size_pos
        rw [length_append, String.length_utf8EncodeChar, length_singleton] at hlen
        have hone : c.utf8Size = 1 := by omega
        obtain ⟨a, ha, rfl⟩ := Utf8.exists_ascii hone
        rw [Utf8.encodeChar_of_ascii ha] at henc
        obtain ⟨rfl, -⟩ := List.cons.inj henc
        exact absurd high (UInt8.not_le.mpr ha)
    exact bytesToStr_raw hstuck hy

variable {text : List Char}

theorem bytesToStr_encode (h : Ascii.isAscii text = true) :
    bytesToStr (Utf8.encode text) = text := by
  rw [Ascii.encode_of_isAscii h]
  induction text with
  | nil => rfl
  | cons c text ih =>
    simp only [Ascii.isAscii, all_cons, Bool.and_eq_true, decide_eq_true_iff] at h
    have hbyte : Ascii.byte c < 0x80 := by
      rw [UInt8.lt_iff_toNat_lt, Ascii.toNat_byte h.1]
      exact h.1
    rw [map_cons, bytesToStr_ascii_cons hbyte, ih (by simpa [Ascii.isAscii] using h.2)]
    have hchar := Ascii.char_byte h.1
    rw [Ascii.char] at hchar
    rw [hchar]

theorem bytesToStr_strToBytes (h : Ascii.isAscii text = true) :
    bytesToStr (strToBytes text) = text := by
  calc bytesToStr (strToBytes text)
      = bytesToStr (strToBytes (bytesToStr (Utf8.encode text))) := by rw [bytesToStr_encode h]
    _ = text := by rw [strToBytes_bytesToStr, bytesToStr_encode h]

/-! ## Shell text -/

/-- The text of some units. -/
def IsShellText (text : List Char) : Prop := ∃ us : List ShellUnit, text = us.flatMap ShellUnit.text

namespace IsShellText

theorem nil : IsShellText [] := ⟨[], rfl⟩

theorem append {left right} (h : IsShellText left) (h' : IsShellText right) :
    IsShellText (left ++ right) := by
  obtain ⟨us, rfl⟩ := h
  obtain ⟨vs, rfl⟩ := h'
  exact ⟨us ++ vs, (flatMap_append).symm⟩

theorem bytesToStr (bytes : List UInt8) : IsShellText (Epsh.bytesToStr bytes) := by
  obtain ⟨us, -, htext⟩ := bytesToStr_units bytes
  exact ⟨us, htext⟩

/-- A character that is written as it is. -/
theorem cons {c} (hc : (ShellUnit.char c).text = [c]) (h : IsShellText text) :
    IsShellText (c :: text) := by
  obtain ⟨us, rfl⟩ := h
  exact ⟨.char c :: us, by rw [flatMap_cons, hc]; rfl⟩

theorem text_of_ascii (h : c.toNat < 128) : (ShellUnit.char c).text = [c] := by
  have hescape : (c == ESCAPE) = false := by
    rw [beq_eq_false_iff_ne]
    rintro rfl
    exact absurd h (by decide)
  have hmarker : (c == CTLESC) = false := by
    rw [beq_eq_false_iff_ne]
    rintro rfl
    exact absurd h (by decide)
  have hraw : isRawMark c = false := by
    rw [isRawMark, PUA_BASE]
    simp only [Bool.and_eq_false_imp, decide_eq_true_eq, decide_eq_false_iff_not]
    omega
  rw [ShellUnit.text, pushText, flatMap_cons, hescape, hmarker, hraw]
  rfl

theorem of_ascii (h : text.all (fun c => c.toNat < 128) = true) : IsShellText text := by
  induction text with
  | nil => exact nil
  | cons c text ih =>
    rw [all_cons, Bool.and_eq_true] at h
    exact cons (text_of_ascii (of_decide_eq_true h.1)) (ih h.2)

/-- Shell text starts with a character that stands for itself or with an escaped one,
which is not ASCII. -/
theorem uncons (h : IsShellText (c :: text)) :
    (c ≠ ESCAPE ∧ IsShellText text) ∨
      (c = ESCAPE ∧ ∃ d rest, text = d :: rest ∧ 0x80 ≤ d.toNat ∧ IsShellText rest) := by
  obtain ⟨us, hus⟩ := h
  cases us with
  | nil => cases hus
  | cons u us =>
    rw [flatMap_cons] at hus
    cases u with
    | byte b high =>
      obtain ⟨rfl, rfl⟩ := List.cons.inj hus
      exact .inl ⟨beq_eq_false_iff_ne.mp (rawMark_ne_escape high), us, rfl⟩
    | char d =>
      by_cases hascii : d.toNat < 128
      · rw [text_of_ascii hascii] at hus
        obtain ⟨rfl, rfl⟩ := List.cons.inj hus
        refine .inl ⟨?_, us, rfl⟩
        rintro rfl
        exact absurd hascii (by decide)
      · rw [ShellUnit.text, pushText, flatMap_cons, flatMap_nil,
          append_nil] at hus
        split at hus
        · obtain ⟨rfl, rfl⟩ := List.cons.inj hus
          exact .inr ⟨rfl, d, us.flatMap ShellUnit.text, rfl, Nat.le_of_not_lt hascii, us, rfl⟩
        · rename_i hplain
          obtain ⟨rfl, rfl⟩ := List.cons.inj hus
          refine .inl ⟨?_, us, rfl⟩
          rintro rfl
          exact hplain rfl

end IsShellText

end Ish.Epsh
