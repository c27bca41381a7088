import Ish.Lib.Utf8

/-!
# Shell text — the reversible encoding of bytes

The model of `crates/epsh/src/encoding.rs`. A Rust `String` is a `List Char`
(both are sequences of Unicode scalar values) and a byte slice is a
`List UInt8`; `std::str::from_utf8` is `fromUtf8`, which reports the length of
the longest valid prefix as `valid_up_to` does.

The abstract layer is `ShellUnit`: what one unit of shell text stands for,
either a character or a byte that is no part of a valid character. Each of the
encoder and the two decoders is one map over units, so the round trips reduce
to facts about single units.
-/

namespace Ish.Epsh

open Ish.Lib List

/-! ## The encoder and the decoders -/

def PUA_BASE : Nat := 0xE000

def ESCAPE : Char := '\uE000'

/-- Pattern escape marker in shell pattern strings (`lexer.rs`). -/
def CTLESC : Char := '\uFFFE'

def GLOB_ESCAPE : Nat := 0x110100

/-- `(PUA_BASE + 0x80..=PUA_BASE + 0xFF).contains(&(c as u32))` -/
def isRawMark (c : Char) : Bool :=
  PUA_BASE + 0x80 ≤ c.toNat && c.toNat ≤ PUA_BASE + 0xFF

/-- `std::str::from_utf8`: the text, or `valid_up_to` of the error. -/
def fromUtf8 (bytes : List UInt8) : Except Nat (List Char) :=
  match Utf8.split bytes with
  | (text, []) => .ok text
  | (text, _ :: _) => .error (Utf8.encode text).length

/-- What `push_text` appends to the result. -/
def pushText (text : List Char) (escapeGlobMarker : Bool) : List Char :=
  text.flatMap fun c =>
    if c == ESCAPE || (escapeGlobMarker && c == CTLESC) || isRawMark c then
      [ESCAPE, c]
    else [c]

def patternToStr (text : List Char) : List Char := pushText text false

/-- The loop of `bytes_to_str`; every round consumes a byte, so
`remaining.length` is fuel enough. -/
def bytesToStrLoop : Nat → List UInt8 → List Char
  | 0, _ => []
  | fuel + 1, remaining =>
    if remaining.isEmpty then [] else
    match fromUtf8 remaining with
    | .ok text => pushText text true
    | .error validUpTo =>
      let text := match fromUtf8 (remaining.take validUpTo) with
        | .ok text => text
        | .error _ => []  -- the `unwrap`, never reached (`fromUtf8_encode`)
      match remaining.drop validUpTo with
      | [] => []  -- the index `invalid[0]`, never reached (`fromUtf8_eq_error`)
      | b :: rest =>
        pushText text true ++
          Char.ofNat (PUA_BASE + b.toNat) :: bytesToStrLoop fuel rest

def bytesToStr (bytes : List UInt8) : List Char :=
  bytesToStrLoop bytes.length bytes

def strToBytes : List Char → List UInt8
  | [] => []
  | c :: chars =>
    if c == ESCAPE then
      match chars with
      | [] => String.utf8EncodeChar ESCAPE
      | literal :: chars => String.utf8EncodeChar literal ++ strToBytes chars
    else if isRawMark c then
      UInt8.ofNat (c.toNat - PUA_BASE) :: strToBytes chars
    else String.utf8EncodeChar c ++ strToBytes chars

/-- The units of shell text: one character, or an escape and its literal. -/
def shellChars : List Char → List (List Char)
  | [] => []
  | c :: chars =>
    if c == ESCAPE then
      match chars with
      | [] => [[c]]
      | literal :: chars => [c, literal] :: shellChars chars
    else [c] :: shellChars chars

def shellCodepoint (unit : List Char) : Nat :=
  match unit with
  | [] => 0  -- `unwrap` of an empty unit: `shellChars` yields none
  | c :: rest =>
    if c == ESCAPE then (rest.headD ESCAPE).toNat
    else if c == CTLESC then GLOB_ESCAPE
    else if isRawMark c then 0x110000 + c.toNat - PUA_BASE
    else c.toNat

def shellCodepoints (text : List Char) : List Nat :=
  (shellChars text).map shellCodepoint

/-! ## Units: what shell text stands for -/

/-- A character of valid text, or a byte outside it. Only bytes from `0x80` on
can be outside valid text, which the structure carries. -/
inductive ShellUnit where
  | char (c : Char)
  | byte (b : UInt8) (high : 0x80 ≤ b)

namespace ShellUnit

def bytes : ShellUnit → List UInt8
  | char c => String.utf8EncodeChar c
  | byte b _ => [b]

def text : ShellUnit → List Char
  | char c => pushText [c] true
  | byte b _ => [Char.ofNat (PUA_BASE + b.toNat)]

def codepoint : ShellUnit → Nat
  | char c => c.toNat
  | byte b _ => 0x110000 + b.toNat

end ShellUnit

/-! ### The mark of a raw byte -/

section RawMark

variable {b : UInt8}

@[simp] theorem toNat_rawMark : (Char.ofNat (PUA_BASE + b.toNat)).toNat = PUA_BASE + b.toNat := by
  have hlt := b.toNat_lt
  apply Utf8.toNat_charOfNat
  rw [PUA_BASE, Nat.isValidChar]
  omega

theorem isRawMark_rawMark (high : 0x80 ≤ b) :
    isRawMark (Char.ofNat (PUA_BASE + b.toNat)) = true := by
  have hlow : 128 ≤ b.toNat := by simpa [UInt8.le_iff_toNat_le] using high
  have hlt := b.toNat_lt
  rw [isRawMark, toNat_rawMark]
  simp
  omega

theorem rawMark_ne_escape (high : 0x80 ≤ b) :
    (Char.ofNat (PUA_BASE + b.toNat) == ESCAPE) = false := by
  have hlow : 128 ≤ b.toNat := by simpa [UInt8.le_iff_toNat_le] using high
  rw [beq_eq_false_iff_ne]
  intro h
  have hnat := congrArg Char.toNat h
  rw [toNat_rawMark, PUA_BASE, show ESCAPE.toNat = 0xE000 from rfl] at hnat
  omega

theorem rawMark_ne_ctlesc : (Char.ofNat (PUA_BASE + b.toNat) == CTLESC) = false := by
  have hlt := b.toNat_lt
  rw [beq_eq_false_iff_ne]
  intro h
  have hnat := congrArg Char.toNat h
  rw [toNat_rawMark, PUA_BASE, show CTLESC.toNat = 0xFFFE from rfl] at hnat
  omega

end RawMark

/-! ## One unit at a time -/

theorem strToBytes_cons {c} (h : (c == ESCAPE) = false) (rest : List Char) :
    strToBytes (c :: rest)
      = (if isRawMark c then [UInt8.ofNat (c.toNat - PUA_BASE)]
         else String.utf8EncodeChar c) ++ strToBytes rest := by
  rw [strToBytes.eq_def]
  simp only [h, Bool.false_eq_true, if_false]
  split <;> rfl

theorem shellChars_cons {c} (h : (c == ESCAPE) = false)
    (rest : List Char) : shellChars (c :: rest) = [c] :: shellChars rest := by
  rw [shellChars.eq_def]
  simp [h]

theorem strToBytes_text_append (u : ShellUnit) (rest : List Char) :
    strToBytes (u.text ++ rest) = u.bytes ++ strToBytes rest := by
  cases u with
  | char c =>
    simp only [ShellUnit.text, pushText, flatMap_cons, flatMap_nil,
      append_nil, ShellUnit.bytes]
    split
    · simp [strToBytes]
    · rename_i h
      simp only [Bool.true_and, Bool.or_eq_true, not_or, Bool.not_eq_true] at h
      rw [cons_append, strToBytes_cons h.1.1]
      simp [h.2]
  | byte b high =>
    rw [ShellUnit.text, cons_append, strToBytes_cons (rawMark_ne_escape high)]
    simp [isRawMark_rawMark high, ShellUnit.bytes]

theorem shellCodepoints_text_append (u : ShellUnit) (rest : List Char) :
    shellCodepoints (u.text ++ rest) = u.codepoint :: shellCodepoints rest := by
  cases u with
  | char c =>
    simp only [ShellUnit.text, pushText, flatMap_cons, flatMap_nil,
      append_nil, ShellUnit.codepoint]
    split
    · simp [shellCodepoints, shellChars, shellCodepoint]
    · rename_i h
      simp only [Bool.true_and, Bool.or_eq_true, not_or, Bool.not_eq_true] at h
      rw [shellCodepoints, cons_append, shellChars_cons h.1.1]
      simp [shellCodepoints, shellCodepoint, h.1.1, h.1.2, h.2]
  | byte b high =>
    rw [shellCodepoints, ShellUnit.text, cons_append,
      shellChars_cons (rawMark_ne_escape high)]
    simp only [map_cons, nil_append, ShellUnit.codepoint,
      shellCodepoints, shellCodepoint, rawMark_ne_escape high,
      rawMark_ne_ctlesc, isRawMark_rawMark high, toNat_rawMark,
      Bool.false_eq_true, if_false, if_true, List.cons.injEq, and_true]
    omega

theorem shellCodepoints_units (us : List ShellUnit) :
    shellCodepoints (us.flatMap ShellUnit.text) = us.map ShellUnit.codepoint := by
  induction us with
  | nil => rfl
  | cons u us ih => rw [flatMap_cons, shellCodepoints_text_append, ih]; rfl

theorem ShellUnit.codepoint_char_lt (c : Char) : (char c).codepoint < 0x110000 := by
  have := c.valid
  simp only [UInt32.isValidChar, Nat.isValidChar] at this
  show c.val.toNat < _
  omega

/-- A byte's code points start past every character's. -/
theorem ShellUnit.codepoint_injective : Function.Injective codepoint := by
  intro u v h
  cases u with
  | char c =>
    have hc := codepoint_char_lt c
    cases v with
    | char d => exact congrArg char (Char.toNat_inj.mp h)
    | byte b high => simp only [codepoint] at h hc; omega
  | byte b high =>
    cases v with
    | char d =>
      have hd := codepoint_char_lt d
      simp only [codepoint] at h hd
      omega
    | byte b' high' =>
      simp only [codepoint, Nat.add_left_cancel_iff, UInt8.toNat_inj] at h
      subst h
      rfl

theorem ShellUnit.codepoint_ne_globEscape (u : ShellUnit) : u.codepoint ≠ GLOB_ESCAPE := by
  cases u with
  | char c =>
    have := codepoint_char_lt c
    rw [GLOB_ESCAPE]
    omega
  | byte b high =>
    have := b.toNat_lt
    simp only [codepoint, GLOB_ESCAPE]
    omega

/-! ## The encoder's units -/

theorem fromUtf8_eq_ok {bytes text}
    (h : fromUtf8 bytes = .ok text) : bytes = Utf8.encode text := by
  rw [fromUtf8] at h
  have hs := Utf8.split_append bytes
  split at h
  · rename_i heq
    cases h
    rw [heq] at hs
    simpa using hs.symm
  · cases h

/-- At the first invalid byte: the text before it, the byte, and what follows. -/
theorem fromUtf8_eq_error {bytes n} (h : fromUtf8 bytes = .error n) :
    ∃ text b rest, bytes = Utf8.encode text ++ b :: rest ∧ 0x80 ≤ b ∧
      n = (Utf8.encode text).length := by
  rw [fromUtf8] at h
  have hs := Utf8.split_append bytes
  have hstuck := Utf8.split_stuck bytes
  split at h
  · cases h
  · rename_i text b rest heq
    cases h
    rw [heq] at hs hstuck
    exact ⟨text, b, rest, hs.symm, Utf8.le_of_decodeChar?_eq_none hstuck, rfl⟩

@[simp] theorem fromUtf8_encode (text : List Char) : fromUtf8 (Utf8.encode text) = .ok text := by
  simp [fromUtf8]

theorem pushText_eq_units (text : List Char) :
    pushText text true = (text.map ShellUnit.char).flatMap ShellUnit.text := by
  induction text with
  | nil => rfl
  | cons c cs ih =>
    rw [map_cons, flatMap_cons, ← ih]
    simp [ShellUnit.text, pushText]

theorem encode_eq_units (text : List Char) :
    Utf8.encode text = (text.map ShellUnit.char).flatMap ShellUnit.bytes := by
  induction text with
  | nil => rfl
  | cons c cs ih => rw [Utf8.encode_cons, ih]; rfl

/-- **The encoder is a map over units**: some reading of the bytes as units is
the one whose text `bytes_to_str` writes. -/
theorem bytesToStrLoop_units : ∀ (fuel : Nat) (bytes : List UInt8),
    bytes.length ≤ fuel →
    ∃ us : List ShellUnit, us.flatMap ShellUnit.bytes = bytes ∧
      bytesToStrLoop fuel bytes = us.flatMap ShellUnit.text := by
  intro fuel
  induction fuel with
  | zero =>
    intro bytes h
    have : bytes = [] := length_eq_zero_iff.mp (by omega)
    exact ⟨[], this.symm, rfl⟩
  | succ fuel ih =>
    intro bytes h
    by_cases hnil : bytes = []
    · exact ⟨[], hnil.symm, by simp [hnil, bytesToStrLoop]⟩
    cases hutf : fromUtf8 bytes with
    | ok text =>
      refine ⟨text.map ShellUnit.char, ?_, ?_⟩
      · rw [← encode_eq_units, ← fromUtf8_eq_ok hutf]
      · simp [bytesToStrLoop, hnil, hutf, pushText_eq_units]
    | error n =>
      obtain ⟨text, b, rest, rfl, high, rfl⟩ := fromUtf8_eq_error hutf
      have hlen : rest.length ≤ fuel := by
        simp only [length_append, length_cons] at h
        omega
      obtain ⟨us, hbytes, htext⟩ := ih rest hlen
      refine ⟨text.map ShellUnit.char ++ ShellUnit.byte b high :: us, ?_, ?_⟩
      · rw [flatMap_append, ← encode_eq_units, flatMap_cons, hbytes]
        rfl
      · rw [flatMap_append, ← pushText_eq_units, flatMap_cons, ← htext]
        simp [bytesToStrLoop, hutf, take_left', drop_left',
          ShellUnit.text]

theorem bytesToStr_units (bytes : List UInt8) :
    ∃ us : List ShellUnit, us.flatMap ShellUnit.bytes = bytes ∧
      bytesToStr bytes = us.flatMap ShellUnit.text :=
  bytesToStrLoop_units bytes.length bytes (Nat.le_refl _)

/-- Decoding stops at the seam of two encoded texts, so it is a homomorphism. -/
theorem strToBytes_bytesToStr_append (a : List UInt8) (text : List Char) :
    strToBytes (bytesToStr a ++ text) = a ++ strToBytes text := by
  obtain ⟨us, hbytes, htext⟩ := bytesToStr_units a
  rw [htext, ← hbytes]
  clear hbytes htext
  induction us with
  | nil => rfl
  | cons u us ih =>
    rw [flatMap_cons, append_assoc, strToBytes_text_append, ih,
      flatMap_cons, append_assoc]

@[simp] theorem strToBytes_bytesToStr (b : List UInt8) : strToBytes (bytesToStr b) = b := by
  simpa [strToBytes] using strToBytes_bytesToStr_append b []

/-- **Two byte strings with the same code points are equal.** -/
theorem shellCodepoints_bytesToStr_injective :
    Function.Injective fun b => shellCodepoints (bytesToStr b) := by
  intro a b h
  obtain ⟨us, hus, hua⟩ := bytesToStr_units a
  obtain ⟨vs, hvs, hvb⟩ := bytesToStr_units b
  simp only [hua, hvb, shellCodepoints_units] at h
  rw [← hus, ← hvs, ShellUnit.codepoint_injective.list_map h]

theorem globEscape_notMem_shellCodepoints (b : List UInt8) :
    GLOB_ESCAPE ∉ shellCodepoints (bytesToStr b) := by
  obtain ⟨us, -, htext⟩ := bytesToStr_units b
  rw [htext, shellCodepoints_units, mem_map]
  rintro ⟨u, -, hu⟩
  exact u.codepoint_ne_globEscape hu

/-- **Shell text is a faithful copy of its bytes**: decoding inverts encoding,
also across a concatenation, and the code points of encoded text determine the
bytes and keep clear of the pattern marker. -/
theorem shell_text_faithful :
    (∀ b, strToBytes (bytesToStr b) = b) ∧
    (∀ a b, strToBytes (bytesToStr a ++ bytesToStr b) = a ++ b) ∧
    (∀ a b, shellCodepoints (bytesToStr a) = shellCodepoints (bytesToStr b) →
      a = b) ∧
    ∀ b, GLOB_ESCAPE ∉ shellCodepoints (bytesToStr b) := by
  refine ⟨strToBytes_bytesToStr, ?_, ?_, globEscape_notMem_shellCodepoints⟩
  · intro a b
    rw [strToBytes_bytesToStr_append, strToBytes_bytesToStr]
  · intro a b h
    exact shellCodepoints_bytesToStr_injective h

/-- The literal marker and a stray continuation byte side by side. -/
example : bytesToStr [0xEF, 0xBF, 0xBE, 0x80]
    = [ESCAPE, CTLESC, Char.ofNat 0xE080] := by decide

end Ish.Epsh
