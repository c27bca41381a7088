import Mathlib.Data.List.DropRight
import Ish.Lib.Transducer

/-!
# Output — the kept tail of a command's output, and its text

The buffer keeps the newest `OUTPUT_LIMIT` bytes. Its text is what is left of
them without control sequences. A buffer that dropped something is read from
behind its first newline; the scan then starts over, and the question is
whether that newline (or the cut itself, where there is none) lies inside a
control sequence.
-/

namespace Ish.Capture

open Ish.Lib List

/-! ## The source -/

def OUTPUT_LIMIT : Nat := 2 ^ 20

structure OutputBuffer where
  bytes : List UInt8 := []
  truncated : Bool := false
  deriving Repr, DecidableEq

/-- The states of `strip_controls`. -/
inductive State where
  | text
  | escape
  | intermediate
  | csi
  | string
  | stringEscape
  deriving Repr, DecidableEq

def State.next : State → UInt8 → State
  | .text, byte => if byte = 0x1b then .escape else .text
  | .escape, byte =>
    if byte = 0x5b then .csi
    else if byte ∈ [0x5d, 0x50, 0x58, 0x5e, 0x5f] then .string
    else if 0x20 ≤ byte ∧ byte ≤ 0x2f then .intermediate
    else if byte = 0x1b then .escape
    else .text
  | .intermediate, byte => if 0x20 ≤ byte ∧ byte ≤ 0x2f then .intermediate else .text
  | .csi, byte =>
    if 0x20 ≤ byte ∧ byte ≤ 0x3f then .csi
    else if byte = 0x1b then .escape
    else .text
  | .string, byte =>
    if byte = 0x07 then .text
    else if byte = 0x1b then .stringEscape
    else .string
  | .stringEscape, byte =>
    if byte = 0x5c then .text
    else if byte = 0x1b then .stringEscape
    else .string

/-- One byte of `strip_controls`. -/
def stripByte (out : List UInt8) (state : State) (byte : UInt8) : List UInt8 × State :=
  match state with
  | .text =>
    if byte = 0x1b then (out, .escape)
    else if byte = 0x0a then
      -- `\r\n` is shown as `\n`
      ((if out.getLast? = some 0x0d then out.dropLast else out) ++ [byte], .text)
    else (out ++ [byte], .text)
  | state => (out, state.next byte)

def stripControls (bytes : List UInt8) : List UInt8 :=
  (bytes.foldl (fun (out, state) byte => stripByte out state byte) ([], State.text)).1

namespace OutputBuffer

def push (self : OutputBuffer) (chunk : List UInt8) : OutputBuffer :=
  let (chunk, truncated) :=
    if OUTPUT_LIMIT ≤ chunk.length then (chunk.drop (chunk.length - OUTPUT_LIMIT), true)
    else (chunk, self.truncated)
  let overflow := self.bytes.length + chunk.length - OUTPUT_LIMIT
  if 0 < overflow then
    { bytes := self.bytes.drop overflow ++ chunk
      truncated := true }
  else
    { bytes := self.bytes ++ chunk
      truncated }

/-- Where the text of a truncated buffer begins: behind its first newline. -/
def lineStart (bytes : List UInt8) : Nat :=
  (bytes.findIdx? (· = 0x0a)).elim 0 (· + 1)

def plainText (self : OutputBuffer) : List UInt8 :=
  stripControls (self.bytes.drop (if self.truncated then lineStart self.bytes else 0))

/-- A buffer of one command, after `chunks`. -/
def ofChunks (chunks : List (List UInt8)) : OutputBuffer :=
  chunks.foldl push {}

/-! ## The bytes -/

theorem length_rtake {α : Type} (xs : List α) (n : Nat) :
    (xs.rtake n).length = min n xs.length := by
  rw [List.rtake, length_drop]
  omega

theorem rtake_append {α : Type} (xs ys : List α) (n : Nat) :
    (xs ++ ys).rtake n =
      (xs.rtake n).drop ((xs.rtake n).length + (ys.rtake n).length - n) ++ ys.rtake n := by
  rw [length_rtake, length_rtake, List.rtake, List.rtake, List.rtake, drop_drop,
    length_append, drop_append]
  congr 1
  · by_cases hys : n ≤ ys.length
    · rw [drop_eq_nil_of_le (by omega), drop_eq_nil_of_le (by omega)]
    · congr 1
      omega
  · congr 1
    omega

theorem push_bytes (self : OutputBuffer) (chunk : List UInt8) :
    (self.push chunk).bytes =
      self.bytes.drop (self.bytes.length + (chunk.rtake OUTPUT_LIMIT).length - OUTPUT_LIMIT) ++
        chunk.rtake OUTPUT_LIMIT := by
  by_cases hlarge : OUTPUT_LIMIT ≤ chunk.length
  · simp only [push, if_pos hlarge]
    split
    · rfl
    · rename_i hroom
      have hnone := Nat.eq_zero_of_not_pos hroom
      simp only [List.rtake, hnone, drop_zero]
  · have hall : chunk.rtake OUTPUT_LIMIT = chunk := by
      rw [List.rtake, Nat.sub_eq_zero_of_le (Nat.le_of_not_le hlarge), drop_zero]
    simp only [push, if_neg hlarge, hall]
    split
    · rfl
    · rename_i hroom
      rw [Nat.eq_zero_of_not_pos hroom, drop_zero]

theorem push_truncated (self : OutputBuffer) (chunk : List UInt8) :
    (self.push chunk).truncated = true ↔
      OUTPUT_LIMIT ≤ chunk.length ∨ OUTPUT_LIMIT < self.bytes.length + chunk.length ∨
        self.truncated = true := by
  by_cases hlarge : OUTPUT_LIMIT ≤ chunk.length
  · simp only [push, if_pos hlarge]
    split <;> simp [hlarge]
  · simp only [push, if_neg hlarge]
    split
    · rename_i hover
      simp
      omega
    · rename_i hroom
      have : ¬ OUTPUT_LIMIT < self.bytes.length + chunk.length := by omega
      simp [hlarge, this]

/-- What a buffer holds after `chunks`. -/
structure Holds (buffer : OutputBuffer) (chunks : List (List UInt8)) : Prop where
  bytes : buffer.bytes = chunks.flatten.rtake OUTPUT_LIMIT
  truncated : buffer.truncated = true ↔
    OUTPUT_LIMIT < chunks.flatten.length ∨ ∃ chunk ∈ chunks, chunk.length = OUTPUT_LIMIT

variable {buffer : OutputBuffer} {chunks : List (List UInt8)}

theorem Holds.push (h : buffer.Holds chunks) (chunk : List UInt8) :
    (buffer.push chunk).Holds (chunks ++ [chunk]) where
  bytes := by
    rw [push_bytes, h.bytes, flatten_append, flatten_singleton, rtake_append]
  truncated := by
    rw [push_truncated, h.truncated, h.bytes, length_rtake]
    simp only [flatten_append, flatten_singleton, length_append, mem_append,
      mem_singleton]
    constructor
    · rintro (hlarge | hover | hover | ⟨seen, hseen, hlength⟩)
      · by_cases hexact : chunk.length = OUTPUT_LIMIT
        · exact .inr ⟨chunk, .inr rfl, hexact⟩
        · left
          omega
      · left
        omega
      · left
        omega
      · exact .inr ⟨seen, .inl hseen, hlength⟩
    · rintro (hover | ⟨seen, hseen | rfl, hlength⟩)
      · omega
      · exact .inr (.inr (.inr ⟨seen, hseen, hlength⟩))
      · exact .inl (Nat.le_of_eq hlength.symm)

theorem Holds.run (h : buffer.Holds chunks) (more : List (List UInt8)) :
    (more.foldl OutputBuffer.push buffer).Holds (chunks ++ more) := by
  induction more generalizing buffer chunks with
  | nil => rwa [append_nil]
  | cons chunk more ih =>
    rw [append_cons, foldl_cons]
    exact ih (h.push chunk)

theorem ofChunks_holds (chunks : List (List UInt8)) : (ofChunks chunks).Holds chunks := by
  have hempty : Holds {} [] :=
    { bytes := by rw [flatten_nil, rtake_nil]
      truncated := by
        constructor
        · intro h
          cases h
        · rintro (h | ⟨chunk, hchunk, _⟩)
          · exact absurd h (Nat.not_lt_zero _)
          · cases hchunk }
  exact hempty.run chunks

end OutputBuffer

/-! ## The text -/

/-- `strip_controls` as a machine, but for the carriage returns. -/
def scanner : Transducer State UInt8 UInt8 where
  next := State.next
  out := fun state byte => if state = .text ∧ byte ≠ 0x1b then [byte] else []

/-- What is shown of `bytes` when `following` is written behind them: a carriage return
before a newline is not. -/
def shown : List UInt8 → List UInt8 → List UInt8
  | [], _ => []
  | byte :: bytes, following =>
    if byte = 0x0d ∧ (bytes ++ following).head? = some 0x0a then shown bytes following
    else byte :: shown bytes following

theorem shown_append (xs ys following : List UInt8) :
    shown (xs ++ ys) following = shown xs (ys ++ following) ++ shown ys following := by
  induction xs with
  | nil => rfl
  | cons x xs ih =>
    simp only [cons_append, shown, append_assoc, ih]
    split <;> rfl

theorem mem_of_mem_shown {byte bytes following}
    (h : byte ∈ shown bytes following) : byte ∈ bytes := by
  induction bytes with
  | nil => exact h
  | cons first bytes ih =>
    rw [shown] at h
    split at h
    · exact mem_cons_of_mem first (ih h)
    · rcases mem_cons.mp h with rfl | h
      · exact mem_cons_self
      · exact mem_cons_of_mem first (ih h)

/-- What stands in `out`, as it is shown in front of `following`. -/
def returned (out following : List UInt8) : List UInt8 :=
  if out.getLast? = some 0x0d ∧ following.head? = some 0x0a then out.dropLast else out

/-- One byte: what is written of it joins `out`. -/
theorem stripByte_spec (out : List UInt8) (state : State) (byte : UInt8) (following : List UInt8) :
    (stripByte out state byte).2 = scanner.next state byte ∧
      returned (stripByte out state byte).1 following ++ shown following [] =
        returned out (scanner.out state byte ++ following) ++
          shown (scanner.out state byte ++ following) [] := by
  cases state with
  | text =>
    by_cases hescape : byte = 0x1b
    · simp [stripByte, scanner, State.next, hescape]
    · by_cases hnewline : byte = 0x0a
      · subst hnewline
        simp [stripByte, scanner, State.next, returned, shown]
      · by_cases hreturn : byte = 0x0d
        · subst hreturn
          by_cases hnext : following.head? = some 0x0a <;>
            simp [stripByte, scanner, State.next, returned, shown, hnext]
        · simp [stripByte, scanner, State.next, returned, shown, hescape, hnewline, hreturn]
  | _ => exact ⟨rfl, rfl⟩

theorem foldl_stripByte (out : List UInt8) (state : State) (bytes : List UInt8) :
    (bytes.foldl (fun (out, state) byte => stripByte out state byte) (out, state)).1 =
      returned out (scanner.emit state bytes) ++ shown (scanner.emit state bytes) [] := by
  induction bytes generalizing out state with
  | nil => simp [returned, shown]
  | cons byte bytes ih =>
    obtain ⟨hstate, hout⟩ := stripByte_spec out state byte
      (scanner.emit (scanner.next state byte) bytes)
    rw [foldl_cons, Transducer.emit_cons, ← hout, ← hstate]
    exact ih _ _

theorem stripControls_eq (bytes : List UInt8) :
    stripControls bytes = shown (scanner.emit .text bytes) [] := by
  rw [stripControls, foldl_stripByte]
  simp [returned]

/-- Nothing of a control sequence but its first byte is special, and that is never shown. -/
theorem escape_not_mem_stripControls (bytes : List UInt8) : 0x1b ∉ stripControls bytes := by
  intro hmem
  rw [stripControls_eq] at hmem
  refine scanner.forall_mem_emit (p := (· ≠ 0x1b)) ?_ .text bytes 0x1b (mem_of_mem_shown hmem) rfl
  intro state byte b hb
  simp only [scanner] at hb
  split at hb
  · rename_i hshown
    rw [mem_singleton.mp hb]
    exact hshown.2
  · cases hb

theorem emit_text {bytes} (h : 0x1b ∉ bytes) : scanner.emit .text bytes = bytes := by
  induction bytes with
  | nil => rfl
  | cons byte bytes ih =>
    obtain ⟨hfirst, hrest⟩ := not_or.mp (mt mem_cons.mpr h)
    simp [scanner, State.next, Ne.symm hfirst]
    exact ih hrest

theorem emit_string {bytes} (hbell : 0x07 ∉ bytes) (hescape : 0x1b ∉ bytes) :
    scanner.emit .string bytes = [] := by
  induction bytes with
  | nil => rfl
  | cons byte bytes ih =>
    obtain ⟨hnotbell, hbell⟩ := not_or.mp (mt mem_cons.mpr hbell)
    obtain ⟨hnotescape, hescape⟩ := not_or.mp (mt mem_cons.mpr hescape)
    simp [scanner, State.next, Ne.symm hnotbell, Ne.symm hnotescape]
    exact ih hbell hescape

theorem shown_eq_self {bytes} (h : 0x0d ∉ bytes) (following : List UInt8) :
    shown bytes following = bytes := by
  induction bytes with
  | nil => rfl
  | cons byte bytes ih =>
    obtain ⟨hfirst, hrest⟩ := not_or.mp (mt mem_cons.mpr h)
    rw [shown, if_neg (fun hreturn => hfirst hreturn.1.symm), ih hrest]

/-- Plain text is shown as it is. -/
theorem stripControls_eq_self {bytes} (hescape : 0x1b ∉ bytes)
    (hreturn : 0x0d ∉ bytes) : stripControls bytes = bytes := by
  rw [stripControls_eq, emit_text hescape, shown_eq_self hreturn]

/-! ## A scan that starts over -/

/-- A scan that starts over behind `before` shows nothing of its own: what it shows of `rest`
until it is in the state of the scan of everything is the end of what that one has shown. -/
def Mends (before rest : List UInt8) : Prop :=
  let inside := scanner.after .text before
  let between := scanner.apart .text inside rest
  let following := scanner.emit (scanner.after .text between) (scanner.joined .text inside rest)
  shown (scanner.emit .text between) following <:+
    shown (scanner.emit .text before ++ scanner.emit inside between) following

theorem mends_iff (before rest : List UInt8) :
    Mends before rest ↔ stripControls rest <:+ stripControls (before ++ rest) := by
  obtain ⟨hrest, hwhole⟩ := scanner.emit_split .text (scanner.after .text before) rest
  rw [stripControls_eq, stripControls_eq, scanner.emit_append, hrest, hwhole, ← append_assoc,
    shown_append, shown_append, append_nil, suffix_append_self_iff]
  rfl

namespace OutputBuffer

/-- Where the text of more than `OUTPUT_LIMIT` bytes begins. -/
def cut (whole : List UInt8) : Nat :=
  whole.length - OUTPUT_LIMIT + lineStart (whole.rtake OUTPUT_LIMIT)

/-- What is said of a buffer after `chunks`. -/
structure Honest (chunks : List (List UInt8)) : Prop where
  tail : (ofChunks chunks).bytes =
    chunks.flatten.drop (chunks.flatten.length - min chunks.flatten.length OUTPUT_LIMIT)
  truncated : (ofChunks chunks).truncated = true ↔
    (ofChunks chunks).bytes.length < chunks.flatten.length
  suffix : (ofChunks chunks).plainText <:+ stripControls chunks.flatten
  whole : (ofChunks chunks).bytes.length = chunks.flatten.length →
    (ofChunks chunks).plainText = stripControls chunks.flatten
  no_escape : 0x1b ∉ (ofChunks chunks).plainText

/-- No chunk fills the buffer on its own to the last byte; and where bytes are dropped, the
scan of the rest mends. -/
structure Fits (chunks : List (List UInt8)) : Prop where
  room : chunks.flatten.length ≤ OUTPUT_LIMIT → ∀ chunk ∈ chunks, chunk.length ≠ OUTPUT_LIMIT
  mends : OUTPUT_LIMIT < chunks.flatten.length →
    Mends (chunks.flatten.take (cut chunks.flatten)) (chunks.flatten.drop (cut chunks.flatten))

theorem bytes_length (chunks : List (List UInt8)) :
    (ofChunks chunks).bytes.length = min OUTPUT_LIMIT chunks.flatten.length := by
  rw [(ofChunks_holds chunks).bytes, length_rtake]

theorem plainText_of_truncated (h : (ofChunks chunks).truncated = true) :
    (ofChunks chunks).plainText = stripControls (chunks.flatten.drop (cut chunks.flatten)) := by
  rw [plainText, if_pos h, (ofChunks_holds chunks).bytes, cut]
  rw [← drop_drop]
  rfl

/-- **The captured output** is an honest tail exactly when it fits, or mends. -/
theorem honest_iff (chunks : List (List UInt8)) : Honest chunks ↔ Fits chunks := by
  have hholds := ofChunks_holds chunks
  have hlength := bytes_length chunks
  constructor
  · intro honest
    refine ⟨?_, ?_⟩
    · intro hfew chunk hchunk hexact
      have htruncated := honest.truncated.mp (hholds.truncated.mpr (.inr ⟨chunk, hchunk, hexact⟩))
      omega
    · intro hmany
      have hsuffix := honest.suffix
      rw [plainText_of_truncated (hholds.truncated.mpr (.inl hmany))] at hsuffix
      rwa [mends_iff, take_append_drop]
  · intro fits
    have htruncated : (ofChunks chunks).truncated = true ↔ OUTPUT_LIMIT < chunks.flatten.length := by
      rw [hholds.truncated]
      constructor
      · rintro (hmany | ⟨chunk, hchunk, hexact⟩)
        · exact hmany
        · exact Nat.lt_of_not_le fun hfew => fits.room hfew chunk hchunk hexact
      · exact .inl
    have hwhole : chunks.flatten.length ≤ OUTPUT_LIMIT →
        (ofChunks chunks).plainText = stripControls chunks.flatten := by
      intro hfew
      have hkept : ¬ (ofChunks chunks).truncated = true :=
        fun h => Nat.not_lt_of_le hfew (htruncated.mp h)
      rw [plainText, if_neg hkept, hholds.bytes, drop_zero, List.rtake,
        Nat.sub_eq_zero_of_le hfew, drop_zero]
    refine ⟨?_, ?_, ?_, ?_, ?_⟩
    · have hdropped : chunks.flatten.length - min chunks.flatten.length OUTPUT_LIMIT =
          chunks.flatten.length - OUTPUT_LIMIT := by omega
      rw [hholds.bytes, List.rtake, hdropped]
    · rw [htruncated, hlength]
      omega
    · rcases Nat.lt_or_ge OUTPUT_LIMIT chunks.flatten.length with hmany | hfew
      · rw [plainText_of_truncated (htruncated.mpr hmany)]
        have hmends := (mends_iff _ _).mp (fits.mends hmany)
        rwa [take_append_drop] at hmends
      · exact ⟨[], hwhole hfew⟩
    · intro hall
      exact hwhole (by omega)
    · rw [plainText]
      exact escape_not_mem_stripControls _

/-- A title that is never closed, read in chunks of the relay's size: the text that follows is
part of the title, but the beginning of the title is dropped. -/
def openTitle : List (List UInt8) :=
  [0x1b, 0x5d] :: List.replicate 64 (List.replicate 16384 0x61)

/-- **A cut string leaks**: its bytes are shown as text once its beginning is dropped. -/
theorem open_title_leaks : ¬ Honest openTitle := by
  intro honest
  have hflat : openTitle.flatten = [0x1b, 0x5d] ++ List.replicate OUTPUT_LIMIT 0x61 := by
    have hlimit : 64 * 16384 = OUTPUT_LIMIT := by simp [OUTPUT_LIMIT]
    rw [openTitle, flatten_cons, flatten_replicate_replicate, hlimit]
  have hplain : ∀ byte : UInt8, byte ≠ 0x61 → byte ∉ List.replicate OUTPUT_LIMIT 0x61 :=
    fun byte hne hmem => hne (eq_of_mem_replicate hmem)
  have hlength : openTitle.flatten.length = OUTPUT_LIMIT + 2 := by
    rw [hflat, length_append, length_replicate, Nat.add_comm]
    rfl
  have hdrop : openTitle.flatten.drop 2 = List.replicate OUTPUT_LIMIT 0x61 := by
    rw [hflat]
    exact @drop_left UInt8 [0x1b, 0x5d] _
  have hkept : openTitle.flatten.rtake OUTPUT_LIMIT = List.replicate OUTPUT_LIMIT 0x61 := by
    rw [List.rtake, hlength, Nat.add_sub_cancel_left, hdrop]
  have hcut : cut openTitle.flatten = 2 := by
    rw [cut, hkept, hlength, Nat.add_sub_cancel_left, lineStart, findIdx?_eq_none_iff.mpr]
    · rfl
    · intro byte hbyte
      rw [eq_of_mem_replicate hbyte]
      rfl
  have htruncated : (ofChunks openTitle).truncated = true := by
    rw [(ofChunks_holds openTitle).truncated, hlength]
    exact .inl (Nat.lt_add_of_pos_right (by decide))
  have hsuffix := honest.suffix
  have hwhole : stripControls openTitle.flatten = [] := by
    rw [stripControls_eq, hflat, scanner.emit_append,
      show scanner.after .text [0x1b, 0x5d] = .string from rfl,
      emit_string (hplain _ (by decide)) (hplain _ (by decide))]
    rfl
  rw [plainText_of_truncated htruncated, hcut, hwhole, hdrop,
    stripControls_eq_self (hplain _ (by decide)) (hplain _ (by decide))] at hsuffix
  have hshown := hsuffix.length_le
  rw [length_replicate, length_nil] at hshown
  exact absurd hshown (by simp [OUTPUT_LIMIT])

end OutputBuffer

end Ish.Capture
