import Ish.Epsh.Encoding
import Ish.Lib.LittleEndian
import Ish.Lib.Result

/-!
# Occurrences — the records of the history log

The model of `Occurrence`, `encode`, `decode` and `crc32` in
`src/history/store.rs`. A frame is the payload's length, the checksum of those
eight bytes, the checksum of the payload, and the payload. `usize` is 64 bits.
-/

namespace Ish.HistoryLog

open Ish.Lib List LittleEndian
open Ish.Epsh (fromUtf8)

/-- `io::Error`: `invalid(message)`, and `FrameCorruption` at its offset. -/
inductive LogError where
  | invalid (message : String)
  | corrupt (offset : Nat) (message : String)
  deriving DecidableEq

structure Occurrence where
  id : Int64
  command : List Char
  timestamp : UInt64
  session_id : UInt64
  cwd : Option (List UInt8)
  deriving DecidableEq

def FRAME_HEADER_SIZE : Nat := 16

/-- `u32::MAX`, the length of an absent directory. -/
def U32_MAX : Nat := 2 ^ 32 - 1

/-! ## CRC-32 -/

def crcBit (value : UInt32) : UInt32 :=
  if value &&& 1 ≠ 0 then (value >>> 1) ^^^ 0xedb88320 else value >>> 1

/-- One entry of `crc_table`. -/
def crcTable (index : UInt8) : UInt32 := Nat.repeat crcBit 8 index.toUInt32

def crc32 (bytes : List UInt8) : UInt32 :=
  ~~~ bytes.foldl (fun crc byte => (crc >>> 8) ^^^ crcTable (crc.toUInt8 ^^^ byte)) (~~~ 0)

/-! ## Frames -/

/-- The directory field of a payload, empty when there is none. -/
def directoryBytes (o : Occurrence) : List UInt8 := o.cwd.getD []

def cwdLen (o : Occurrence) : Nat :=
  match o.cwd with
  | some cwd => cwd.length
  | none => U32_MAX

def payload (o : Occurrence) : List UInt8 :=
  i64 o.id ++ u64 o.timestamp ++
    u64 o.session_id ++ u32 (UInt32.ofNat (cwdLen o)) ++
    u32 (UInt32.ofNat (Utf8.encode o.command).length) ++
    directoryBytes o ++ Utf8.encode o.command

/-- A payload behind its length and the two checksums. -/
def framed (bytes : List UInt8) : List UInt8 :=
  let length := u64 (UInt64.ofNat bytes.length)
  length ++ u32 (crc32 length) ++ u32 (crc32 bytes) ++ bytes

def frame (o : Occurrence) : List UInt8 := framed (payload o)

def encode (o : Occurrence) : Except LogError (List UInt8) :=
  let command_len := (Utf8.encode o.command).length
  if o.id ≤ 0 ∨ o.command = [] then .error (.invalid "invalid occurrence")
  else if o.cwd.isSome ∧ U32_MAX ≤ cwdLen o then .error (.invalid "directory is too long")
  else if U32_MAX < command_len then .error (.invalid "command is too long")
  else if 2 ^ 64 ≤ 32 + (directoryBytes o).length + command_len then
    .error (.invalid "payload length overflow")
  else if 2 ^ 64 ≤ (payload o).length + FRAME_HEADER_SIZE then
    .error (.invalid "frame length overflow")
  else .ok (frame o)

/-- `decode`, of a payload of at least 32 bytes. -/
def decode (payload : List UInt8) : Except LogError Occurrence :=
  let id := toI64 (payload.take 8)
  let timestamp := toU64 ((payload.drop 8).take 8)
  let session_id := toU64 ((payload.drop 16).take 8)
  let cwd_len := (toU32 ((payload.drop 24).take 4)).toNat
  let command_len := (toU32 ((payload.drop 28).take 4)).toNat
  let directory_size := if cwd_len = U32_MAX then 0 else cwd_len
  let command_start := 32 + directory_size
  if id ≤ 0 then .error (.invalid "nonpositive occurrence id")
  else if command_len = 0 ∨ command_start + command_len ≠ payload.length then
    .error (.invalid "invalid payload field lengths")
  else
    match fromUtf8 (payload.drop command_start) with
    | .error _ => .error (.invalid "command is not UTF-8")
    | .ok command =>
      let cwd := if cwd_len ≠ U32_MAX then some ((payload.take command_start).drop 32)
        else none
      .ok { id, timestamp, session_id, cwd, command }

/-! ## What `encode` accepts -/

/-- The occurrences that `encode` accepts. -/
structure Storable (o : Occurrence) : Prop where
  id : 0 < o.id
  command : o.command ≠ []
  cwd_len : o.cwd.isSome → cwdLen o < U32_MAX
  command_len : (Utf8.encode o.command).length ≤ U32_MAX

variable {o : Occurrence}

theorem Storable.directory_lt (h : Storable o) : (directoryBytes o).length < U32_MAX := by
  have hlen := h.cwd_len
  cases hcwd : o.cwd with
  | none => simp [directoryBytes, hcwd, U32_MAX]
  | some cwd => simpa [directoryBytes, cwdLen, hcwd] using hlen

theorem Storable.cwdLen_le (h : Storable o) : cwdLen o ≤ U32_MAX := by
  have hlen := h.cwd_len
  cases hcwd : o.cwd with
  | none => simp [cwdLen, hcwd]
  | some cwd => exact Nat.le_of_lt (hlen (by simp [hcwd]))

theorem length_payload (o : Occurrence) : (payload o).length =
    32 + (directoryBytes o).length + (Utf8.encode o.command).length := by
  simp only [payload, length_append, length_i64,
    length_u64, length_u32]

theorem length_framed (bytes : List UInt8) :
    (framed bytes).length = FRAME_HEADER_SIZE + bytes.length := by
  simp only [framed, length_append, length_u64,
    length_u32, FRAME_HEADER_SIZE]

/-- **What is encoded**: the frame of an occurrence with a positive id, a
command, and lengths that fit their fields. -/
theorem encode_eq_ok {bytes} :
    encode o = .ok bytes ↔ Storable o ∧ bytes = frame o := by
  have hlen := length_payload o
  constructor
  · intro h
    simp only [encode] at h
    split at h
    · cases h
    split at h
    · cases h
    split at h
    · cases h
    split at h
    · cases h
    split at h
    · cases h
    rename_i hid hcwd hcommand _ _
    simp only [not_or, Int64.not_le, not_and, Nat.not_le, Nat.not_lt] at hid hcwd hcommand
    cases h
    exact ⟨⟨hid.1, hid.2, hcwd, hcommand⟩, rfl⟩
  · rintro ⟨h, rfl⟩
    have hdir := h.directory_lt
    have hcommand := h.command_len
    have hid := Int64.not_le.mpr h.id
    have hcwd : ¬ (o.cwd.isSome ∧ U32_MAX ≤ cwdLen o) := fun hc =>
      Nat.not_le.mpr (h.cwd_len hc.1) hc.2
    simp only [U32_MAX] at hdir hcommand
    rw [encode, if_neg (not_or.mpr ⟨hid, h.command⟩), if_neg hcwd, if_neg, if_neg, if_neg]
    · rw [hlen, FRAME_HEADER_SIZE]
      omega
    · omega
    · simp only [U32_MAX]
      omega

theorem encode_storable (h : Storable o) : encode o = .ok (frame o) :=
  encode_eq_ok.mpr ⟨h, rfl⟩

/-! ## The payload round trip -/

private theorem toNat_ofNat_le {n} (h : n ≤ U32_MAX) : (UInt32.ofNat n).toNat = n := by
  have hlt : n < 2 ^ 32 := by
    simp only [U32_MAX] at h
    omega
  exact UInt32.toNat_ofNat_of_lt' hlt

private theorem numbers_read (h : Storable o) :
    toI64 ((payload o).take 8) = o.id ∧
      toU64 (((payload o).drop 8).take 8) = o.timestamp ∧
      toU64 (((payload o).drop 16).take 8) = o.session_id ∧
      (toU32 (((payload o).drop 24).take 4)).toNat = cwdLen o ∧
      (toU32 (((payload o).drop 28).take 4)).toNat =
        (Utf8.encode o.command).length := by
  have hcwd := toNat_ofNat_le h.cwdLen_le
  have hcommand := toNat_ofNat_le h.command_len
  refine ⟨?_, ?_, ?_, ?_, ?_⟩
  · simp [payload]
  all_goals
    simp [payload, drop_append, drop_eq_nil_of_le, hcwd, hcommand]

private theorem texts_read (o : Occurrence) :
    (payload o).drop (32 + (directoryBytes o).length) = Utf8.encode o.command ∧
      ((payload o).take (32 + (directoryBytes o).length)).drop 32 = directoryBytes o := by
  generalize hnumbers : i64 o.id ++ u64 o.timestamp ++
    u64 o.session_id ++ u32 (UInt32.ofNat (cwdLen o)) ++
    u32 (UInt32.ofNat (Utf8.encode o.command).length) = numbers
  have hlen : numbers.length = 32 := by simp [← hnumbers]
  have hfront : (numbers ++ directoryBytes o).length = 32 + (directoryBytes o).length := by
    rw [length_append, hlen]
  rw [payload, hnumbers, drop_left' hfront, take_left' hfront,
    drop_left' hlen]
  exact ⟨rfl, rfl⟩

private theorem directory_size_eq (h : Storable o) :
    (if cwdLen o = U32_MAX then 0 else cwdLen o) = (directoryBytes o).length ∧
      (if cwdLen o ≠ U32_MAX then some (directoryBytes o) else none) = o.cwd := by
  have hlen := h.cwd_len
  cases hcwd : o.cwd with
  | none => simp [cwdLen, directoryBytes, hcwd]
  | some cwd =>
    have hne : cwd.length ≠ U32_MAX := by
      simp only [hcwd, Option.isSome_some, cwdLen, forall_const] at hlen
      omega
    simp [cwdLen, directoryBytes, hcwd, hne]

/-- **A payload reads back** as the occurrence it was made of. -/
theorem decode_payload (h : Storable o) : decode (payload o) = .ok o := by
  obtain ⟨hid, htimestamp, hsession, hcwd, hcommand⟩ := numbers_read h
  obtain ⟨htext, hdir⟩ := texts_read o
  obtain ⟨hsize, hsome⟩ := directory_size_eq h
  have hpos : ¬ o.id ≤ 0 := Int64.not_le.mpr h.id
  have hne : (Utf8.encode o.command).length ≠ 0 := fun h0 =>
    h.command (Utf8.encode_injective (length_eq_zero_iff.mp h0))
  have hfits : ¬ ((Utf8.encode o.command).length = 0 ∨
      32 + (directoryBytes o).length + (Utf8.encode o.command).length ≠
        (payload o).length) := by
    rw [length_payload]
    simp [hne]
  simp only [decode, hid, htimestamp, hsession, hcwd, hcommand, hsize, htext, hdir]
  rw [if_neg hpos, if_neg hfits, Epsh.fromUtf8_encode, hsome]

end Ish.HistoryLog
