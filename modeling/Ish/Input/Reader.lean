import Ish.Input.Event
import Ish.Lib.EState
import Mathlib.Algebra.GroupWithZero.Nat
import Mathlib.Data.List.Infix

/-!
# The input reader

The model of `InputReader` in `src/input.rs`: keys are decoded from the buffer,
then from the pending bytes, then from the terminal, whose bytes come in the
reads of `unread`. No signal arrives and no read fails. A wait for a terminal
that has nothing more to say ends the run with `waiting`; the waits with a
time-out for a terminal that has something return at once.
-/

namespace Ish.Input

open Ish.Lib

def PASTE_LIMIT : Nat := 8192
def READ_BUF_SIZE : Nat := 4096

def ESC : UInt8 := 0x1b
def PASTE_START : List UInt8 := [ESC, 0x5b, 0x32, 0x30, 0x30, 0x7e]
def PASTE_END : List UInt8 := [ESC, 0x5b, 0x32, 0x30, 0x31, 0x7e]

/-- `buf` is the filled part of the read buffer. -/
structure Reader where
  in_paste : Bool
  paste_buf : List Char
  paste_limit_hit : Bool
  buf : List UInt8
  buf_pos : Nat
  pending : List UInt8
  unread : List (List UInt8)
  deriving DecidableEq

/-- Why a run stops without an event: it waits for the terminal, or the rounds
it was given are used up. -/
inductive Stop where
  | waiting
  | exhausted
  deriving DecidableEq

abbrev Reading (α : Type) := EStateM Stop Reader α

/-- `String::len` -/
def utf8Len (text : List Char) : Nat := (text.map Char.utf8Size).sum

namespace Reader

def new : Reader :=
  { in_paste := false, paste_buf := [], paste_limit_hit := false, buf := [], buf_pos := 0
    pending := [], unread := [] }

def pushPending (r : Reader) (bytes : List UInt8) : Reader :=
  { r with pending := r.pending ++ bytes }

/-- The buffered bytes not decoded yet. -/
def rest (r : Reader) : List UInt8 := r.buf.drop r.buf_pos

/-- All bytes to come. -/
def bytes (r : Reader) : List UInt8 := r.rest ++ (r.pending ++ r.unread.flatten)

/-- `buf_pos < buf_end || !pending.is_empty()` -/
def buffered (r : Reader) : Bool := !r.rest.isEmpty || !r.pending.isEmpty

end Reader

/-! ## Bytes -/

/-- `read` into `space` bytes: the next read of the terminal, what does not fit
being left for another. -/
def readTerminal (space : Nat) : Reading (List UInt8) := fun r =>
  match r.unread with
  | [] => .error .waiting r
  | chunk :: more =>
    let left := if (chunk.drop space).isEmpty then more else chunk.drop space :: more
    .ok (chunk.take space) { r with unread := left }

def fillBuf : Reading Unit := do
  let bytes ← readTerminal READ_BUF_SIZE
  modify fun r => { r with buf := bytes, buf_pos := 0 }

/-- The last lines of `read_byte`. -/
def bufferedByte : Reading UInt8 := fun r =>
  .ok ((r.buf.drop r.buf_pos).headD 0) { r with buf_pos := r.buf_pos + 1 }

def readByte : Reading UInt8 := do
  let r ← get
  if r.rest.isEmpty then
    match r.pending with
    | byte :: pending => do
      set { r with pending }
      pure byte
    | [] => do
      fillBuf
      bufferedByte
  else bufferedByte

/-- `read_byte_timeout`: without a byte in the reader, the terminal is asked for
one. -/
def readByteTimeout : Reading (Option UInt8) := do
  let r ← get
  if r.buffered || !r.unread.isEmpty then do
    let byte ← readByte
    pure (some byte)
  else pure none

/-! ## Keys -/

/-- What a sequence of bytes stands for. -/
inductive Token where
  | key (key : KeyEvent)
  | nothing
  | pasteStart
  | pasteEnd
  deriving DecidableEq

/-- A token's effect on the reader, and its key. -/
def perform : Token → Reading (Option KeyEvent)
  | .key key => pure (some key)
  | .nothing => pure none
  | .pasteStart => do
    modify fun r => { r with in_paste := true, paste_buf := [], paste_limit_hit := false }
    pure none
  | .pasteEnd => do
    modify fun r => { r with in_paste := false }
    pure none

def ofByte (byte : UInt8) : Char := Char.ofNat byte.toNat

/-- The arms of `decode_key` below 0x80, the escape apart. -/
def asciiToken (byte : UInt8) : Token :=
  if byte = 0x00 then .nothing
  else if byte = 0x08 then .key { key := .Backspace, mods := { Modifiers.NONE with ctrl := true } }
  else if byte = 0x09 then .key (.ofKey .Tab)
  else if byte = 0x0a ∨ byte = 0x0d then .key (.ofKey .Enter)
  else if byte = 0x7f then .key (.ofKey .Backspace)
  else if 0x01 ≤ byte ∧ byte ≤ 0x1a then .key (.ctrl (ofByte (byte - 1 + 0x61)))
  else if byte < 0x20 then .nothing
  else .key (.char (ofByte byte))

/-- The arms of `decode_escape` behind a byte that opens no longer sequence. -/
def escapeToken (byte : UInt8) : Token :=
  if byte = 0x62 then .key (.alt 'b')
  else if byte = 0x66 then .key (.alt 'f')
  else if byte = 0x64 then .key (.alt 'd')
  else if 0x20 ≤ byte ∧ byte < 0x7f then .key (.alt (ofByte byte))
  else .key (.ofKey .Escape)

def modifierFromParam (param : Nat) : Modifiers :=
  let bits := param - 1
  { ctrl := bits &&& 4 ≠ 0, alt := bits &&& 2 ≠ 0, shift := bits &&& 1 ≠ 0 }

/-- `csi_to_key`, for a final `~`. -/
def tildeToken (param : Nat) (mods : Modifiers) : Token :=
  if param = 1 ∨ param = 7 then .key { key := .Home, mods }
  else if param = 3 then .key { key := .Delete, mods }
  else if param = 4 ∨ param = 8 then .key { key := .End, mods }
  else if param = 200 then .pasteStart
  else if param = 201 then .pasteEnd
  else .nothing

/-- `csi_to_key` -/
def csiToken (final : UInt8) (params : List Nat) : Token :=
  let mods := if 2 ≤ params.length then modifierFromParam (params.getD 1 0) else Modifiers.NONE
  if final = 0x41 then .key { key := .Up, mods }
  else if final = 0x42 then .key { key := .Down, mods }
  else if final = 0x43 then .key { key := .Right, mods }
  else if final = 0x44 then .key { key := .Left, mods }
  else if final = 0x48 then .key { key := .Home, mods }
  else if final = 0x46 then .key { key := .End, mods }
  else if final = 0x5a then .key { key := .Tab, mods := { Modifiers.NONE with shift := true } }
  else if final = 0x7e then tildeToken (params.headD 0) mods
  else if final = 0x5e then
    if params.headD 0 = 3 then
      .key { key := .Delete, mods := { Modifiers.NONE with ctrl := true } }
    else .nothing
  else .nothing

/-- `decode_ss3`, behind its byte. -/
def ss3Token (byte : UInt8) : Token :=
  if byte = 0x41 then .key (.ofKey .Up)
  else if byte = 0x42 then .key (.ofKey .Down)
  else if byte = 0x43 then .key (.ofKey .Right)
  else if byte = 0x44 then .key (.ofKey .Left)
  else if byte = 0x48 then .key (.ofKey .Home)
  else if byte = 0x46 then .key (.ofKey .End)
  else .nothing

/-- The parameters of a CSI sequence as far as they are read. -/
structure Params where
  params : List Nat
  current : Nat
  has_digit : Bool
  invalid : Bool

def Params.new : Params := ⟨[], 0, false, false⟩

/-- One more digit, in checked `u32` arithmetic. -/
def Params.digit (p : Params) (byte : UInt8) : Params :=
  let value := p.current * 10 + (byte - 0x30).toNat
  if value < 2 ^ 32 then { p with current := value, has_digit := true }
  else { p with invalid := true, has_digit := true }

def Params.separator (p : Params) : Params :=
  { p with params := p.params ++ [if p.has_digit then p.current else 0], current := 0
           has_digit := false }

/-- The token of a sequence with the final byte `byte`. -/
def Params.finish (p : Params) (byte : UInt8) : Token :=
  if p.invalid then .nothing
  else csiToken byte (if p.has_digit then p.params ++ [p.current] else p.params)

/-- One byte of a CSI sequence: the sequence goes on, or is a token. -/
def Params.step (p : Params) (byte : UInt8) : Params ⊕ Token :=
  if 0x30 ≤ byte ∧ byte ≤ 0x39 then .inl (p.digit byte)
  else if byte = 0x3b then .inl p.separator
  else if 0x40 ≤ byte ∧ byte ≤ 0x7e then .inr (p.finish byte)
  else .inr .nothing

/-- The loop of `decode_csi`. -/
def csiFrom : Nat → Params → Reading (Option KeyEvent)
  | 0, _ => throw .exhausted
  | rounds + 1, p => do
    let byte ← readByteTimeout
    match byte with
    | none => pure none
    | some byte =>
      match p.step byte with
      | .inl p => csiFrom rounds p
      | .inr token => perform token

def decodeCsi : Reading (Option KeyEvent) := do
  let r ← get
  csiFrom (r.bytes.length + 1) .new

def decodeSs3 : Reading (Option KeyEvent) := do
  let byte ← readByteTimeout
  match byte with
  | none => pure none
  | some byte => perform (ss3Token byte)

def decodeEscape : Reading (Option KeyEvent) := do
  let byte ← readByteTimeout
  match byte with
  | none => pure (some (.ofKey .Escape))
  | some byte =>
    if byte = 0x5b then decodeCsi
    else if byte = 0x4f then decodeSs3
    else perform (escapeToken byte)

/-- The number of further bytes of a character and the bits of its first. -/
def utf8Lead (first : UInt8) : Option (Nat × Nat) :=
  if first &&& 0xe0 = 0xc0 then some (1, (first &&& 0x1f).toNat)
  else if first &&& 0xf0 = 0xe0 then some (2, (first &&& 0x0f).toNat)
  else if first &&& 0xf8 = 0xf0 then some (3, (first &&& 0x07).toNat)
  else none

/-- `char::from_u32` -/
def charToken (cp : Nat) : Token :=
  if cp.isValidChar then .key (.char (Char.ofNat cp)) else .nothing

/-- One further byte of a character of the bits `cp`. -/
def utf8Step (cp : Nat) (byte : UInt8) : Option Nat :=
  if byte &&& 0xc0 = 0x80 then some (cp <<< 6 ||| (byte &&& 0x3f).toNat) else none

/-- The loop of `decode_utf8`. -/
def utf8From : Nat → Nat → Reading (Option KeyEvent)
  | 0, cp => perform (charToken cp)
  | more + 1, cp => do
    let byte ← readByte
    match utf8Step cp byte with
    | none => pure none
    | some cp => utf8From more cp

def decodeUtf8 (first : UInt8) : Reading (Option KeyEvent) :=
  match utf8Lead first with
  | none => pure none
  | some (more, cp) => utf8From more cp

def decodeKey : Reading (Option KeyEvent) := do
  let byte ← readByte
  if byte = ESC then decodeEscape
  else if byte < 0x80 then perform (asciiToken byte)
  else decodeUtf8 byte

/-! ## Pastes -/

/-- The text a key adds to a paste. -/
def keyText (event : KeyEvent) : List Char :=
  match event.key with
  | .Char c => if event.mods.ctrl || event.mods.alt then [] else [c]
  | .Enter => ['\n']
  | .Tab => ['\t']
  | _ => []

def accumulatePasteKey (key : KeyEvent) : Reading Unit := do
  let r ← get
  if r.paste_limit_hit then pure ()
  else if utf8Len (r.paste_buf ++ keyText key) > PASTE_LIMIT then
    set { r with paste_limit_hit := true, paste_buf := [] }
  else set { r with paste_buf := r.paste_buf ++ keyText key }

/-- `shift_pending_into_buf` -/
def shiftPendingIntoBuf : Reading Bool := fun r =>
  if r.pending.isEmpty then .ok false r
  else if !r.rest.isEmpty && READ_BUF_SIZE ≤ r.buf.length then .ok false r
  else
    let buf := if r.rest.isEmpty then [] else r.buf
    let pos := if r.rest.isEmpty then 0 else r.buf_pos
    let space := READ_BUF_SIZE - buf.length
    .ok (!(r.pending.take space).isEmpty)
      { r with buf := buf ++ r.pending.take space, buf_pos := pos, pending := r.pending.drop space }

/-- The bytes from the first escape on. -/
def fromEscape (bytes : List UInt8) : List UInt8 := bytes.dropWhile (· ≠ ESC)

/-- The loop of `skip_paste_remainder`. A poll of a terminal with nothing unread
times out every 100 ms, until something comes. -/
def skipFrom : Nat → Reading Unit
  | 0 => throw .exhausted
  | rounds + 1 => do
    let r ← get
    if r.rest.isEmpty then do
      let shifted ← shiftPendingIntoBuf
      if shifted then skipFrom rounds
      else do
        fillBuf
        skipFrom rounds
    else
      let after := fromEscape r.rest
      if after.isEmpty then do
        set { r with buf_pos := r.buf.length }
        skipFrom rounds
      else if PASTE_END.length ≤ after.length && after.take PASTE_END.length = PASTE_END then
        set { r with
          buf_pos := r.buf_pos + (r.rest.length - after.length) + PASTE_END.length
          in_paste := false }
      else if after.length < PASTE_END.length then do
        set { r with buf := after, buf_pos := 0 }
        if r.unread.isEmpty then throw .waiting
        else do
          let shifted ← shiftPendingIntoBuf
          if shifted then skipFrom rounds
          else do
            let bytes ← readTerminal (READ_BUF_SIZE - after.length)
            modify fun r => { r with buf := r.buf ++ bytes }
            skipFrom rounds
      else do
        set { r with buf_pos := r.buf_pos + (r.rest.length - after.length) + 1 }
        skipFrom rounds

def skipPasteRemainder : Reading Unit := do
  let r ← get
  skipFrom (2 * r.bytes.length + 1)

/-! ## Events -/

/-- The part of the loop of `read_event` behind the decoding of what is
buffered; `again` is the next round. -/
def afterBuffered (again : Reading InputEvent) : Reading InputEvent := do
  let r ← get
  if !r.in_paste && !r.paste_buf.isEmpty then do
    set { r with paste_limit_hit := false, paste_buf := [] }
    pure (.Paste r.paste_buf)
  else if r.in_paste && r.paste_limit_hit then do
    skipPasteRemainder
    modify fun r => { r with paste_limit_hit := false }
    pure .PasteRejected
  else if r.unread.isEmpty then throw .waiting
  else do
    let key ← decodeKey
    let r ← get
    match key with
    | some key =>
      if r.in_paste then do
        accumulatePasteKey key
        again
      else pure (.Key key)
    | none =>
      if r.in_paste then again
      else if r.paste_limit_hit then do
        set { r with paste_limit_hit := false }
        pure .PasteRejected
      else if !r.paste_buf.isEmpty then do
        set { r with paste_buf := [] }
        pure (.Paste r.paste_buf)
      else again

/-- The loop of `read_event`, from the head of its inner loop: one round decodes
one key. -/
def readFrom : Nat → Reading InputEvent
  | 0 => throw .exhausted
  | rounds + 1 => do
    let r ← get
    if r.buffered && !(r.in_paste && r.paste_limit_hit) then do
      let key ← decodeKey
      let r ← get
      match key with
      | some key =>
        if r.in_paste then do
          accumulatePasteKey key
          let r ← get
          if r.paste_limit_hit then afterBuffered (readFrom rounds)
          else readFrom rounds
        else pure (.Key key)
      | none =>
        if r.in_paste then readFrom rounds
        else afterBuffered (readFrom rounds)
    else afterBuffered (readFrom rounds)

/-- `read_event`: every round but the last takes a byte. -/
def readEvent : Reading InputEvent := do
  let r ← get
  readFrom (r.bytes.length + 1)

end Ish.Input
