import Ish.HistoryLog.Record

/-!
# The history log — reading, appending, resetting, salvaging

The model of `Store` in `src/history/store.rs`. Every method runs under the
exclusive lock, so it is one function on the `Disk`, and system calls succeed.
An error keeps the disk as the method left it: a log whose torn tail was already
dropped stays so when a later check fails.
-/

namespace Ish.HistoryLog

open Ish.Lib

/-! ## The files -/

/-- `(metadata.dev(), metadata.ino())` -/
abbrev Identity := Nat × Nat

structure LogFile where
  identity : Identity
  bytes : List UInt8

/-- The directory of the log: the file at `path`, the files set aside at
`corrupt_path`, and the identities that files made later will get. Identities
may repeat: the number of a removed file is used again. -/
structure Disk where
  file : LogFile
  moved : List (List UInt8)
  identities : Nat → Identity
  made : Nat

abbrev StoreM := EStateM LogError Disk

def StoreM.ofExcept {α : Type} : Except LogError α → StoreM α
  | .ok a => pure a
  | .error e => throw e

@[simp] theorem StoreM.ofExcept_ok {α : Type} (a : α) (disk : Disk) :
    StoreM.ofExcept (.ok a) disk = .ok a disk := rfl

def HEADER : List UInt8 := [0x49, 0x53, 0x48, 0x4c, 0x4f, 0x47, 0x00, 0x01]

def HEADER_SIZE : Nat := 16

structure Cursor where
  identity : Option Identity
  generation : Int64
  offset : Nat
  last_id : Int64
  deriving DecidableEq

def Cursor.default : Cursor :=
  { identity := none, generation := 0, offset := HEADER_SIZE, last_id := 0 }

structure Snapshot where
  generation : Int64
  occurrences : List Occurrence
  deriving DecidableEq

/-- `checked_add(1)` on an `i64`. -/
def checkedSucc (n : Int64) (message : String) : Except LogError Int64 :=
  if n = Int64.maxValue then .error (.invalid message) else .ok (n + 1)

/-! ## Writing a whole file -/

/-- A new file takes the place of the log. -/
def Disk.published (disk : Disk) (generation : Int64) (records : List UInt8) : Disk :=
  { disk with
    file := {
      identity := disk.identities disk.made
      bytes := HEADER ++ LittleEndian.i64 generation ++ records }
    made := disk.made + 1 }

def publish (generation : Int64) (records : List UInt8) : StoreM Unit :=
  modify fun disk => disk.published generation records

def replace (generation : Int64) (occurrences : List Occurrence) : StoreM Unit := do
  let frames ← StoreM.ofExcept (occurrences.mapM encode)
  publish generation frames.flatten

/-! ## Reading -/

def readHeader (bytes : List UInt8) : Except LogError Int64 :=
  if bytes.length < HEADER_SIZE then .error (.invalid "incomplete file header")
  else if bytes.take 8 ≠ HEADER then
    .error (.invalid "unsupported or corrupt file header")
  else
    let current := LittleEndian.toI64 ((bytes.drop 8).take 8)
    if current < 0 then .error (.invalid "negative generation") else .ok current

/-- What the loop of `read_snapshot` ends with. -/
structure Scan where
  cursor : Cursor
  occurrences : List Occurrence
  discarded_tail : Bool

/-- The loop of `read_snapshot`, over the bytes from the cursor on. A round
reads at least one byte, so `rest.length` is fuel enough. -/
def readFrames (cutoff : Int64) : Nat → Cursor → List UInt8 → Except LogError Scan
  | 0, cursor, _ => .ok { cursor, occurrences := [], discarded_tail := false }
  | fuel + 1, cursor, rest =>
    let discarded := .ok { cursor, occurrences := [], discarded_tail := true }
    if rest = [] then .ok { cursor, occurrences := [], discarded_tail := false }
    else if rest.length < FRAME_HEADER_SIZE then discarded
    else
      let length := (LittleEndian.toU64 (rest.take 8)).toNat
      let length_crc := LittleEndian.toU32 ((rest.drop 8).take 4)
      let checksum := LittleEndian.toU32 ((rest.drop 12).take 4)
      let frame_size := FRAME_HEADER_SIZE + length
      let payload := (rest.drop FRAME_HEADER_SIZE).take length
      if crc32 (rest.take 8) ≠ length_crc then
        -- the frame header and `rest_is_zero`
        if rest.all (· == 0) then discarded
        else .error (.corrupt cursor.offset "frame length checksum mismatch")
      else if length < 32 then
        .error (.corrupt cursor.offset "frame payload is too short")
      else if 2 ^ 64 ≤ frame_size then .error (.invalid "frame length overflow")
      else if rest.length < frame_size then discarded
      else if crc32 payload ≠ checksum then
        if frame_size = rest.length then discarded
        else .error (.corrupt cursor.offset "frame payload checksum mismatch")
      else
        match decode payload with
        | .error _ => .error (.corrupt cursor.offset "invalid record")
        | .ok occurrence =>
          if occurrence.id ≤ cursor.last_id then
            .error (.corrupt cursor.offset "occurrence ids are not strictly increasing")
          else if 2 ^ 64 ≤ cursor.offset + frame_size then
            .error (.invalid "file offset overflow")
          else do
            let scan ← readFrames cutoff fuel
              { cursor with
                offset := cursor.offset + frame_size
                last_id := occurrence.id }
              (rest.drop frame_size)
            let occurrences := if cutoff < occurrence.id then
              occurrence :: scan.occurrences else scan.occurrences
            return { scan with occurrences }

/-- Where reading starts: the cached cursor, or the first frame when the cursor
is of another file, another generation, or too far, or when the reader's own
occurrences are to be dropped. -/
def startCursor (cursor : Cursor) (file : LogFile) (current generation last_id : Int64) :
    Cursor :=
  let cursor :=
    if cursor.identity ≠ some file.identity ∨ cursor.generation ≠ current ∨
        file.bytes.length < cursor.offset ∨ last_id < cursor.last_id then
      { Cursor.default with identity := some file.identity, generation := current }
    else cursor
  if current ≠ generation ∧ cursor.offset ≠ HEADER_SIZE then
    { cursor with offset := HEADER_SIZE, last_id := 0 }
  else cursor

/-- `read_snapshot`. Dropping a tail makes the file shorter, so one more than
its length is fuel enough. -/
def readSnapshotFuel : Nat → Cursor → Int64 → Int64 → StoreM (Snapshot × Cursor)
  | 0, _, _, _ => throw (.invalid "out of fuel")
  | fuel + 1, cursor, generation, last_id => do
    let file := (← get).file
    let current ← StoreM.ofExcept (readHeader file.bytes)
    let cursor := startCursor cursor file current generation last_id
    let cutoff := if current = generation then last_id else 0
    if cursor.offset = file.bytes.length then
      return ({ generation := current, occurrences := [] }, cursor)
    let rest := file.bytes.drop cursor.offset
    let scan ← StoreM.ofExcept (readFrames cutoff rest.length cursor rest)
    if scan.discarded_tail then
      let next ← StoreM.ofExcept (checkedSucc current "generation exhausted")
      publish next ((file.bytes.drop HEADER_SIZE).take (scan.cursor.offset - HEADER_SIZE))
      readSnapshotFuel fuel Cursor.default generation last_id
    else
      return ({ generation := current, occurrences := scan.occurrences }, scan.cursor)

def readSnapshot (cursor : Cursor) (generation last_id : Int64) :
    StoreM (Snapshot × Cursor) := do
  readSnapshotFuel ((← get).file.bytes.length + 1) cursor generation last_id

/-! ## The store -/

structure Store where
  cursor : Cursor

namespace Store

def snapshot (store : Store) (generation last_id : Int64) :
    StoreM (Snapshot × Store) := do
  let (snapshot, cursor) ← readSnapshot store.cursor generation last_id
  return (snapshot, { store with cursor })

/-- `file.seek(offset)` and the bytes that are written there. -/
def writeAt (offset : Nat) (bytes : List UInt8) : StoreM Unit :=
  modify fun disk => { disk with
    file := { disk.file with
      bytes := disk.file.bytes.take offset ++ bytes ++
        disk.file.bytes.drop (offset + bytes.length) } }

/-- The occurrence under the next id, and its frame. -/
def nextFrame (cursor : Cursor) (occurrence : Occurrence) :
    Except LogError (Occurrence × List UInt8) := do
  let id ← checkedSucc cursor.last_id "occurrence id exhausted"
  let occurrence := { occurrence with id }
  let frame ← encode occurrence
  if 2 ^ 64 ≤ cursor.offset + frame.length then .error (.invalid "file offset overflow")
  else .ok (occurrence, frame)

/-- `append` up to its write. -/
def prepare (store : Store) (generation last_id : Int64) (occurrence : Occurrence) :
    StoreM (Snapshot × Cursor × Occurrence × List UInt8) := do
  let (snapshot, cursor) ← readSnapshot store.cursor generation last_id
  let (occurrence, frame) ← StoreM.ofExcept (nextFrame cursor occurrence)
  return (snapshot, cursor, occurrence, frame)

def append (store : Store) (generation last_id : Int64) (occurrence : Occurrence) :
    StoreM (Snapshot × Store) := do
  let (snapshot, cursor, occurrence, frame) ← prepare store generation last_id occurrence
  writeAt cursor.offset frame
  let cursor := { cursor with
    offset := cursor.offset + frame.length
    last_id := occurrence.id }
  return ({ snapshot with occurrences := snapshot.occurrences ++ [occurrence] },
    { store with cursor })

/-- An `append` whose process dies in the write: fewer bytes than the frame has
reach the file. -/
def appendTorn (store : Store) (generation last_id : Int64) (occurrence : Occurrence)
    (written : Nat) : StoreM Unit := do
  let (_, cursor, _, frame) ← prepare store generation last_id occurrence
  writeAt cursor.offset (frame.take (min written (frame.length - 1)))

/-- `reset` at the clock `now`, in milliseconds. -/
def reset (store : Store) (now : UInt64) : StoreM (Int64 × Store) := do
  let file := (← get).file
  let generation ← match readHeader file.bytes with
    | .ok current => StoreM.ofExcept (checkedSucc current "generation exhausted")
    | .error _ => do
      modify fun disk => { disk with moved := disk.moved ++ [file.bytes] }
      if now.toNat < 2 ^ 63 then pure now.toInt64
      else throw (.invalid "clock out of range")
  replace generation []
  return (generation, { store with cursor := Cursor.default })

/-- The offset of the first damaged frame. -/
def damage : StoreM Nat := fun disk =>
  match readSnapshot Cursor.default (-1) 0 disk with
  | .ok _ disk => .error (.invalid "salvage requested but the log is intact") disk
  | .error (.corrupt offset _) disk => .ok offset disk
  | .error e disk => .error e disk

/-- `salvage`, and how many bytes it keeps. -/
def salvage (store : Store) : StoreM (Nat × Store) := do
  let kept ← damage
  let bytes := (← get).file.bytes
  let current ← StoreM.ofExcept (readHeader bytes)
  let generation ← StoreM.ofExcept (checkedSucc current "generation exhausted")
  modify fun disk => { disk with moved := disk.moved ++ [bytes.drop kept] }
  publish generation ((bytes.drop HEADER_SIZE).take (kept - HEADER_SIZE))
  return (kept, { store with cursor := Cursor.default })

/-- The old history under the ids from `index + 1` on. -/
def numberFrom (index : Nat) : List Occurrence → Except LogError (List Occurrence)
  | [] => .ok []
  | occurrence :: legacy => do
    if 2 ^ 63 ≤ index + 1 then .error (.invalid "too many occurrences")
    else
      let rest ← numberFrom (index + 1) legacy
      return { occurrence with id := Int64.ofNat (index + 1) } :: rest

/-- `open` where there is no log yet. -/
def create (legacy : List Occurrence) : StoreM Store := do
  let occurrences ← StoreM.ofExcept (numberFrom 0 legacy)
  replace 0 occurrences
  return { cursor := Cursor.default }

end Store

end Ish.HistoryLog
