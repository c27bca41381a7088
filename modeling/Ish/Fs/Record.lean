import Ish.Lib.Decode
import Ish.Lib.UnixPath
import Ish.Quarantine.World

/-!
# Records of the file engine

The model of `Record`, `encode` and `decode` in
`crates/ish-fs/src/engine/records.rs`, over the identities and observations of
`roots.rs`. `usize` is 64 bits, a path is its bytes.

What a record becomes on its way through the file is `Record.stored`: an
identity of kind `Root` is written as one of kind `Other`. The decoder checks
more than the encoder, and `Record.Storable` is what it asks for.
-/

namespace Ish.Fs

open Ish.Lib List
open Ish.Quarantine (EntryIdentity EntryType FileIdentity)
open UnixPath (Path)

abbrev Identity := EntryIdentity
abbrev EntryKind := EntryType

structure Timestamp where
  seconds : Int64
  nanoseconds : UInt32
  deriving DecidableEq

structure Observation where
  identity : Identity
  size : UInt64
  mode : UInt32
  uid : UInt32
  gid : UInt32
  links : UInt64
  atime : Timestamp
  mtime : Timestamp
  ctime : Timestamp
  deriving DecidableEq

structure Record where
  source : Path
  destination : Path
  observed : Observation
  published : Identity
  output : Option Observation
  parent : Option Identity
  anchor : Option Identity
  ancestry : List Identity
  final_flags : UInt32
  deriving DecidableEq

/-- The message of an `io::Error` of kind `InvalidData`. -/
abbrev Invalid := String

def MAX_RECORD : Nat := 1024 * 1024
def MAGIC : List UInt8 := [0x69, 0x73, 0x68, 0x66, 0x73, 0, 0, 2]
def OUTPUT_SLOT : Nat := 94

/-! ## Encoding -/

def kindByte : EntryKind → UInt8
  | .RegularFile => 0
  | .Directory => 1
  | .Symlink => 2
  | .Other | .Root => 3

def putIdentity (value : Identity) : List UInt8 :=
  LittleEndian.u64 value.file.device ++ LittleEndian.u64 value.file.inode ++ [kindByte value.kind]

def putTimestamp (value : Timestamp) : List UInt8 :=
  LittleEndian.i64 value.seconds ++ LittleEndian.u32 value.nanoseconds

def putObservationFields (observation : Observation) : List UInt8 :=
  LittleEndian.u64 observation.size ++ LittleEndian.u64 observation.mode.toUInt64 ++
    LittleEndian.u64 observation.uid.toUInt64 ++ LittleEndian.u64 observation.gid.toUInt64 ++
    LittleEndian.u64 observation.links ++ putTimestamp observation.atime ++
    putTimestamp observation.mtime ++ putTimestamp observation.ctime

def putObservation (observation : Observation) : List UInt8 :=
  putIdentity observation.identity ++ putObservationFields observation

/-- The bytes of a path that fits. -/
def pathBytes (path : Path) : List UInt8 := LittleEndian.u32 (UInt32.ofNat path.length) ++ path

def putPath (path : Path) : Except Invalid (List UInt8) :=
  if path.length < 2 ^ 32 then .ok (pathBytes path) else .error "record path exceeds limit"

/-- What `encode_output` pushes before it resizes. -/
def outputBytes : Option Observation → List UInt8
  | some observation => 1 :: putObservation observation
  | none => [0]

def encodeOutput (output : Option Observation) : List UInt8 :=
  outputBytes output ++ List.replicate (OUTPUT_SLOT - (outputBytes output).length) 0

def putOption : Option Identity → List UInt8
  | some identity => 1 :: putIdentity identity
  | none => [0]

/-- The fields in front of the output slot. -/
def beforeOutput (record : Record) (source destination : List UInt8) : List UInt8 :=
  MAGIC ++ source ++ destination ++ putIdentity record.observed.identity ++
    putIdentity record.published ++ putObservationFields record.observed

/-- The fields between the output slot and the flags. -/
def afterOutput (record : Record) : List UInt8 :=
  putOption record.parent ++ putOption record.anchor ++
    LittleEndian.u32 (UInt32.ofNat record.ancestry.length) ++ record.ancestry.flatMap putIdentity

def encode (record : Record) : Except Invalid (List UInt8) := do
  let source ← putPath record.source
  let destination ← putPath record.destination
  if record.ancestry.length ≥ 2 ^ 32 then throw "ancestry exceeds limit"
  let bytes := beforeOutput record source destination ++ encodeOutput record.output ++
    afterOutput record ++ LittleEndian.u32 record.final_flags
  if bytes.length > MAX_RECORD then throw "record exceeds limit"
  return bytes

/-! ## Decoding -/

namespace Decoder

open Ish.Lib.Decoder (take inside many)
open Ish.Lib.EState (ensure)

def short : Invalid := "truncated record field"

/-- `take(1)?[0]` -/
def byte : Decoder Invalid UInt8 := do
  let bytes ← take short 1
  pure (bytes.headD 0)

def u64 : Decoder Invalid UInt64 := do
  let bytes ← take short 8
  pure (LittleEndian.toU64 bytes)

def u32 : Decoder Invalid UInt32 := do
  let bytes ← take short 4
  pure (LittleEndian.toU32 bytes)

def identityKind (byte : UInt8) : Decoder Invalid EntryKind :=
  if byte = 0 then pure .RegularFile
  else if byte = 1 then pure .Directory
  else if byte = 2 then pure .Symlink
  else if byte = 3 then pure .Other
  else throw "unknown identity kind"

def identity : Decoder Invalid Identity := do
  let device ← u64
  let inode ← u64
  let kind ← byte
  let kind ← identityKind kind
  pure ⟨⟨device, inode⟩, kind⟩

def timestamp : Decoder Invalid Timestamp := do
  let seconds ← take short 8
  let nanoseconds ← u32
  ensure (nanoseconds < 1000000000) "invalid timestamp"
  pure ⟨LittleEndian.toI64 seconds, nanoseconds⟩

/-- `u32::try_from(self.u64()?)` -/
def narrow (error : Invalid) : Decoder Invalid UInt32 := do
  let value ← u64
  ensure (value.toNat < 2 ^ 32) error
  pure value.toUInt32

def observationFields (identity : Identity) (output : Bool) : Decoder Invalid Observation := do
  let size ← u64
  let mode ← narrow (if output then "invalid output mode" else "invalid mode")
  let uid ← narrow (if output then "invalid output uid" else "invalid uid")
  let gid ← narrow (if output then "invalid output gid" else "invalid gid")
  let links ← u64
  let atime ← timestamp
  let mtime ← timestamp
  let ctime ← timestamp
  pure ⟨identity, size, mode, uid, gid, links, atime, mtime, ctime⟩

def observation (output : Bool) : Decoder Invalid Observation := do
  let identity ← identity
  observationFields identity output

def path : Decoder Invalid Path := do
  let length ← u32
  let bytes ← take short length.toNat
  ensure (!bytes.contains 0) "NUL in record path"
  pure bytes

/-- The reading of the output slot, in a decoder of its own. -/
def outputSlot : Decoder Invalid (Option Observation) := do
  let presence ← byte
  if presence = 0 then do
    let rest ← get
    ensure (rest.all (· = 0)) "invalid empty output slot"
    pure none
  else if presence = 1 then do
    let output ← observation true
    let rest ← get
    ensure rest.isEmpty "invalid output slot length"
    pure (some output)
  else throw "invalid output presence"

def optional (error : Invalid) : Decoder Invalid (Option Identity) := do
  let presence ← byte
  if presence = 0 then pure none
  else if presence = 1 then do
    let value ← identity
    pure (some value)
  else throw error

def ancestry : Decoder Invalid (List Identity) := do
  let count ← u32
  let left ← get
  ensure (count.toNat ≤ left.length / 17) "invalid ancestry length"
  many identity count.toNat

def record : Decoder Invalid Record := do
  let magic ← take short MAGIC.length
  ensure (magic = MAGIC) "unknown record version"
  let source ← path
  let destination ← path
  let observedIdentity ← identity
  let published ← identity
  let observed ← observationFields observedIdentity false
  let slot ← take short OUTPUT_SLOT
  let output ← inside slot outputSlot
  let parent ← optional "invalid parent presence"
  let anchor ← optional "invalid anchor presence"
  let ancestry ← ancestry
  let final_flags ← u32
  let rest ← get
  ensure rest.isEmpty "trailing record bytes"
  pure { source, destination, observed, published, output, parent, anchor, ancestry, final_flags }

end Decoder

def decode (bytes : List UInt8) : Except Invalid Record :=
  if bytes.length > MAX_RECORD then .error "record exceeds limit"
  else match Decoder.record bytes with
    | .ok record _ => .ok record
    | .error error _ => .error error

/-! ## What the file keeps -/

def kindStored : EntryKind → EntryKind
  | .Root => .Other
  | kind => kind

/-- An identity as it is read back. -/
def identityStored (value : Identity) : Identity := { value with kind := kindStored value.kind }

def Observation.stored (observation : Observation) : Observation :=
  { observation with identity := identityStored observation.identity }

/-- A record as it is read back. -/
def Record.stored (record : Record) : Record :=
  { record with
    observed := record.observed.stored
    published := identityStored record.published
    output := record.output.map Observation.stored
    parent := record.parent.map identityStored
    anchor := record.anchor.map identityStored
    ancestry := record.ancestry.map identityStored }

def Timestamp.Valid (value : Timestamp) : Prop := value.nanoseconds < 1000000000

def Observation.Valid (observation : Observation) : Prop :=
  observation.atime.Valid ∧ observation.mtime.Valid ∧ observation.ctime.Valid

/-- What the decoder asks of a record: paths without NUL, nanoseconds below a
second. -/
structure Record.Storable (record : Record) : Prop where
  source : 0 ∉ record.source
  destination : 0 ∉ record.destination
  observed : record.observed.Valid
  output : ∀ observation, record.output = some observation → observation.Valid

instance (value : Timestamp) : Decidable value.Valid :=
  inferInstanceAs (Decidable (value.nanoseconds < 1000000000))

instance (observation : Observation) : Decidable observation.Valid :=
  inferInstanceAs (Decidable (_ ∧ _ ∧ _))

/-- The bytes of a record that fits. -/
def body (record : Record) : List UInt8 :=
  beforeOutput record (pathBytes record.source) (pathBytes record.destination) ++
    encodeOutput record.output ++ afterOutput record ++ LittleEndian.u32 record.final_flags

def Record.Fits (record : Record) : Prop := (body record).length ≤ MAX_RECORD

instance (record : Record) : Decidable record.Fits :=
  inferInstanceAs (Decidable (_ ≤ _))

/-! ## Lengths -/

@[simp] theorem length_pathBytes (path : Path) : (pathBytes path).length = 4 + path.length := by
  simp [pathBytes]

@[simp] theorem length_putIdentity (value : Identity) : (putIdentity value).length = 17 := by
  simp [putIdentity]

@[simp] theorem length_putObservationFields (observation : Observation) :
    (putObservationFields observation).length = 76 := by
  simp [putObservationFields, putTimestamp]

@[simp] theorem length_encodeOutput (output : Option Observation) :
    (encodeOutput output).length = OUTPUT_SLOT := by
  cases output <;> simp [encodeOutput, outputBytes, putObservation, OUTPUT_SLOT]

theorem encodeOutput_some (value : Observation) :
    encodeOutput (some value) = [1] ++ putObservation value := by
  have hlength : (outputBytes (some value)).length = OUTPUT_SLOT := by
    simp [outputBytes, putObservation, OUTPUT_SLOT]
  rw [encodeOutput, hlength, Nat.sub_self, replicate_zero, append_nil]
  rfl

@[simp] theorem length_flatMap_putIdentity (values : List Identity) :
    (values.flatMap putIdentity).length = 17 * values.length := by
  induction values with
  | nil => rfl
  | cons value rest ih =>
    rw [flatMap_cons, length_append, ih, length_putIdentity, length_cons]
    omega

variable (record : Record)

theorem length_beforeOutput (source destination : List UInt8) :
    (beforeOutput record source destination).length =
      MAGIC.length + source.length + destination.length + 34 + 76 := by
  simp [beforeOutput]
  omega

theorem length_body :
    (body record).length = (MAGIC.length + (4 + record.source.length) +
      (4 + record.destination.length) + 34 + 76) + OUTPUT_SLOT +
      (afterOutput record).length + 4 := by
  simp [body, length_beforeOutput]
  omega

theorem length_afterOutput_ge : 4 + 17 * record.ancestry.length ≤ (afterOutput record).length := by
  simp only [afterOutput, length_append, length_flatMap_putIdentity,
    LittleEndian.length_u32]
  omega

theorem encode_eq {record} (h : record.Fits) : encode record = .ok (body record) := by
  have hlength := length_body record
  have hafter := length_afterOutput_ge record
  have hmax : (body record).length ≤ 1048576 := h
  have hsource : putPath record.source = .ok (pathBytes record.source) := by
    rw [putPath, if_pos (by omega)]
  have hdestination : putPath record.destination = .ok (pathBytes record.destination) := by
    rw [putPath, if_pos (by omega)]
  have hancestry : ¬ record.ancestry.length ≥ 2 ^ 32 := by omega
  have hbody : ¬ (body record).length > MAX_RECORD := Nat.not_lt.mpr h
  simp only [body] at hbody
  simp only [encode, hsource, hdestination, bind, Except.bind, if_neg hancestry, if_neg hbody]
  rfl

theorem encode_error {record} (h : ¬ record.Fits) :
    ∃ error, encode record = .error error := by
  have hbody : (body record).length > MAX_RECORD := Nat.not_le.mp h
  simp only [body] at hbody
  simp only [encode, putPath, bind, Except.bind]
  by_cases hsource : record.source.length < 2 ^ 32
  · by_cases hdestination : record.destination.length < 2 ^ 32
    · by_cases hancestry : record.ancestry.length ≥ 2 ^ 32
      · exact ⟨_, by
          simp only [if_pos hsource, if_pos hdestination, if_pos hancestry]
          rfl⟩
      · exact ⟨_, by
          simp only [if_pos hsource, if_pos hdestination, if_neg hancestry, if_pos hbody]
          rfl⟩
    · exact ⟨_, by rw [if_pos hsource, if_neg hdestination]⟩
  · exact ⟨_, by rw [if_neg hsource]⟩

/-! ## Storing a record changes no byte -/

@[simp] theorem kindByte_stored (kind : EntryKind) : kindByte (kindStored kind) = kindByte kind := by
  cases kind <;> rfl

@[simp] theorem putIdentity_stored (value : Identity) :
    putIdentity (identityStored value) = putIdentity value := by
  simp [putIdentity, identityStored]

@[simp] theorem identityStored_stored (value : Identity) :
    identityStored (identityStored value) = identityStored value := by
  obtain ⟨file, kind⟩ := value
  cases kind <;> rfl

@[simp] theorem putObservationFields_stored (observation : Observation) :
    putObservationFields observation.stored = putObservationFields observation := rfl

@[simp] theorem encodeOutput_stored (output : Option Observation) :
    encodeOutput (output.map Observation.stored) = encodeOutput output := by
  cases output with
  | none => rfl
  | some observation =>
    have hput : putObservation observation.stored = putObservation observation := by
      simp [putObservation, Observation.stored, putObservationFields]
    simp [encodeOutput, outputBytes, hput]

@[simp] theorem putOption_stored (value : Option Identity) :
    putOption (value.map identityStored) = putOption value := by
  cases value <;> simp [putOption]

theorem afterOutput_stored : afterOutput record.stored = afterOutput record := by
  simp [afterOutput, Record.stored, flatMap_map]

theorem body_stored : body record.stored = body record := by
  have hidentity : putIdentity record.observed.stored.identity =
      putIdentity record.observed.identity := putIdentity_stored _
  rw [body, body, afterOutput_stored]
  simp only [beforeOutput, Record.stored, encodeOutput_stored, putIdentity_stored,
    putObservationFields_stored, hidentity]

theorem stored_stored : record.stored.stored = record.stored := by
  have hcomp : (identityStored ∘ identityStored) = identityStored :=
    funext identityStored_stored
  have hobserved : (Observation.stored ∘ Observation.stored) = Observation.stored :=
    funext fun observation => by simp [Observation.stored]
  simp [Record.stored, Observation.stored, hcomp, hobserved]

theorem Record.Storable.stored {record : Record} (h : record.Storable) : record.stored.Storable where
  source := h.source
  destination := h.destination
  observed := h.observed
  output := by
    intro observation hobservation
    obtain ⟨original, horiginal, rfl⟩ := Option.map_eq_some_iff.mp hobservation
    exact h.output original horiginal

/-! ## Reading back -/

open Ish.Lib.Decoder (Reads)

namespace Decoder

theorem reads_byte (b : UInt8) : Reads byte [b] b := Lib.Decoder.reads_byte short b

theorem reads_u64 (n : UInt64) : Reads u64 (LittleEndian.u64 n) n := Lib.Decoder.reads_u64 short n

theorem reads_u32 (n : UInt32) : Reads u32 (LittleEndian.u32 n) n := Lib.Decoder.reads_u32 short n

theorem reads_identityKind (kind : EntryKind) :
    Reads (identityKind (kindByte kind)) [] (kindStored kind) := by
  cases kind <;> exact Reads.pure _

theorem reads_identity (value : Identity) :
    Reads identity (putIdentity value) (identityStored value) := by
  rw [putIdentity, append_assoc]
  exact (reads_u64 _).bind ((reads_u64 _).bind ((reads_byte _).bindLast
    ((reads_identityKind _).skip (Reads.pure _))))

theorem reads_timestamp (h : value.Valid) :
    Reads timestamp (putTimestamp value) value := by
  have hreads : Reads timestamp (putTimestamp value)
      ⟨LittleEndian.toI64 (LittleEndian.i64 value.seconds), value.nanoseconds⟩ :=
    (Reads.take _ (LittleEndian.length_i64 _)).bind ((reads_u32 _).bindLast
      ((Reads.ensure _ (decide_eq_true h)).skip (Reads.pure _)))
  rwa [LittleEndian.toI64_i64] at hreads

theorem reads_narrow (error : Invalid) (n : UInt32) :
    Reads (narrow error) (LittleEndian.u64 n.toUInt64) n := by
  have hlt : n.toUInt64.toNat < 2 ^ 32 := by
    rw [UInt32.toNat_toUInt64]
    exact n.toNat_lt
  have h : Reads (narrow error) (LittleEndian.u64 n.toUInt64) n.toUInt64.toUInt32 :=
    (reads_u64 _).bindLast ((Reads.ensure _ (decide_eq_true hlt)).skip (Reads.pure _))
  rwa [UInt32.toUInt32_toUInt64] at h

theorem reads_observationFields (identity : Identity) (output : Bool) {observation}
    (h : observation.Valid) :
    Reads (observationFields identity output) (putObservationFields observation)
      { observation with identity := identity } := by
  simp only [putObservationFields, append_assoc]
  exact (reads_u64 _).bind ((reads_narrow _ _).bind ((reads_narrow _ _).bind
    ((reads_narrow _ _).bind ((reads_u64 _).bind ((reads_timestamp h.1).bind
    ((reads_timestamp h.2.1).bind ((reads_timestamp h.2.2).bindLast (Reads.pure _))))))))

theorem reads_observation (output : Bool) {value} (h : value.Valid) :
    Reads (observation output) (putObservation value) value.stored :=
  (reads_identity _).bind (reads_observationFields _ output h)

theorem reads_path (hlength : value.length < 2 ^ 32) (h : 0 ∉ value) :
    Reads path (pathBytes value) value := by
  have htake : value.length = (UInt32.ofNat value.length).toNat := by
    rw [UInt32.toNat_ofNat', Nat.mod_eq_of_lt hlength]
  have hclean : (!value.contains 0) = true := by simpa using h
  exact (reads_u32 _).bind ((Reads.take _ htake).bindLast
    ((Reads.ensure _ hclean).skip (Reads.pure _)))

theorem run_outputSlot {output}
    (h : ∀ observation, output = some observation → observation.Valid) :
    ∃ left, outputSlot (encodeOutput output) = .ok (output.map Observation.stored) left := by
  cases output with
  | none => exact ⟨_, rfl⟩
  | some value =>
    have hvalue := (reads_observation true (h value rfl)).run
    refine ⟨[], ?_⟩
    rw [encodeOutput_some]
    exact (EState.bind_ok (reads_byte 1 _)).trans (EState.bind_ok hvalue)

theorem reads_optional (error : Invalid) (value : Option Identity) :
    Reads (optional error) (putOption value) (value.map identityStored) := by
  cases value with
  | none => exact (reads_byte 0).bindLast (Reads.pure _)
  | some value => exact (reads_byte 1).bind ((reads_identity value).bindLast (Reads.pure _))

theorem reads_ancestry {values : List Identity} (h : values.length < 2 ^ 32) :
    Reads ancestry (LittleEndian.u32 (UInt32.ofNat values.length) ++ values.flatMap putIdentity)
      (values.map identityStored) := by
  intro rest
  have hcount : (UInt32.ofNat values.length).toNat = values.length := by
    rw [UInt32.toNat_ofNat', Nat.mod_eq_of_lt h]
  have hleft : values.length ≤ (values.flatMap putIdentity ++ rest).length / 17 := by
    rw [length_append, length_flatMap_putIdentity]
    omega
  have hmany : Reads (Decoder.many identity (values.map identityStored).length)
      ((values.map identityStored).flatMap putIdentity) (values.map identityStored) := by
    refine Reads.many fun value hvalue => ?_
    obtain ⟨original, -, rfl⟩ := mem_map.mp hvalue
    have hread := reads_identity (identityStored original)
    rwa [identityStored_stored] at hread
  rw [length_map, flatMap_map] at hmany
  simp only [putIdentity_stored] at hmany
  rw [append_assoc]
  refine (EState.bind_ok (reads_u32 _ _)).trans ?_
  refine (EState.bind_ok EState.get_run).trans ?_
  rw [hcount]
  refine (EState.bind_ok (Reads.ensure _ (decide_eq_true hleft) _)).trans ?_
  exact hmany rest

end Decoder

/-- **What is read back**: a record that fits, if the decoder's checks hold of
it, comes back as it is stored. -/
theorem decode_body {record : Record} (hfits : record.Fits) (h : record.Storable) :
    decode (body record) = .ok record.stored := by
  have hlength := length_body record
  have hafter := length_afterOutput_ge record
  have hmax : (body record).length ≤ 1048576 := hfits
  obtain ⟨left, hslot⟩ := Decoder.run_outputSlot h.output
  have hrun : Decoder.record (body record) = .ok record.stored [] := by
    simp only [body, beforeOutput, afterOutput, append_assoc]
    refine (EState.bind_ok (Reads.take _ rfl _)).trans ?_
    refine (EState.bind_ok (Reads.ensure _ (decide_eq_true rfl) _)).trans ?_
    refine (EState.bind_ok (Decoder.reads_path (by omega) h.source _)).trans ?_
    refine (EState.bind_ok (Decoder.reads_path (by omega) h.destination _)).trans ?_
    refine (EState.bind_ok (Decoder.reads_identity _ _)).trans ?_
    refine (EState.bind_ok (Decoder.reads_identity _ _)).trans ?_
    refine (EState.bind_ok (Decoder.reads_observationFields _ _ h.observed _)).trans ?_
    refine (EState.bind_ok (Reads.take _ (length_encodeOutput _) _)).trans ?_
    refine (EState.bind_ok (Reads.inside hslot _)).trans ?_
    refine (EState.bind_ok (Decoder.reads_optional _ _ _)).trans ?_
    refine (EState.bind_ok (Decoder.reads_optional _ _ _)).trans ?_
    rw [← append_assoc]
    refine (EState.bind_ok (Decoder.reads_ancestry (by omega) _)).trans ?_
    exact (EState.bind_ok (Decoder.reads_u32 _).run)
  rw [decode, if_neg (Nat.not_lt.mpr hfits), hrun]

end Ish.Fs
