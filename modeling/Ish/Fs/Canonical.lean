import Ish.Fs.Record
import Ish.Quarantine.Intent

/-!
# Canonical records

The way back: what the decoder of records accepts is what the encoder writes
for the record that was read. Every field is read in one way only, so bytes
that differ never mean the same record. At the end the same is said of the
records of the file engine and of the intents of a quarantine together.
-/

namespace Ish.Fs

open Ish.Lib List
open Ish.Quarantine (EntryIdentity EntryType FileIdentity)
open UnixPath (Path)
open Ish.Lib.Decoder (Spells ensure_step get_step pure_step inside_step)

/-! ## Fields -/

/-- An identity that can be read back: there is no byte for the kind of a root. -/
def Readable (value : Identity) : Prop := value.kind ≠ .Root

theorem identityStored_of_readable (h : Readable value) :
    identityStored value = value := by
  obtain ⟨file, kind⟩ := value
  cases kind with
  | Root => exact absurd rfl h
  | _ => rfl

namespace Decoder

theorem byte_spells : Spells byte (fun b => [b]) fun _ => True := Lib.Decoder.byte_spells short

theorem u64_spells : Spells u64 LittleEndian.u64 fun _ => True := Lib.Decoder.u64_spells short

theorem u32_spells : Spells u32 LittleEndian.u32 fun _ => True := Lib.Decoder.u32_spells short

theorem identityKind_step
    (h : identityKind b bytes = .ok kind rest) :
    rest = bytes ∧ kindByte kind = b ∧ kind ≠ .Root := by
  simp only [identityKind] at h
  split at h
  · obtain ⟨rfl, rfl⟩ := pure_step h
    exact ⟨rfl, ‹b = 0›.symm, by decide⟩
  split at h
  · obtain ⟨rfl, rfl⟩ := pure_step h
    exact ⟨rfl, ‹b = 1›.symm, by decide⟩
  split at h
  · obtain ⟨rfl, rfl⟩ := pure_step h
    exact ⟨rfl, ‹b = 2›.symm, by decide⟩
  split at h
  · obtain ⟨rfl, rfl⟩ := pure_step h
    exact ⟨rfl, ‹b = 3›.symm, by decide⟩
  · cases h

theorem identity_spells : Spells identity putIdentity Readable := by
  intro bytes value rest h
  obtain ⟨device, left, rfl, -, h⟩ := u64_spells.step h
  obtain ⟨inode, left, rfl, -, h⟩ := u64_spells.step h
  obtain ⟨b, left, rfl, -, h⟩ := byte_spells.step h
  obtain ⟨kind, left, hkind, h⟩ := EState.bind_eq_ok.mp h
  obtain ⟨rfl, rfl⟩ := pure_step h
  obtain ⟨rfl, rfl, hreadable⟩ := identityKind_step hkind
  exact ⟨by simp only [putIdentity, append_assoc], hreadable⟩

theorem timestamp_spells : Spells timestamp putTimestamp Timestamp.Valid := by
  intro bytes value rest h
  obtain ⟨seconds, left, rfl, hlength, h⟩ := (Decoder.take_spells short 8).step h
  obtain ⟨nanoseconds, left, rfl, -, h⟩ := u32_spells.step h
  obtain ⟨hvalid, h⟩ := ensure_step h
  obtain ⟨rfl, rfl⟩ := pure_step h
  refine ⟨?_, of_decide_eq_true hvalid⟩
  rw [putTimestamp, LittleEndian.i64_toI64 hlength, append_assoc]
  rfl

theorem narrow_spells (error : Invalid) :
    Spells (narrow error) (fun n => LittleEndian.u64 n.toUInt64) fun _ => True := by
  intro bytes n rest h
  obtain ⟨wide, left, rfl, -, h⟩ := u64_spells.step h
  obtain ⟨hsmall, h⟩ := ensure_step h
  obtain ⟨rfl, rfl⟩ := pure_step h
  refine ⟨?_, trivial⟩
  have hwide : wide.toUInt32.toUInt64 = wide := by
    rw [← UInt64.toNat_inj, UInt32.toNat_toUInt64, UInt64.toNat_toUInt32,
      Nat.mod_eq_of_lt (of_decide_eq_true hsmall)]
  dsimp only
  rw [hwide]

theorem observationFields_spells (value : Identity) (output : Bool) :
    Spells (observationFields value output) putObservationFields
      fun observation => observation.identity = value ∧ observation.Valid := by
  intro bytes observation rest h
  obtain ⟨size, left, rfl, -, h⟩ := u64_spells.step h
  obtain ⟨mode, left, rfl, -, h⟩ := (narrow_spells _).step h
  obtain ⟨uid, left, rfl, -, h⟩ := (narrow_spells _).step h
  obtain ⟨gid, left, rfl, -, h⟩ := (narrow_spells _).step h
  obtain ⟨links, left, rfl, -, h⟩ := u64_spells.step h
  obtain ⟨atime, left, rfl, hatime, h⟩ := timestamp_spells.step h
  obtain ⟨mtime, left, rfl, hmtime, h⟩ := timestamp_spells.step h
  obtain ⟨ctime, left, rfl, hctime, h⟩ := timestamp_spells.step h
  obtain ⟨rfl, rfl⟩ := pure_step h
  exact ⟨by simp only [putObservationFields, append_assoc], rfl, hatime, hmtime, hctime⟩

theorem observation_spells (output : Bool) : Spells (observation output) putObservation
    fun observation => Readable observation.identity ∧ observation.Valid := by
  intro bytes value rest h
  obtain ⟨identity, left, rfl, hreadable, h⟩ := identity_spells.step h
  obtain ⟨rfl, rfl, hvalid⟩ := observationFields_spells _ _ _ _ _ h
  exact ⟨by rw [putObservation, append_assoc], hreadable, hvalid⟩

theorem path_spells : Spells path pathBytes fun path => 0 ∉ path ∧ path.length < 2 ^ 32 := by
  intro bytes value rest h
  obtain ⟨length, left, rfl, -, h⟩ := u32_spells.step h
  obtain ⟨front, left, rfl, hlength, h⟩ := (Decoder.take_spells short _).step h
  obtain ⟨hclean, h⟩ := ensure_step h
  obtain ⟨rfl, rfl⟩ := pure_step h
  have hword : UInt32.ofNat value.length = length := by
    rw [hlength, UInt32.ofNat_toNat]
  refine ⟨?_, ?_, ?_⟩
  · rw [pathBytes, hword, append_assoc]
    rfl
  · simpa using hclean
  · rw [hlength]
    exact length.toNat_lt

theorem optional_spells (error : Invalid) :
    Spells (optional error) putOption fun value => ∀ identity ∈ value, Readable identity := by
  intro bytes value rest h
  obtain ⟨presence, left, rfl, -, h⟩ := byte_spells.step h
  split at h
  · rename_i hpresence
    obtain ⟨rfl, rfl⟩ := pure_step h
    exact ⟨by rw [hpresence]; rfl, fun _ hno => nomatch hno⟩
  split at h
  · rename_i hpresence
    obtain ⟨identity, left, rfl, hreadable, h⟩ := identity_spells.step h
    obtain ⟨rfl, rfl⟩ := pure_step h
    refine ⟨by rw [hpresence]; rfl, ?_⟩
    intro other hother
    cases hother
    exact hreadable
  · cases h

theorem ancestry_spells : Spells ancestry
    (fun values => LittleEndian.u32 (UInt32.ofNat values.length) ++ values.flatMap putIdentity)
    fun values => values.length < 2 ^ 32 ∧ ∀ identity ∈ values, Readable identity := by
  intro bytes values rest h
  obtain ⟨count, left, rfl, -, h⟩ := u32_spells.step h
  obtain ⟨-, h⟩ := ensure_step (get_step h)
  obtain ⟨rfl, hlength, hreadable⟩ := Decoder.many_spells identity_spells _ _ _ _ h
  refine ⟨?_, ?_, hreadable⟩
  · dsimp only
    rw [hlength, UInt32.ofNat_toNat, append_assoc]
  · rw [hlength]
    exact count.toNat_lt

/-- A slot is read as a whole: an empty one is zeros, and a full one has no room left. -/
theorem outputSlot_step
    (hlength : slot.length = OUTPUT_SLOT) (h : outputSlot slot = .ok output left) :
    slot = encodeOutput output ∧
      ∀ observation ∈ output, Readable observation.identity ∧ observation.Valid := by
  obtain ⟨presence, rest, rfl, -, h⟩ := byte_spells.step h
  split at h
  · rename_i hpresence
    obtain ⟨hzeros, h⟩ := ensure_step (get_step h)
    obtain ⟨rfl, rfl⟩ := pure_step h
    refine ⟨?_, fun _ hno => nomatch hno⟩
    have hrest : left = List.replicate (OUTPUT_SLOT - 1) 0 := by
      refine eq_replicate_iff.mpr ⟨?_, fun b hb => ?_⟩
      · rw [← hlength]
        rfl
      · exact of_decide_eq_true (all_eq_true.mp hzeros b hb)
    rw [hpresence, hrest]
    rfl
  split at h
  · rename_i hpresence
    obtain ⟨value, rest, rfl, hvalue, h⟩ := (observation_spells true).step h
    obtain ⟨hempty, h⟩ := ensure_step (get_step h)
    obtain ⟨rfl, rfl⟩ := pure_step h
    refine ⟨?_, fun observation hobservation => ?_⟩
    · rw [hpresence, List.isEmpty_iff.mp hempty, append_nil, encodeOutput_some]
    · cases hobservation
      exact hvalue
  · cases h

end Decoder

/-! ## Records -/

/-- No identity of a record is of kind `Root`. -/
structure Record.Readable (record : Record) : Prop where
  observed : Fs.Readable record.observed.identity
  published : Fs.Readable record.published
  output : ∀ observation ∈ record.output, Fs.Readable observation.identity
  parent : ∀ identity ∈ record.parent, Fs.Readable identity
  anchor : ∀ identity ∈ record.anchor, Fs.Readable identity
  ancestry : ∀ identity ∈ record.ancestry, Fs.Readable identity

theorem Observation.stored_of_readable {observation : Observation}
    (h : Fs.Readable observation.identity) : observation.stored = observation := by
  rw [Observation.stored, identityStored_of_readable h]

theorem map_of_forall {α : Type} {f} {value : Option α} (h : ∀ a ∈ value, f a = a) :
    value.map f = value := by
  cases value with
  | none => rfl
  | some a => exact congrArg some (h a rfl)

variable {record : Record}

theorem Record.stored_of_readable (h : record.Readable) : record.stored = record := by
  have hancestry : record.ancestry.map identityStored = record.ancestry := by
    conv_rhs => rw [← map_id record.ancestry]
    exact map_congr_left fun identity hidentity =>
      identityStored_of_readable (h.ancestry identity hidentity)
  rw [Record.stored, Observation.stored_of_readable h.observed,
    identityStored_of_readable h.published, hancestry,
    map_of_forall fun o ho => Observation.stored_of_readable (h.output o ho),
    map_of_forall fun i hi => identityStored_of_readable (h.parent i hi),
    map_of_forall fun i hi => identityStored_of_readable (h.anchor i hi)]

theorem record_spells (h : Decoder.record bytes = .ok record rest) :
    bytes = body record ∧ record.Storable ∧ record.Readable := by
  obtain ⟨magic, left, rfl, -, h⟩ := (Decoder.take_spells _ _).step h
  obtain ⟨hmagic, h⟩ := ensure_step h
  obtain ⟨source, left, rfl, hsource, h⟩ := Decoder.path_spells.step h
  obtain ⟨destination, left, rfl, hdestination, h⟩ := Decoder.path_spells.step h
  obtain ⟨observedIdentity, left, rfl, hidentity, h⟩ := Decoder.identity_spells.step h
  obtain ⟨published, left, rfl, hpublished, h⟩ := Decoder.identity_spells.step h
  obtain ⟨observed, left, rfl, ⟨hobserved, hvalid⟩, h⟩ :=
    (Decoder.observationFields_spells _ _).step h
  obtain ⟨slot, left, rfl, hslot, h⟩ := (Decoder.take_spells _ _).step h
  obtain ⟨output, unread, hread, h⟩ := inside_step h
  obtain ⟨hbytes, houtput⟩ := Decoder.outputSlot_step hslot hread
  obtain ⟨parent, left, rfl, hparent, h⟩ := (Decoder.optional_spells _).step h
  obtain ⟨anchor, left, rfl, hanchor, h⟩ := (Decoder.optional_spells _).step h
  obtain ⟨ancestry, left, rfl, hancestry, h⟩ := Decoder.ancestry_spells.step h
  obtain ⟨final_flags, left, rfl, -, h⟩ := Decoder.u32_spells.step h
  obtain ⟨hempty, h⟩ := ensure_step (get_step h)
  obtain ⟨rfl, rfl⟩ := pure_step h
  subst hobserved hbytes
  refine ⟨?_, ?_, ?_⟩
  · rw [of_decide_eq_true hmagic, List.isEmpty_iff.mp hempty]
    simp only [body, beforeOutput, afterOutput, id, append_assoc, append_nil]
  · exact
      { source := hsource.1
        destination := hdestination.1
        observed := hvalid
        output := fun observation hobservation => (houtput observation hobservation).2 }
  · exact
      { observed := hidentity
        published := hpublished
        output := fun observation hobservation => (houtput observation hobservation).1
        parent := hparent
        anchor := hanchor
        ancestry := hancestry.2 }

theorem decode_eq_ok (h : decode bytes = .ok record) :
    bytes = body record ∧ record.Fits ∧ record.Storable ∧ record.Readable := by
  rw [decode] at h
  split at h
  · cases h
  · rename_i hfits
    split at h
    · rename_i rest hrecord
      cases h
      obtain ⟨rfl, hstorable, hreadable⟩ := record_spells hrecord
      exact ⟨rfl, Nat.not_lt.mp hfits, hstorable, hreadable⟩
    · cases h

theorem encode_decode (h : decode bytes = .ok record) :
    encode record = .ok bytes := by
  obtain ⟨rfl, hfits, -, -⟩ := decode_eq_ok h
  exact encode_eq hfits

theorem decode_encode (hreadable : record.Readable)
    (hstorable : record.Storable) (h : encode record = .ok bytes) : decode bytes = .ok record := by
  by_cases hfits : record.Fits
  · rw [encode_eq hfits] at h
    cases h
    rw [decode_body hfits hstorable, Record.stored_of_readable hreadable]
  · obtain ⟨error, herror⟩ := encode_error hfits
    rw [herror] at h
    cases h

/-- **Records are canonical**: an intent that is encoded and a transfer record that is encoded
come back as they were; accepted bytes are the encoding of what they are read as, for intents
within the bound that their reader keeps to; and bytes that differ are never read as the same
intent or the same record. -/
theorem records_canonical :
    (∀ (intent : Quarantine.Intent) (bytes : List UInt8), intent.encode = .ok bytes →
      Quarantine.Intent.decode bytes false = .ok intent) ∧
    (∀ (bytes : List UInt8) (intent : Quarantine.Intent), bytes.length ≤ Quarantine.MAX_RECORD →
      Quarantine.Intent.decode bytes false = .ok intent → intent.encode = .ok bytes) ∧
    (∀ (record : Record) (bytes : List UInt8), record.Readable → record.Storable →
      encode record = .ok bytes → decode bytes = .ok record) ∧
    (∀ (bytes : List UInt8) (record : Record), decode bytes = .ok record →
      encode record = .ok bytes) ∧
    (∀ (bytes bytes' : List UInt8) (intent : Quarantine.Intent),
      Quarantine.Intent.decode bytes false = .ok intent →
      Quarantine.Intent.decode bytes' false = .ok intent → bytes = bytes') ∧
    ∀ (bytes bytes' : List UInt8) (record : Record),
      decode bytes = .ok record → decode bytes' = .ok record → bytes = bytes' := by
  refine ⟨fun intent bytes h => Quarantine.decode_encode h,
    fun bytes intent hlength h => Quarantine.encode_decode h hlength,
    fun record bytes hreadable hstorable h => decode_encode hreadable hstorable h,
    fun bytes record h => encode_decode h, ?_, ?_⟩
  · intro bytes bytes' intent h h'
    rw [(Quarantine.decode_eq_ok h).1, (Quarantine.decode_eq_ok h').1]
  · intro bytes bytes' record h h'
    rw [(decode_eq_ok h).1, (decode_eq_ok h').1]

end Ish.Fs
