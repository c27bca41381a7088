import Ish.Lib.Decode
import Ish.Lib.Result
import Ish.Quarantine.World

/-!
# Intent records

The bytes of an intent: `Intent::encode` and `Intent::decode` of
`crates/fdu-posix/src/quarantine.rs`. A record names a root, the way down from
it, a name, and the object that is expected there; a replacement also names
what takes its place. `usize` is 64 bits. The decoder is handed at most
`MAX_RECORD` bytes by `read`, and does not count them itself.
-/

namespace Ish.Quarantine

open Ish.Lib List
open Ish.Lib.Decoder (Reads Spells byte u32 u64 many ensure_step get_step pure_step)

/-- The message of an `io::Error` of kind `InvalidData`. -/
abbrev Invalid := String

/-- `fdu capture`, a zero byte and the version. -/
def INTENT_MAGIC : List UInt8 :=
  [0x66, 0x64, 0x75, 0x20, 0x63, 0x61, 0x70, 0x74, 0x75, 0x72, 0x65, 0, 2]

def LEGACY_INTENT_MAGIC : List UInt8 :=
  [0x66, 0x64, 0x75, 0x20, 0x63, 0x61, 0x70, 0x74, 0x75, 0x72, 0x65, 0, 1]

def MAX_RECORD : Nat := 1024 * 1024

/-- Whether `validate_name` accepts. -/
def validName (name : Name) : Bool :=
  !(name.isEmpty || name = [0x2e] || name = [0x2e, 0x2e] || name.contains 0 || name.contains 0x2f)

/-! ## Encoding -/

def putIdentity (identity : FileIdentity) : List UInt8 :=
  LittleEndian.u64 identity.device ++ LittleEndian.u64 identity.inode

/-- The bytes of a name that fits. -/
def nameBytes (name : Name) : List UInt8 := LittleEndian.u32 (UInt32.ofNat name.length) ++ name

def putName (name : Name) : Except Invalid (List UInt8) :=
  if !validName name then .error "invalid recovery path component"
  else if name.length < 2 ^ 32 then .ok (nameBytes name)
  else .error "recovery name is too long"

def kindByte : EntryType → Except Invalid UInt8
  | .RegularFile => .ok 0
  | .Directory => .ok 1
  | .Symlink => .ok 2
  | .Other => .ok 3
  | .Root => .error "invalid captured root type"

def putEntry (entry : EntryIdentity) : Except Invalid (List UInt8) := do
  let kind ← kindByte entry.kind
  return putIdentity entry.file ++ [kind]

def putParents : List Ancestor → Except Invalid (List UInt8)
  | [] => .ok []
  | parent :: parents => do
    let name ← putName parent.name
    let rest ← putParents parents
    return name ++ putIdentity parent.identity ++ rest

/-- The tag of the kind, and what follows it. -/
def putObjects : RecordKind → Option EntryIdentity → Except Invalid (List UInt8)
  | .Retirement, some expected => do
    let expected ← putEntry expected
    return 0 :: expected
  | .Stage, none => .ok [1]
  | .Replacement publication, some expected => do
    let expected ← putEntry expected
    let source ← putEntry publication.source
    let name ← putName publication.destination_name
    return 2 :: (expected ++ source ++ putIdentity publication.destination_parent ++ name)
  | _, _ => .error "recovery record kind and expected object disagree"

def Intent.encode (intent : Intent) : Except Invalid (List UInt8) := do
  if intent.parents.length ≥ 2 ^ 32 then throw "recovery path is too deep"
  let parents ← putParents intent.parents
  let name ← putName intent.name
  let objects ← putObjects intent.kind intent.expected
  let bytes := INTENT_MAGIC ++ putIdentity intent.root ++
    LittleEndian.u32 (UInt32.ofNat intent.parents.length) ++ parents ++ name ++ objects
  if bytes.length > MAX_RECORD then throw "recovery record exceeds bound"
  return bytes

/-! ## Decoding -/

def short : Invalid := "truncated recovery record"

def takeIdentity : Decoder Invalid FileIdentity := do
  let device ← u64 short
  let inode ← u64 short
  pure ⟨device, inode⟩

def takeName : Decoder Invalid Name := do
  let length ← u32 short
  let name ← Decoder.take short length.toNat
  EState.ensure (validName name) "invalid recovery path component"
  pure name

def takeKind : Decoder Invalid EntryType := do
  let kind ← byte short
  if kind = 0 then pure .RegularFile
  else if kind = 1 then pure .Directory
  else if kind = 2 then pure .Symlink
  else if kind = 3 then pure .Other
  else throw "unknown captured object type"

def takeEntry : Decoder Invalid EntryIdentity := do
  let file ← takeIdentity
  let kind ← takeKind
  pure ⟨file, kind⟩

def takeParent : Decoder Invalid Ancestor := do
  let name ← takeName
  let identity ← takeIdentity
  pure ⟨name, identity⟩

/-- `Publication::new`, on what is taken for it. -/
def takePublication : Decoder Invalid Publication := do
  let source ← takeEntry
  let destination_parent ← takeIdentity
  let destination_name ← takeName
  EState.ensure (validName destination_name) "invalid recovery path component"
  EState.ensure (source.kind ≠ .Root) "invalid captured root type"
  pure ⟨source, destination_parent, destination_name⟩

def takeObjects : Decoder Invalid (RecordKind × Option EntryIdentity) := do
  let tag ← byte short
  EState.ensure (tag ≤ 2) "unknown recovery record kind"
  if tag = 0 then do
    let expected ← takeEntry
    pure (.Retirement, some expected)
  else if tag = 1 then pure (.Stage, none)
  else do
    let expected ← takeEntry
    let publication ← takePublication
    pure (.Replacement publication, some expected)

def takeIntent (legacy : Bool) : Decoder Invalid Intent := do
  let magic ← Decoder.take short (if legacy then LEGACY_INTENT_MAGIC else INTENT_MAGIC).length
  EState.ensure (magic = if legacy then LEGACY_INTENT_MAGIC else INTENT_MAGIC)
    "unknown recovery intent version"
  let root ← takeIdentity
  let count ← u32 short
  let left ← get
  EState.ensure (count.toNat ≤ left.length / 21) "invalid recovery ancestor count"
  let parents ← many takeParent count.toNat
  let name ← takeName
  let objects ← if legacy then pure (.Retirement, none) else takeObjects
  let rest ← get
  EState.ensure rest.isEmpty "trailing recovery record data"
  pure { root, parents, name, expected := objects.2, kind := objects.1 }

def Intent.decode (bytes : List UInt8) (legacy : Bool) : Except Invalid Intent :=
  match takeIntent legacy bytes with
  | .ok intent _ => .ok intent
  | .error error _ => .error error

/-! ## What is encoded -/

/-- A name that a record can hold. -/
def NameFits (name : Name) : Prop := validName name = true ∧ name.length < 2 ^ 32

/-- The byte of a kind, where it has one. -/
def kindTag : EntryType → UInt8
  | .RegularFile => 0
  | .Directory => 1
  | .Symlink => 2
  | .Other | .Root => 3

def entryBytes (entry : EntryIdentity) : List UInt8 :=
  putIdentity entry.file ++ [kindTag entry.kind]

def parentBytes (parent : Ancestor) : List UInt8 :=
  nameBytes parent.name ++ putIdentity parent.identity

/-- The kind and the expected object of a record agree, and nothing is a root. -/
def Agrees : RecordKind × Option EntryIdentity → Prop
  | (.Retirement, some expected) => expected.kind ≠ .Root
  | (.Stage, none) => True
  | (.Replacement publication, some expected) =>
    expected.kind ≠ .Root ∧ publication.source.kind ≠ .Root ∧
      NameFits publication.destination_name
  | _ => False

def objectBytes : RecordKind × Option EntryIdentity → List UInt8
  | (.Retirement, some expected) => [0] ++ entryBytes expected
  | (.Replacement publication, some expected) =>
    [2] ++ (entryBytes expected ++ (entryBytes publication.source ++
      (putIdentity publication.destination_parent ++ nameBytes publication.destination_name)))
  | _ => [1]

/-- What a record needs. -/
structure Intent.Wellformed (intent : Intent) : Prop where
  count : intent.parents.length < 2 ^ 32
  parents : ∀ parent ∈ intent.parents, NameFits parent.name
  name : NameFits intent.name
  objects : Agrees (intent.kind, intent.expected)

/-- The bytes of a record. -/
def Intent.body (intent : Intent) : List UInt8 :=
  INTENT_MAGIC ++ (putIdentity intent.root ++
    (LittleEndian.u32 (UInt32.ofNat intent.parents.length) ++ (intent.parents.flatMap parentBytes ++
      (nameBytes intent.name ++ objectBytes (intent.kind, intent.expected)))))

variable {bytes : List UInt8}

theorem putName_eq_ok :
    putName name = .ok bytes ↔ NameFits name ∧ bytes = nameBytes name := by
  constructor
  · intro h
    rw [putName] at h
    split at h
    · cases h
    rename_i hvalid
    split at h
    · rename_i hlength
      cases h
      exact ⟨⟨by simpa using hvalid, hlength⟩, rfl⟩
    · cases h
  · rintro ⟨⟨hvalid, hlength⟩, rfl⟩
    rw [putName, hvalid, if_neg (by decide), if_pos hlength]

theorem putEntry_eq_ok :
    putEntry entry = .ok bytes ↔ entry.kind ≠ .Root ∧ bytes = entryBytes entry := by
  obtain ⟨file, kind⟩ := entry
  cases kind <;>
    simp [putEntry, kindByte, entryBytes, kindTag, bind, Except.bind, pure, Except.pure, eq_comm]

theorem putParents_eq_ok :
    putParents parents = .ok bytes ↔
      (∀ parent ∈ parents, NameFits parent.name) ∧ bytes = parents.flatMap parentBytes := by
  induction parents generalizing bytes with
  | nil => simp [putParents, eq_comm]
  | cons parent parents ih =>
    rw [putParents]
    constructor
    · intro h
      obtain ⟨name, hname, h⟩ := Result.bind_eq_ok.mp h
      obtain ⟨rest, hrest, h⟩ := Result.bind_eq_ok.mp h
      obtain ⟨hfits, rfl⟩ := putName_eq_ok.mp hname
      obtain ⟨hall, rfl⟩ := ih.mp hrest
      cases h
      exact ⟨forall_mem_cons.mpr ⟨hfits, hall⟩, rfl⟩
    · rintro ⟨hall, rfl⟩
      obtain ⟨hfits, hrest⟩ := forall_mem_cons.mp hall
      rw [putName_eq_ok.mpr ⟨hfits, rfl⟩, ih.mpr ⟨hrest, rfl⟩]
      rfl

theorem putObjects_eq_ok :
    putObjects kind expected = .ok bytes ↔
      Agrees (kind, expected) ∧ bytes = objectBytes (kind, expected) := by
  cases kind with
  | Stage => cases expected <;> simp [putObjects, Agrees, objectBytes, eq_comm]
  | Retirement =>
    cases expected with
    | none => simp [putObjects, Agrees]
    | some expected =>
      constructor
      · intro h
        obtain ⟨entry, hentry, h⟩ := Result.bind_eq_ok.mp h
        obtain ⟨hkind, rfl⟩ := putEntry_eq_ok.mp hentry
        cases h
        exact ⟨hkind, rfl⟩
      · rintro ⟨hkind, rfl⟩
        rw [putObjects, putEntry_eq_ok.mpr ⟨hkind, rfl⟩]
        rfl
  | Replacement publication =>
    cases expected with
    | none => simp [putObjects, Agrees]
    | some expected =>
      constructor
      · intro h
        obtain ⟨entry, hentry, h⟩ := Result.bind_eq_ok.mp h
        obtain ⟨source, hsource, h⟩ := Result.bind_eq_ok.mp h
        obtain ⟨name, hname, h⟩ := Result.bind_eq_ok.mp h
        obtain ⟨hkind, rfl⟩ := putEntry_eq_ok.mp hentry
        obtain ⟨hsourceKind, rfl⟩ := putEntry_eq_ok.mp hsource
        obtain ⟨hfits, rfl⟩ := putName_eq_ok.mp hname
        cases h
        refine ⟨⟨hkind, hsourceKind, hfits⟩, ?_⟩
        simp only [objectBytes, append_assoc, cons_append, nil_append]
      · rintro ⟨⟨hkind, hsourceKind, hfits⟩, rfl⟩
        rw [putObjects, putEntry_eq_ok.mpr ⟨hkind, rfl⟩, putEntry_eq_ok.mpr ⟨hsourceKind, rfl⟩,
          putName_eq_ok.mpr ⟨hfits, rfl⟩]
        simp only [objectBytes, append_assoc, cons_append, nil_append]
        rfl

variable {intent : Intent}

/-- The encoder accepts what is well formed and not too long. -/
theorem encode_eq_ok :
    intent.encode = .ok bytes ↔
      intent.Wellformed ∧ intent.body.length ≤ MAX_RECORD ∧ bytes = intent.body := by
  have hbody : intent.body = INTENT_MAGIC ++ putIdentity intent.root ++
      LittleEndian.u32 (UInt32.ofNat intent.parents.length) ++
      intent.parents.flatMap parentBytes ++ nameBytes intent.name ++
      objectBytes (intent.kind, intent.expected) := by
    simp only [Intent.body, append_assoc]
  constructor
  · intro h
    rw [Intent.encode] at h
    split at h
    · cases h
    · rename_i hcount
      obtain ⟨-, -, h⟩ := Result.bind_eq_ok.mp h
      obtain ⟨parents, hparents, h⟩ := Result.bind_eq_ok.mp h
      obtain ⟨name, hname, h⟩ := Result.bind_eq_ok.mp h
      obtain ⟨objects, hobjects, h⟩ := Result.bind_eq_ok.mp h
      obtain ⟨hfit, rfl⟩ := putParents_eq_ok.mp hparents
      obtain ⟨hnamed, rfl⟩ := putName_eq_ok.mp hname
      obtain ⟨hagrees, rfl⟩ := putObjects_eq_ok.mp hobjects
      rw [← hbody] at h
      dsimp only at h
      split at h
      · cases h
      · rename_i hlength
        cases h
        exact ⟨⟨Nat.not_le.mp hcount, hfit, hnamed, hagrees⟩, Nat.not_lt.mp hlength, rfl⟩
  · rintro ⟨hwell, hlength, rfl⟩
    rw [Intent.encode, if_neg (Nat.not_le.mpr hwell.count),
      putParents_eq_ok.mpr ⟨hwell.parents, rfl⟩, putName_eq_ok.mpr ⟨hwell.name, rfl⟩,
      putObjects_eq_ok.mpr ⟨hwell.objects, rfl⟩]
    simp only [Result.ok_bind, ← hbody, if_neg (Nat.not_lt.mpr hlength)]
    rfl

/-! ## Reading back -/

theorem reads_identity (identity : FileIdentity) :
    Reads takeIdentity (putIdentity identity) identity :=
  (Decoder.reads_u64 _ _).bind ((Decoder.reads_u64 _ _).bindLast (Reads.pure _))

theorem reads_name (h : NameFits name) : Reads takeName (nameBytes name) name := by
  have hlength : name.length = (UInt32.ofNat name.length).toNat := by
    rw [UInt32.toNat_ofNat', Nat.mod_eq_of_lt h.2]
  exact (Decoder.reads_u32 _ _).bind ((Reads.take _ hlength).bindLast
    ((Reads.ensure _ h.1).skip (Reads.pure _)))

theorem reads_kind (h : kind ≠ .Root) : Reads takeKind [kindTag kind] kind := by
  cases kind with
  | Root => exact absurd rfl h
  | _ => exact (Decoder.reads_byte _ _).bindLast (Reads.pure _)

theorem reads_entry (h : entry.kind ≠ .Root) :
    Reads takeEntry (entryBytes entry) entry :=
  (reads_identity _).bind ((reads_kind h).bindLast (Reads.pure _))

theorem reads_parent (h : NameFits parent.name) :
    Reads takeParent (parentBytes parent) parent :=
  (reads_name h).bind ((reads_identity _).bindLast (Reads.pure _))

theorem reads_publication (hkind : publication.source.kind ≠ .Root)
    (hname : NameFits publication.destination_name) :
    Reads takePublication (entryBytes publication.source ++
      (putIdentity publication.destination_parent ++ nameBytes publication.destination_name))
      publication :=
  (reads_entry hkind).bind ((reads_identity _).bind ((reads_name hname).bindLast
    ((Reads.ensure _ hname.1).skip ((Reads.ensure _ (decide_eq_true hkind)).skip
      (Reads.pure _)))))

theorem reads_objects (h : Agrees objects) :
    Reads takeObjects (objectBytes objects) objects := by
  obtain ⟨kind, expected⟩ := objects
  cases kind with
  | Stage =>
    cases expected with
    | none =>
      exact (Decoder.reads_byte _ 1).bindLast ((Reads.ensure _ rfl).skip (Reads.pure _))
    | some expected => exact h.elim
  | Retirement =>
    cases expected with
    | none => exact h.elim
    | some expected =>
      exact (Decoder.reads_byte _ 0).bind ((Reads.ensure _ rfl).skip
        ((reads_entry h).bindLast (Reads.pure _)))
  | Replacement publication =>
    cases expected with
    | none => exact h.elim
    | some expected =>
      exact (Decoder.reads_byte _ 2).bind ((Reads.ensure _ rfl).skip ((reads_entry h.1).bind
        ((reads_publication h.2.1 h.2.2).bindLast (Reads.pure _))))

theorem le_length_parents (parents : List Ancestor) (h : ∀ parent ∈ parents, NameFits parent.name) :
    21 * parents.length ≤ (parents.flatMap parentBytes).length := by
  induction parents with
  | nil => exact Nat.le_refl 0
  | cons parent parents ih =>
    obtain ⟨hfits, hrest⟩ := forall_mem_cons.mp h
    have hname : 0 < parent.name.length := by
      refine length_pos_iff.mpr fun hempty => ?_
      have hvalid := hfits.1
      rw [hempty] at hvalid
      exact absurd hvalid (by decide)
    have hparents := ih hrest
    rw [flatMap_cons, length_append, length_cons]
    simp only [parentBytes, nameBytes, putIdentity, length_append, LittleEndian.length_u32,
      LittleEndian.length_u64]
    omega

/-- **What is read back**: a well-formed record, of any length. -/
theorem decode_body (h : intent.Wellformed) : Intent.decode intent.body false = .ok intent := by
  have hcount : (UInt32.ofNat intent.parents.length).toNat = intent.parents.length := by
    rw [UInt32.toNat_ofNat', Nat.mod_eq_of_lt h.count]
  have hrun : takeIntent false intent.body = .ok intent [] := by
    refine (EState.bind_ok (Reads.take _ rfl _)).trans ?_
    refine (EState.bind_ok (Reads.ensure _ (decide_eq_true rfl) _)).trans ?_
    refine (EState.bind_ok (reads_identity _ _)).trans ?_
    refine (EState.bind_ok (Decoder.reads_u32 _ _ _)).trans ?_
    refine (EState.bind_ok EState.get_run).trans ?_
    have hparents : Reads (many takeParent (UInt32.ofNat intent.parents.length).toNat)
        (intent.parents.flatMap parentBytes) intent.parents := by
      rw [hcount]
      exact Reads.many fun parent hparent => reads_parent (h.parents parent hparent)
    have hleft : (UInt32.ofNat intent.parents.length).toNat ≤
        (intent.parents.flatMap parentBytes ++
          (nameBytes intent.name ++ objectBytes (intent.kind, intent.expected))).length / 21 := by
      have hlength := le_length_parents intent.parents h.parents
      rw [hcount, length_append]
      omega
    refine (EState.bind_ok (Reads.ensure _ (decide_eq_true hleft) _)).trans ?_
    refine (EState.bind_ok (hparents _)).trans ?_
    refine (EState.bind_ok (reads_name h.name _)).trans ?_
    exact EState.bind_ok (reads_objects h.objects).run
  rw [Intent.decode, hrun]

/-! ## The way back -/

theorem identity_spells : Spells takeIdentity putIdentity fun _ => True := by
  intro bytes identity rest h
  obtain ⟨device, left, rfl, -, h⟩ := (Decoder.u64_spells short).step h
  obtain ⟨inode, left, rfl, -, h⟩ := (Decoder.u64_spells short).step h
  obtain ⟨rfl, rfl⟩ := pure_step h
  exact ⟨by simp only [putIdentity, append_assoc], trivial⟩

theorem name_spells : Spells takeName nameBytes NameFits := by
  intro bytes name rest h
  obtain ⟨length, left, rfl, -, h⟩ := (Decoder.u32_spells short).step h
  obtain ⟨front, left, rfl, hlength, h⟩ := (Decoder.take_spells short _).step h
  obtain ⟨hvalid, h⟩ := ensure_step h
  obtain ⟨rfl, rfl⟩ := pure_step h
  refine ⟨?_, hvalid, ?_⟩
  · rw [nameBytes, hlength, UInt32.ofNat_toNat, append_assoc]
    rfl
  · rw [hlength]
    exact length.toNat_lt

theorem kind_spells : Spells takeKind (fun kind => [kindTag kind]) (· ≠ .Root) := by
  intro bytes kind rest h
  obtain ⟨tag, left, rfl, -, h⟩ := (Decoder.byte_spells short).step h
  split at h
  · rename_i htag
    obtain ⟨rfl, rfl⟩ := pure_step h
    exact ⟨by rw [htag]; rfl, by decide⟩
  split at h
  · rename_i htag
    obtain ⟨rfl, rfl⟩ := pure_step h
    exact ⟨by rw [htag]; rfl, by decide⟩
  split at h
  · rename_i htag
    obtain ⟨rfl, rfl⟩ := pure_step h
    exact ⟨by rw [htag]; rfl, by decide⟩
  split at h
  · rename_i htag
    obtain ⟨rfl, rfl⟩ := pure_step h
    exact ⟨by rw [htag]; rfl, by decide⟩
  · cases h

theorem entry_spells : Spells takeEntry entryBytes fun entry => entry.kind ≠ .Root := by
  intro bytes entry rest h
  obtain ⟨file, left, rfl, -, h⟩ := identity_spells.step h
  obtain ⟨kind, left, rfl, hkind, h⟩ := kind_spells.step h
  obtain ⟨rfl, rfl⟩ := pure_step h
  exact ⟨by simp only [entryBytes, append_assoc], hkind⟩

theorem parent_spells : Spells takeParent parentBytes fun parent => NameFits parent.name := by
  intro bytes parent rest h
  obtain ⟨name, left, rfl, hname, h⟩ := name_spells.step h
  obtain ⟨identity, left, rfl, -, h⟩ := identity_spells.step h
  obtain ⟨rfl, rfl⟩ := pure_step h
  exact ⟨by simp only [parentBytes, append_assoc], hname⟩

theorem publication_spells : Spells takePublication
    (fun publication => entryBytes publication.source ++
      (putIdentity publication.destination_parent ++ nameBytes publication.destination_name))
    fun publication => publication.source.kind ≠ .Root ∧
      NameFits publication.destination_name := by
  intro bytes publication rest h
  obtain ⟨source, left, rfl, hkind, h⟩ := entry_spells.step h
  obtain ⟨parent, left, rfl, -, h⟩ := identity_spells.step h
  obtain ⟨name, left, rfl, hname, h⟩ := name_spells.step h
  obtain ⟨-, h⟩ := ensure_step h
  obtain ⟨-, h⟩ := ensure_step h
  obtain ⟨rfl, rfl⟩ := pure_step h
  exact ⟨by simp only [append_assoc], hkind, hname⟩

theorem objects_spells : Spells takeObjects objectBytes Agrees := by
  intro bytes objects rest h
  obtain ⟨tag, left, rfl, -, h⟩ := (Decoder.byte_spells short).step h
  obtain ⟨hknown, h⟩ := ensure_step h
  split at h
  · rename_i htag
    obtain ⟨expected, left, rfl, hkind, h⟩ := entry_spells.step h
    obtain ⟨rfl, rfl⟩ := pure_step h
    exact ⟨by simp only [htag, objectBytes, append_assoc], hkind⟩
  split at h
  · rename_i htag
    obtain ⟨rfl, rfl⟩ := pure_step h
    exact ⟨by rw [htag]; rfl, trivial⟩
  · rename_i hzero hone
    -- the tags up to 2 are the two above and this one
    have htag : tag = 2 := by
      have hle : tag.toNat ≤ 2 := UInt8.le_iff_toNat_le.mp (of_decide_eq_true hknown)
      have hzero : ¬ tag.toNat = 0 := fun h => hzero (UInt8.toNat_inj.mp h)
      have hone : ¬ tag.toNat = 1 := fun h => hone (UInt8.toNat_inj.mp h)
      have htwo : tag.toNat = 2 := by omega
      exact UInt8.toNat_inj.mp htwo
    obtain ⟨expected, left, rfl, hkind, h⟩ := entry_spells.step h
    obtain ⟨publication, left, rfl, hpublication, h⟩ := publication_spells.step h
    obtain ⟨rfl, rfl⟩ := pure_step h
    exact ⟨by simp only [htag, objectBytes, append_assoc], hkind, hpublication⟩

theorem decode_eq_ok
    (h : Intent.decode bytes false = .ok intent) : bytes = intent.body ∧ intent.Wellformed := by
  rw [Intent.decode] at h
  split at h
  · rename_i read rest hread
    cases h
    obtain ⟨magic, left, rfl, -, hread⟩ := (Decoder.take_spells short _).step hread
    obtain ⟨hmagic, hread⟩ := ensure_step hread
    obtain ⟨root, left, rfl, -, hread⟩ := identity_spells.step hread
    obtain ⟨count, left, rfl, -, hread⟩ := (Decoder.u32_spells short).step hread
    obtain ⟨-, hread⟩ := ensure_step (get_step hread)
    obtain ⟨parents, left, rfl, ⟨hcount, hparents⟩, hread⟩ :=
      (Decoder.many_spells parent_spells _).step hread
    obtain ⟨name, left, rfl, hname, hread⟩ := name_spells.step hread
    obtain ⟨objects, left, rfl, hobjects, hread⟩ := objects_spells.step hread
    obtain ⟨hempty, hread⟩ := ensure_step (get_step hread)
    obtain ⟨rfl, rfl⟩ := pure_step hread
    refine ⟨?_, ?_, hparents, hname, hobjects⟩
    · rw [of_decide_eq_true hmagic, List.isEmpty_iff.mp hempty, append_nil]
      simp only [Intent.body, hcount, UInt32.ofNat_toNat]
      rfl
    · rw [hcount]
      exact count.toNat_lt
  · cases h

theorem decode_encode (h : intent.encode = .ok bytes) : Intent.decode bytes false = .ok intent := by
  obtain ⟨hwell, -, rfl⟩ := encode_eq_ok.mp h
  exact decode_body hwell

theorem encode_decode
    (h : Intent.decode bytes false = .ok intent) (hlength : bytes.length ≤ MAX_RECORD) :
    intent.encode = .ok bytes := by
  obtain ⟨rfl, hwell⟩ := decode_eq_ok h
  exact encode_eq_ok.mpr ⟨hwell, hlength, rfl⟩

/-- A record with a name that fills the bound on its own. -/
def longIntent : Intent where
  root := ⟨0, 0⟩
  parents := []
  name := List.replicate MAX_RECORD 0x61
  expected := none
  kind := .Stage

/-- The decoder does not count: it accepts a record that the encoder refuses. -/
theorem long_intent_refused :
    ∃ bytes intent, Intent.decode bytes false = .ok intent ∧ intent.encode ≠ .ok bytes := by
  have hvalid : validName longIntent.name = true := by
    have hmem : ∀ b : UInt8, b ∈ longIntent.name → b = 0x61 := fun b => eq_of_mem_replicate
    have hlength : longIntent.name.length = 1048576 := length_replicate
    have hshort : ∀ name : Name, name.length < 1048576 → longIntent.name ≠ name := by
      rintro name hname rfl
      exact absurd hname (by rw [hlength]; decide)
    have hempty : longIntent.name.isEmpty = false := by
      rw [isEmpty_eq_false_iff]
      exact hshort [] (by decide)
    have hzero : longIntent.name.contains 0 = false := by
      simp only [contains_eq_mem, decide_eq_false_iff_not]
      exact fun h => absurd (hmem 0 h) (by decide)
    have hslash : longIntent.name.contains 0x2f = false := by
      simp only [contains_eq_mem, decide_eq_false_iff_not]
      exact fun h => absurd (hmem 0x2f h) (by decide)
    rw [validName, hempty, hzero, hslash, decide_eq_false (hshort _ (by decide)),
      decide_eq_false (hshort _ (by decide))]
    rfl
  have hwell : longIntent.Wellformed :=
    { count := by decide
      parents := fun _ h => nomatch h
      name := ⟨hvalid, by
        rw [show longIntent.name.length = 1048576 from length_replicate]
        decide⟩
      objects := trivial }
  refine ⟨longIntent.body, longIntent, decode_body hwell, fun h => ?_⟩
  have hlength := (encode_eq_ok.mp h).2.1
  have hname : longIntent.name.length = MAX_RECORD := length_replicate
  simp only [Intent.body, nameBytes, length_append, LittleEndian.length_u32, hname] at hlength
  omega

end Ish.Quarantine
