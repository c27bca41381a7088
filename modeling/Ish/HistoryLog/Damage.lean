import Ish.HistoryLog.Reading

/-!
# Damage — torn tails, altered frames, and salvage

What a crash can leave behind the last frame is dropped, also when it is a run
of zero bytes. A frame that was altered in front of another one is noticed, and
`salvage` keeps what stands before it.
-/

namespace Ish.HistoryLog

open Ish.Lib List EState
open Ish.Lib.Rising (Rises lastKey rises_append)

/-! ## Zero bytes -/

theorem crc32_zeros : crc32 (List.replicate 8 0) ≠ 0 := by decide

theorem toU32_zeros : LittleEndian.toU32 (List.replicate 4 0) = 0 := by decide

theorem toU64_zeros : LittleEndian.toU64 (List.replicate 8 0) = 0 := by decide

/-- **A zero-filled tail contributes nothing**: its length does not pass its
checksum, and nothing but zeros follows. -/
theorem discarded_zeros (n : Nat) : Discarded (List.replicate n 0) := by
  intro cutoff fuel cursor hfuel
  rw [length_replicate] at hfuel
  cases fuel with
  | zero =>
    obtain rfl : n = 0 := Nat.le_zero.mp hfuel
    rfl
  | succ fuel =>
    by_cases hnil : n = 0
    · subst hnil
      rfl
    · have hne : List.replicate n (0 : UInt8) ≠ [] := by simp [hnil]
      have hall : (List.replicate n (0 : UInt8)).all (· == 0) = true := by simp
      rw [readFrames, if_neg hne, decide_eq_true hne]
      by_cases hheader : n < FRAME_HEADER_SIZE
      · rw [if_pos (by simpa using hheader)]
      · have h8 : (List.replicate n (0 : UInt8)).take 8 = List.replicate 8 0 := by
          rw [take_replicate, Nat.min_eq_left]
          simp only [FRAME_HEADER_SIZE] at hheader
          omega
        have h12 : ((List.replicate n (0 : UInt8)).drop 8).take 4 = List.replicate 4 0 := by
          rw [drop_replicate, take_replicate, Nat.min_eq_left]
          simp only [FRAME_HEADER_SIZE] at hheader
          omega
        simp only [h8, h12, toU32_zeros]
        rw [if_neg (by simpa using hheader), if_pos crc32_zeros, if_pos hall]

theorem frame_not_zeros (h : Storable o) (rest : List UInt8) :
    (frame o ++ rest).all (· == 0) = false := by
  obtain ⟨hshort, _⟩ := h.payload_bounds
  obtain ⟨hlength, _⟩ := frame_fields h rest
  have hlong : 8 ≤ (frame o ++ rest).length := by
    rw [length_append, length_frame, FRAME_HEADER_SIZE]
    omega
  by_contra hall
  rw [Bool.not_eq_false, all_eq_true] at hall
  have hzeros : (frame o ++ rest).take 8 = List.replicate 8 0 := by
    refine eq_replicate_iff.mpr ⟨length_take_of_le hlong, ?_⟩
    intro byte hbyte
    exact eq_of_beq (hall byte (mem_of_mem_take hbyte))
  rw [hzeros, toU64_zeros] at hlength
  simp at hlength
  omega

/-! ## An altered frame -/

/-- The bytes of a frame, altered so that one of its checksums fails, where an
altered length does not pass its own. -/
structure Damaged (bytes : List UInt8) (o : Occurrence) : Prop where
  length : bytes.length = (frame o).length
  fails : crc32 (bytes.take 8) ≠ LittleEndian.toU32 ((bytes.drop 8).take 4) ∨
    crc32 (bytes.drop FRAME_HEADER_SIZE) ≠ LittleEndian.toU32 ((bytes.drop 12).take 4)
  detected : crc32 (bytes.take 8) = LittleEndian.toU32 ((bytes.drop 8).take 4) →
    bytes.take 8 = (frame o).take 8

/-- **An altered frame is noticed** when something that is not zero follows. -/
theorem readFrames_damaged (h : Storable o)
    (hdamaged : Damaged bytes o) (hrest : rest.all (· == 0) = false) :
    ∃ message, ∀ (cutoff : Int64) (fuel : Nat) (cursor : Cursor),
      readFrames cutoff (fuel + 1) cursor (bytes ++ rest) =
        .error (.corrupt cursor.offset message) := by
  obtain ⟨hshort, hlong⟩ := h.payload_bounds
  have hsize : bytes.length = FRAME_HEADER_SIZE + (payload o).length :=
    hdamaged.length.trans (length_frame o)
  have hheader : FRAME_HEADER_SIZE ≤ bytes.length := by omega
  have htotal : (bytes ++ rest).length = bytes.length + rest.length := length_append
  have hrestne : rest.length ≠ 0 := by
    intro hzero
    rw [length_eq_zero_iff.mp hzero] at hrest
    cases hrest
  have hne : bytes ++ rest ≠ [] := by
    intro hnil
    rw [hnil, hsize, FRAME_HEADER_SIZE] at htotal
    simp at htotal
    omega
  have hall : (bytes ++ rest).all (· == 0) = false := by
    rw [all_append, hrest, Bool.and_false]
  simp only [FRAME_HEADER_SIZE] at hheader
  have h8 : (bytes ++ rest).take 8 = bytes.take 8 :=
    take_append_of_le_length (by omega)
  have h12 : ((bytes ++ rest).drop 8).take 4 = (bytes.drop 8).take 4 := by
    rw [drop_append_of_le_length (by omega), take_append_of_le_length]
    rw [length_drop]
    omega
  by_cases hcrc : crc32 (bytes.take 8) = LittleEndian.toU32 ((bytes.drop 8).take 4)
  · have hchecksum := hdamaged.fails.resolve_left (not_not_intro hcrc)
    obtain ⟨hlength, -⟩ := frame_fields h []
    rw [append_nil, ← hdamaged.detected hcrc] at hlength
    have h16 : ((bytes ++ rest).drop 12).take 4 = (bytes.drop 12).take 4 := by
      rw [drop_append_of_le_length (by omega), take_append_of_le_length]
      rw [length_drop]
      omega
    have hpayload : ((bytes ++ rest).drop FRAME_HEADER_SIZE).take (payload o).length =
        bytes.drop FRAME_HEADER_SIZE := by
      rw [drop_append_of_le_length (by rw [FRAME_HEADER_SIZE]; omega)]
      refine take_left' ?_
      rw [length_drop]
      omega
    refine ⟨"frame payload checksum mismatch", ?_⟩
    intro cutoff fuel cursor
    rw [readFrames]
    simp only [h8, h12, h16, hlength, hpayload]
    rw [if_neg hne, if_neg (by rw [htotal, FRAME_HEADER_SIZE]; omega), if_neg (not_not_intro hcrc),
      if_neg (by omega), if_neg (by omega), if_neg (by omega), if_pos hchecksum,
      if_neg (by omega)]
  · refine ⟨"frame length checksum mismatch", ?_⟩
    intro cutoff fuel cursor
    rw [readFrames]
    simp only [h8, h12]
    rw [if_neg hne, if_neg (by rw [htotal, FRAME_HEADER_SIZE]; omega), if_pos hcrc,
      if_neg (by rw [hall]; simp)]

theorem readFrames_error (h : ∀ o ∈ os, Storable o) :
    ∀ (fuel : Nat) (cursor : Cursor), Rises Occurrence.id cursor.last_id os →
      cursor.offset + (frames os).length < 2 ^ 64 →
      (∀ fuel, readFrames cutoff (fuel + 1) (cursor.pastAll os) rest = .error error) →
      readFrames cutoff (fuel + os.length + 1) cursor (frames os ++ rest) = .error error := by
  induction os with
  | nil =>
    intro fuel cursor _ _ herror
    exact herror fuel
  | cons o os ih =>
    intro fuel cursor hrises hoffset herror
    have ho := h o (by simp)
    rw [frames_cons, length_append] at hoffset
    have hrest := ih (fun b hb => h b (by simp [hb])) fuel (cursor.past o) hrises.2
      (by simpa [Cursor.past, Nat.add_assoc] using hoffset)
      (by rw [← Cursor.pastAll_cons]; exact herror)
    rw [frames_cons, append_assoc, length_cons,
      readFrames_frame ho cutoff _ _ hrises.1 (by omega), ← Nat.add_assoc, hrest]
    rfl

theorem length_le_frames (os : List Occurrence) : os.length ≤ (frames os).length := by
  induction os with
  | nil => exact Nat.le_refl 0
  | cons o os ih =>
    rw [frames_cons, length_append, length_cons, length_frame, FRAME_HEADER_SIZE]
    omega

/-! ## Whole files -/

/-- A log: the header, frames, and a tail. -/
def logBytes (generation : Int64) (encoded : List (List UInt8)) (tail : List UInt8) :
    List UInt8 :=
  HEADER ++ LittleEndian.i64 generation ++ (encoded.flatten ++ tail)

/-- What a crash in an append can leave behind the last frame. -/
inductive Torn : List UInt8 → Prop where
  | cut {next : Occurrence} {bytes : List UInt8} {k : Nat} (h : encode next = .ok bytes)
      (hk : k < bytes.length) : Torn (bytes.take k)
  | zeros (n : Nat) : Torn (List.replicate n 0)

theorem Torn.discarded {tail} (h : Torn tail) : Discarded tail := by
  cases h with
  | cut h hk =>
    obtain ⟨hstorable, rfl⟩ := encode_eq_ok.mp h
    exact discarded_torn hstorable hk
  | zeros n => exact discarded_zeros n

theorem mapM_frame {os : List Occurrence} (h : ∀ o ∈ os, Storable o) :
    os.mapM encode = .ok (os.map frame) := by
  induction os with
  | nil => rfl
  | cons o os ih =>
    rw [mapM_cons, encode_storable (h o (by simp)), ih fun b hb => h b (by simp [hb])]
    rfl

/-- Ids that rise pairwise, and are positive, rise from zero. -/
theorem rises_of_pairwise (hstorable : ∀ o ∈ os, Storable o)
    (hrising : os.Pairwise fun a b => a.id < b.id) : Rises Occurrence.id 0 os := by
  cases os with
  | nil => trivial
  | cons o os => exact ⟨(hstorable o (by simp)).id, Rising.rises_of_above hrising⟩

section Files

variable {disk : Disk} {generation reader : Int64} {os : List Occurrence}
  {encoded : List (List UInt8)} {tail : List UInt8}

/-- A file of a log: its frames are those of occurrences with rising ids, and
its length is one that a file can have. -/
structure IsLog (bytes : List UInt8) (generation : Int64) (os : List Occurrence)
    (encoded : List (List UInt8)) (tail : List UInt8) : Prop where
  bytes_eq : bytes = logBytes generation encoded tail
  generation : 0 ≤ generation
  encoded : os.mapM encode = .ok encoded
  rising : os.Pairwise fun a b => a.id < b.id
  size : bytes.length < 2 ^ 64

theorem IsLog.stores (h : IsLog bytes generation os encoded tail)
    (htail : Discarded tail) : Stores bytes generation os tail := by
  obtain ⟨hstorable, hframes⟩ := mapM_encode h.encoded
  refine ⟨?_, h.generation, hstorable, rises_of_pairwise hstorable h.rising, htail, h.size⟩
  rw [h.bytes_eq, logBytes, hframes, flatten_frames]

/-! ## Reading a file -/

/-- What a shell that has just started reads. -/
def firstRead : StoreM (Snapshot × Store) := Store.snapshot { cursor := Cursor.default } 0 0

/-- What it has afterwards. -/
def Disk.readStore (disk : Disk) (generation : Int64) (os : List Occurrence) : Store :=
  { cursor := (Cursor.atStart disk.file generation).pastAll os }

theorem upTo_firstRead : UpTo Cursor.default 0 0 [] := upTo_default rfl

theorem firstRead_clean (h : Stores disk.file.bytes generation os []) :
    firstRead disk =
      .ok ({ generation, occurrences := os }, disk.readStore generation os) disk := by
  obtain ⟨fresh, hread, hsame, hnew⟩ := readSnapshotFuel_clean disk.file.bytes.length h
    upTo_firstRead ⟨h.generation, fun _ => List.nil_prefix⟩
  have hfresh : fresh = os := by
    by_cases hgeneration : 0 = generation
    · exact (hsame hgeneration).symm
    · exact hnew hgeneration
  rw [hfresh] at hread
  have hsnapshot : readSnapshot Cursor.default 0 0 disk = _ :=
    (bind_ok get_run).trans hread
  exact bind_ok hsnapshot

theorem IsLog.of_stores (h : Stores bytes generation os tail)
    (hencoded : os.mapM encode = .ok encoded) (hrising : os.Pairwise fun a b => a.id < b.id) :
    IsLog bytes generation os encoded tail where
  bytes_eq := by
    obtain ⟨_, hframes⟩ := mapM_encode hencoded
    rw [h.bytes_eq, logBytes, hframes, flatten_frames]
  generation := h.generation
  encoded := hencoded
  rising := hrising
  size := h.size

/-- **A torn tail is dropped for good**, and every occurrence is read. -/
theorem firstRead_torn (h : IsLog disk.file.bytes generation os encoded tail)
    (htorn : Discarded tail) (hmax : tail = [] ∨ generation ≠ Int64.maxValue) :
    ∃ generation' disk', generation ≤ generation' ∧
      IsLog disk'.file.bytes generation' os encoded [] ∧
      firstRead disk = .ok ({ generation := generation', occurrences := os },
        disk'.readStore generation' os) disk' := by
  have hstores := h.stores htorn
  rcases hmax with hnil | hmax
  · subst hnil
    exact ⟨generation, disk, Int64.le_refl _, h, firstRead_clean hstores⟩
  · rcases readSnapshot_spec hstores upTo_firstRead
      ⟨h.generation, fun _ => List.nil_prefix⟩ with
      ⟨generation', disk', fresh, hread, hstores', hle, hsame, hnew⟩ | ⟨hexhausted, _⟩
    · have hfresh : fresh = os := by
        by_cases hgeneration : 0 = generation'
        · exact (hsame hgeneration).symm
        · exact hnew hgeneration
      subst hfresh
      exact ⟨generation', disk', hle, .of_stores hstores' h.encoded h.rising,
        bind_ok hread⟩
    · exact absurd hexhausted hmax

/-! ## An altered file -/

end Files

/-- A log in which one frame that is not the last was altered. -/
structure AlteredLog where
  generation : Int64
  before : List Occurrence
  lost : Occurrence
  after : List Occurrence
  encodedBefore : List (List UInt8)
  frame : List UInt8
  altered : List UInt8
  encodedAfter : List (List UInt8)
  tail : List UInt8
  log : IsLog (logBytes generation (encodedBefore ++ frame :: encodedAfter) tail) generation
    (before ++ lost :: after) (encodedBefore ++ frame :: encodedAfter) tail
  aligned : encodedBefore.length = before.length
  followed : after ≠ []
  damaged : Damaged altered lost

namespace AlteredLog

def bytes (log : AlteredLog) : List UInt8 :=
  logBytes log.generation (log.encodedBefore ++ log.altered :: log.encodedAfter) log.tail

/-- Where the altered frame starts. -/
def offset (log : AlteredLog) : Nat := HEADER_SIZE + log.encodedBefore.flatten.length

variable (log : AlteredLog)

theorem frames_eq : log.encodedBefore = log.before.map HistoryLog.frame ∧
    log.encodedAfter = log.after.map HistoryLog.frame := by
  obtain ⟨_, hframes⟩ := mapM_encode log.log.encoded
  rw [map_append, map_cons] at hframes
  obtain ⟨hbefore, hrest⟩ := append_inj hframes (by rw [log.aligned, length_map])
  exact ⟨hbefore, (List.cons.inj hrest).2⟩

theorem storable : ∀ o ∈ log.before ++ log.lost :: log.after, Storable o :=
  (mapM_encode log.log.encoded).1

theorem rises : Rises Occurrence.id 0 log.before := by
  have hrises := rises_of_pairwise log.storable log.log.rising
  rw [rises_append] at hrises
  exact hrises.1

/-- What follows the header. -/
def rest (log : AlteredLog) : List UInt8 := log.altered ++ (frames log.after ++ log.tail)

theorem bytes_eq :
    log.bytes = HEADER ++ LittleEndian.i64 log.generation ++ (frames log.before ++ log.rest) := by
  obtain ⟨hbefore, hafter⟩ := log.frames_eq
  rw [bytes, logBytes, hbefore, hafter, flatten_append, flatten_cons, flatten_frames,
    flatten_frames, rest]
  simp only [append_assoc]

theorem length_bytes :
    log.bytes.length = HEADER_SIZE + (frames log.before).length + log.rest.length := by
  rw [bytes_eq]
  simp only [length_append, LittleEndian.length_i64, HEADER, HEADER_SIZE,
    length_cons, length_nil]
  omega

theorem offset_eq : log.offset = HEADER_SIZE + (frames log.before).length := by
  rw [offset, log.frames_eq.1, flatten_frames]

theorem size : HEADER_SIZE + (frames log.before).length < 2 ^ 64 := by
  have hlog := log.log.size
  rw [logBytes, log.frames_eq.1, flatten_append, flatten_frames] at hlog
  simp only [length_append, LittleEndian.length_i64, HEADER, length_cons,
    length_nil] at hlog
  rw [HEADER_SIZE]
  omega

theorem readFrames_error :
    ∃ message, ∀ (cutoff : Int64) (fuel : Nat) (cursor : Cursor), cursor.last_id = 0 →
      cursor.offset = HEADER_SIZE → log.bytes.length ≤ fuel + HEADER_SIZE →
      readFrames cutoff fuel cursor (frames log.before ++ log.rest) =
        .error (.corrupt log.offset message) := by
  have hlost : Storable log.lost := log.storable _ (by simp)
  have hafter : (frames log.after ++ log.tail).all (· == 0) = false := by
    cases hcases : log.after with
    | nil => exact absurd hcases log.followed
    | cons next more =>
      rw [frames_cons, append_assoc]
      exact frame_not_zeros (log.storable next (by simp [hcases])) _
  obtain ⟨message, hread⟩ := readFrames_damaged hlost log.damaged hafter
  refine ⟨message, ?_⟩
  intro cutoff fuel cursor hlast hoffset hfuel
  have hcount := length_le_frames log.before
  have haltered := log.damaged.length.trans (length_frame log.lost)
  rw [log.length_bytes] at hfuel
  have hrest : log.rest.length = log.altered.length + (frames log.after ++ log.tail).length :=
    length_append
  simp only [FRAME_HEADER_SIZE] at haltered
  obtain ⟨fuel', rfl⟩ : ∃ n, fuel = n + log.before.length + 1 :=
    ⟨fuel - log.before.length - 1, by omega⟩
  refine HistoryLog.readFrames_error (fun o ho => log.storable o (by simp [ho])) fuel' cursor
    (hlast ▸ log.rises) (by rw [hoffset]; exact log.size) ?_
  intro fuel
  rw [rest, hread, Cursor.pastAll, hoffset, offset_eq]

theorem readHeader_bytes : readHeader log.bytes = .ok log.generation := by
  have hlen := log.length_bytes
  have hmagic : log.bytes.take 8 = HEADER := by
    rw [log.bytes_eq, append_assoc]
    exact take_left' rfl
  have hfield : (log.bytes.drop 8).take 8 = LittleEndian.i64 log.generation := by
    rw [log.bytes_eq, append_assoc, drop_left' (by rfl)]
    exact take_left' (by simp)
  rw [readHeader, if_neg (by omega), hmagic, hfield, LittleEndian.toI64_i64,
    if_neg (by simp), if_neg (Int64.not_lt.mpr log.log.generation)]

theorem drop_header : log.bytes.drop HEADER_SIZE = frames log.before ++ log.rest := by
  rw [log.bytes_eq]
  exact drop_left' (by simp [HEADER, HEADER_SIZE])

variable {disk : Disk}

theorem readHeader_file (hfile : disk.file.bytes = log.bytes) :
    readHeader disk.file.bytes = .ok log.generation := by
  rw [hfile, log.readHeader_bytes]

/-- **Reading stops at the altered frame**, and leaves the file as it is. -/
theorem readSnapshot_error (hfile : disk.file.bytes = log.bytes) :
    ∃ message, ∀ generation : Int64, readSnapshot Cursor.default generation 0 disk =
      .error (.corrupt log.offset message) disk := by
  obtain ⟨message, hread⟩ := log.readFrames_error
  refine ⟨message, ?_⟩
  intro generation
  have hstart : startCursor Cursor.default disk.file log.generation generation 0 =
      Cursor.atStart disk.file log.generation := by
    rw [startCursor, if_pos (Or.inl (by simp [Cursor.default]))]
    exact if_neg (by simp [Cursor.default])
  have hnot : (Cursor.atStart disk.file log.generation).offset ≠ disk.file.bytes.length := by
    show HEADER_SIZE ≠ disk.file.bytes.length
    have haltered := log.damaged.length.trans (length_frame log.lost)
    rw [hfile, log.length_bytes, rest, length_append]
    simp only [FRAME_HEADER_SIZE] at haltered
    omega
  have hscan := hread (if log.generation = generation then 0 else 0)
    (disk.file.bytes.drop HEADER_SIZE).length (Cursor.atStart disk.file log.generation) rfl rfl
    (by rw [length_drop, hfile]; omega)
  rw [readSnapshot, bind_ok get_run, readSnapshotFuel,
    bind_ok get_run, log.readHeader_file hfile,
    bind_ok (StoreM.ofExcept_ok log.generation disk)]
  rw [← log.drop_header, ← hfile] at hscan
  simp only [hstart, ite_self] at hscan ⊢
  refine (congrFun (if_neg hnot) disk).trans (bind_error ?_)
  exact (congrArg (fun scan => StoreM.ofExcept scan disk) hscan).trans rfl

/-- **Salvage keeps what stands before** the altered frame, under the next
generation, and sets the rest aside. -/
theorem salvage_eq (hfile : disk.file.bytes = log.bytes)
    (hmax : log.generation ≠ Int64.maxValue) (store : Store) :
    ∃ disk', store.salvage disk = .ok (log.offset, { cursor := Cursor.default }) disk' ∧
      disk'.moved = disk.moved ++ [disk.file.bytes.drop log.offset] ∧
      Stores disk'.file.bytes (log.generation + 1) log.before [] := by
  obtain ⟨message, hread⟩ := log.readSnapshot_error hfile
  have hdamage : Store.damage disk = .ok log.offset disk := by
    rw [Store.damage, hread]
  have hkept : (disk.file.bytes.drop HEADER_SIZE).take (log.offset - HEADER_SIZE) =
      frames log.before := by
    rw [hfile, log.drop_header, log.offset_eq, Nat.add_sub_cancel_left]
    exact take_left' rfl
  let moved := { disk with moved := disk.moved ++ [disk.file.bytes.drop log.offset] }
  refine ⟨moved.published (log.generation + 1) (frames log.before), ?_, rfl, ?_⟩
  · rw [Store.salvage, bind_ok hdamage, bind_ok get_run,
      log.readHeader_file hfile, bind_ok (StoreM.ofExcept_ok log.generation disk),
      checkedSucc_ok hmax, bind_ok (StoreM.ofExcept_ok (log.generation + 1) disk)]
    refine (bind_ok (modify_run _)).trans ?_
    refine (bind_ok (modify_run _)).trans ?_
    rw [hkept]
    rfl
  · have hnonneg : 0 ≤ log.generation + 1 :=
      Int64.le_of_lt (Int64.lt_of_le_of_lt log.log.generation (lt_succ hmax))
    exact stores_new log.before hnonneg (fun o ho => log.storable o (by simp [ho])) log.rises
      log.size

end AlteredLog

/-! ## The bytes of a log -/

/-- **The bytes of a log read back**, in front of any torn tail, and up to an
altered frame: reading gives exactly the occurrences and drops the tail, as long
as there is a generation to come; damage is found where it starts, and salvage
gives exactly what stands before it. -/
theorem log_bytes_read :
    (∀ (disk : Disk) (generation : Int64) (os : List Occurrence)
        (encoded : List (List UInt8)) (tail : List UInt8),
      IsLog disk.file.bytes generation os encoded tail → Torn tail →
      tail = [] ∨ generation ≠ Int64.maxValue →
      ∃ generation' disk' store,
        firstRead disk = .ok ({ generation := generation', occurrences := os }, store) disk' ∧
        IsLog disk'.file.bytes generation' os encoded [] ∧
        firstRead disk' = .ok ({ generation := generation', occurrences := os }, store) disk') ∧
    ∀ (disk : Disk) (log : AlteredLog), disk.file.bytes = log.bytes →
      (∃ message, firstRead disk = .error (.corrupt log.offset message) disk) ∧
      ∀ store : Store, log.generation ≠ Int64.maxValue →
        ∃ store' disk', store.salvage disk = .ok (log.offset, store') disk' ∧
          disk'.moved = disk.moved ++ [disk.file.bytes.drop log.offset] ∧
          IsLog disk'.file.bytes (log.generation + 1) log.before log.encodedBefore [] ∧
          ∃ store'', firstRead disk' =
            .ok ({ generation := log.generation + 1, occurrences := log.before }, store'')
              disk' := by
  constructor
  · intro disk generation os encoded tail hlog htorn hmax
    obtain ⟨generation', disk', _, hlog', hread⟩ := firstRead_torn hlog htorn.discarded hmax
    exact ⟨generation', disk', _, hread, hlog', firstRead_clean (hlog'.stores discarded_nil)⟩
  · intro disk log hfile
    constructor
    · obtain ⟨message, hread⟩ := log.readSnapshot_error hfile
      exact ⟨message, bind_error (hread 0)⟩
    · intro store hmax
      obtain ⟨disk', hsalvage, hmoved, hstores⟩ := log.salvage_eq hfile hmax store
      refine ⟨_, disk', hsalvage, hmoved, ?_, _, firstRead_clean hstores⟩
      refine IsLog.of_stores hstores ?_ (pairwise_append.mp log.log.rising).1
      rw [log.frames_eq.1]
      exact mapM_frame fun o ho => log.storable o (by simp [ho])

def lsOccurrence (id : Int64) : Occurrence :=
  { id, command := ['l', 's'], timestamp := 5, session_id := 7, cwd := some [] }

def tornDisk (generation : Int64) : Disk :=
  { file := {
      identity := (1, 1)
      bytes := logBytes generation [frame (lsOccurrence 1)] ((frame (lsOccurrence 2)).take 20) }
    moved := []
    identities := fun n => (1, n)
    made := 0 }

/-- Two occurrences, where the second byte of the first command was altered. -/
def alteredLs : AlteredLog where
  generation := 0
  before := []
  lost := lsOccurrence 1
  after := [lsOccurrence 2]
  encodedBefore := []
  frame := frame (lsOccurrence 1)
  altered := (frame (lsOccurrence 1)).take 49 ++ [0x70]
  encodedAfter := [frame (lsOccurrence 2)]
  tail := []
  log := ⟨rfl, by decide, by decide +kernel, by decide, by decide +kernel⟩
  aligned := rfl
  followed := by decide
  damaged := ⟨by decide +kernel, by decide +kernel, by decide +kernel⟩

theorem log_bytes_read_ls :
    (∃ generation' disk' store, firstRead (tornDisk 0) =
      .ok ({ generation := generation', occurrences := [lsOccurrence 1] }, store) disk' ∧
      IsLog disk'.file.bytes generation' [lsOccurrence 1] [frame (lsOccurrence 1)] [] ∧
      firstRead disk' =
        .ok ({ generation := generation', occurrences := [lsOccurrence 1] }, store) disk') ∧
    ∃ message, firstRead { tornDisk 0 with file := ⟨(1, 1), alteredLs.bytes⟩ } =
      .error (.corrupt 16 message) { tornDisk 0 with file := ⟨(1, 1), alteredLs.bytes⟩ } :=
  ⟨log_bytes_read.1 (tornDisk 0) 0 [lsOccurrence 1] [frame (lsOccurrence 1)]
      ((frame (lsOccurrence 2)).take 20)
      ⟨rfl, by decide, by decide +kernel, pairwise_singleton _ _, by decide +kernel⟩
      (@Torn.cut (lsOccurrence 2) _ _ rfl (by decide)) (Or.inr (by decide)),
    (log_bytes_read.2 _ alteredLs rfl).1⟩

/-- What an operation fails with. -/
def failure {α : Type} (result : EStateM.Result LogError Disk α) : Option LogError :=
  match result with
  | .ok _ _ => none
  | .error e _ => some e

/-- In the last generation a torn tail stops the read: there is no generation
for the file without it. -/
theorem last_generation_keeps_tail :
    IsLog (tornDisk Int64.maxValue).file.bytes Int64.maxValue [lsOccurrence 1]
      [frame (lsOccurrence 1)] ((frame (lsOccurrence 2)).take 20) ∧
    Torn ((frame (lsOccurrence 2)).take 20) ∧
    failure (firstRead (tornDisk Int64.maxValue)) = some (.invalid "generation exhausted") :=
  ⟨⟨rfl, by decide, by decide +kernel, pairwise_singleton _ _, by decide +kernel⟩,
    @Torn.cut (lsOccurrence 2) _ _ rfl (by decide +kernel), by decide +kernel⟩

end Ish.HistoryLog
