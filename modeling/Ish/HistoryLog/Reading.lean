import Ish.HistoryLog.Store
import Ish.Lib.EState
import Ish.Lib.Rising

/-!
# Reading the log

What reading a log of whole frames and a torn tail gives: `Stores` says what the
bytes of a log hold, `InSync` what one reader has of it, and `readSnapshot`
brings the reader up to date, whatever its cursor.
-/

namespace Ish.HistoryLog

open Ish.Lib List
open Ish.Lib.Rising (Rises lastKey rises_append)

/-! ## One frame -/

theorem Storable.payload_bounds (h : Storable o) :
    32 ≤ (payload o).length ∧ FRAME_HEADER_SIZE + (payload o).length < 2 ^ 64 := by
  have hdir := h.directory_lt
  have hcommand := h.command_len
  simp only [U32_MAX] at hdir hcommand
  rw [length_payload, FRAME_HEADER_SIZE]
  omega

theorem length_frame (o : Occurrence) :
    (frame o).length = FRAME_HEADER_SIZE + (payload o).length := length_framed _

theorem frame_fields (h : Storable o) (rest : List UInt8) :
    (LittleEndian.toU64 ((frame o ++ rest).take 8)).toNat = (payload o).length ∧
      LittleEndian.toU32 (((frame o ++ rest).drop 8).take 4) =
        crc32 ((frame o ++ rest).take 8) ∧
      LittleEndian.toU32 (((frame o ++ rest).drop 12).take 4) = crc32 (payload o) ∧
      ((frame o ++ rest).drop FRAME_HEADER_SIZE).take (payload o).length = payload o ∧
      (frame o ++ rest).drop (FRAME_HEADER_SIZE + (payload o).length) = rest := by
  have hlt : (payload o).length < 2 ^ 64 :=
    Nat.lt_of_le_of_lt (Nat.le_add_left ..) h.payload_bounds.2
  have hlen : (UInt64.ofNat (payload o).length).toNat = (payload o).length :=
    UInt64.toNat_ofNat_of_lt' hlt
  refine ⟨?_, ?_, ?_, ?_, drop_left' (length_frame o)⟩
  · simp [frame, framed, hlen]
  · simp [frame, framed]
  · simp [frame, framed, drop_append, drop_eq_nil_of_le]
  · simp [frame, framed, FRAME_HEADER_SIZE, drop_append, drop_eq_nil_of_le]

/-- The cursor behind one more frame. -/
def Cursor.past (cursor : Cursor) (o : Occurrence) : Cursor :=
  { cursor with offset := cursor.offset + (frame o).length, last_id := o.id }

/-- One round of the loop, at a whole frame. -/
theorem readFrames_frame (h : Storable o) (cutoff : Int64) (fuel : Nat) (rest : List UInt8) (hid : cursor.last_id < o.id)
    (hoffset : cursor.offset + (frame o).length < 2 ^ 64) :
    readFrames cutoff (fuel + 1) cursor (frame o ++ rest) =
      (readFrames cutoff fuel (cursor.past o) rest).map fun scan =>
        { scan with
          occurrences := if cutoff < o.id then o :: scan.occurrences
            else scan.occurrences } := by
  obtain ⟨hshort, hlong⟩ := h.payload_bounds
  obtain ⟨hlength, hcrc, hchecksum, hpayload, hrest⟩ := frame_fields h rest
  have hsize := length_frame o
  have htotal : (frame o ++ rest).length = (frame o).length + rest.length :=
    length_append
  have hne : frame o ++ rest ≠ [] := by
    intro hnil
    rw [hnil, hsize, FRAME_HEADER_SIZE] at htotal
    simp at htotal
    omega
  rw [readFrames]
  simp only [hlength, hcrc, hchecksum, hpayload, hrest, decode_payload h]
  rw [if_neg hne, if_neg (by omega), if_neg (by simp), if_neg (by omega), if_neg (by omega),
    if_neg (by omega), if_neg (by simp), if_neg (Int64.not_le.mpr hid), if_neg (by omega)]
  rw [← hsize]
  change (readFrames cutoff fuel (cursor.past o) rest >>= _) = _
  cases readFrames cutoff fuel (cursor.past o) rest <;> rfl

/-! ## The tail -/

/-- Bytes that a reader drops, wherever they stand. -/
def Discarded (tail : List UInt8) : Prop :=
  ∀ (cutoff : Int64) (fuel : Nat) (cursor : Cursor), tail.length ≤ fuel →
    readFrames cutoff fuel cursor tail =
      .ok { cursor, occurrences := [], discarded_tail := decide (tail ≠ []) }

theorem discarded_nil : Discarded [] := by
  intro cutoff fuel cursor _
  cases fuel with
  | zero => rfl
  | succ fuel => rfl

/-- **A torn frame contributes nothing**: a strict prefix of a frame is dropped. -/
theorem discarded_torn (h : Storable o)
    (hk : k < (frame o).length) : Discarded ((frame o).take k) := by
  obtain ⟨hshort, hlong⟩ := h.payload_bounds
  obtain ⟨hlength, hcrc, -⟩ := frame_fields h []
  rw [append_nil] at hlength hcrc
  have hsize := length_frame o
  intro cutoff fuel cursor hfuel
  have htail : ((frame o).take k).length = k := by
    rw [length_take]
    omega
  cases fuel with
  | zero =>
    have hnil : (frame o).take k = [] := length_eq_zero_iff.mp (Nat.le_zero.mp hfuel)
    rw [hnil]
    rfl
  | succ fuel =>
    by_cases hnil : (frame o).take k = []
    · rw [hnil]
      rfl
    · rw [readFrames, if_neg hnil]
      have hdiscarded : decide ((frame o).take k ≠ []) = true := decide_eq_true hnil
      by_cases hheader : k < FRAME_HEADER_SIZE
      · rw [if_pos (by omega), hdiscarded]
      · have hk8 : ((frame o).take k).take 8 = (frame o).take 8 := by
          rw [take_take, Nat.min_eq_left]
          simp only [FRAME_HEADER_SIZE] at hheader
          omega
        have hk12 : (((frame o).take k).drop 8).take 4 = ((frame o).drop 8).take 4 := by
          rw [drop_take, take_take, Nat.min_eq_left]
          simp only [FRAME_HEADER_SIZE] at hheader
          omega
        simp only [hk8, hk12, hlength, hcrc]
        rw [if_neg (by omega), if_neg (by simp), if_neg (by omega), if_neg (by omega),
          if_pos (by omega), hdiscarded]

/-! ## All frames -/

def frames (os : List Occurrence) : List UInt8 := os.flatMap frame

/-- The id of the last occurrence, `d` when there is none. -/
abbrev lastId (d : Int64) (os : List Occurrence) : Int64 := lastKey Occurrence.id d os

/-- The cursor behind more frames. -/
def Cursor.pastAll (cursor : Cursor) (os : List Occurrence) : Cursor :=
  { cursor with
    offset := cursor.offset + (frames os).length
    last_id := lastId cursor.last_id os }

@[simp] theorem frames_nil : frames [] = [] := rfl

@[simp] theorem frames_cons (o : Occurrence) (os : List Occurrence) :
    frames (o :: os) = frame o ++ frames os := rfl

@[simp] theorem frames_append (l r : List Occurrence) :
    frames (l ++ r) = frames l ++ frames r := flatMap_append

theorem flatten_frames (os : List Occurrence) : (os.map frame).flatten = frames os := by
  induction os with
  | nil => rfl
  | cons o os ih => rw [map_cons, flatten_cons, ih, frames_cons]

/-- Occurrences that `encode` accepts, and their frames. -/
theorem mapM_encode {os : List Occurrence}
    (h : os.mapM encode = .ok encoded) : (∀ o ∈ os, Storable o) ∧ encoded = os.map frame := by
  induction os generalizing encoded with
  | nil =>
    cases h
    simp
  | cons o os ih =>
    rw [mapM_cons] at h
    obtain ⟨bytes, hbytes, h⟩ := Result.bind_eq_ok.mp h
    obtain ⟨rest, hrest, h⟩ := Result.bind_eq_ok.mp h
    cases h
    obtain ⟨hstorable, rfl⟩ := encode_eq_ok.mp hbytes
    obtain ⟨hall, rfl⟩ := ih hrest
    refine ⟨?_, rfl⟩
    intro b hb
    rcases mem_cons.mp hb with rfl | hb
    · exact hstorable
    · exact hall b hb

theorem Cursor.pastAll_append (cursor : Cursor) (l r : List Occurrence) :
    cursor.pastAll (l ++ r) = (cursor.pastAll l).pastAll r := by
  simp only [Cursor.pastAll, frames_append, length_append, Nat.add_assoc, lastId,
    Rising.lastKey_append]

theorem Cursor.pastAll_cons (cursor : Cursor) (o : Occurrence) (os : List Occurrence) :
    cursor.pastAll (o :: os) = (cursor.past o).pastAll os := by
  simp only [Cursor.pastAll, Cursor.past, frames_cons, length_append, Nat.add_assoc,
    lastId, lastKey]

/-- **The loop reads whole frames**: those above the cutoff are returned, the
cursor stops behind the last one, and a tail is noticed. -/
theorem readFrames_frames (h : ∀ o ∈ os, Storable o)
    {tail} (htail : Discarded tail) (cutoff : Int64) :
    ∀ (fuel : Nat) (cursor : Cursor), Rises Occurrence.id cursor.last_id os →
      cursor.offset + (frames os).length < 2 ^ 64 →
      (frames os ++ tail).length ≤ fuel →
      readFrames cutoff fuel cursor (frames os ++ tail) =
        .ok {
          cursor := cursor.pastAll os
          occurrences := os.filter (cutoff < ·.id)
          discarded_tail := decide (tail ≠ []) } := by
  induction os with
  | nil =>
    intro fuel cursor _ _ hfuel
    exact htail cutoff fuel cursor hfuel
  | cons o os ih =>
    intro fuel cursor hrises hoffset hfuel
    have ho := h o (by simp)
    rw [frames_cons, length_append] at hoffset
    rw [frames_cons, append_assoc, length_append, length_frame,
      FRAME_HEADER_SIZE] at hfuel
    obtain ⟨fuel, rfl⟩ : ∃ n, fuel = n + 1 := ⟨fuel - 1, by omega⟩
    have hrest := ih (fun b hb => h b (by simp [hb])) fuel (cursor.past o) hrises.2
      (by simpa [Cursor.past, Nat.add_assoc] using hoffset) (by omega)
    rw [frames_cons, append_assoc,
      readFrames_frame ho cutoff fuel _ hrises.1 (by omega), hrest, Cursor.pastAll_cons,
      filter_cons]
    simp only [Except.map, decide_eq_true_eq]

/-! ## What a log holds -/

/-- The bytes hold `os` under a generation, in front of a tail to be dropped. -/
structure Stores (bytes : List UInt8) (generation : Int64) (os : List Occurrence)
    (tail : List UInt8) : Prop where
  bytes_eq : bytes = HEADER ++ LittleEndian.i64 generation ++ (frames os ++ tail)
  generation : 0 ≤ generation
  storable : ∀ o ∈ os, Storable o
  rises : Rises Occurrence.id 0 os
  tail : Discarded tail
  size : bytes.length < 2 ^ 64

section Stored

variable {bytes tail : List UInt8} {current : Int64} {os : List Occurrence}

theorem Stores.length (h : Stores bytes current os tail) :
    bytes.length = HEADER_SIZE + (frames os).length + tail.length := by
  rw [h.bytes_eq]
  simp only [length_append, LittleEndian.length_i64, HEADER, HEADER_SIZE,
    length_cons, length_nil]
  omega

theorem Stores.drop_header (h : Stores bytes current os tail) :
    bytes.drop HEADER_SIZE = frames os ++ tail := by
  rw [h.bytes_eq]
  exact drop_left' (by simp [HEADER, HEADER_SIZE])

theorem Stores.readHeader (h : Stores bytes current os tail) : readHeader bytes = .ok current := by
  have hlen := h.length
  have hmagic : bytes.take 8 = HEADER := by
    rw [h.bytes_eq, append_assoc]
    exact take_left' rfl
  have hfield : (bytes.drop 8).take 8 = LittleEndian.i64 current := by
    rw [h.bytes_eq, append_assoc, drop_left' (by rfl)]
    exact take_left' (by simp)
  rw [HistoryLog.readHeader, if_neg (by omega), hmagic, hfield, LittleEndian.toI64_i64,
    if_neg (by simp), if_neg (Int64.not_lt.mpr h.generation)]

end Stored

/-! ## What a reader has -/

/-- The cursor in front of the first frame. -/
def Cursor.atStart (file : LogFile) (current : Int64) : Cursor :=
  { identity := some file.identity, generation := current, offset := HEADER_SIZE, last_id := 0 }

/-- What a reader knows of itself: its last id is that of the last occurrence it
applied, and its cursor, when it has one, stands behind exactly those. -/
structure UpTo (cursor : Cursor) (generation last_id : Int64) (applied : List Occurrence) :
    Prop where
  last_id : last_id = lastId 0 applied
  cursor : ∀ identity, cursor.identity = some identity →
    cursor = { Cursor.atStart ⟨identity, []⟩ generation with }.pastAll applied

/-- What a reader has of a log: nothing of a later generation, and a front part
of the current one. -/
structure Behind (current : Int64) (os : List Occurrence) (generation : Int64)
    (applied : List Occurrence) : Prop where
  old : generation ≤ current
  seen : generation = current → applied <+: os

theorem upTo_default
    (h : last_id = lastId 0 applied) : UpTo Cursor.default generation last_id applied where
  last_id := h
  cursor := by
    intro identity hidentity
    cases hidentity

theorem upTo_pastAll (file : LogFile) (current : Int64) (os : List Occurrence) :
    UpTo ((Cursor.atStart file current).pastAll os) current (lastId 0 os) os where
  last_id := rfl
  cursor := by
    intro identity hidentity
    cases hidentity
    rfl

section Reading

variable {file : LogFile} {tail : List UInt8} {current : Int64} {os : List Occurrence}
  {cursor : Cursor} {generation last_id : Int64} {applied : List Occurrence}

theorem startCursor_spec (file : LogFile) (hup : UpTo cursor generation last_id applied)
    (hbehind : Behind current os generation applied) :
    ∃ l r, os = l ++ r ∧
      startCursor cursor file current generation last_id =
        (Cursor.atStart file current).pastAll l ∧
      (l = [] ∨ generation = current ∧ l = applied) := by
  rw [startCursor]
  split
  · next hreset =>
      refine ⟨[], os, rfl, ?_, .inl rfl⟩
      simp [Cursor.default, Cursor.atStart, Cursor.pastAll, lastKey]
  · next hkeep =>
      simp only [not_or, ne_eq, not_not] at hkeep
      obtain ⟨hidentity, hgeneration, -, -⟩ := hkeep
      have hcursor := hup.cursor _ hidentity
      have hsame : generation = current := by
        rw [hcursor] at hgeneration
        exact hgeneration
      obtain ⟨r, hr⟩ := hbehind.seen hsame
      refine ⟨applied, r, hr.symm, ?_, .inr ⟨hsame, rfl⟩⟩
      rw [if_neg (by simp [hsame]), hcursor, hsame]
      rfl

/-- **The loop returns what the reader has not seen**, and ends behind the last
frame. -/
theorem scan_spec (hfile : Stores file.bytes current os tail)
    (hup : UpTo cursor generation last_id applied)
    (hbehind : Behind current os generation applied) :
    let start := startCursor cursor file current generation last_id
    let rest := file.bytes.drop start.offset
    ∃ fresh, readFrames (if current = generation then last_id else 0) rest.length start rest =
        .ok {
          cursor := (Cursor.atStart file current).pastAll os
          occurrences := fresh
          discarded_tail := decide (tail ≠ []) } ∧
      (generation = current → os = applied ++ fresh) ∧
      (generation ≠ current → fresh = os) := by
  intro start rest
  obtain ⟨l, r, hos, hstart, hl⟩ := startCursor_spec file hup hbehind
  have hrest : rest = frames r ++ tail := by
    show file.bytes.drop start.offset = _
    rw [show start = _ from hstart, Cursor.pastAll, Cursor.atStart, ← drop_drop,
      hfile.drop_header, hos, frames_append, append_assoc, drop_left' rfl]
  have hrises := hfile.rises
  have hsize := hfile.length
  have hlt := hfile.size
  rw [hos, rises_append] at hrises
  rw [hos, frames_append, length_append] at hsize
  have hstorable : ∀ o ∈ r, Storable o := fun o ho => hfile.storable o (by simp [hos, ho])
  have hread := readFrames_frames hstorable hfile.tail
    (if current = generation then last_id else 0) rest.length start
    (by rw [show start = _ from hstart]; exact hrises.2)
    (by
      rw [show start = _ from hstart, Cursor.pastAll, Cursor.atStart]
      simp only
      omega)
    (by rw [hrest])
  rw [← hrest, show start = _ from hstart, ← Cursor.pastAll_append, ← hos] at hread
  rw [show start = _ from hstart]
  refine ⟨_, hread, ?_, ?_⟩
  · intro hsame
    rw [if_pos hsame.symm, hup.last_id]
    obtain ⟨fresh, hfresh⟩ := hbehind.seen hsame
    have hall := hfile.rises
    rw [← hfresh] at hall
    have hfilter := hall.filter_append
    rcases hl with rfl | ⟨-, rfl⟩
    · rw [nil_append] at hos
      rw [← hos, ← hfresh, hfilter]
    · have hr : r = fresh := append_cancel_left (hos.symm.trans hfresh.symm)
      rw [hos, hr, filter_eq_self.mpr]
      intro o ho
      exact decide_eq_true ((rises_append.mp hall).2.lt o ho)
  · intro hnew
    rcases hl with rfl | ⟨hsame, -⟩
    · rw [if_neg (Ne.symm hnew), filter_eq_self.mpr, hos, nil_append]
      intro o ho
      exact decide_eq_true (hrises.2.lt o ho)
    · exact absurd hsame hnew

/-- One pass of `read_snapshot`, by what its loop returns. -/
theorem readSnapshotFuel_eq (fuel : Nat)
    (hheader : readHeader disk.file.bytes = .ok current)
    (hscan : let start := startCursor cursor disk.file current generation last_id
      let rest := disk.file.bytes.drop start.offset
      readFrames (if current = generation then last_id else 0) rest.length start rest =
        .ok scan) :
    readSnapshotFuel (fuel + 1) cursor generation last_id disk =
      if scan.discarded_tail then
        (StoreM.ofExcept (checkedSucc current "generation exhausted") >>= fun next =>
          publish next ((disk.file.bytes.drop HEADER_SIZE).take
            (scan.cursor.offset - HEADER_SIZE)) >>= fun _ =>
          readSnapshotFuel fuel Cursor.default generation last_id) disk
      else
        .ok ({ generation := current, occurrences := scan.occurrences }, scan.cursor) disk := by
  simp only at hscan
  rw [readSnapshotFuel, EState.bind_ok EState.get_run, hheader]
  rw [EState.bind_ok (StoreM.ofExcept_ok current disk)]
  split
  · next hend =>
      rw [hend, drop_length] at hscan
      cases hscan
      rfl
  · have hok := StoreM.ofExcept_ok scan disk
    rw [← hscan] at hok
    refine (EState.bind_ok hok).trans ?_
    split <;> rfl

/-- A log without a tail is read as it stands. -/
theorem readSnapshotFuel_clean (fuel : Nat)
    (hfile : Stores disk.file.bytes current os [])
    (hup : UpTo cursor generation last_id applied)
    (hbehind : Behind current os generation applied) :
    ∃ fresh, readSnapshotFuel (fuel + 1) cursor generation last_id disk =
        .ok ({ generation := current, occurrences := fresh },
          (Cursor.atStart disk.file current).pastAll os) disk ∧
      (generation = current → os = applied ++ fresh) ∧
      (generation ≠ current → fresh = os) := by
  obtain ⟨fresh, hscan, hsame, hnew⟩ := scan_spec hfile hup hbehind
  refine ⟨fresh, ?_, hsame, hnew⟩
  rw [readSnapshotFuel_eq fuel hfile.readHeader hscan, if_neg (by simp)]

theorem checkedSucc_ok (h : n ≠ Int64.maxValue) (message : String) :
    checkedSucc n message = .ok (n + 1) := if_neg h

theorem lt_succ (h : n ≠ Int64.maxValue) : n < n + 1 := by
  grind

/-- A file that was just published. -/
theorem stores_new (os : List Occurrence) (hgeneration : 0 ≤ generation)
    (hstorable : ∀ o ∈ os, Storable o) (hrises : Rises Occurrence.id 0 os)
    (hsize : HEADER_SIZE + (frames os).length < 2 ^ 64) :
    Stores (HEADER ++ LittleEndian.i64 generation ++ frames os) generation os [] where
  bytes_eq := by rw [append_nil]
  generation := hgeneration
  storable := hstorable
  rises := hrises
  tail := discarded_nil
  size := by
    have hheader : (HEADER ++ LittleEndian.i64 generation).length = HEADER_SIZE := by
      rw [length_append, LittleEndian.length_i64]
      rfl
    rwa [length_append, hheader]

theorem Stores.succ_nonneg (hfile : Stores bytes current os tail)
    (hmax : current ≠ Int64.maxValue) : 0 ≤ current + 1 :=
  Int64.le_of_lt (Int64.lt_of_le_of_lt hfile.generation (lt_succ hmax))

theorem Stores.frames_size (hfile : Stores bytes current os tail) :
    HEADER_SIZE + (frames os).length < 2 ^ 64 := by
  have hlen := hfile.length
  have hsize := hfile.size
  omega

/-- **Reading brings a reader up to date**, and drops a torn tail for good. It
fails only when the tail would need a generation beyond 63 bits. -/
theorem readSnapshot_spec (hfile : Stores disk.file.bytes current os tail)
    (hup : UpTo cursor generation last_id applied)
    (hbehind : Behind current os generation applied) :
    (∃ current' disk' fresh,
      readSnapshot cursor generation last_id disk =
        .ok ({ generation := current', occurrences := fresh },
          (Cursor.atStart disk'.file current').pastAll os) disk' ∧
      Stores disk'.file.bytes current' os [] ∧ current ≤ current' ∧
      (generation = current' → os = applied ++ fresh) ∧
      (generation ≠ current' → fresh = os)) ∨
    current = Int64.maxValue ∧
      readSnapshot cursor generation last_id disk =
        .error (.invalid "generation exhausted") disk := by
  have hlen := hfile.length
  obtain ⟨fuel, hfuel⟩ : ∃ fuel, disk.file.bytes.length = fuel + 1 := by
    simp only [HEADER_SIZE] at hlen
    exact ⟨disk.file.bytes.length - 1, by omega⟩
  have hread : readSnapshot cursor generation last_id disk =
      readSnapshotFuel (fuel + 1 + 1) cursor generation last_id disk := by
    rw [readSnapshot, EState.bind_ok EState.get_run, hfuel]
  rw [hread]
  by_cases htail : tail = []
  · subst htail
    obtain ⟨fresh, hclean, hsame, hnew⟩ :=
      readSnapshotFuel_clean (fuel + 1) hfile hup hbehind
    exact .inl ⟨current, disk, fresh, hclean, hfile, Int64.le_refl _, hsame, hnew⟩
  · obtain ⟨fresh, hscan, -⟩ := scan_spec hfile hup hbehind
    rw [readSnapshotFuel_eq (fuel + 1) hfile.readHeader hscan, if_pos (by simp [htail])]
    by_cases hmax : current = Int64.maxValue
    · refine .inr ⟨hmax, ?_⟩
      rw [hmax]
      rfl
    · left
      have hkept : (disk.file.bytes.drop HEADER_SIZE).take
          (((Cursor.atStart disk.file current).pastAll os).offset - HEADER_SIZE) =
            frames os := by
        rw [hfile.drop_header, Cursor.pastAll, Cursor.atStart]
        exact take_left' (by simp)
      have hfile' : Stores (disk.published (current + 1) (frames os)).file.bytes
          (current + 1) os [] :=
        stores_new os (hfile.succ_nonneg hmax) hfile.storable hfile.rises hfile.frames_size
      have hlt : generation < current + 1 :=
        Int64.lt_of_le_of_lt hbehind.old (lt_succ hmax)
      have hnew : generation ≠ current + 1 := Int64.ne_of_lt hlt
      obtain ⟨fresh', hclean, -, hall⟩ := readSnapshotFuel_clean fuel hfile'
        (upTo_default hup.last_id) ⟨Int64.le_of_lt hlt, fun h => absurd h hnew⟩
      refine ⟨current + 1, _, fresh', ?_, hfile', Int64.le_of_lt (lt_succ hmax),
        fun h => absurd h hnew, hall⟩
      rw [← hclean, checkedSucc_ok hmax]
      refine (EState.bind_ok (StoreM.ofExcept_ok (current + 1) disk)).trans ?_
      refine EState.bind_ok (EState.modify_run _) |>.trans ?_
      simp only
      rw [hkept]

end Reading

end Ish.HistoryLog
