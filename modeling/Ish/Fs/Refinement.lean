import Ish.Fs.Lookup
import Ish.Fs.RecordList

/-!
# The record spool is a list

A client works on a store with any number of cursors. What it sees is a list of
records in push order: a lookup is a search from the front, a field update
changes the first record of a path, a cursor is a place in the list. The tree
inside the file only ever helps.
-/

namespace Ish.Fs

open Ish.Lib List Function
open EState (Does bind_ok)
open UnixPath (Path)

/-! ## The client -/

/-- A store and the cursors of its user. -/
structure Client where
  store : Records
  cursor : Nat → Nat

namespace Client

def new : Client := ⟨Records.new, fun _ => 0⟩

/-- A call, with what it does to the cursors and says. -/
def call {α : Type} (c : Client) (x : Spooling α) (cursor : α → Nat → Nat) (answer : α → Answer) :
    Client × Answer :=
  match x c.store with
  | .ok a store => (⟨store, cursor a⟩, answer a)
  | .error error store => (⟨store, c.cursor⟩, .failed error)

def step (c : Client) : Request → Client × Answer
  | .push record => c.call (Records.push record) (fun _ => c.cursor) fun _ => .done
  | .find path => c.call (Records.find path) (fun _ => c.cursor) .found
  | .setOutput path output =>
    c.call (Records.setOutput path output) (fun _ => c.cursor) fun _ => .done
  | .setFinalFlags path flags =>
    c.call (Records.setFinalFlags path flags) (fun _ => c.cursor) fun _ => .done
  | .toStart id => ({ c with cursor := Function.update c.cursor id 0 }, .done)
  | .toEnd id => c.call Records.finish (fun length => Function.update c.cursor id length) fun _ => .done
  | .next id =>
    c.call (Records.next (c.cursor id)) (fun found => Function.update c.cursor id found.2)
      fun found => .found found.1
  | .previous id =>
    c.call (Records.previous (c.cursor id)) (fun found => Function.update c.cursor id found.2)
      fun found => .found found.1

def run (c : Client) : List Request → Client × List Answer
  | [] => (c, [])
  | request :: requests =>
    let after := (c.step request).1.run requests
    (after.1, (c.step request).2 :: after.2)

end Client

/-! ## The first record of a path -/

variable {record : Record} {records : List Record}

theorem named_iff (h : recordAt records offset = some record) :
    named records path offset = record.at path := by
  rw [named, Record.at, keyAt_of h, decide_eq_decide]
  exact UnixPath.key_eq_iff

theorem find_offsets_none
    (h : ∀ record ∈ records, ¬ record.at path = true) (more : List Record) :
    (offsets records).find? (named (records ++ more) path) = none := by
  refine find?_eq_none.mpr fun offset hoffset hnamed => ?_
  obtain ⟨record, hrecord⟩ := mem_offsets.mp hoffset
  rw [named_iff (recordAt_push hrecord more)] at hnamed
  obtain ⟨before, after, hrecords, -⟩ := recordAt_eq_some.mp hrecord
  exact h record (by rw [hrecords]; simp) hnamed

theorem firstEntry_none
    (h : ∀ record ∈ records, ¬ record.at path = true) : firstEntry records path = none := by
  have hnone := find_offsets_none h []
  rw [append_nil] at hnone
  rw [firstEntry, hnone]
  rfl

variable {before after : List Record}

theorem firstEntry_append
    (h : ∀ other ∈ before, ¬ other.at path = true) (hat : record.at path = true) :
    firstEntry (before ++ record :: after) path =
      some (spoolSize before, spoolSize before + recordSize record, record) := by
  have hrecord := recordAt_append before record after
  have hnamed : named (before ++ record :: after) path (spoolSize before) = true := by
    rw [named_iff hrecord]
    exact hat
  rw [firstEntry, offsets_append, find?_append, find_offsets_none h _, Option.none_or,
    offsetsFrom, find?_cons_of_pos hnamed, Option.bind_some, entryAt_of hrecord]

theorem first_cases (records : List Record) (path : Path) :
    (∀ record ∈ records, ¬ record.at path = true) ∨
      ∃ before record after, records = before ++ record :: after ∧ record.at path = true ∧
        ∀ other ∈ before, ¬ other.at path = true := by
  cases hfind : records.find? (Record.at path) with
  | none => exact .inl (find?_eq_none.mp hfind)
  | some record =>
    obtain ⟨hat, before, after, hrecords, hbefore⟩ := find?_eq_some_iff_append.mp hfind
    exact .inr ⟨before, record, after, hrecords, hat, fun other hother => by
      simpa using hbefore other hother⟩

/-! ## Updates of one record -/

/-- A record with the same source and the same size in place of another. -/
structure SamePlace (updated record : Record) : Prop where
  source : updated.source = record.source
  size : recordSize updated = recordSize record

variable {updated record : Record}

theorem recordFrom_update (h : SamePlace updated record) (start : Nat)
    (before after : List Record) (offset : Nat) :
    (recordFrom start (before ++ updated :: after) offset).map (·.source) =
      (recordFrom start (before ++ record :: after) offset).map (·.source) := by
  induction before generalizing start with
  | nil =>
    rw [nil_append, nil_append, recordFrom, recordFrom, h.size]
    split
    · rw [Option.map_some, Option.map_some, h.source]
    · rfl
  | cons first before ih =>
    rw [cons_append, cons_append, recordFrom, recordFrom]
    split
    · rfl
    · exact ih _

theorem keyAt_eq (records : List Record) (offset : Nat) :
    keyAt records offset =
      (((recordAt records offset).map (·.source)).map UnixPath.key).getD [] := by
  rw [keyAt]
  cases recordAt records offset <;> rfl

theorem keyAt_update (h : SamePlace updated record) (before after : List Record) (offset : Nat) :
    keyAt (before ++ updated :: after) offset = keyAt (before ++ record :: after) offset := by
  rw [keyAt_eq, keyAt_eq, recordAt, recordAt, recordFrom_update h]

/-- The tree does not see the change. -/
theorem Indexed.update
    (hindexed : Indexed a) (hrecords : a.records = before ++ record :: after)
    (h : SamePlace updated record) : Indexed { a with records := before ++ updated :: after } := by
  intro htrue
  obtain ⟨t, ht⟩ := hindexed htrue
  refine ⟨t, ht.root, ht.stored, ht.balanced, ?_, ht.sorted.imp fun hcomes => ?_⟩
  · show t.toList.Perm (offsets (before ++ updated :: after))
    rw [offsets_update h.size, ← hrecords]
    exact ht.perm
  · show Comes (before ++ updated :: after) _ _
    rw [hrecords] at hcomes
    rw [Comes, keyAt_update h, keyAt_update h]
    exact hcomes

theorem Observation.Valid.stored {observation : Observation} (h : observation.Valid) :
    observation.stored.Valid := h

theorem encodeOutput_some_stored (output : Observation) :
    encodeOutput (some output.stored) = encodeOutput (some output) :=
  encodeOutput_stored (some output)

theorem body_output (record : Record) (output : Option Observation) :
    body { record with output } =
      beforeOutput record (pathBytes record.source) (pathBytes record.destination) ++
        (encodeOutput output ++ (afterOutput record ++ LittleEndian.u32 record.final_flags)) := by
  simp only [body, append_assoc]
  rfl

theorem body_flags (record : Record) (flags : UInt32) :
    body { record with final_flags := flags } =
      (beforeOutput record (pathBytes record.source) (pathBytes record.destination) ++
        encodeOutput record.output ++ afterOutput record) ++ (LittleEndian.u32 flags ++ []) := by
  simp only [body, append_nil]
  rfl

theorem recordSize_output (record : Record) (output : Option Observation) :
    recordSize { record with output } = recordSize record := by
  have hsame : recordSize record = recordSize { record with output := record.output } := rfl
  rw [hsame, recordSize, recordSize, body_output, body_output]
  simp

theorem recordSize_flags (record : Record) (flags : UInt32) :
    recordSize { record with final_flags := flags } = recordSize record := by
  have hsame : recordSize record = recordSize { record with final_flags := record.final_flags } :=
    rfl
  rw [hsame, recordSize, recordSize, body_flags, body_flags]
  simp

theorem Record.Kept.withOutput (h : record.Kept) {output : Observation}
    (hvalid : output.Valid) :
    Record.Kept { record with output := some output.stored } ∧
      SamePlace { record with output := some output.stored } record := by
  have hsize := recordSize_output record (some output.stored)
  refine ⟨⟨?_, ⟨h.storable.source, h.storable.destination, h.storable.observed, ?_⟩, ?_⟩,
    rfl, hsize⟩
  · rw [Record.Fits, Nat.add_right_cancel hsize]
    exact h.fits
  · intro observation hobservation
    cases hobservation
    exact hvalid.stored
  · have houtput : output.stored.stored = output.stored := by simp [Observation.stored]
    calc Record.stored { record with output := some output.stored }
        = { record.stored with output := some output.stored.stored } := rfl
      _ = { record with output := some output.stored } := by rw [h.stored, houtput]

theorem Record.Kept.withFlags (h : record.Kept) (flags : UInt32) :
    Record.Kept { record with final_flags := flags } ∧
      SamePlace { record with final_flags := flags } record := by
  have hsize := recordSize_flags record flags
  refine ⟨⟨?_, ⟨h.storable.source, h.storable.destination, h.storable.observed,
    h.storable.output⟩, ?_⟩, rfl, hsize⟩
  · rw [Record.Fits, Nat.add_right_cancel hsize]
    exact h.fits
  · calc Record.stored { record with final_flags := flags }
        = { record.stored with final_flags := flags } := rfl
      _ = { record with final_flags := flags } := by rw [h.stored]

/-! ## Calls -/

namespace Records

variable {a : Spool} {s : Records} {path : Path}

theorem find_does (path : Path) (hindexed : Indexed a) (hsmall : spoolSize a.records < 2 ^ 64) :
    ∃ b, Does Shows (find path) a (a.records.find? (Record.at path)) b ∧ b.records = a.records ∧
      Indexed b := by
  obtain ⟨b, hfind, hb, hbindexed⟩ := findEntry_does path hindexed hsmall
  have hresult : (firstEntry a.records path).map (fun entry => entry.2.2) =
      a.records.find? (Record.at path) := by
    rcases first_cases a.records path with hnone | ⟨before, record, after, hrecords, hat, hbefore⟩
    · rw [firstEntry_none hnone, find?_eq_none.mpr hnone]
      rfl
    · have hfirst : a.records.find? (Record.at path) = some record :=
        find?_eq_some_iff_append.mpr ⟨hat, before, after, hrecords, fun other hother => by
          simpa using hbefore other hother⟩
      rw [hfirst, hrecords, firstEntry_append hbefore hat]
      rfl
  refine ⟨b, ?_, hb, hbindexed⟩
  rw [← hresult]
  exact hfind.bind (Does.pure _)

theorem findPresent_missing (missing : Invalid) (hs : Shows s a) (hindexed : Indexed a)
    (hnone : ∀ record ∈ a.records, ¬ record.at path = true) :
    ∃ t b, findPresent missing path s = .error missing t ∧ Shows t b ∧ b.records = a.records ∧
      Indexed b := by
  obtain ⟨b, hfind, hb, hbindexed⟩ := findEntry_does path hindexed hs.small
  rw [firstEntry_none hnone] at hfind
  obtain ⟨t, hrun, ht⟩ := hfind s hs
  exact ⟨t, b, (bind_ok hrun).trans rfl, ht, hb, hbindexed⟩

theorem findPresent_does (missing : Invalid)
    (hindexed : Indexed a) (hsmall : spoolSize a.records < 2 ^ 64)
    (hrecords : a.records = before ++ record :: after) (hat : record.at path = true)
    (hbefore : ∀ other ∈ before, ¬ other.at path = true) :
    ∃ b, Does Shows (findPresent missing path) a
        (spoolSize before, spoolSize before + recordSize record, record) b ∧
      b.records = a.records ∧ Indexed b := by
  obtain ⟨b, hfind, hb, hbindexed⟩ := findEntry_does path hindexed hsmall
  rw [hrecords, firstEntry_append hbefore hat] at hfind
  exact ⟨b, hfind.bind (Does.pure _), hb, hbindexed⟩

theorem outputField_eq (record : Record) :
    8 + record.source.length + record.destination.length +
      (4 + TREE_NODE_BYTES + MAGIC.length + 34 + 40 + 36) = 4 + TREE_NODE_BYTES +
      (beforeOutput record (pathBytes record.source) (pathBytes record.destination)).length := by
  rw [length_beforeOutput, length_pathBytes, length_pathBytes]
  omega

theorem outputFieldOffset_does (hfits : record.Fits) :
    Does Shows (outputFieldOffset record) a (4 + TREE_NODE_BYTES +
      (beforeOutput record (pathBytes record.source) (pathBytes record.destination)).length) a := by
  have hsmall : 4 + TREE_NODE_BYTES +
      (beforeOutput record (pathBytes record.source) (pathBytes record.destination)).length <
      2 ^ 64 := by
    have hfront : (beforeOutput record (pathBytes record.source)
        (pathBytes record.destination)).length ≤ (body record).length := by
      simp only [body, append_assoc, length_append]
      exact Nat.le_add_right _ _
    have hmax : (body record).length ≤ 1048576 := hfits
    rw [TREE_NODE_BYTES]
    omega
  rw [← outputField_eq] at hsmall ⊢
  exact (Does.ensure _ (decide_eq_true hsmall)).bind (Does.pure _)

/-- **`set_output`** changes the output of the first record of the path, and
nothing else. -/
theorem setOutput_does {output : Observation}
    (hindexed : Indexed a) (hsmall : spoolSize a.records < 2 ^ 64)
    (hrecords : a.records = before ++ record :: after) (hkept : record.Kept)
    (hat : record.at path = true) (hbefore : ∀ other ∈ before, ¬ other.at path = true)
    (hvalid : output.Valid) :
    ∃ b, Does Shows (setOutput path output) a () b ∧ Indexed b ∧
      b.records = before ++ { record with output := some output.stored } :: after := by
  obtain ⟨b, hfind, hb, hbindexed⟩ :=
    findPresent_does "output record not found" hindexed hsmall hrecords hat hbefore
  rw [hrecords] at hb
  obtain ⟨hkept', hplace⟩ := hkept.withOutput hvalid
  have hold : body record =
      beforeOutput record (pathBytes record.source) (pathBytes record.destination) ++
        (encodeOutput record.output ++ (afterOutput record ++
          LittleEndian.u32 record.final_flags)) := body_output record record.output
  have hnew := body_output record (some output.stored)
  rw [encodeOutput_some_stored] at hnew
  have hposition : spoolSize before + (4 + TREE_NODE_BYTES +
      (beforeOutput record (pathBytes record.source) (pathBytes record.destination)).length) =
      spoolSize before + (4 + TREE_NODE_BYTES) +
      (beforeOutput record (pathBytes record.source) (pathBytes record.destination)).length :=
    (Nat.add_assoc _ _ _).symm
  have hwrite := writeField_does (a := b) hb hkept' hold hnew (by simp) hposition
  refine ⟨_, hfind.bind ?_, hbindexed.update hb hplace, rfl⟩
  refine (Does.ensure _ hat).bind ?_
  exact (outputFieldOffset_does hkept.fits).bind hwrite

/-- **`set_final_flags`** changes the flags of the first record of the path, and
nothing else. -/
theorem setFinalFlags_does (flags : UInt32)
    (hindexed : Indexed a) (hsmall : spoolSize a.records < 2 ^ 64)
    (hrecords : a.records = before ++ record :: after) (hkept : record.Kept)
    (hat : record.at path = true) (hbefore : ∀ other ∈ before, ¬ other.at path = true) :
    ∃ b, Does Shows (setFinalFlags path flags) a () b ∧ Indexed b ∧
      b.records = before ++ { record with final_flags := flags } :: after := by
  obtain ⟨b, hfind, hb, hbindexed⟩ :=
    findPresent_does "final metadata record not found" hindexed hsmall hrecords hat hbefore
  rw [hrecords] at hb
  obtain ⟨hkept', hplace⟩ := hkept.withFlags flags
  have hold : body record =
      (beforeOutput record (pathBytes record.source) (pathBytes record.destination) ++
        encodeOutput record.output ++ afterOutput record) ++
        (LittleEndian.u32 record.final_flags ++ []) := body_flags record record.final_flags
  have hlength : (body record).length =
      (beforeOutput record (pathBytes record.source) (pathBytes record.destination) ++
        encodeOutput record.output ++ afterOutput record).length + 4 := by
    rw [hold]
    simp only [length_append, LittleEndian.length_u32, length_nil]
  have hposition : spoolSize before + recordSize record - 8 =
      spoolSize before + (4 + TREE_NODE_BYTES) +
      (beforeOutput record (pathBytes record.source) (pathBytes record.destination) ++
        encodeOutput record.output ++ afterOutput record).length := by
    rw [recordSize, hlength]
    omega
  have hflags : (LittleEndian.u32 record.final_flags).length = (LittleEndian.u32 flags).length := by
    rw [LittleEndian.length_u32, LittleEndian.length_u32]
  have hwrite := writeField_does (a := b) hb hkept' hold (body_flags record flags) hflags hposition
  exact ⟨_, hfind.bind hwrite, hbindexed.update hb hplace, rfl⟩

/-- **`push`** appends the record as it is stored; an index takes it in. -/
theorem push_does (hs : Shows s a) (hindexed : Indexed a) (hfits : record.Fits)
    (hstorable : record.Storable) (hsmall : spoolSize a.records + recordSize record < 2 ^ 64) :
    ∃ t b, push record s = .ok () t ∧ Shows t b ∧ Indexed b ∧
      b.records = a.records ++ [record.stored] := by
  obtain ⟨t, hpush, ht⟩ := push_run hs hfits hstorable hsmall
  cases hcase : a.indexed with
  | false =>
    refine ⟨t, _, hpush.trans ?_, ht, fun htrue => absurd (hcase.symm.trans htrue) (by decide), rfl⟩
    rw [hs.indexed, hcase]
    rfl
  | true =>
    obtain ⟨tree, hholds⟩ := hindexed hcase
    have hsize : spoolSize (a.records ++ [record.stored]) < 2 ^ 64 := by
      rw [spoolSize_append, spoolSize_cons, recordSize_stored, spoolSize_nil]
      exact hsmall
    have hlt : ∀ offset ∈ tree.toList, offset < spoolSize a.records := fun offset hoffset =>
      lt_of_mem_offsets (hholds.perm.mem_iff.mp hoffset)
    have hkey : ∀ offset ∈ tree.toList, keyAt (a.records ++ [record.stored]) offset =
        keyAt a.records offset := by
      intro offset hoffset
      obtain ⟨other, hother⟩ := mem_offsets.mp (hholds.perm.mem_iff.mp hoffset)
      rw [keyAt_of (recordAt_push hother _), keyAt_of hother]
    -- the tree over the old records, in the longer spool
    have hholds' : Holds { a with
        node := Function.update a.node (spoolSize a.records) .single
        records := a.records ++ [record.stored] } (offsets a.records) tree := by
      refine ⟨hholds.root, hholds.stored.congr fun offset hoffset => ?_, hholds.balanced,
        hholds.perm, hholds.sorted.imp_of_mem fun hx hy hcomes => ?_⟩
      · exact update_of_ne (Nat.ne_of_lt (hlt offset hoffset)) _ _
      · rw [Comes, hkey _ hx, hkey _ hy]
        exact hcomes
    obtain ⟨b, tree', hinsert, hb, -, hholdsb, -⟩ := insertPath_does
      (show a.records ++ [record.stored] = a.records ++ record.stored :: [] from rfl) hholds' hsize
      (update_self _ _ _)
    obtain ⟨u, hrun, hu⟩ := hinsert.attempt t ht
    refine ⟨u, b, hpush.trans ?_, hu, fun _ => ⟨tree', ?_⟩, hb⟩
    · rw [hs.indexed, hcase]
      exact (bind_ok hrun).trans rfl
    · rw [hb]
      exact hholdsb

/-- A record that does not fit leaves the store as it was. -/
theorem push_too_long (h : encode record = .error error) :
    push record s = .error error s := by
  have hencode : (ofExcept (encode record) : Spooling (List UInt8)) s = .error error s := by
    rw [h]
    rfl
  exact EState.bind_error hencode

theorem push_no_room (hs : Shows s a) (hfits : record.Fits)
    (hsmall : ¬ spoolSize a.records + recordSize record < 2 ^ 64) :
    push record s = .error "record spool size overflow" s := by
  have hencode : (ofExcept (encode record) : Spooling (List UInt8)) s = .ok (body record) s := by
    rw [encode_eq hfits]
    rfl
  have hroom : decide (s.length + (body record).length + (8 + TREE_NODE_BYTES) < 2 ^ 64) = false := by
    have hlength := hs.length
    have hsize : recordSize record = (body record).length + (8 + TREE_NODE_BYTES) := rfl
    exact decide_eq_false (by omega)
  refine (bind_ok hencode).trans ((bind_ok EState.get_run).trans ?_)
  refine EState.bind_error ?_
  show EState.ensure (decide (s.length + (body record).length + (8 + TREE_NODE_BYTES) < 2 ^ 64)) _ s = _
  rw [hroom]
  rfl

end Records

/-! ## Runs -/

/-- The client's store holds the list, and its cursors stand at the offsets of
the places. -/
structure Refines (c : Client) (a : RecordList) : Prop where
  store : ∃ spool, Shows c.store spool ∧ Indexed spool ∧ spool.records = a.records
  cursor : ∀ id, a.cursor id ≤ a.records.length ∧
    c.cursor id = spoolSize (a.records.take (a.cursor id))

theorem refines_new : Refines Client.new RecordList.new where
  store := by
    refine ⟨⟨fun _ => .single, [], NO_CHILD, false⟩, ?_, (nomatch ·), rfl⟩
    exact ⟨rfl, rfl, rfl, rfl, rfl, by decide, by simp, by simp [recordAt, recordFrom]⟩
  cursor _ := ⟨Nat.le_refl _, rfl⟩

variable {c : Client}

theorem Client.call_does {α : Type} {x : Spooling α} {r : α}
    (hs : Shows c.store a) (h : Does Shows x a r b) (cursor : α → Nat → Nat) (answer : α → Answer) :
    ∃ store, c.call x cursor answer = (⟨store, cursor r⟩, answer r) ∧ Shows store b := by
  obtain ⟨store, hrun, hb⟩ := h c.store hs
  refine ⟨store, ?_, hb⟩
  rw [Client.call, hrun]

theorem spoolSize_take_update (h : SamePlace updated record) (n : Nat) :
    spoolSize ((before ++ updated :: after).take n) =
      spoolSize ((before ++ record :: after).take n) := by
  induction before generalizing n with
  | nil =>
    cases n with
    | zero => rfl
    | succ n =>
      simp only [nil_append, take_succ_cons, spoolSize_cons, h.size]
  | cons first before ih =>
    cases n with
    | zero => rfl
    | succ n => simp only [cons_append, take_succ_cons, spoolSize_cons, ih n]

variable {a : RecordList}

theorem Refines.update (h : Refines c a) {store}
    (hrecords : a.records = before ++ record :: after) (hplace : SamePlace updated record)
    (hstore : Shows store spool) (hindexed : Indexed spool)
    (hspool : spool.records = before ++ updated :: after) :
    Refines ⟨store, c.cursor⟩ { a with records := before ++ updated :: after } where
  store := ⟨spool, hstore, hindexed, hspool⟩
  cursor id := by
    obtain ⟨hle, hcursor⟩ := h.cursor id
    rw [hrecords] at hle hcursor
    refine ⟨by simpa using hle, ?_⟩
    show c.cursor id = spoolSize ((before ++ updated :: after).take (a.cursor id))
    rw [spoolSize_take_update hplace]
    exact hcursor

theorem Refines.move (h : Refines c a) {store} (hstore : Shows store spool) (hindexed : Indexed spool)
    (hspool : spool.records = a.records) (id : Nat)
    (hplace : place ≤ a.records.length) :
    Refines ⟨store, Function.update c.cursor id (spoolSize (a.records.take place))⟩
      { a with cursor := Function.update a.cursor id place } where
  store := ⟨spool, hstore, hindexed, hspool⟩
  cursor other := by
    by_cases heq : other = id
    · subst heq
      simp only [update_self]
      exact ⟨hplace, trivial⟩
    · simp only [update_of_ne heq]
      exact h.cursor other

theorem Refines.same (h : Refines c a) {store} (hstore : Shows store spool) (hindexed : Indexed spool)
    (hspool : spool.records = a.records) : Refines ⟨store, c.cursor⟩ a where
  store := ⟨spool, hstore, hindexed, hspool⟩
  cursor := h.cursor

theorem split_at {place hlt} (h : records[place] = record) :
    records = records.take place ++ record :: records.drop (place + 1) := by
  rw [← h, getElem_cons_drop, take_append_drop]

theorem spoolSize_take_succ
    {hlt} (h : records[place] = record) :
    spoolSize (records.take (place + 1)) = spoolSize (records.take place) + recordSize record := by
  rw [take_succ_eq_append_getElem hlt, spoolSize_append, h]
  rfl

/-- **One request**: the client sees what happens to the list. -/
theorem refines_step (h : Refines c a) (request : Request) (hstorable : request.Storable) :
    Refines (c.step request).1 (a.step request).1 ∧ (c.step request).2 = (a.step request).2 := by
  obtain ⟨spool, hs, hindexed, hspool⟩ := h.store
  have hsmall := hs.small
  cases request with
  | push record =>
    by_cases hfits : record.Fits
    · have hencode := encode_eq hfits
      by_cases hroom : spoolSize a.records + recordSize record < 2 ^ 64
      · rw [← hspool] at hroom
        obtain ⟨store, spool', hpush, hstore, hindexed', hrecords⟩ :=
          Records.push_does hs hindexed hfits hstorable hroom
        rw [hspool] at hroom
        simp only [Client.step, Client.call, hpush, RecordList.step, hencode, if_pos hroom]
        refine ⟨⟨⟨spool', hstore, hindexed', by rw [hrecords, hspool]⟩, fun id => ?_⟩, trivial⟩
        obtain ⟨hle, hcursor⟩ := h.cursor id
        refine ⟨?_, ?_⟩
        · rw [length_append]
          exact Nat.le_add_right_of_le hle
        · rw [take_append_of_le_length hle]
          exact hcursor
      · have hfull := Records.push_no_room hs hfits (by rwa [hspool])
        simp only [Client.step, Client.call, hfull, RecordList.step, hencode, if_neg hroom]
        exact ⟨h, trivial⟩
    · obtain ⟨error, herror⟩ := encode_error hfits
      have hfailed := Records.push_too_long (s := c.store) herror
      simp only [Client.step, Client.call, hfailed, RecordList.step, herror]
      exact ⟨h, trivial⟩
  | find path =>
    obtain ⟨b, hfind, hb, hbindexed⟩ := Records.find_does path hindexed hsmall
    obtain ⟨store, hcall, hstore⟩ := Client.call_does hs hfind (fun _ => c.cursor) .found
    rw [Client.step, RecordList.step, hcall, hspool]
    exact ⟨h.same hstore hbindexed (hb.trans hspool), rfl⟩
  | setOutput path output =>
    rw [Client.step, RecordList.step, RecordList.setFirst]
    rcases first_cases a.records path with hnone | ⟨before, record, after, hrecords, hat, hbefore⟩
    · obtain ⟨store, b, hmissing, hstore, hb, hbindexed⟩ := Records.findPresent_missing
        "output record not found" hs hindexed (by rwa [hspool])
      have hfailed : Records.setOutput path output c.store = .error "output record not found" store :=
        EState.bind_error hmissing
      rw [Client.call, hfailed, updateFirst_none hnone]
      exact ⟨h.same hstore hbindexed (hb.trans hspool), rfl⟩
    · rw [← hspool] at hrecords
      have hkept := hs.kept record (by rw [hrecords]; simp)
      obtain ⟨b, hset, hbindexed, hb⟩ := Records.setOutput_does hindexed hsmall hrecords hkept hat
        hbefore hstorable
      obtain ⟨store, hcall, hstore⟩ := Client.call_does hs hset (fun _ => c.cursor) fun _ => .done
      rw [hspool] at hrecords
      rw [hcall, hrecords, updateFirst_append hbefore hat]
      exact ⟨h.update hrecords (hkept.withOutput hstorable).2 hstore hbindexed hb, rfl⟩
  | setFinalFlags path flags =>
    rw [Client.step, RecordList.step, RecordList.setFirst]
    rcases first_cases a.records path with hnone | ⟨before, record, after, hrecords, hat, hbefore⟩
    · obtain ⟨store, b, hmissing, hstore, hb, hbindexed⟩ := Records.findPresent_missing
        "final metadata record not found" hs hindexed (by rwa [hspool])
      have hfailed : Records.setFinalFlags path flags c.store =
          .error "final metadata record not found" store := EState.bind_error hmissing
      rw [Client.call, hfailed, updateFirst_none hnone]
      exact ⟨h.same hstore hbindexed (hb.trans hspool), rfl⟩
    · rw [← hspool] at hrecords
      have hkept := hs.kept record (by rw [hrecords]; simp)
      obtain ⟨b, hset, hbindexed, hb⟩ := Records.setFinalFlags_does flags hindexed hsmall hrecords
        hkept hat hbefore
      obtain ⟨store, hcall, hstore⟩ := Client.call_does hs hset (fun _ => c.cursor) fun _ => .done
      rw [hspool] at hrecords
      rw [hcall, hrecords, updateFirst_append hbefore hat]
      exact ⟨h.update hrecords (hkept.withFlags flags).2 hstore hbindexed hb, rfl⟩
  | toStart id =>
    exact ⟨h.move hs hindexed hspool id (Nat.zero_le _), rfl⟩
  | toEnd id =>
    have hmove := h.move hs hindexed hspool id (Nat.le_refl _)
    have hend : spoolSize (a.records.take a.records.length) = c.store.length := by
      rw [take_length, ← hspool, hs.length]
    rw [hend] at hmove
    exact ⟨hmove, rfl⟩
  | next id =>
    obtain ⟨hle, hcursor⟩ := h.cursor id
    rw [Client.step, RecordList.step]
    cases hat : a.records[a.cursor id]? with
    | none =>
      have hdone : a.cursor id = a.records.length :=
        Nat.le_antisymm hle (List.getElem?_eq_none_iff.mp hat)
      have hend : c.cursor id = spoolSize spool.records := by
        rw [hcursor, hdone, take_length, hspool]
      obtain ⟨store, hcall, hstore⟩ := Client.call_does hs (Records.next_end (a := spool))
        (fun found => Function.update c.cursor id found.2) fun found => .found found.1
      rw [← hend, update_eq_self] at hcall
      rw [hcall]
      exact ⟨h.same hstore hindexed hspool, rfl⟩
    | some record =>
      obtain ⟨hlt, hget⟩ := List.getElem?_eq_some_iff.mp hat
      have hsplit := split_at hget
      have hrecord : recordAt spool.records (c.cursor id) = some record := by
        rw [hspool, hcursor, hsplit, take_left' (length_take_of_le hle)]
        exact recordAt_append _ _ _
      obtain ⟨store, hcall, hstore⟩ := Client.call_does hs (Records.next_does hrecord)
        (fun found => Function.update c.cursor id found.2) fun found => .found found.1
      have hmove := h.move hstore hindexed hspool id hlt
      rw [spoolSize_take_succ hget, ← hcursor] at hmove
      rw [hcall]
      exact ⟨hmove, rfl⟩
  | previous id =>
    obtain ⟨hle, hcursor⟩ := h.cursor id
    rw [Client.step, RecordList.step]
    by_cases hzero : a.cursor id = 0
    · have hstart : c.cursor id = 0 := by
        rw [hcursor, hzero]
        rfl
      obtain ⟨store, hcall, hstore⟩ := Client.call_does hs (Records.previous_start (a := spool))
        (fun found => Function.update c.cursor id found.2) fun found => .found found.1
      have hsame : Function.update c.cursor id 0 = c.cursor := by
        rw [← hstart, update_eq_self]
      rw [hstart, if_pos hzero, hcall]
      show Refines ⟨store, Function.update c.cursor id 0⟩ a ∧ _
      rw [hsame]
      exact ⟨h.same hstore hindexed hspool, rfl⟩
    · have hlt : a.cursor id - 1 < a.records.length := by omega
      have hget : a.records[a.cursor id - 1] = a.records[a.cursor id - 1] := rfl
      have hback : a.cursor id - 1 + 1 = a.cursor id := by omega
      have hsplit := hspool.trans (split_at hget)
      have hsize := spoolSize_take_succ hget
      rw [hback, ← hcursor] at hsize
      obtain ⟨store, hcall, hstore⟩ := Client.call_does hs (Records.previous_does hsplit)
        (fun found => Function.update c.cursor id found.2) fun found => .found found.1
      rw [← hsize] at hcall
      have hmove := h.move hstore hindexed hspool id (Nat.le_of_lt hlt)
      rw [if_neg hzero, hcall, getElem?_eq_getElem hlt]
      exact ⟨hmove, rfl⟩

/-- **Any run of requests** answers as the list does. -/
theorem refines_run (h : Refines c a) (requests : List Request)
    (hstorable : ∀ request ∈ requests, request.Storable) :
    Refines (c.run requests).1 (a.run requests).1 ∧ (c.run requests).2 = (a.run requests).2 := by
  induction requests generalizing c a with
  | nil => exact ⟨h, rfl⟩
  | cons request requests ih =>
    obtain ⟨hstep, hanswer⟩ := refines_step h request (hstorable request mem_cons_self)
    obtain ⟨hrun, hanswers⟩ :=
      ih hstep fun other hother => hstorable other (mem_cons_of_mem _ hother)
    refine ⟨hrun, ?_⟩
    rw [Client.run, RecordList.run, hanswer, hanswers]

/-! ## The file of a reachable store -/

/-- The node the file holds at an offset. -/
def Records.nodeIn (s : Records) (offset : Nat) : TreeNode :=
  Records.decodeNode ((s.file.bytes.drop (offset + 4)).take TREE_NODE_BYTES)

theorem Shows.nodeIn {s a} (h : Shows s a)
    (hrecord : recordAt a.records offset = some record) : s.nodeIn offset = a.node offset := by
  obtain ⟨before, after, -, hoffset, hbytes⟩ := h.around hrecord
  have hskip : s.file.bytes.drop (offset + 4) = Records.nodeBytes (a.node offset) ++ (body record ++
      (LittleEndian.u32 (UInt32.ofNat (body record).length) ++
        layout a.node (spoolSize before + recordSize record) after)) := by
    rw [hbytes, ← drop_drop, drop_left' (by rw [length_layout, hoffset])]
    exact drop_left' (LittleEndian.length_u32 _)
  rw [Records.nodeIn, hskip, take_left' (length_nodeBytes _)]
  exact decodeNode_nodeBytes (Nat.le_of_lt h.small) (h.good offset record hrecord)

/-- The tree in the file: balanced, with its heights, and in order over the
records by path and, for equal paths, in push order. -/
structure Records.HoldsTree (s : Records) (records : List Record) (t : AvlTree Nat) : Prop where
  root : s.root = rootOf t
  stored : Stored s.nodeIn t
  balanced : t.Balanced
  all : t.toList.Perm (offsets records)
  sorted : t.toList.Pairwise (Comes records)

theorem Refines.holdsTree (h : Refines c a)
    (hindexed : c.store.indexed = true) : ∃ t, c.store.HoldsTree a.records t := by
  obtain ⟨spool, hs, htree, hspool⟩ := h.store
  obtain ⟨t, ht⟩ := htree (hs.indexed.symm.trans hindexed)
  rw [← hspool]
  refine ⟨t, hs.root.trans ht.root, ht.stored.congr fun offset hoffset => ?_, ht.balanced, ht.perm,
    ht.sorted⟩
  obtain ⟨record, hrecord⟩ := mem_offsets.mp (ht.perm.mem_iff.mp hoffset)
  exact hs.nodeIn hrecord

theorem Refines.file_length (h : Refines c a) :
    c.store.file.bytes.length = spoolSize a.records := by
  obtain ⟨spool, hs, -, hspool⟩ := h.store
  rw [hs.bytes, length_layout, hspool]

theorem spoolSize_updateFirst
    (hsize : ∀ record, recordSize (f record) = recordSize record) {records updated}
    (h : updateFirst p f records = some updated) : spoolSize updated = spoolSize records := by
  induction records generalizing updated with
  | nil => cases h
  | cons record records ih =>
    rw [updateFirst] at h
    split at h
    · cases h
      rw [spoolSize_cons, spoolSize_cons, hsize]
    · obtain ⟨rest, hrest, rfl⟩ := Option.map_eq_some_iff.mp h
      rw [spoolSize_cons, spoolSize_cons, ih hrest]

theorem RecordList.spoolSize_setFirst (a : RecordList) (path : Path)
    (hsize : ∀ record, recordSize (f record) = recordSize record) (missing : Invalid) :
    spoolSize (a.setFirst path f missing).1.records = spoolSize a.records := by
  rw [RecordList.setFirst]
  cases h : updateFirst (Record.at path) f a.records with
  | none => rfl
  | some updated => exact spoolSize_updateFirst hsize h

theorem RecordList.spoolSize_step (a : RecordList)
    (h : request.isPush = false) : spoolSize (a.step request).1.records = spoolSize a.records := by
  cases request with
  | push record => cases h
  | find path => rfl
  | setOutput path output =>
    exact a.spoolSize_setFirst path (fun record => recordSize_output record _) _
  | setFinalFlags path flags =>
    exact a.spoolSize_setFirst path (fun record => recordSize_flags record _) _
  | toStart id => rfl
  | toEnd id => rfl
  | next id =>
    rw [RecordList.step]
    cases a.records[a.cursor id]? <;> rfl
  | previous id =>
    rw [RecordList.step]
    by_cases hzero : a.cursor id = 0
    · rw [if_pos hzero]
    · rw [if_neg hzero]

/-! ## The store of a run -/

/-- **The record spool refines a list**: a run of requests, none of which writes
a path with a NUL or a second's worth of nanoseconds, is answered as the list
answers it, so that no error but the list's own comes up; a walk over the store
gives the records forwards and backwards; the file has the records' length, which
only a push changes; and an indexed file holds a balanced search tree over all
records, equal paths in push order. -/
theorem records_refine_list (requests : List Request)
    (hstorable : ∀ request ∈ requests, request.Storable) :
    let client := (Client.new.run requests).1
    let list := (RecordList.new.run requests).1
    (Client.new.run requests).2 = (RecordList.new.run requests).2 ∧
      (∀ error, .failed error ∈ (Client.new.run requests).2 → error ∈ refusals) ∧
      (∀ id, (client.run (.toStart id :: List.replicate list.records.length (.next id))).2 =
        .done :: list.records.map (fun record => .found (some record))) ∧
      (∀ id, (client.run (.toEnd id :: List.replicate list.records.length (.previous id))).2 =
        .done :: list.records.reverse.map (fun record => .found (some record))) ∧
      client.store.file.bytes.length = spoolSize list.records ∧
      (∀ request : Request, request.Storable → request.isPush = false →
        (client.step request).1.store.file.bytes.length = client.store.file.bytes.length) ∧
      (client.store.indexed = true → ∃ t, client.store.HoldsTree list.records t) := by
  obtain ⟨hrefines, hanswers⟩ := refines_run refines_new requests hstorable
  refine ⟨hanswers, ?_, fun id => ?_, fun id => ?_, hrefines.file_length, ?_, hrefines.holdsTree⟩
  · intro error herror
    rw [hanswers] at herror
    exact RecordList.run_refusal herror
  · rw [(refines_run hrefines _ (by simp [Request.Storable])).2]
    have hwalk := RecordList.run_forward
      ((RecordList.new.run requests).1.step (.toStart id)).1 id
      (RecordList.new.run requests).1.records.length (by
        simp only [RecordList.step, update_self]
        rfl)
    simp only [RecordList.step, update_self, drop_zero] at hwalk
    exact congrArg (_ :: ·) hwalk
  · rw [(refines_run hrefines _ (by simp [Request.Storable])).2]
    have hwalk := RecordList.run_reverse
      ((RecordList.new.run requests).1.step (.toEnd id)).1 id (by
        simp only [RecordList.step, update_self]
        exact Nat.le_refl _)
    simp only [RecordList.step, update_self, take_length] at hwalk
    exact congrArg (_ :: ·) hwalk
  · intro request hrequest hpush
    rw [(refines_step hrefines request hrequest).1.file_length, hrefines.file_length]
    exact RecordList.spoolSize_step _ hpush

/-! A lookup sees what is written, and the first of two records of a path. -/

def exampleTime : Timestamp := ⟨-1, 2⟩

def exampleIdentity (kind : EntryKind) : Identity := ⟨⟨2, 8⟩, kind⟩

def exampleObservation (size : UInt64) (kind : EntryKind) : Observation :=
  ⟨exampleIdentity kind, size, 0o100644, 1, 2, 3, exampleTime, exampleTime, exampleTime⟩

/-- A record at the path `d`, of the given size and kind. -/
def exampleRecord (size : UInt64) (kind : EntryKind) : Record :=
  { source := [0x64], destination := [0x65], observed := exampleObservation size kind
    published := exampleIdentity kind, output := none, parent := none, anchor := none
    ancestry := [], final_flags := 0 }

theorem records_refine_list_duplicate :
    (Client.new.run [.push (exampleRecord 11 .RegularFile), .push (exampleRecord 22 .RegularFile),
      .setFinalFlags [0x64] 0x55aa, .find [0x64, 0x2f]]).2 =
      [.done, .done, .done,
        .found (some { exampleRecord 11 .RegularFile with final_flags := 0x55aa })] :=
  (records_refine_list _ (by
    have htime : exampleTime.Valid := by decide
    have h : ∀ size, (exampleRecord size .RegularFile).Storable := fun size =>
      ⟨show (0 : UInt8) ∉ [0x64] by decide, show (0 : UInt8) ∉ [0x65] by decide,
        ⟨htime, htime, htime⟩, by simp [exampleRecord]⟩
    simp [Request.Storable, h])).1.trans (by decide +kernel)

/-- An identity of kind `Root` comes back as one of kind `Other`. -/
theorem root_kind_not_kept :
    (Client.new.run [.push (exampleRecord 11 .Root), .find [0x64]]).2 ≠
      [.done, .found (some (exampleRecord 11 .Root))] := by
  decide +kernel

end Ish.Fs
