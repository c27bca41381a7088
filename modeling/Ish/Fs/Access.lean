import Ish.Fs.Layout

/-!
# Access to the spool

`Shows` says that a store stands for a spool. One rule for each access of the
code: a node is read, a node is written, the cursor moves over a record either
way, a field of a record is overwritten, a record is appended.
-/

namespace Ish.Fs

open Ish.Lib List Function LittleEndian
open EState
open UnixPath (Path)

/-- The store `s` holds the spool `a`. -/
structure Shows (s : Records) (a : Spool) : Prop where
  bytes : s.file.bytes = layout a.node 0 a.records
  length : s.length = spoolSize a.records
  count : s.record_count = a.records.length
  root : s.root = a.root
  indexed : s.indexed = a.indexed
  small : spoolSize a.records < 2 ^ 64
  kept : ∀ record ∈ a.records, record.Kept
  good : ∀ offset record, recordAt a.records offset = some record →
    Good (spoolSize a.records) (a.node offset)

/-- The store with the descriptor at `position`. -/
def Records.at (s : Records) (position : Nat) : Records :=
  { s with file := { s.file with position } }

variable {a : Spool}

theorem Shows.at (h : Shows s a) (position : Nat) : Shows (s.at position) a :=
  ⟨h.bytes, h.length, h.count, h.root, h.indexed, h.small, h.kept, h.good⟩

variable {record : Record} {offset : Nat}

theorem Shows.around (h : Shows s a)
    (hrecord : recordAt a.records offset = some record) :
    ∃ before after, a.records = before ++ record :: after ∧ offset = spoolSize before ∧
      s.file.bytes = layout a.node 0 before ++
        (u32 (UInt32.ofNat (body record).length) ++
          (Records.nodeBytes (a.node offset) ++ (body record ++
            (u32 (UInt32.ofNat (body record).length) ++
              layout a.node (spoolSize before + recordSize record) after)))) := by
  obtain ⟨before, after, hrecords, hoffset⟩ := recordAt_eq_some.mp hrecord
  refine ⟨before, after, hrecords, hoffset, ?_⟩
  rw [h.bytes, hrecords, layout_split, hoffset]
  simp only [frame, append_assoc]

namespace Records

variable {s : Records}

theorem seek_run (position : Nat) : seek position s = .ok () (s.at position) := rfl

theorem readExact_run {before read after count position}
    (h : s.file.bytes = before ++ (read ++ after)) (hposition : position = before.length)
    (hcount : count = read.length) :
    readExact count (s.at position) = .ok read (s.at (position + count)) := by
  subst hposition hcount
  have hroom : before.length + read.length ≤ s.file.bytes.length := by
    rw [h, length_append, length_append]
    omega
  have hread : ((s.at before.length).file.bytes.drop (s.at before.length).file.position).take
      read.length = read := by
    have hbytes : (s.at before.length).file.bytes = before ++ (read ++ after) := h
    rw [hbytes]
    exact (congrArg _ (drop_left' rfl)).trans (take_left' rfl)
  rw [readExact, hread]
  exact if_pos hroom

theorem readLength_run {before after} {length position : Nat}
    (h : s.file.bytes = before ++ (u32 (UInt32.ofNat length) ++ after))
    (hposition : position = before.length) (hlength : length ≤ MAX_RECORD) :
    readLength (s.at position) = .ok length (s.at (position + 4)) := by
  have hvalue : (toU32 (u32 (UInt32.ofNat length))).toNat = length := by
    have hmax : length ≤ 1048576 := hlength
    rw [toU32_u32, UInt32.toNat_ofNat', Nat.mod_eq_of_lt (by omega)]
  refine (bind_ok (readExact_run h hposition (length_u32 _).symm)).trans ?_
  rw [hvalue]
  exact (bind_ok (ensure_run _ (decide_eq_true hlength))).trans rfl

theorem writeAll_run {before old bytes after position}
    (h : s.file.bytes = before ++ (old ++ after)) (hposition : position = before.length)
    (hlength : old.length = bytes.length) :
    writeAll bytes (s.at position) = .ok ()
      { s with file := ⟨before ++ (bytes ++ after), position + bytes.length⟩ } := by
  subst hposition
  have htake : s.file.bytes.take before.length = before := by
    rw [h]
    exact take_left' rfl
  have hdrop : s.file.bytes.drop (before.length + bytes.length) = after := by
    rw [h, ← drop_drop, drop_left' rfl]
    exact drop_left' hlength
  have hpad : before.length - s.file.bytes.length = 0 := by
    rw [h, length_append]
    omega
  rw [writeAll, modify_run]
  simp only [Records.at, htake, hdrop, hpad, replicate_zero, append_nil,
    append_assoc]

/-! ## Nodes -/

theorem readNode_does (h : recordAt a.records offset = some record) :
    Does Shows (readNode offset) a (a.node offset) a := by
  intro s hs
  have hlt := recordAt_lt h
  have hsize := recordSize_ge record
  have hsmall := hs.small
  have hgood := hs.good offset record h
  obtain ⟨before, after, hrecords, hoffset, hbytes⟩ := hs.around h
  rw [← append_assoc] at hbytes
  have hposition : offset + 4 = (layout a.node 0 before ++
      u32 (UInt32.ofNat (body record).length)).length := by
    rw [length_append, length_layout, length_u32, hoffset]
  have hdecode := decodeNode_nodeBytes (Nat.le_of_lt hs.small) hgood
  refine ⟨s.at (offset + 4 + TREE_NODE_BYTES), ?_, hs.at _⟩
  refine (bind_ok get_run).trans ?_
  refine (bind_ok (ensure_run _ (decide_eq_true (by rw [hs.length]; omega)))).trans ?_
  refine (bind_ok (ensure_run _ (decide_eq_true (by omega)))).trans ?_
  refine (bind_ok (seek_run _)).trans ?_
  refine (bind_ok (readExact_run hbytes hposition (length_nodeBytes _).symm)).trans ?_
  rw [hdecode, hs.length]
  exact (bind_ok (ensure_run _ hgood)).trans rfl

end Records

/-- The spool with another node at an offset. -/
def Spool.setNode (a : Spool) (offset : Nat) (node : TreeNode) : Spool :=
  { a with node := Function.update a.node offset node }

@[simp] theorem Spool.setNode_records (a : Spool) (offset : Nat) (node : TreeNode) :
    (a.setNode offset node).records = a.records := rfl

@[simp] theorem Spool.setNode_self (a : Spool) (offset : Nat) (node : TreeNode) :
    (a.setNode offset node).node offset = node := update_self ..

theorem Spool.setNode_of_ne (a : Spool) (node : TreeNode)
    (h : other ≠ offset) : (a.setNode offset node).node other = a.node other :=
  update_of_ne h _ _

namespace Records

theorem writeNode_does {node}
    (h : recordAt a.records offset = some record) (hnode : Good (spoolSize a.records) node) :
    Does Shows (writeNode offset node) a () (a.setNode offset node) := by
  intro s hs
  have hlt := recordAt_lt h
  have hsize := recordSize_ge record
  have hsmall := hs.small
  obtain ⟨before, after, hrecords, hoffset, hbytes⟩ := hs.around h
  rw [← append_assoc] at hbytes
  have hposition : offset + 4 = (layout a.node 0 before ++
      u32 (UInt32.ofNat (body record).length)).length := by
    rw [length_append, length_layout, length_u32, hoffset]
  have hbefore : layout (a.setNode offset node).node 0 before = layout a.node 0 before :=
    layout_congr fun other _ hother => a.setNode_of_ne node (by omega)
  have hafter : layout (a.setNode offset node).node (spoolSize before + recordSize record) after =
      layout a.node (spoolSize before + recordSize record) after :=
    layout_congr fun other hother _ => a.setNode_of_ne node (by omega)
  have hwrite : writeAll (nodeBytes node) (s.at (offset + 4)) = .ok () _ :=
    writeAll_run hbytes hposition (by rw [length_nodeBytes, length_nodeBytes])
  refine ⟨_, (bind_ok (ensure_run _ (decide_eq_true (by omega)))).trans
    ((bind_ok (seek_run _)).trans hwrite), ?_, hs.length, hs.count, hs.root, hs.indexed, hs.small,
    hs.kept, ?_⟩
  · rw [a.setNode_records, hrecords, layout_split, hbefore, hafter, ← hoffset, a.setNode_self]
    simp only [frame, append_assoc]
  · intro other otherRecord hother
    by_cases heq : other = offset
    · subst heq
      rw [a.setNode_self]
      exact hnode
    · rw [a.setNode_of_ne node heq]
      exact hs.good other otherRecord hother

/-! ## Iteration -/

theorem next_run (hs : Shows s a) (h : recordAt a.records offset = some record) :
    next offset s = .ok (some record, offset + recordSize record)
      (s.at (offset + recordSize record)) := by
  have hlt := recordAt_lt h
  have hsize := recordSize_ge record
  have hgood := hs.good offset record h
  have hdecode := decodeNode_nodeBytes (Nat.le_of_lt hs.small) hgood
  obtain ⟨before, after, hrecords, hoffset, hbytes⟩ := hs.around h
  have hkept := hs.kept record (by rw [hrecords]; simp)
  have hbody : decode (body record) = .ok record := by
    have hdecoded := decode_body hkept.fits hkept.storable
    rwa [hkept.stored] at hdecoded
  have hne : ¬ offset = s.length := by
    rw [hs.length]
    omega
  have hroom : (body record).length + 8 + TREE_NODE_BYTES ≤ s.length - offset := by
    rw [recordSize] at hlt
    rw [hs.length]
    omega
  have hmax : (body record).length ≤ MAX_RECORD := hkept.fits
  -- the four reads, one after the other
  have hsecond := hbytes
  rw [← append_assoc] at hsecond
  have hthird := hsecond
  rw [← append_assoc] at hthird
  have hfourth := hthird
  rw [← append_assoc] at hfourth
  have hlengths : (nodeBytes (a.node offset)).length = TREE_NODE_BYTES := length_nodeBytes _
  refine (bind_ok get_run).trans ((congrFun (if_neg hne) s).trans ?_)
  refine (bind_ok (ensure_run _ (decide_eq_true (by rw [hs.length]; omega)))).trans ?_
  refine (bind_ok (seek_run _)).trans ?_
  refine (bind_ok (readLength_run hbytes (by rw [length_layout, hoffset]) hmax)).trans ?_
  refine (bind_ok (ensure_run _ (decide_eq_true hroom))).trans ?_
  refine (bind_ok (readExact_run hsecond (by simp [hoffset]) hlengths.symm)).trans ?_
  rw [hdecode, hs.length]
  refine (bind_ok (ensure_run _ hgood)).trans ?_
  refine (bind_ok (readExact_run hthird (by simp [hoffset, Nat.add_assoc]) rfl)).trans ?_
  refine (bind_ok (readLength_run hfourth (by simp [hoffset, Nat.add_assoc]) hmax)).trans ?_
  refine (bind_ok (ensure_run _ (decide_eq_true rfl))).trans ?_
  rw [hbody]
  have hfinish : offset + 4 + TREE_NODE_BYTES + (body record).length + 4 =
      offset + recordSize record := by
    rw [recordSize]
    omega
  have hcursor : offset + ((body record).length + 8 + TREE_NODE_BYTES) =
      offset + recordSize record := by
    rw [recordSize]
    omega
  rw [hfinish, hcursor]
  rfl

theorem next_does (h : recordAt a.records offset = some record) :
    Does Shows (next offset) a (some record, offset + recordSize record) a :=
  fun _ hs => ⟨_, next_run hs h, hs.at _⟩

theorem nextPresent_does (missing : Invalid) (h : recordAt a.records offset = some record) :
    Does Shows (nextPresent missing offset) a (record, offset + recordSize record) a :=
  (next_does h).bind (Does.pure _)

theorem next_end : Does Shows (next (spoolSize a.records)) a (none, spoolSize a.records) a := by
  intro s hs
  refine ⟨s, ?_, hs⟩
  exact (bind_ok get_run).trans (congrFun (if_pos hs.length.symm) s)

theorem previous_does {before after}
    (hrecords : a.records = before ++ record :: after) :
    Does Shows (previous (spoolSize before + recordSize record)) a
      (some record, spoolSize before) a := by
  intro s hs
  have h : recordAt a.records (spoolSize before) = some record := by
    rw [hrecords]
    exact recordAt_append before record after
  have hlt := recordAt_lt h
  have hsize := recordSize_ge record
  have hkept := hs.kept record (by rw [hrecords]; simp)
  have hmax : (body record).length ≤ MAX_RECORD := hkept.fits
  have hbytes : s.file.bytes = (layout a.node 0 before ++
      (u32 (UInt32.ofNat (body record).length) ++
        (nodeBytes (a.node (spoolSize before)) ++ body record))) ++
      (u32 (UInt32.ofNat (body record).length) ++
        layout a.node (spoolSize before + recordSize record) after) := by
    rw [hs.bytes, hrecords, layout_split]
    simp only [frame, append_assoc]
  have hposition : spoolSize before + recordSize record - 4 = (layout a.node 0 before ++
      (u32 (UInt32.ofNat (body record).length) ++
        (nodeBytes (a.node (spoolSize before)) ++ body record))).length := by
    simp [recordSize]
    omega
  have hstart : spoolSize before + recordSize record -
      ((body record).length + 8 + TREE_NODE_BYTES) = spoolSize before := by
    rw [recordSize]
    omega
  have hnext := next_run (hs.at (spoolSize before + recordSize record - 4 + 4)) h
  have hnonzero : ¬ spoolSize before + recordSize record = 0 := by omega
  refine ⟨_, (bind_ok get_run).trans ((congrFun (if_neg hnonzero) s).trans ?_),
    hs.at (spoolSize before + recordSize record)⟩
  refine (bind_ok (ensure_run _ (decide_eq_true ⟨by omega, by rw [hs.length]; omega⟩))).trans
    ?_
  refine (bind_ok (seek_run _)).trans ?_
  refine (bind_ok (readLength_run hbytes hposition hmax)).trans ?_
  refine (bind_ok (ensure_run _ (decide_eq_true (by rw [recordSize]; omega)))).trans ?_
  rw [hstart]
  refine (bind_ok hnext).trans ?_
  exact (bind_ok (ensure_run _ (decide_eq_true rfl))).trans rfl

theorem previous_start : Does Shows (previous 0) a (none, 0) a :=
  fun s hs => ⟨s, rfl, hs⟩

/-! ## Fields -/

/-- **A write inside a body** gives the record that has the new bytes. -/
theorem writeField_does {before after record updated}
    {front old new back} (hrecords : a.records = before ++ record :: after)
    (hkept : updated.Kept) (hold : body record = front ++ (old ++ back))
    (hnew : body updated = front ++ (new ++ back)) (hlength : old.length = new.length)
    {position} (hposition : position = spoolSize before + (4 + TREE_NODE_BYTES) + front.length) :
    Does Shows (seek position >>= fun _ => writeAll new) a ()
      { a with records := before ++ updated :: after } := by
  intro s hs
  have hbody : (body updated).length = (body record).length := by
    rw [hold, hnew]
    simp only [length_append, hlength]
  have hsize : recordSize updated = recordSize record := by rw [recordSize, recordSize, hbody]
  have hspool : spoolSize (before ++ updated :: after) = spoolSize a.records := by
    rw [hrecords, spoolSize_append, spoolSize_append, spoolSize_cons, spoolSize_cons, hsize]
  have hbytes : s.file.bytes = (layout a.node 0 before ++
      (u32 (UInt32.ofNat (body record).length) ++
        (nodeBytes (a.node (spoolSize before)) ++ front))) ++
      (old ++ (back ++ (u32 (UInt32.ofNat (body record).length) ++
        layout a.node (spoolSize before + recordSize record) after))) := by
    rw [hs.bytes, hrecords, layout_split, frame]
    simp only [hold, append_assoc]
  have hwrite : writeAll new (s.at position) = .ok () _ :=
    writeAll_run hbytes (by rw [hposition]; simp; omega) hlength
  refine ⟨_, (bind_ok (seek_run _)).trans hwrite, ?_, ?_, ?_, hs.root, hs.indexed, ?_, ?_, ?_⟩
  · rw [layout_split, frame, hbody, hsize, hnew]
    simp only [append_assoc]
  · exact hs.length.trans hspool.symm
  · refine hs.count.trans ?_
    simp [hrecords]
  · rw [hspool]
    exact hs.small
  · intro other hother
    rcases mem_append.mp hother with hmem | hmem
    · exact hs.kept other (by rw [hrecords]; exact mem_append_left _ hmem)
    · rcases mem_cons.mp hmem with rfl | hmem
      · exact hkept
      · exact hs.kept other (by
          rw [hrecords]
          exact mem_append_right _ (mem_cons_of_mem _ hmem))
  · intro other otherRecord hother
    have hmem := mem_offsets.mpr ⟨otherRecord, hother⟩
    rw [offsets_update hsize, ← hrecords] at hmem
    obtain ⟨original, horiginal⟩ := mem_offsets.mp hmem
    rw [hspool]
    exact hs.good other original horiginal

/-! ## The end -/

/-- The store with these bytes in the file and the descriptor behind them. -/
def holding (s : Records) (bytes : List UInt8) : Records := { s with file := ⟨bytes, bytes.length⟩ }

variable {s : Records}

theorem writeAll_holding (before bytes : List UInt8) :
    writeAll bytes (s.holding before) = .ok () (s.holding (before ++ bytes)) := by
  have hdrop : before.drop (before.length + bytes.length) = [] :=
    drop_eq_nil_of_le (Nat.le_add_right _ _)
  rw [writeAll, modify_run]
  simp only [holding, take_length, Nat.sub_self, replicate_zero, append_nil, hdrop,
    length_append]

theorem writeNode_holding (node : TreeNode)
    (hoffset : offset + 4 = before.length) (hsmall : before.length < 2 ^ 64) :
    writeNode offset node (s.holding before) = .ok () (s.holding (before ++ nodeBytes node)) := by
  refine (bind_ok (ensure_run _ (decide_eq_true (by omega)))).trans ?_
  rw [hoffset]
  exact (bind_ok (seek_run _)).trans (writeAll_holding before _)

/-- What `push` leaves before it comes to the tree: the record as it is stored,
at the end, with a node of its own. -/
theorem push_run (hs : Shows s a)
    (hfits : record.Fits) (hstorable : record.Storable)
    (hsmall : spoolSize a.records + recordSize record < 2 ^ 64) :
    ∃ t, push record s =
        (if s.indexed then indexPushed (spoolSize a.records) record.source else pure ()) t ∧
      Shows t { a with
        node := Function.update a.node (spoolSize a.records) .single
        records := a.records ++ [record.stored] } := by
  have hmax : (body record).length ≤ 1048576 := hfits
  have hsize : recordSize record = (body record).length + (8 + TREE_NODE_BYTES) := rfl
  have hcount := length_le_spoolSize a.records
  have hlength := hs.length
  have hrecords := hs.count
  have hencode : (ofExcept (encode record) : Spooling (List UInt8)) s = .ok (body record) s := by
    rw [encode_eq hfits]
    rfl
  have hposition : s.at s.length = s.holding s.file.bytes := by
    rw [hlength, ← length_layout a.node 0, ← hs.bytes]
    rfl
  have hstart : s.file.bytes.length = spoolSize a.records := by rw [hs.bytes, length_layout]
  let file := s.file.bytes
  let word := u32 (UInt32.ofNat (body record).length)
  have hword : word.length = 4 := length_u32 _
  have hlayout : file ++ word ++ nodeBytes .single ++ body record ++ word =
      file ++ frame .single record := by
    simp only [frame, append_assoc, word]
  have hnode : writeNode s.length .single (s.holding (file ++ word)) =
      .ok () (s.holding (file ++ word ++ nodeBytes .single)) :=
    writeNode_holding .single (by rw [length_append, hstart, hword, hlength])
      (by rw [length_append, hstart, hword]; omega)
  refine ⟨{ s.holding (file ++ frame .single record) with
      length := s.length + (body record).length + (8 + TREE_NODE_BYTES)
      record_count := s.record_count + 1 }, ?_, ?_⟩
  · refine (bind_ok hencode).trans ((bind_ok get_run).trans ?_)
    refine (bind_ok (ensure_run _ (decide_eq_true (by omega)))).trans ?_
    refine (bind_ok (ensure_run _ (decide_eq_true (by omega)))).trans ?_
    refine (bind_ok (seek_run _)).trans ?_
    refine (bind_ok (ensure_run _ (decide_eq_true (by omega)))).trans ?_
    rw [hposition]
    refine (bind_ok (writeAll_holding _ word)).trans ?_
    refine (bind_ok hnode).trans ?_
    refine (bind_ok (writeAll_holding _ _)).trans ?_
    refine (bind_ok (writeAll_holding _ word)).trans ?_
    rw [hlayout, hlength]
    exact bind_ok (modify_run _)
  · have hspool : spoolSize (a.records ++ [record.stored]) =
        spoolSize a.records + recordSize record := by
      rw [spoolSize_append, spoolSize_cons, recordSize_stored, spoolSize_nil, Nat.add_zero]
    have hbefore : layout (Function.update a.node (spoolSize a.records) .single) 0 a.records =
        layout a.node 0 a.records :=
      layout_congr fun other _ hother => update_of_ne (by omega) _ _
    refine ⟨?_, ?_, ?_, hs.root, hs.indexed, ?_, ?_, ?_⟩
    · rw [layout_append, hbefore, ← hs.bytes, Nat.zero_add]
      simp only [layout, update_self, append_nil, frame, body_stored]
      rfl
    · rw [hspool, hsize]
      show s.length + (body record).length + (8 + TREE_NODE_BYTES) = _
      omega
    · rw [length_append]
      show s.record_count + 1 = _
      rw [hrecords]
      rfl
    · rw [hspool]
      exact hsmall
    · intro other hother
      rcases mem_append.mp hother with hmem | hmem
      · exact hs.kept other hmem
      · rw [mem_singleton.mp hmem]
        refine ⟨?_, hstorable.stored, stored_stored record⟩
        rw [Record.Fits, body_stored]
        exact hfits
    · intro offset other hother
      rw [hspool]
      by_cases heq : offset = spoolSize a.records
      · subst heq
        show Good _ (Function.update a.node _ _ _)
        rw [update_self]
        exact good_iff.mpr ⟨by decide, by decide, .inl rfl, .inl rfl⟩
      · have hmem := mem_offsets.mpr ⟨other, hother⟩
        rw [offsets_append, mem_append] at hmem
        rcases hmem with hmem | hmem
        · obtain ⟨original, horiginal⟩ := mem_offsets.mp hmem
          obtain ⟨hne, hle, hleft, hright⟩ := good_iff.mp (hs.good offset original horiginal)
          show Good _ (Function.update a.node _ _ _)
          rw [update_of_ne heq]
          exact good_iff.mpr ⟨hne, hle, hleft.imp_right (by omega), hright.imp_right (by omega)⟩
        · simp [offsetsFrom] at hmem
          exact absurd hmem heq

end Records

end Ish.Fs
