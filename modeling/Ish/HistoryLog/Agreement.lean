import Ish.HistoryLog.Reading
import Ish.HistoryLog.Session

/-!
# Agreement — every session applies what is committed

The invariant of a log shared by any number of shells: the file holds the
committed occurrences in front of a torn tail, and every shell has a front part
of them, or of an older generation. Each operation keeps it, and after a `sync`
or an `add_in_dir` the shell has exactly the committed occurrences.
-/

namespace Ish.HistoryLog

open Ish.Lib List EState
open Ish.Lib.Rising (Rises lastKey rises_append)

/-! ## Applying a snapshot -/

namespace History

/-- The shell has applied exactly `os`, under a generation. -/
structure Holds (history : History) (current : Int64) (os : List Occurrence) : Prop where
  generation : history.generation = current
  applied : history.applied = os
  last_id : history.last_id = lastId 0 os

theorem foldl_applyOccurrence
    (h : Rises Occurrence.id history.last_id fresh) :
    fresh.foldl applyOccurrence history =
      { history with
        applied := history.applied ++ fresh
        last_id := lastId history.last_id fresh } := by
  induction fresh generalizing history with
  | nil => simp [lastKey]
  | cons o fresh ih =>
    have hone : history.applyOccurrence o =
        { history with applied := history.applied ++ [o], last_id := o.id } := by
      rw [applyOccurrence, if_pos (Int64.le_of_lt h.1)]
    rw [foldl_cons, hone, ih h.2]
    simp [lastKey]

/-- **Applying what was read** leaves the shell with all of the log, and its
store as it is. -/
theorem applySnapshot_spec (history : History) (hlast : history.last_id = lastId 0 history.applied)
    (hrises : Rises Occurrence.id 0 os)
    (hsame : history.generation = current → os = history.applied ++ fresh)
    (hnew : history.generation ≠ current → fresh = os) :
    let history' := history.applySnapshot { generation := current, occurrences := fresh }
    history'.Holds current os ∧ history'.store = history.store ∧
      history'.session_id = history.session_id := by
  rw [applySnapshot]
  by_cases hgeneration : history.generation = current
  · have hos := hsame hgeneration
    rw [if_neg (by simp [hgeneration])]
    have hrest : Rises Occurrence.id history.last_id fresh := by
      rw [hos, rises_append] at hrises
      rw [hlast]
      exact hrises.2
    rw [foldl_applyOccurrence hrest]
    refine ⟨⟨hgeneration, hos.symm, ?_⟩, rfl, rfl⟩
    show lastId history.last_id fresh = lastId 0 os
    rw [hos, hlast]
    exact (Rising.lastKey_append 0 history.applied fresh).symm
  · have hos := hnew hgeneration
    rw [if_pos (Ne.symm hgeneration), hos, foldl_applyOccurrence hrises]
    exact ⟨⟨rfl, rfl, rfl⟩, rfl, rfl⟩

/-- A shell between operations: what it knows of itself, and how far behind the
log it is. -/
structure Ready (history : History) (current : Int64) (os : List Occurrence) : Prop where
  upTo : UpTo history.store.cursor history.generation history.last_id history.applied
  behind : Behind current os history.generation history.applied

/-- A shell whose last read ended at `cursor`, the end of the log. -/
theorem Holds.ready {history : History}
    (h : history.Holds current os)
    (hcursor : UpTo history.store.cursor current (lastId 0 os) os) :
    history.Ready current os where
  upTo := by
    rw [h.generation, h.last_id, h.applied]
    exact hcursor
  behind := by
    rw [h.generation, h.applied]
    exact ⟨Int64.le_refl _, fun _ => prefix_refl _⟩

/-- **A shell stays ready** while the log grows or goes to a later generation. -/
theorem Ready.mono {history : History} (h : history.Ready current os) (hle : current ≤ current')
    (hos : current = current' → os <+: os') : history.Ready current' os' where
  upTo := h.upTo
  behind := by
    refine ⟨Int64.le_trans h.behind.old hle, fun hsame => ?_⟩
    have hold := h.behind.old
    rw [hsame] at hold
    have hcurrent : current = current' := Int64.le_antisymm hle hold
    exact (h.behind.seen (hsame.trans hcurrent.symm)).trans (hos hcurrent)

end History

/-! ## The operations of one shell -/

section Operations

variable {disk disk' : Disk} {current : Int64} {os : List Occurrence} {tail : List UInt8}
  {history history' : History}

/-- **Sync**: the shell then holds what the log holds. -/
theorem sync_spec (hfile : Stores disk.file.bytes current os tail)
    (hready : history.Ready current os) :
    (∃ current' disk' history', history.sync disk = .ok history' disk' ∧
      Stores disk'.file.bytes current' os [] ∧ current ≤ current' ∧
      history'.Holds current' os ∧ history'.Ready current' os ∧
      history'.session_id = history.session_id) ∨
    history.sync disk = .error (.invalid "generation exhausted") disk := by
  rcases readSnapshot_spec hfile hready.upTo hready.behind with
    ⟨current', disk', fresh, hread, hfile', hle, hsame, hnew⟩ | ⟨-, hfail⟩
  · left
    have hsnapshot := bind_ok
      (f := fun read => pure (read.1, ({ cursor := read.2 } : Store))) hread
    obtain ⟨hholds, hstore, hid⟩ := History.applySnapshot_spec
      { history with
        store := { cursor := (Cursor.atStart disk'.file current').pastAll os } }
      hready.upTo.last_id hfile'.rises hsame hnew
    refine ⟨current', disk', _, bind_ok hsnapshot, hfile', hle, hholds, ?_, hid⟩
    refine hholds.ready ?_
    rw [hstore]
    exact upTo_pastAll _ _ _
  · right
    exact bind_error (bind_error hfail)

theorem nextId_eq (os : List Occurrence) : World.nextId os = lastId 0 os + 1 := by
  rcases eq_nil_or_concat os with rfl | ⟨l, o, rfl⟩
  · rfl
  · simp [World.nextId, lastKey]

/-- The occurrence an append writes: under the next id. -/
def numbered (o : Occurrence) (os : List Occurrence) : Occurrence :=
  { o with id := World.nextId os }

theorem stores_append
    (hfile : Stores bytes current os []) (ho : Storable o) (hid : lastId 0 os < o.id)
    (hsize : bytes.length + (frame o).length < 2 ^ 64) :
    Stores (bytes ++ frame o) current (os ++ [o]) [] where
  bytes_eq := by
    rw [hfile.bytes_eq]
    simp
  generation := hfile.generation
  storable := by
    intro b hb
    rcases mem_append.mp hb with hb | hb
    · exact hfile.storable b hb
    · rw [mem_singleton.mp hb]
      exact ho
  rises := rises_append.mpr ⟨hfile.rises, hid, trivial⟩
  tail := discarded_nil
  size := by rwa [length_append]

theorem stores_torn
    (hfile : Stores bytes current os []) (ho : Storable o) (hk : k < (frame o).length)
    (hsize : bytes.length + (frame o).length < 2 ^ 64) :
    Stores (bytes ++ (frame o).take k) current os ((frame o).take k) where
  bytes_eq := by
    rw [hfile.bytes_eq]
    simp
  generation := hfile.generation
  storable := hfile.storable
  rises := hfile.rises
  tail := discarded_torn ho hk
  size := by
    rw [length_append, length_take]
    omega

theorem writeAt_end (h : offset = disk.file.bytes.length) (bytes : List UInt8) :
    Store.writeAt offset bytes disk =
      .ok () { disk with
        file := { disk.file with bytes := disk.file.bytes ++ bytes } } := by
  have hdrop : disk.file.bytes.drop (offset + bytes.length) = [] :=
    drop_eq_nil_of_le (by omega)
  rw [Store.writeAt, modify_run, hdrop, h, take_length, append_nil]

theorem nextFrame_eq_ok
    (h : Store.nextFrame cursor o = .ok (o', bytes)) :
    o' = { o with id := cursor.last_id + 1 } ∧ bytes = frame o' ∧ Storable o' ∧
      cursor.last_id < o'.id ∧ cursor.offset + bytes.length < 2 ^ 64 := by
  obtain ⟨id, hid, h⟩ := Result.bind_eq_ok.mp h
  obtain ⟨bytes', hencode, h⟩ := Result.bind_eq_ok.mp h
  rw [checkedSucc] at hid
  split at hid
  · cases hid
  next hmax =>
    cases hid
    obtain ⟨hstorable, rfl⟩ := encode_eq_ok.mp hencode
    split at h
    · cases h
    next hsize =>
      cases h
      exact ⟨rfl, rfl, hstorable, lt_succ hmax, Nat.lt_of_not_le hsize⟩

/-- **Before the write**: the log is read to its end, without a tail, and the
new frame fits behind it under the next id; or the disk still holds the same
occurrences. -/
theorem prepare_spec (hfile : Stores disk.file.bytes current os tail)
    (hready : history.Ready current os) (o : Occurrence) :
    (∃ current' disk' fresh,
      history.store.prepare history.generation history.last_id o disk =
        .ok ({ generation := current', occurrences := fresh },
          (Cursor.atStart disk'.file current').pastAll os, numbered o os,
          frame (numbered o os)) disk' ∧
      Stores disk'.file.bytes current' os [] ∧ current ≤ current' ∧
      (history.generation = current' → os = history.applied ++ fresh) ∧
      (history.generation ≠ current' → fresh = os) ∧
      Storable (numbered o os) ∧ lastId 0 os < (numbered o os).id ∧
      disk'.file.bytes.length + (frame (numbered o os)).length < 2 ^ 64) ∨
    (∃ e disk' current' tail',
      history.store.prepare history.generation history.last_id o disk = .error e disk' ∧
      Stores disk'.file.bytes current' os tail' ∧ current ≤ current') := by
  rcases readSnapshot_spec hfile hready.upTo hready.behind with
    ⟨current', disk', fresh, hread, hfile', hle, hsame, hnew⟩ | ⟨-, hfail⟩
  · generalize hcursor : (Cursor.atStart disk'.file current').pastAll os = cursor at hread
    cases hframe : Store.nextFrame cursor o with
    | error e =>
      refine .inr ⟨e, disk', current', [], ?_, hfile', hle⟩
      refine (bind_ok hread).trans (bind_error ?_)
      rw [hframe]
      rfl
    | ok written =>
      obtain ⟨o', bytes⟩ := written
      obtain ⟨ho', hbytes, hstorable, hid, hsize⟩ := nextFrame_eq_ok hframe
      have hnumbered : o' = numbered o os := by
        rw [ho', numbered, nextId_eq, ← hcursor]
        rfl
      have hoffset : cursor.offset = disk'.file.bytes.length := by
        rw [← hcursor, hfile'.length]
        rfl
      rw [hbytes, hnumbered] at hframe
      rw [← hcursor, hnumbered] at hid
      rw [hoffset, hbytes, hnumbered] at hsize
      rw [hnumbered] at hstorable
      refine .inl ⟨current', disk', fresh, ?_, hfile', hle, hsame, hnew, hstorable, hid, hsize⟩
      have hok := StoreM.ofExcept_ok (numbered o os, frame (numbered o os)) disk'
      rw [← hframe] at hok
      rw [hcursor]
      exact (bind_ok hread).trans (bind_ok hok)
  · exact .inr ⟨_, disk, current, tail, bind_error hfail, hfile, Int64.le_refl _⟩

theorem append_spec (hfile : Stores disk.file.bytes current os tail)
    (hready : history.Ready current os) (o : Occurrence) :
    (∃ current' disk' fresh,
      history.store.append history.generation history.last_id o disk =
        .ok ({ generation := current', occurrences := fresh ++ [numbered o os] },
          { cursor := (Cursor.atStart disk'.file current').pastAll (os ++ [numbered o os]) })
          disk' ∧
      Stores disk'.file.bytes current' (os ++ [numbered o os]) [] ∧ current ≤ current' ∧
      (history.generation = current' → os = history.applied ++ fresh) ∧
      (history.generation ≠ current' → fresh = os)) ∨
    (∃ e disk' current' tail',
      history.store.append history.generation history.last_id o disk = .error e disk' ∧
      Stores disk'.file.bytes current' os tail' ∧ current ≤ current') := by
  rcases prepare_spec hfile hready o with
    ⟨current', disk', fresh, hprepare, hfile', hle, hsame, hnew, hstorable, hid, hsize⟩ |
      ⟨e, disk', current', tail', hprepare, hfile', hle⟩
  · left
    generalize numbered o os = o' at *
    have hoffset : ((Cursor.atStart disk'.file current').pastAll os).offset =
        disk'.file.bytes.length := by
      rw [hfile'.length]
      rfl
    have hcursor : (Cursor.atStart disk'.file current').pastAll (os ++ [o']) =
        ((Cursor.atStart disk'.file current').pastAll os).past o' := by
      rw [Cursor.pastAll_append, Cursor.pastAll_cons]
      rfl
    refine ⟨current', { disk' with
        file := { disk'.file with bytes := disk'.file.bytes ++ frame o' } }, fresh,
      (bind_ok hprepare).trans (bind_ok (writeAt_end hoffset _) |>.trans ?_),
      stores_append hfile' hstorable hid hsize, hle, hsame, hnew⟩
    exact congrArg (fun c => EStateM.Result.ok
      (({ generation := current', occurrences := fresh ++ [o'] } : Snapshot), Store.mk c) _)
      hcursor.symm
  · right
    exact ⟨e, disk', current', tail', bind_error hprepare, hfile', hle⟩

/-- **Append**: a line that is not blank is committed behind the log, and the
shell then holds what the log holds. -/
theorem addInDir_spec (hfile : Stores disk.file.bytes current os tail)
    (hready : history.Ready current os) {line : List Char} (hline : History.isBlank line = false)
    (cwd : Option (List UInt8)) (now : UInt64) :
    (∃ current' disk' history', history.addInDir line cwd now disk = .ok history' disk' ∧
      Stores disk'.file.bytes current' (World.commit os history.session_id line cwd now) [] ∧
      current ≤ current' ∧
      history'.Holds current' (World.commit os history.session_id line cwd now) ∧
      history'.Ready current' (World.commit os history.session_id line cwd now)) ∨
    (∃ e disk' current' tail', history.addInDir line cwd now disk = .error e disk' ∧
      Stores disk'.file.bytes current' os tail' ∧ current ≤ current') := by
  have hcommit : World.commit os history.session_id line cwd now =
      os ++ [numbered (history.occurrence line cwd now) os] := by
    rw [World.commit, hline]
    rfl
  have hrun : history.addInDir line cwd now =
      (history.store.append history.generation history.last_id
        (history.occurrence line cwd now) >>= fun r =>
          pure ({ history with store := r.2 }.applySnapshot r.1)) := by
    rw [History.addInDir, hline]
    rfl
  rw [hcommit, hrun]
  generalize history.occurrence line cwd now = o
  rcases append_spec hfile hready o with
    ⟨current', disk', fresh, happend, hfile', hle, hsame, hnew⟩ |
      ⟨e, disk', current', tail', happend, hfile', hle⟩
  · left
    generalize numbered o os = o' at *
    obtain ⟨hholds, hstore, -⟩ := History.applySnapshot_spec
      { history with
        store := { cursor := (Cursor.atStart disk'.file current').pastAll (os ++ [o']) } }
      hready.upTo.last_id hfile'.rises
      (fun h => by rw [hsame h, append_assoc]) (fun h => by rw [hnew h])
    refine ⟨current', disk', _, bind_ok happend, hfile', hle, hholds, ?_⟩
    refine hholds.ready ?_
    rw [hstore]
    exact upTo_pastAll _ _ _
  · right
    exact ⟨e, disk', current', tail', bind_error happend, hfile', hle⟩

/-- **A torn append** commits nothing, however much of its frame was written. -/
theorem appendTorn_spec (hfile : Stores disk.file.bytes current os tail)
    (hready : history.Ready current os) (o : Occurrence) (written : Nat) :
    ∃ current' tail', Stores (after (history.store.appendTorn history.generation
      history.last_id o written disk)).file.bytes current' os tail' ∧ current ≤ current' := by
  rcases prepare_spec hfile hready o with
    ⟨current', disk', fresh, hprepare, hfile', hle, -, -, hstorable, -, hsize⟩ |
      ⟨e, disk', current', tail', hprepare, hfile', hle⟩
  · have hoffset : ((Cursor.atStart disk'.file current').pastAll os).offset =
        disk'.file.bytes.length := by
      rw [hfile'.length]
      rfl
    have hpos := length_frame (numbered o os)
    simp only [FRAME_HEADER_SIZE] at hpos
    have htorn : history.store.appendTorn history.generation history.last_id o written disk =
        .ok () _ := (bind_ok hprepare).trans (writeAt_end hoffset _)
    rw [htorn]
    exact ⟨current', _, stores_torn hfile' hstorable (by omega) hsize, hle⟩
  · rw [Store.appendTorn, bind_error hprepare]
    exact ⟨current', tail', hfile', hle⟩

/-- **Reset**: an empty log of a later generation. -/
theorem reset_spec (history : History) (hfile : Stores disk.file.bytes current os tail) (now : UInt64) :
    (∃ disk' history', history.reset now disk = .ok history' disk' ∧
      Stores disk'.file.bytes (current + 1) [] [] ∧ current < current + 1 ∧
      history'.Holds (current + 1) [] ∧ history'.Ready (current + 1) []) ∨
    history.reset now disk = .error (.invalid "generation exhausted") disk := by
  by_cases hmax : current = Int64.maxValue
  · right
    have hsucc : checkedSucc current "generation exhausted" =
        .error (.invalid "generation exhausted") := if_pos hmax
    refine bind_error ((bind_ok get_run).trans ?_)
    rw [hfile.readHeader]
    simp only [hsucc]
    exact bind_error rfl
  · left
    have hsucc := checkedSucc_ok hmax "generation exhausted"
    have hempty : Stores (disk.published (current + 1) []).file.bytes (current + 1) [] [] :=
      stores_new [] (hfile.succ_nonneg hmax) (by simp) trivial (by simp [HEADER_SIZE])
    have hreset : history.store.reset now disk =
        .ok (current + 1, { cursor := Cursor.default }) (disk.published (current + 1) []) := by
      refine (bind_ok get_run).trans ?_
      rw [hfile.readHeader]
      simp only [hsucc]
      refine (bind_ok (StoreM.ofExcept_ok _ disk)).trans ?_
      exact bind_ok (bind_ok (StoreM.ofExcept_ok [] disk))
    have hholds : ({ history.clear with
        store := { cursor := Cursor.default }, generation := current + 1 } : History).Holds
          (current + 1) [] := ⟨rfl, rfl, rfl⟩
    exact ⟨_, _, bind_ok hreset, hempty, lt_succ hmax, hholds,
      hholds.ready (upTo_default rfl)⟩

/-- **Load**: a shell that starts holds what the log holds. -/
theorem loadFrom_spec (hfile : Stores disk.file.bytes current os tail) (session_id : UInt64) :
    (∃ current' disk' history', History.loadFrom session_id disk = .ok history' disk' ∧
      Stores disk'.file.bytes current' os [] ∧ current ≤ current' ∧
      history'.Holds current' os ∧ history'.Ready current' os) ∨
    History.loadFrom session_id disk = .error (.invalid "generation exhausted") disk := by
  have hready : (History.empty session_id { cursor := Cursor.default }).Ready current os :=
    ⟨upTo_default rfl, hfile.generation, fun _ => List.nil_prefix⟩
  rcases sync_spec hfile hready with
    ⟨current', disk', history', hsync, hfile', hle, hholds, hready', -⟩ | hfail
  · left
    refine ⟨current', disk', history', ?_, hfile', hle, hholds, hready'⟩
    rw [History.loadFrom, hsync]
  · right
    rw [History.loadFrom, hfail]

end Operations

/-! ## Any number of shells -/

namespace World

/-- The file holds the committed occurrences in front of a torn tail, and no
shell is ahead of it. -/
structure Invariant (world : World) (current : Int64) (tail : List UInt8) : Prop where
  file : Stores world.disk.file.bytes current world.committed tail
  shells : ∀ shell history, world.shells shell = some history →
    history.Ready current world.committed

/-- A world that keeps the invariant under some generation. -/
def Consistent (world : World) : Prop := ∃ current tail, world.Invariant current tail

@[simp] theorem setShell_self (world : World) (shell : Shell) (history : Option History) :
    (world.setShell shell history).shells shell = history := if_pos rfl

variable {world : World}

/-- **Any change of one shell and of the log behind it**: the others stay ready
when the log grows or goes to a later generation. -/
theorem Invariant.change {current current' : Int64}
    {tail tail' : List UInt8} (h : world.Invariant current tail) {disk}
    {committed} (hfile : Stores disk.file.bytes current' committed tail')
    (hle : current ≤ current')
    (hcommitted : current = current' → world.committed <+: committed)
    (shell : Shell) {new}
    (hnew : ∀ history, new = some history → history.Ready current' committed) :
    ({ world with disk, committed }.setShell shell new).Invariant current' tail' where
  file := hfile
  shells := by
    intro other history hother
    simp only [setShell] at hother
    split at hother
    · exact hnew history hother
    · exact (h.shells other history hother).mono hle hcommitted

theorem Invariant.changeDisk {current current' : Int64}
    {tail tail'} (h : world.Invariant current tail) {disk}
    (hfile : Stores disk.file.bytes current' world.committed tail') (hle : current ≤ current') :
    ({ world with disk } : World).Invariant current' tail' where
  file := hfile
  shells := fun shell history hshell =>
    (h.shells shell history hshell).mono hle fun _ => prefix_refl _

/-- What an operation of a running shell may do: it goes on from a log that holds
the committed occurrences it reports, or it fails with the log holding the old
ones. -/
def Allowed (world : World) (current : Int64) (committed : List Occurrence) : EStateM.Result LogError Disk History → Prop
  | .ok history' disk => ∃ current' tail', Stores disk.file.bytes current' committed tail' ∧
      current ≤ current' ∧ (current = current' → world.committed <+: committed) ∧
      history'.Ready current' committed
  | .error _ disk => ∃ current' tail', Stores disk.file.bytes current' world.committed tail' ∧
      current ≤ current'

theorem Invariant.withShell {current tail}
    (h : world.Invariant current tail) (shell : Shell) {op}
    {committed}
    (hop : ∀ history, history.Ready current world.committed →
      world.Allowed current (committed history) (op history world.disk)) :
    (world.withShell shell op committed).2.Consistent := by
  rw [World.withShell]
  split
  · exact ⟨current, tail, h⟩
  · next history hshell =>
      have hallowed := hop history (h.shells shell history hshell)
      split
      · next history' disk hrun =>
          rw [hrun] at hallowed
          obtain ⟨current', tail', hfile, hle, hcommitted, hready⟩ := hallowed
          refine ⟨current', tail', h.change hfile hle hcommitted shell ?_⟩
          intro new hnew
          cases hnew
          exact hready
      · next e disk hrun =>
          rw [hrun] at hallowed
          obtain ⟨current', tail', hfile, hle⟩ := hallowed
          exact ⟨current', tail', h.changeDisk hfile hle⟩

theorem prefix_commit (committed : List Occurrence) (session_id : UInt64) (line : List Char)
    (cwd : Option (List UInt8)) (now : UInt64) :
    committed <+: commit committed session_id line cwd now := by
  rw [commit]
  split
  · exact prefix_refl _
  · exact prefix_append _ _

/-- **Every step keeps the invariant.** -/
theorem Consistent.step (h : world.Consistent) (event : Event) :
    (world.step event).2.Consistent := by
  obtain ⟨current, tail, h⟩ := h
  cases event with
  | load shell session_id =>
    simp only [World.step]
    split
    · exact ⟨current, tail, h⟩
    · rcases loadFrom_spec h.file session_id with
        ⟨current', disk', history', hload, hfile, hle, -, hready⟩ | hfail
      · rw [hload]
        refine ⟨current', [], h.change hfile hle (fun _ => prefix_refl _) shell ?_⟩
        intro new hnew
        cases hnew
        exact hready
      · rw [hfail]
        exact ⟨current, tail, h.changeDisk h.file (Int64.le_refl _)⟩
  | sync shell =>
    refine h.withShell shell fun history hready => ?_
    rcases sync_spec h.file hready with
      ⟨current', disk', history', hsync, hfile, hle, -, hready', -⟩ | hfail
    · rw [hsync]
      exact ⟨current', [], hfile, hle, fun _ => prefix_refl _, hready'⟩
    · rw [hfail]
      exact ⟨current, tail, h.file, Int64.le_refl _⟩
  | add_in_dir shell line cwd now =>
    refine h.withShell shell fun history hready => ?_
    cases hline : History.isBlank line with
    | true =>
      rw [History.addInDir, commit, hline]
      exact ⟨current, tail, h.file, Int64.le_refl _, fun _ => prefix_refl _, hready⟩
    | false =>
      rcases addInDir_spec h.file hready hline cwd now with
        ⟨current', disk', history', hadd, hfile, hle, -, hready'⟩ |
          ⟨e, disk', current', tail', hadd, hfile, hle⟩
      · rw [hadd]
        exact ⟨current', [], hfile, hle, fun _ => prefix_commit .., hready'⟩
      · rw [hadd]
        exact ⟨current', tail', hfile, hle⟩
  | reset shell now =>
    refine h.withShell shell fun history hready => ?_
    rcases reset_spec history h.file now with
      ⟨disk', history', hreset, hfile, hlt, -, hready'⟩ | hfail
    · rw [hreset]
      exact ⟨current + 1, [], hfile, Int64.le_of_lt hlt,
        fun heq => absurd heq (Int64.ne_of_lt hlt), hready'⟩
    · rw [hfail]
      exact ⟨current, tail, h.file, Int64.le_refl _⟩
  | crash shell line cwd now written =>
    simp only [World.step]
    split
    · exact ⟨current, tail, h⟩
    · next history hshell =>
        split
        · exact ⟨current, tail, h.change h.file (Int64.le_refl _)
            (fun _ => prefix_refl _) shell (by simp)⟩
        · obtain ⟨current', tail', hfile, hle⟩ := appendTorn_spec h.file
            (h.shells shell history hshell) (history.occurrence line cwd now) written
          exact ⟨current', tail', h.change hfile hle (fun _ => prefix_refl _) shell
            (by simp)⟩
  | exit shell =>
    exact ⟨current, tail, h.change h.file (Int64.le_refl _) (fun _ => prefix_refl _)
      shell (by simp)⟩

/-- **Every run keeps the invariant.** -/
theorem Consistent.run (h : world.Consistent) (events : List Event) :
    (world.run events).Consistent := by
  induction events generalizing world with
  | nil => exact h
  | cons event events ih => exact ih (h.step event)

/-- A log of whole frames that no shell has opened yet. -/
structure Initial (world : World) : Prop where
  file : ∃ current, Stores world.disk.file.bytes current world.committed []
  shells : ∀ shell, world.shells shell = none

theorem Initial.consistent (h : world.Initial) : world.Consistent := by
  obtain ⟨current, hfile⟩ := h.file
  refine ⟨current, [], hfile, fun shell history hshell => ?_⟩
  rw [h.shells shell] at hshell
  cases hshell

/-- The events after which `shell` has read the whole log. -/
def Reads (shell : Shell) : Event → Prop
  | .sync other => other = shell
  | .add_in_dir other line _ _ => other = shell ∧ History.isBlank line = false
  | _ => False

theorem withShell_done
    {committed} (h : (world.withShell shell op committed).1 = .done) :
    ∃ history history' disk, world.shells shell = some history ∧
      op history world.disk = .ok history' disk ∧
      (world.withShell shell op committed).2 =
        { world with disk, committed := committed history }.setShell shell history' := by
  rw [World.withShell] at h ⊢
  split at h
  · cases h
  · next history hshell =>
      split at h
      · next history' disk hrun => exact ⟨history, history', disk, hshell, hrun, rfl⟩
      · cases h

/-- **Agreement**: in any run of any number of shells, with torn appends, the
shell that has just synchronized, or committed a line, has applied exactly the
committed occurrences since its last clear, each once and by increasing id. -/
theorem applied_eq_committed {world : World} (h : world.Initial) (events : List Event)
    (shell : Shell) {event : Event} (hevent : Reads shell event)
    (hdone : ((world.run events).step event).1 = .done) :
    ∃ history, ((world.run events).step event).2.shells shell = some history ∧
      history.applied = ((world.run events).step event).2.committed ∧
      history.applied.Pairwise (·.id < ·.id) := by
  obtain ⟨current, tail, hinv⟩ := h.consistent.run events
  generalize world.run events = world' at *
  cases event with
  | sync other =>
    obtain rfl := hevent
    obtain ⟨history, history', disk, hshell, hrun, hworld⟩ := withShell_done hdone
    rw [World.step, hworld]
    rcases sync_spec hinv.file (hinv.shells _ _ hshell) with
      ⟨current', disk', history'', hsync, hfile, -, hholds, -, -⟩ | hfail
    · rw [hrun] at hsync
      cases hsync
      refine ⟨history', setShell_self .., hholds.applied, ?_⟩
      rw [hholds.applied]
      exact hfile.rises.pairwise
    · rw [hrun] at hfail
      cases hfail
  | add_in_dir other line cwd now =>
    obtain ⟨rfl, hline⟩ := hevent
    obtain ⟨history, history', disk, hshell, hrun, hworld⟩ := withShell_done hdone
    rw [World.step, hworld]
    rcases addInDir_spec hinv.file (hinv.shells _ _ hshell) hline cwd now with
      ⟨current', disk', history'', hadd, hfile, -, hholds, -⟩ | ⟨e, disk', -, -, hadd, -⟩
    · rw [hrun] at hadd
      cases hadd
      refine ⟨history', setShell_self .., hholds.applied, ?_⟩
      rw [hholds.applied]
      exact hfile.rises.pairwise
    · rw [hrun] at hadd
      cases hadd
  | load | reset | crash | exit => exact absurd hevent id

/-- A log without occurrences. -/
def emptyLog : World where
  disk :=
    { file := { identity := (1, 1), bytes := HEADER ++ LittleEndian.i64 0 }
      moved := []
      identities := fun n => (1, n + 2)
      made := 0 }
  shells := fun _ => none
  committed := []

theorem emptyLog_initial : emptyLog.Initial :=
  ⟨⟨0, stores_new [] (Int64.le_refl 0) (by simp) trivial (by simp [HEADER_SIZE])⟩,
    fun _ => rfl⟩

theorem applied_eq_committed_after_torn_append :
    ∃ history, ((emptyLog.run [.load 1 10, .add_in_dir 1 ['a'] none 5, .load 2 20,
        .crash 2 ['b'] none 6 40, .load 3 30, .reset 3 7, .add_in_dir 3 ['c'] none 8]).step
          (.sync 1)).2.shells 1 = some history ∧
      history.applied = ((emptyLog.run [.load 1 10, .add_in_dir 1 ['a'] none 5, .load 2 20,
        .crash 2 ['b'] none 6 40, .load 3 30, .reset 3 7, .add_in_dir 3 ['c'] none 8]).step
          (.sync 1)).2.committed ∧
      history.applied.Pairwise (·.id < ·.id) :=
  applied_eq_committed emptyLog_initial _ 1 rfl (by decide +kernel)

/-- A blank line is not stored and the log is not read: the shell does not see
what another one has committed. -/
theorem blank_line_reads_nothing :
    let world := emptyLog.run [.load 1 10, .load 2 20, .add_in_dir 1 ['a'] none 5]
    let after := world.step (.add_in_dir 2 [' '] none 6)
    emptyLog.Initial ∧ after.1 = .done ∧
      (after.2.shells 2).map (·.applied) = some [] ∧ after.2.committed ≠ [] :=
  ⟨emptyLog_initial, by decide, by decide, by decide⟩

/-! ### Where a run starts -/

end World

end Ish.HistoryLog
