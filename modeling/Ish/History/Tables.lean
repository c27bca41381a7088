import Ish.History.Matching
import Ish.HistoryLog.Record
import Ish.Lib.UnixPath
import Mathlib.Data.Prod.Lex
import Mathlib.Logic.Function.Basic

/-!
# Tables — what a history knows about its commands

The model of the tables of `History` in `src/history.rs` that searching reads,
and of `apply_occurrence`, which fills them. `arena`, `offsets` and `usages` are
one list of entries. A numbering that runs out of 32 bits panics: `none`.
-/

namespace Ish.History

open Ish.Lib List
open Ish.Lib.UnixPath (Path Component)
open Ish.HistoryLog (Occurrence)

structure Usage where
  count : Nat
  timestamp : Nat
  deriving DecidableEq, Repr

def Usage.default : Usage := { count := 0, timestamp := 0 }

def U64_MAX : Nat := 2 ^ 64 - 1

def Usage.record (usage : Usage) (timestamp : Nat) : Usage :=
  { count := min (usage.count + 1) U64_MAX, timestamp := max usage.timestamp timestamp }

def U32_MAX : Nat := 2 ^ 32 - 1

def DIRECTORY_NONE : Nat := U32_MAX
def DIRECTORY_DETAILED : Nat := U32_MAX - 1

/-- `EntryUsage::directories`: `DIRECTORY_NONE`, `DIRECTORY_DETAILED`, or the
code of the one directory that shares the entry's totals. -/
inductive Directories where
  | none
  | detailed
  | shared (code : Nat)
  deriving DecidableEq, Repr

/-- The number in `EntryUsage::directories`. -/
def Directories.code : Directories → Nat
  | none => DIRECTORY_NONE
  | detailed => DIRECTORY_DETAILED
  | shared code => code

/-- What a number in `EntryUsage::directories` is read as. -/
def Directories.ofCode (code : Nat) : Directories :=
  if code = DIRECTORY_NONE then none
  else if code = DIRECTORY_DETAILED then detailed
  else shared code

inductive DirectoryDetail where
  | Tracked (code : Nat) (usage : Usage)
  | Many (map : List (Nat × Usage))
  deriving DecidableEq, Repr

/-- A command, and its `EntryUsage`. -/
structure Entry where
  text : List Char
  letters : UInt32
  latest_id : Nat
  total : Usage
  directories : Directories
  letters_eq : letters = letterMask (Utf8.encode text)

def Entry.new (text : List Char) : Entry :=
  { text
    letters := letterMask (Utf8.encode text)
    latest_id := 0
    total := Usage.default
    directories := .none
    letters_eq := rfl }

structure Tables where
  entries : List Entry
  index_by_hash : UInt64 → Option Nat
  latest_occurrences : List (Int × Nat)
  directory_paths : List Path
  directory_codes : List Component → Option Nat
  directory_details : Nat → Option DirectoryDetail
  latest_valid : ∀ latest ∈ latest_occurrences, latest.2 < entries.length

namespace Tables

def empty : Tables :=
  { entries := []
    index_by_hash := fun _ => none
    latest_occurrences := []
    directory_paths := []
    directory_codes := fun _ => none
    directory_details := fun _ => none
    latest_valid := by simp }

/-! ## Entries -/

def setEntry (tables : Tables) (idx : Nat) (f : Entry → Entry) : Tables :=
  { tables with
    entries := tables.entries.modify idx f
    latest_valid := by
      rw [List.length_modify]
      exact tables.latest_valid }

def findEntryIndex (tables : Tables) (hash : UInt64) (text : List Char) : Option Nat :=
  match tables.index_by_hash hash with
  | none => none
  | some idx =>
    if (tables.entries[idx]?).map Entry.text = some text then some idx
    else tables.entries.findIdx? (·.text = text)

/-- The texts packed so far. -/
def arenaLen (tables : Tables) : Nat :=
  (tables.entries.map fun entry => (Utf8.encode entry.text).length).sum

def addEntry (tables : Tables) (hash : UInt64) (text : List Char) : Option Tables :=
  if U32_MAX < tables.arenaLen ∨ U32_MAX < (Utf8.encode text).length ∨
      U32_MAX < tables.entries.length then none
  else some { tables with
    entries := tables.entries ++ [Entry.new text]
    index_by_hash := Function.update tables.index_by_hash hash (some tables.entries.length)
    latest_valid := by
      intro latest hlatest
      have hvalid := tables.latest_valid latest hlatest
      rw [length_append]
      omega }

/-! ## Directories -/

def internDirectory (tables : Tables) (cwd : Path) : Option (Tables × Nat) :=
  match tables.directory_codes (UnixPath.components cwd) with
  | some code => some (tables, code)
  | none =>
    let code := tables.directory_paths.length
    if U32_MAX < code then none
    else some ({ tables with
      directory_paths := tables.directory_paths ++ [cwd]
      directory_codes := Function.update tables.directory_codes
        (UnixPath.components cwd) (some code) }, code)

def setDetail (tables : Tables) (idx : Nat) (detail : DirectoryDetail) : Tables :=
  { tables with
    directory_details := Function.update tables.directory_details idx (some detail) }

/-- `detach_shared_directory` -/
def detachSharedDirectory (tables : Tables) (idx : Nat) : Tables :=
  match tables.entries[idx]? with
  | some { directories := .shared current, total, .. } =>
    (tables.setEntry idx fun entry => { entry with directories := .detailed }).setDetail idx
      (.Tracked current total)
  | _ => tables

/-- `map.entry(code).or_default().record(timestamp)` -/
def recordIn (map : List (Nat × Usage)) (code timestamp : Nat) : List (Nat × Usage) :=
  match map with
  | [] => [(code, Usage.default.record timestamp)]
  | (key, usage) :: rest =>
    if key = code then (key, usage.record timestamp) :: rest
    else (key, usage) :: recordIn rest code timestamp

/-- The details of an entry that is `DIRECTORY_DETAILED`. -/
def recordDetail (tables : Tables) (idx code timestamp : Nat) : Tables :=
  match tables.directory_details idx with
  | some (.Tracked tracked usage) =>
    if tracked = code then tables.setDetail idx (.Tracked tracked (usage.record timestamp))
    else tables.setDetail idx (.Many (recordIn [(tracked, usage)] code timestamp))
  | some (.Many map) => tables.setDetail idx (.Many (recordIn map code timestamp))
  | none => tables

def recordDirectory (tables : Tables) (idx code timestamp : Nat) : Tables :=
  match tables.entries[idx]? with
  | none => tables
  | some entry =>
    if entry.directories.code = code then tables
    else
      match entry.directories with
      | .none => tables.setEntry idx fun entry => { entry with directories := .ofCode code }
      | .detailed => tables.recordDetail idx code timestamp
      | .shared current =>
        ((tables.setEntry idx fun entry => { entry with directories := .detailed }).setDetail
          idx (.Many [(current, entry.total)])).recordDetail idx code timestamp

/-! ## Latest occurrences -/

/-- `record_latest_occurrence`, in a table sorted by id. -/
def insertLatest (id : Int) (idx : Nat) : List (Int × Nat) → List (Int × Nat)
  | [] => [(id, idx)]
  | (key, other) :: rest =>
    if key = id then (id, idx) :: rest
    else if id < key then (id, idx) :: (key, other) :: rest
    else (key, other) :: insertLatest id idx rest

theorem mem_insertLatest {id idx latest}
    {table} (h : latest ∈ insertLatest id idx table) :
    latest = (id, idx) ∨ latest ∈ table := by
  induction table with
  | nil => exact Or.inl (mem_singleton.mp h)
  | cons row rest ih =>
    rw [insertLatest] at h
    split at h
    · rcases mem_cons.mp h with rfl | hrest
      · exact Or.inl rfl
      · exact Or.inr (mem_cons_of_mem _ hrest)
    split at h
    · rcases mem_cons.mp h with rfl | hrest
      · exact Or.inl rfl
      · exact Or.inr hrest
    · rcases mem_cons.mp h with rfl | hrest
      · exact Or.inr mem_cons_self
      · rcases ih hrest with rfl | hmem
        · exact Or.inl rfl
        · exact Or.inr (mem_cons_of_mem _ hmem)

/-- `forget_latest_occurrence` -/
def forgetLatest (tables : Tables) (id : Int) : Tables :=
  { tables with
    latest_occurrences := tables.latest_occurrences.filter (·.1 ≠ id)
    latest_valid := fun latest hlatest =>
      tables.latest_valid latest (mem_of_mem_filter hlatest) }

def recordLatest (tables : Tables) (id : Int) (idx : Nat) (h : idx < tables.entries.length) :
    Tables :=
  { tables with
    latest_occurrences := insertLatest id idx tables.latest_occurrences
    latest_valid := by
      intro latest hlatest
      rcases mem_insertLatest hlatest with rfl | hmem
      · exact h
      · exact tables.latest_valid latest hmem }

/-! ## Occurrences -/

variable (hash : List Char → UInt64)

/-- The entry of a command, which is added when it is new. -/
def entryOf (tables : Tables) (command : List Char) : Option (Tables × Nat) :=
  match tables.findEntryIndex (hash command) command with
  | some idx => some (tables, idx)
  | none => do
    let idx := tables.entries.length
    let tables ← tables.addEntry (hash command) command
    return (tables, idx)

def recordCwd (tables : Tables) (idx : Nat) (cwd : Option Path) (timestamp : Nat) :
    Option Tables :=
  match cwd with
  | none => some (tables.detachSharedDirectory idx)
  | some cwd => do
    let (tables, code) ← tables.internDirectory cwd
    return tables.recordDirectory idx code timestamp

/-- `apply_occurrence`, by the hash of commands. -/
def applyOccurrence (tables : Tables) (occurrence : Occurrence) : Option Tables := do
  let timestamp := occurrence.timestamp.toNat
  let id := occurrence.id.toInt
  let (tables, idx) ← tables.entryOf hash occurrence.command
  let tables ← tables.recordCwd idx occurrence.cwd timestamp
  let entry ← tables.entries[idx]?
  let tables := tables.forgetLatest entry.latest_id
  if id < 0 ∨ U32_MAX < id then none
  else
    let tables := tables.setEntry idx fun entry =>
      { entry with latest_id := id.toNat, total := entry.total.record timestamp }
    if h : idx < tables.entries.length then some (tables.recordLatest id idx h) else none

/-- The tables after occurrences that were applied since the last `clear`. -/
def ofOccurrences (occurrences : List Occurrence) : Option Tables :=
  occurrences.foldlM (applyOccurrence hash) empty

end Tables

end Ish.History
