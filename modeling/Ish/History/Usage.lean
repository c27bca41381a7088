import Ish.History.Tables
import Mathlib.Data.Finset.Card
import Mathlib.Data.List.Nodup
import Mathlib.Data.List.TakeWhile

/-!
# Usage — how often a command ran in a directory

`directory_usage` of `src/history.rs` reads the usage of an entry in one
directory from the shared code, the tracked directory or the map. What it reads
is compared with the occurrences that were applied. An entry without a directory
takes the first one as if it covered all its earlier uses, so those that ran in
no directory are counted for it too.
-/

namespace Ish.History

open Ish.Lib List
open UnixPath
open Ish.HistoryLog (Occurrence)
open Option (bind_eq_bind bind_eq_some_iff bind_some isSome_iff_exists map_eq_some_iff map_some)

/-! ## Reading a usage -/

/-- What `EntryUsage::directories` and `directory_details` keep for an entry. -/
structure Tracking where
  directories : Directories
  detail : Option DirectoryDetail

namespace Tracking

/-- The usage in the directory of a code. -/
def usageIn (tracking : Tracking) (total : Usage) (code : Nat) : Option Usage :=
  match tracking.directories with
  | .none => none
  | .detailed =>
    match tracking.detail with
    | some (.Tracked tracked usage) => if tracked = code then some usage else none
    | some (.Many map) => map.lookup code
    | none => none
  | .shared shared => if shared = code then some total else none

/-- `detach_shared_directory`, for one entry. -/
def detach (tracking : Tracking) (total : Usage) : Tracking :=
  match tracking.directories with
  | .shared current => { directories := .detailed, detail := some (.Tracked current total) }
  | _ => tracking

def recordDetail (tracking : Tracking) (code timestamp : Nat) : Tracking :=
  match tracking.detail with
  | some (.Tracked tracked usage) =>
    if tracked = code then
      { tracking with detail := some (.Tracked tracked (usage.record timestamp)) }
    else { tracking with detail := some (.Many (Tables.recordIn [(tracked, usage)] code timestamp)) }
  | some (.Many map) => { tracking with detail := some (.Many (Tables.recordIn map code timestamp)) }
  | none => tracking

/-- `record_directory`, for one entry. -/
def record (tracking : Tracking) (total : Usage) (code timestamp : Nat) : Tracking :=
  if tracking.directories.code = code then tracking
  else
    match tracking.directories with
    | .none => { tracking with directories := .ofCode code }
    | .detailed => tracking.recordDetail code timestamp
    | .shared current =>
      recordDetail { directories := .detailed, detail := some (.Many [(current, total)]) }
        code timestamp

/-- A use in the directory of a code, or in none. -/
def use (tracking : Tracking) (total : Usage) (code : Option Nat) (timestamp : Nat) : Tracking :=
  match code with
  | none => tracking.detach total
  | some code => tracking.record total code timestamp

end Tracking

namespace Tables

def tracking (tables : Tables) (idx : Nat) (entry : Entry) : Tracking :=
  { directories := entry.directories, detail := tables.directory_details idx }

/-- `directory_usage` -/
def directoryUsage (tables : Tables) (idx : Nat) (path : Path) : Option Usage := do
  let code ← tables.directory_codes (components path)
  let entry ← tables.entries[idx]?
  (tables.tracking idx entry).usageIn entry.total code

end Tables

/-! ## The uses of one entry -/

/-- One occurrence of a command, its directory as a code. -/
structure Use where
  code : Option Nat
  timestamp : Nat

/-- The usage after some uses. -/
def totals (uses : List Use) : Usage :=
  uses.foldl (fun usage use => usage.record use.timestamp) Usage.default

theorem totals_snoc (uses : List Use) (use : Use) :
    totals (uses ++ [use]) = (totals uses).record use.timestamp := by
  rw [totals, foldl_append]
  rfl

/-- The directory of the first use that had one. -/
def firstCode (uses : List Use) : Option Nat := uses.findSome? Use.code

/-- The uses before that one. -/
def early (uses : List Use) : List Use := uses.takeWhile (·.code.isNone)

/-- The uses that ran in a directory. -/
def usesIn (uses : List Use) (code : Nat) : List Use := uses.filter (·.code = some code)

/-- The uses that are counted for a directory. -/
def counted (uses : List Use) (code : Nat) : List Use :=
  (if firstCode uses = some code then early uses else []) ++ usesIn uses code

def reported (uses : List Use) (code : Nat) : Option Usage :=
  if usesIn uses code = [] then none else some (totals (counted uses code))

theorem firstCode_snoc (uses : List Use) (use : Use) :
    firstCode (uses ++ [use]) = (firstCode uses).or use.code := by
  rw [firstCode, firstCode, findSome?_append]
  simp

variable {uses : List Use}

theorem firstCode_eq_none : firstCode uses = none ↔ ∀ use ∈ uses, use.code = none :=
  findSome?_eq_none_iff

theorem early_eq_self (h : firstCode uses = none) : early uses = uses := by
  rw [early, takeWhile_eq_self_iff]
  intro use huse
  rw [firstCode_eq_none.mp h use huse]
  rfl

theorem early_append (h : firstCode uses ≠ none) (more : List Use) :
    early (uses ++ more) = early uses := by
  rw [early, early, takeWhile_append, if_neg]
  intro hlen
  apply h
  rw [firstCode_eq_none]
  intro use huse
  have hall := takeWhile_eq_self_iff.mp
    ((takeWhile_sublist (p := fun use : Use => use.code.isNone)).eq_of_length hlen)
  exact Option.isNone_iff_eq_none.mp (hall use huse)

theorem usesIn_snoc (uses : List Use) (use : Use) (code : Nat) :
    usesIn (uses ++ [use]) code = usesIn uses code ++ if use.code = some code then [use] else [] := by
  rw [usesIn, usesIn, List.filter_append, filter_singleton]
  simp

variable {code : Nat}

theorem usesIn_eq_nil (h : firstCode uses = none) : usesIn uses code = [] := by
  rw [usesIn, filter_eq_nil_iff]
  intro use huse
  simp [firstCode_eq_none.mp h use huse]

theorem usesIn_firstCode (h : firstCode uses = some code) : usesIn uses code ≠ [] := by
  obtain ⟨use, huse, hcode⟩ := exists_of_findSome?_eq_some h
  exact ne_nil_of_mem (mem_filter.mpr ⟨huse, by simpa using hcode⟩)

theorem counted_of_absent (h : usesIn uses code = []) : counted uses code = [] := by
  rw [counted, h, if_neg fun hfirst => usesIn_firstCode hfirst h]
  rfl

theorem counted_snoc (hfirst : firstCode uses ≠ none) (use : Use) (code : Nat) :
    counted (uses ++ [use]) code =
      counted uses code ++ if use.code = some code then [use] else [] := by
  have hsame : firstCode (uses ++ [use]) = firstCode uses := by
    rw [firstCode_snoc]
    cases h : firstCode uses with
    | none => exact absurd h hfirst
    | some _ => rfl
  rw [counted, counted, hsame, early_append hfirst, usesIn_snoc, append_assoc]

/-- **A use without a directory** changes no directory. -/
theorem reported_snoc_none (uses : List Use) (huse : use.code = none) (code : Nat) :
    reported (uses ++ [use]) code = reported uses code := by
  rw [reported, reported, usesIn_snoc, if_neg (c := use.code = some code) (by simp [huse]),
    append_nil]
  by_cases hfirst : firstCode uses = none
  · rw [if_pos (usesIn_eq_nil hfirst), if_pos (usesIn_eq_nil hfirst)]
  · rw [counted_snoc hfirst, if_neg (c := use.code = some code) (by simp [huse]), append_nil]

/-- **The first use in a directory** reports all uses for it. -/
theorem reported_snoc_first (hfirst : firstCode uses = none) (huse : use.code = some current) (code : Nat) :
    reported (uses ++ [use]) code =
      if current = code then some (totals (uses ++ [use])) else none := by
  simp only [reported, usesIn_snoc, usesIn_eq_nil hfirst, nil_append, huse,
    Option.some.injEq]
  by_cases hcode : current = code
  · subst hcode
    have hearly : early (uses ++ [use]) = uses := by
      have hall := takeWhile_eq_self_iff.mp (early_eq_self hfirst)
      rw [early, takeWhile_append_of_pos hall]
      simp [huse]
    rw [if_pos rfl, if_neg (by simp), if_pos rfl, counted, firstCode_snoc, hfirst, huse, hearly,
      usesIn_snoc, usesIn_eq_nil hfirst, huse]
    simp
  · rw [if_neg hcode, if_pos rfl, if_neg hcode]

/-- **A later use in a directory** is recorded for it. -/
theorem reported_snoc_later (hfirst : firstCode uses ≠ none) (huse : use.code = some current) (code : Nat) :
    reported (uses ++ [use]) code =
      if current = code then
        some (((reported uses code).getD Usage.default).record use.timestamp)
      else reported uses code := by
  rw [reported]
  simp only [usesIn_snoc, counted_snoc hfirst, huse, Option.some.injEq]
  by_cases hcode : current = code
  · rw [if_pos hcode, if_neg (by simp), if_pos hcode, totals_snoc, reported]
    by_cases habsent : usesIn uses code = []
    · rw [if_pos habsent, counted_of_absent habsent]
      rfl
    · rw [if_neg habsent]
      rfl
  · rw [if_neg hcode, if_neg hcode, append_nil, append_nil, reported]

/-! ## Keeping track of one entry -/

/-- An entry's record after some uses: what it reports for each directory. -/
structure Tracks (uses : List Use) (tracking : Tracking) (total : Usage) : Prop where
  total_eq : total = totals uses
  usage_eq : ∀ code, tracking.usageIn total code = reported uses code
  none_iff : tracking.directories = .none ↔ firstCode uses = none
  detailed : tracking.directories = .detailed → tracking.detail.isSome

theorem Tracks.nil (detail : Option DirectoryDetail) :
    Tracks [] { directories := .none, detail } Usage.default where
  total_eq := rfl
  usage_eq := fun _ => rfl
  none_iff := by simp [firstCode]
  detailed := by simp

theorem lookup_recordIn (map : List (Nat × Usage)) (code timestamp key : Nat) :
    (Tables.recordIn map code timestamp).lookup key =
      if code = key then some (((map.lookup key).getD Usage.default).record timestamp)
      else map.lookup key := by
  induction map with
  | nil =>
    rw [Tables.recordIn, lookup_cons]
    by_cases h : key = code
    · simp [h]
    · simp [beq_false_of_ne h, Ne.symm h]
  | cons row map ih =>
    obtain ⟨other, usage⟩ := row
    rw [Tables.recordIn]
    by_cases hother : other = code
    · subst hother
      rw [if_pos rfl, lookup_cons, lookup_cons]
      by_cases h : key = other
      · simp [h]
      · simp [beq_false_of_ne h, Ne.symm h]
    · rw [if_neg hother, lookup_cons, lookup_cons, ih]
      by_cases h : key = other
      · subst h
        simp [Ne.symm hother]
      · simp [beq_false_of_ne h]

namespace Tracks

variable {uses : List Use} {tracking : Tracking} {total : Usage}

/-- **A use without a directory** detaches the shared one. -/
theorem detach (h : Tracks uses tracking total) (timestamp : Nat) :
    Tracks (uses ++ [⟨none, timestamp⟩]) (tracking.detach total) (total.record timestamp) where
  total_eq := by rw [totals_snoc, h.total_eq]
  usage_eq := by
    intro code
    rw [reported_snoc_none uses rfl, ← h.usage_eq, Tracking.detach]
    cases hdirectories : tracking.directories with
    | none | detailed | shared current => simp only [Tracking.usageIn, hdirectories]
  none_iff := by
    rw [firstCode_snoc, Option.or_none, ← h.none_iff, Tracking.detach]
    cases hdirectories : tracking.directories <;> simp [hdirectories]
  detailed := by
    intro hdetailed
    rw [Tracking.detach] at hdetailed ⊢
    cases hdirectories : tracking.directories with
    | none =>
      simp only [hdirectories] at hdetailed
      cases hdetailed
    | detailed => exact h.detailed hdirectories
    | shared current => rfl

theorem usageIn_recordDetail
    (hdetail : tracking.detail = some detail) (hdirectories : tracking.directories = .detailed)
    (code timestamp key : Nat) (before after : Usage) :
    (tracking.recordDetail code timestamp).usageIn after key =
      if code = key then
        some (((tracking.usageIn before key).getD Usage.default).record timestamp)
      else tracking.usageIn before key := by
  cases detail with
  | Tracked tracked usage =>
    rw [Tracking.recordDetail, hdetail]
    by_cases hcode : tracked = code
    · subst hcode
      simp only [if_pos, Tracking.usageIn, hdirectories, hdetail]
      by_cases hkey : tracked = key <;> simp [hkey]
    · simp only [if_neg hcode, Tracking.usageIn, hdirectories, hdetail, lookup_recordIn,
        lookup_cons, lookup_nil]
      by_cases hkey : key = tracked
      · subst hkey
        simp [Ne.symm hcode]
      · simp [beq_false_of_ne hkey, Ne.symm hkey]
  | Many map =>
    simp only [Tracking.recordDetail, hdetail, Tracking.usageIn, hdirectories, lookup_recordIn]

theorem recordDetail_detailed
    (hdetail : tracking.detail = some detail) (code timestamp : Nat) :
    (tracking.recordDetail code timestamp).directories = tracking.directories ∧
      (tracking.recordDetail code timestamp).detail.isSome := by
  cases detail with
  | Tracked tracked usage =>
    rw [Tracking.recordDetail, hdetail]
    by_cases hcode : tracked = code
    · simp [hcode]
    · simp [hcode]
  | Many map => simp [Tracking.recordDetail, hdetail]

theorem recordDetail (h : ∀ code, tracking.usageIn total code = reported uses code)
    (hfirst : firstCode uses ≠ none) (htotal : total = totals uses)
    (hdetail : tracking.detail = some detail) (hdirectories : tracking.directories = .detailed)
    (code timestamp : Nat) :
    Tracks (uses ++ [⟨some code, timestamp⟩]) (tracking.recordDetail code timestamp)
      (total.record timestamp) where
  total_eq := by rw [totals_snoc, htotal]
  usage_eq := by
    intro key
    rw [usageIn_recordDetail hdetail hdirectories code timestamp key total, h,
      reported_snoc_later hfirst rfl]
  none_iff := by
    rw [(recordDetail_detailed hdetail code timestamp).1, hdirectories, firstCode_snoc,
      Option.or_eq_none_iff]
    simp
  detailed := fun _ => (recordDetail_detailed hdetail code timestamp).2

/-- **A use in a directory** is recorded. -/
theorem record (h : Tracks uses tracking total) (hcode : code < DIRECTORY_DETAILED)
    (timestamp : Nat) :
    Tracks (uses ++ [⟨some code, timestamp⟩]) (tracking.record total code timestamp)
      (total.record timestamp) := by
  have hnone : code ≠ DIRECTORY_NONE := by
    unfold DIRECTORY_NONE DIRECTORY_DETAILED at *
    omega
  rw [Tracking.record]
  cases hdirectories : tracking.directories with
  | none =>
    have hfirst := h.none_iff.mp hdirectories
    have hother : Directories.none.code ≠ code := Ne.symm hnone
    rw [if_neg hother]
    show Tracks _ { tracking with directories := .ofCode code } _
    rw [Directories.ofCode, if_neg hnone, if_neg (by omega)]
    refine ⟨by rw [totals_snoc, h.total_eq], ?_, ?_, by simp⟩
    · intro key
      rw [reported_snoc_first hfirst rfl, totals_snoc, h.total_eq]
      rfl
    · rw [firstCode_snoc, hfirst]
      simp
  | detailed =>
    have hfirst : firstCode uses ≠ none := by
      rw [ne_eq, ← h.none_iff, hdirectories]
      simp
    obtain ⟨detail, hdetail⟩ := isSome_iff_exists.mp (h.detailed hdirectories)
    have hother : Directories.detailed.code ≠ code := by
      simp only [Directories.code]
      omega
    rw [if_neg hother]
    exact recordDetail h.usage_eq hfirst h.total_eq hdetail hdirectories code timestamp
  | shared current =>
    have hfirst : firstCode uses ≠ none := by
      rw [ne_eq, ← h.none_iff, hdirectories]
      simp
    have hshared : ∀ key, (if current = key then some total else none) = reported uses key := by
      intro key
      rw [← h.usage_eq key, Tracking.usageIn, hdirectories]
    by_cases hcurrent : (Directories.shared current).code = code
    · rw [if_pos hcurrent]
      have hsame : current = code := hcurrent
      subst hsame
      refine ⟨by rw [totals_snoc, h.total_eq], ?_, ?_, ?_⟩
      · intro key
        rw [reported_snoc_later hfirst rfl, ← hshared, Tracking.usageIn, hdirectories]
        by_cases hkey : current = key <;> simp [hkey]
      · rw [hdirectories, firstCode_snoc, Option.or_eq_none_iff]
        simp
      · rw [hdirectories]
        simp
    · rw [if_neg hcurrent]
      have hmany : ∀ key, Tracking.usageIn
          { directories := .detailed, detail := some (.Many [(current, total)]) } total key =
            reported uses key := by
        intro key
        rw [← hshared, Tracking.usageIn]
        by_cases hkey : key = current
        · simp [hkey]
        · simp [beq_false_of_ne hkey, Ne.symm hkey, lookup_cons]
      exact recordDetail hmany hfirst h.total_eq rfl rfl code timestamp

end Tracks

/-! ## Keeping track in the tables -/

/-- The tables after the record of one entry was replaced. -/
structure Retracked (tables tables' : Tables) (idx : Nat) (tracking : Tracking) : Prop where
  entries : tables'.entries = tables.entries.modify idx fun entry =>
    { entry with directories := tracking.directories }
  details : tables'.directory_details =
    Function.update tables.directory_details idx tracking.detail
  codes : tables'.directory_codes = tables.directory_codes
  paths : tables'.directory_paths = tables.directory_paths
  hashes : tables'.index_by_hash = tables.index_by_hash

namespace Retracked

variable {tables tables' tables'' : Tables} {idx : Nat} {tracking later : Tracking} {entry : Entry}

theorem self (hentry : tables.entries[idx]? = some entry) :
    Retracked tables tables idx (tables.tracking idx entry) where
  entries := by
    apply ext_getElem?
    intro i
    rw [getElem?_modify]
    by_cases hi : idx = i
    · subst hi
      simp [hentry, Tables.tracking]
    · simp [hi]
  details := (Function.update_eq_self idx tables.directory_details).symm
  codes := rfl
  paths := rfl
  hashes := rfl

theorem trans (h : Retracked tables tables' idx tracking)
    (h' : Retracked tables' tables'' idx later) : Retracked tables tables'' idx later where
  entries := by
    rw [h'.entries, h.entries, modify_modify_eq]
    rfl
  details := by rw [h'.details, h.details, Function.update_idem]
  codes := h'.codes.trans h.codes
  paths := h'.paths.trans h.paths
  hashes := h'.hashes.trans h.hashes

theorem entry_eq (h : Retracked tables tables' idx tracking)
    (hentry : tables.entries[idx]? = some entry) :
    tables'.entries[idx]? = some { entry with directories := tracking.directories } := by
  rw [h.entries, getElem?_modify, hentry]
  simp

theorem setDetail (hentry : tables.entries[idx]? = some entry) (detail : DirectoryDetail) :
    Retracked tables (tables.setDetail idx detail) idx
      { directories := entry.directories, detail := some detail } where
  entries := (self hentry).entries
  details := rfl
  codes := rfl
  paths := rfl
  hashes := rfl

theorem setEntry (detail : Option DirectoryDetail) (directories : Directories)
    (hdetail : tables.directory_details idx = detail) :
    Retracked tables (tables.setEntry idx fun entry => { entry with directories := directories })
      idx { directories, detail } where
  entries := rfl
  details := by
    subst hdetail
    exact (Function.update_eq_self idx tables.directory_details).symm
  codes := rfl
  paths := rfl
  hashes := rfl

theorem detachSharedDirectory (hentry : tables.entries[idx]? = some entry) :
    Retracked tables (tables.detachSharedDirectory idx) idx
      ((tables.tracking idx entry).detach entry.total) := by
  obtain ⟨text, letters, latest_id, total, directories, letters_eq⟩ := entry
  rw [Tables.detachSharedDirectory, hentry]
  cases directories with
  | none => exact self hentry
  | detailed => exact self hentry
  | shared current =>
    have hset := @setEntry tables idx _ .detailed rfl
    exact hset.trans (setDetail (hset.entry_eq hentry) _)

theorem recordDetail (hentry : tables.entries[idx]? = some entry) (code timestamp : Nat) :
    Retracked tables (tables.recordDetail idx code timestamp) idx
      ((tables.tracking idx entry).recordDetail code timestamp) := by
  have hself := self hentry
  simp only [Tables.recordDetail, Tracking.recordDetail, Tables.tracking] at hself ⊢
  cases hdetail : tables.directory_details idx with
  | none =>
    rw [hdetail] at hself
    exact hself
  | some detail =>
    cases detail with
    | Many map => exact setDetail hentry _
    | Tracked tracked usage =>
      by_cases hcode : tracked = code
      · simp only [if_pos hcode]
        exact setDetail hentry _
      · simp only [if_neg hcode]
        exact setDetail hentry _

theorem recordDirectory (hentry : tables.entries[idx]? = some entry) (code timestamp : Nat) :
    Retracked tables (tables.recordDirectory idx code timestamp) idx
      ((tables.tracking idx entry).record entry.total code timestamp) := by
  rw [Tables.recordDirectory, hentry, Tracking.record]
  by_cases hcode : entry.directories.code = code
  · have hcode' : (tables.tracking idx entry).directories.code = code := hcode
    simp only [if_pos hcode, if_pos hcode']
    exact self hentry
  · have hcode' : ¬ (tables.tracking idx entry).directories.code = code := hcode
    simp only [if_neg hcode, if_neg hcode']
    cases hdirectories : entry.directories with
    | none =>
      simp only [Tables.tracking, hdirectories]
      exact setEntry _ _ rfl
    | detailed =>
      simp only [Tables.tracking, hdirectories]
      have h := recordDetail hentry code timestamp
      rwa [Tables.tracking, hdirectories] at h
    | shared current =>
      simp only [Tables.tracking, hdirectories]
      have hset := @setEntry tables idx _ .detailed rfl
      have hdetail := hset.trans
        (setDetail (hset.entry_eq hentry) (.Many [(current, entry.total)]))
      have hrecord := recordDetail (hdetail.entry_eq hentry) code timestamp
      simp only [Tables.tracking, hdetail.details, Function.update_self] at hrecord
      exact hdetail.trans hrecord

end Retracked

/-! ## One occurrence -/

namespace Tables

/-- The directory of an occurrence is interned. -/
def internCwd (tables : Tables) (cwd : Option Path) : Option (Tables × Option Nat) :=
  match cwd with
  | none => some (tables, none)
  | some cwd => do
    let (tables, code) ← tables.internDirectory cwd
    return (tables, some code)

/-- The tables after the last step of an occurrence. -/
structure Settled (between tables' : Tables) (idx latest_id timestamp : Nat) : Prop where
  entries : tables'.entries = between.entries.modify idx fun entry =>
    { entry with latest_id, total := entry.total.record timestamp }
  details : tables'.directory_details = between.directory_details
  codes : tables'.directory_codes = between.directory_codes
  paths : tables'.directory_paths = between.directory_paths
  hashes : tables'.index_by_hash = between.index_by_hash

section Applying

variable {hash : List Char → UInt64} {tables tables' : Tables}

theorem findEntryIndex_eq_some
    (hfind : tables.findEntryIndex (hash text) text = some idx) :
    ∃ entry, tables.entries[idx]? = some entry ∧ entry.text = text := by
  rw [findEntryIndex] at hfind
  split at hfind
  · cases hfind
  split at hfind
  · rename_i hsame
    cases hfind
    obtain ⟨entry, hentry, htext⟩ := map_eq_some_iff.mp hsame
    exact ⟨entry, hentry, htext⟩
  · obtain ⟨hlt, htext, _⟩ := findIdx?_eq_some_iff_getElem.mp hfind
    exact ⟨_, getElem?_eq_getElem hlt, by simpa using htext⟩

/-- The entry of a command is in the tables or comes last in them. -/
theorem entryOf_cases
    (h : tables.entryOf hash command = some (tables', idx)) :
    (tables.findEntryIndex (hash command) command = some idx ∧ tables' = tables) ∨
      (tables.findEntryIndex (hash command) command = none ∧ tables.arenaLen ≤ U32_MAX ∧
        idx = tables.entries.length ∧ ∃ hvalid, tables' = { tables with
          entries := tables.entries ++ [Entry.new command]
          index_by_hash :=
            Function.update tables.index_by_hash (hash command) (some tables.entries.length)
          latest_valid := hvalid }) := by
  rw [entryOf] at h
  split at h
  · next hfind =>
    cases h
    exact .inl ⟨hfind, rfl⟩
  · next hfind =>
    rw [addEntry] at h
    simp only [bind_eq_bind, bind_eq_some_iff] at h
    obtain ⟨added, hadded, hpair⟩ := h
    split at hadded
    · cases hadded
    · next hfits =>
      cases hadded
      cases hpair
      exact .inr ⟨hfind, not_lt.mp fun hlt => hfits (.inl hlt), rfl, _, rfl⟩

theorem entryOf_text
    (h : tables.entryOf hash command = some (tables', idx)) :
    ∃ entry, tables'.entries[idx]? = some entry ∧ entry.text = command := by
  rcases entryOf_cases h with ⟨hfind, rfl⟩ | ⟨-, -, rfl, _, rfl⟩
  · exact findEntryIndex_eq_some hfind
  · exact ⟨Entry.new command, by simp, rfl⟩

/-- A directory has a code or takes the next one. -/
theorem internDirectory_cases
    (h : tables.internDirectory cwd = some (tables', code)) :
    (tables.directory_codes (components cwd) = some code ∧ tables' = tables) ∨
      (tables.directory_codes (components cwd) = none ∧
        code = tables.directory_paths.length ∧ tables' = { tables with
          directory_paths := tables.directory_paths ++ [cwd]
          directory_codes := Function.update tables.directory_codes (components cwd)
            (some tables.directory_paths.length) }) := by
  rw [internDirectory] at h
  split at h
  · next hcode =>
    cases h
    exact .inl ⟨hcode, rfl⟩
  · next hcode =>
    dsimp only at h
    split at h
    · cases h
    · cases h
      exact .inr ⟨hcode, rfl, rfl⟩

theorem internCwd_some {cwd code}
    (h : tables.internCwd (some cwd) = some (tables', code)) :
    ∃ found, tables.internDirectory cwd = some (tables', found) ∧ code = some found := by
  obtain ⟨⟨interned, found⟩, hintern, hpair⟩ := bind_eq_some_iff.mp h
  cases hpair
  exact ⟨found, hintern, rfl⟩

theorem internCwd_entries {cwd code}
    (h : tables.internCwd cwd = some (tables', code)) :
    tables'.entries = tables.entries ∧
      tables'.directory_details = tables.directory_details := by
  cases cwd with
  | none =>
    cases h
    exact ⟨rfl, rfl⟩
  | some cwd =>
    obtain ⟨found, hintern, -⟩ := internCwd_some h
    rcases internDirectory_cases hintern with ⟨-, rfl⟩ | ⟨-, -, rfl⟩
    · exact ⟨rfl, rfl⟩
    · exact ⟨rfl, rfl⟩

/-- **What an occurrence does**: its command is known, its directory interned, and
the record of its entry takes one more use. -/
theorem applyOccurrence_cases
    (happly : tables.applyOccurrence hash occurrence = some tables') :
    ∃ known idx interned code entry between latest_id,
      tables.entryOf hash occurrence.command = some (known, idx) ∧
      known.internCwd occurrence.cwd = some (interned, code) ∧
      interned.entries[idx]? = some entry ∧ entry.text = occurrence.command ∧
      Retracked interned between idx ((interned.tracking idx entry).use entry.total code
        occurrence.timestamp.toNat) ∧
      Settled between tables' idx latest_id occurrence.timestamp.toNat := by
  simp only [applyOccurrence, bind_eq_bind, bind_eq_some_iff] at happly
  obtain ⟨⟨known, idx⟩, hknown, between, hcwd, changed, _, hrest⟩ := happly
  obtain ⟨entry, hentry, htext⟩ := entryOf_text hknown
  split at hrest
  · cases hrest
  split at hrest
  · cases hrest
    cases hplace : occurrence.cwd with
    | none =>
      simp only [hplace, recordCwd] at hcwd
      cases hcwd
      exact ⟨known, idx, known, none, entry, _, occurrence.id.toInt.toNat, hknown, rfl, hentry,
        htext, Retracked.detachSharedDirectory hentry, rfl, rfl, rfl, rfl, rfl⟩
    | some cwd =>
      simp only [recordCwd, hplace, bind_eq_bind, bind_eq_some_iff] at hcwd
      obtain ⟨⟨interned, code⟩, hintern, hrecord⟩ := hcwd
      cases hrecord
      have hcode : known.internCwd (some cwd) = some (interned, some code) := by
        simp only [internCwd, hintern, bind_eq_bind, bind_some]
        rfl
      rw [← (internCwd_entries hcode).1] at hentry
      exact ⟨known, idx, interned, some code, entry, _, occurrence.id.toInt.toNat, hknown,
        hcode, hentry, htext, Retracked.recordDirectory hentry code occurrence.timestamp.toNat,
        rfl, rfl, rfl, rfl, rfl⟩
  · cases hrest

end Applying

end Tables

/-! ## Any occurrences -/

namespace Tables

/-- The uses of a command, by the codes of the tables. -/
def usesOf (tables : Tables) (occurrences : List Occurrence) (command : List Char) : List Use :=
  (occurrences.filter (·.command = command)).map fun occurrence =>
    { code := occurrence.cwd.bind fun cwd => tables.directory_codes (components cwd)
      timestamp := occurrence.timestamp.toNat }

variable (hash : List Char → UInt64)

/-- The tables agree with the occurrences that were applied. -/
structure Agrees (occurrences : List Occurrence) (tables : Tables) : Prop where
  texts : (tables.entries.map Entry.text).Nodup
  hashed : ∀ entry ∈ tables.entries, (tables.index_by_hash (hash entry.text)).isSome
  entered : ∀ occurrence ∈ occurrences, occurrence.command ∈ tables.entries.map Entry.text
  coded : ∀ occurrence ∈ occurrences, ∀ cwd, occurrence.cwd = some cwd →
    (tables.directory_codes (components cwd)).isSome
  code_lt : ∀ directory code, tables.directory_codes directory = some code →
    code < tables.directory_paths.length
  code_inj : ∀ directory other code, tables.directory_codes directory = some code →
    tables.directory_codes other = some code → directory = other
  tracked : tables.directory_paths.length ≤ DIRECTORY_DETAILED →
    ∀ idx entry, tables.entries[idx]? = some entry →
      Tracks (tables.usesOf occurrences entry.text) (tables.tracking idx entry) entry.total

variable {hash} {occurrences : List Occurrence} {tables tables' : Tables}

theorem agrees_empty : Agrees hash [] empty where
  texts := nodup_nil
  hashed := by simp [empty]
  entered := by simp
  coded := by simp
  code_lt := by simp [empty]
  code_inj := by simp [empty]
  tracked := by simp [empty]

theorem usesOf_snoc (occurrence : Occurrence) (command : List Char) :
    tables.usesOf (occurrences ++ [occurrence]) command =
      tables.usesOf occurrences command ++
        if occurrence.command = command then
          [{ code := occurrence.cwd.bind fun cwd =>
                tables.directory_codes (components cwd)
             timestamp := occurrence.timestamp.toNat }]
        else [] := by
  rw [usesOf, usesOf, List.filter_append, map_append, filter_singleton]
  by_cases h : occurrence.command = command <;> simp [h]

section

variable (h : Agrees hash occurrences tables)
include h

theorem findEntryIndex_eq_none
    (hfind : tables.findEntryIndex (hash text) text = none) :
    text ∉ tables.entries.map Entry.text := by
  intro hmem
  obtain ⟨entry, hentry, rfl⟩ := mem_map.mp hmem
  rw [findEntryIndex] at hfind
  obtain ⟨idx, hidx⟩ := isSome_iff_exists.mp (h.hashed entry hentry)
  rw [hidx] at hfind
  simp only at hfind
  split at hfind
  · cases hfind
  · have hnone := findIdx?_eq_none_iff.mp hfind entry hentry
    simp at hnone

/-- **The entry of a command**, which has no uses when it is new. -/
theorem Agrees.entryOf
    (hentry : tables.entryOf hash command = some (tables', idx)) :
    Agrees hash occurrences tables' ∧ tables'.directory_paths = tables.directory_paths ∧
      tables'.directory_codes = tables.directory_codes ∧
      ∃ entry, tables'.entries[idx]? = some entry ∧ entry.text = command := by
  rcases entryOf_cases hentry with ⟨hfind, rfl⟩ | ⟨hfind, -, rfl, _, rfl⟩
  · exact ⟨h, rfl, rfl, findEntryIndex_eq_some hfind⟩
  · have habsent := findEntryIndex_eq_none h hfind
    refine ⟨?_, rfl, rfl, Entry.new command, by simp, rfl⟩
    have hunused : tables.usesOf occurrences command = [] := by
      rw [usesOf, map_eq_nil_iff, filter_eq_nil_iff]
      intro occurrence hoccurrence heq
      have hcommand := of_decide_eq_true heq
      exact habsent (hcommand ▸ h.entered occurrence hoccurrence)
    exact {
      texts := by
        rw [map_append, nodup_append]
        refine ⟨h.texts, nodup_singleton _, ?_⟩
        intro text htext other hother hsame
        rw [hsame, mem_singleton.mp hother] at htext
        exact habsent htext
      hashed := by
        intro entry hmem
        show (Function.update tables.index_by_hash (hash command) _ _).isSome
        rw [Function.update_apply]
        split
        · rfl
        · rename_i hother
          rcases mem_append.mp hmem with hold | hnew
          · exact h.hashed entry hold
          · rw [mem_singleton.mp hnew] at hother
            exact absurd rfl hother
      entered := by
        intro occurrence hoccurrence
        rw [map_append]
        exact mem_append_left _ (h.entered occurrence hoccurrence)
      coded := h.coded
      code_lt := h.code_lt
      code_inj := h.code_inj
      tracked := by
        intro hfew i entry hi
        rw [getElem?_append] at hi
        split at hi
        · exact h.tracked hfew i entry hi
        · have hnew := mem_singleton.mp (mem_of_getElem? hi)
          subst hnew
          show Tracks (tables.usesOf occurrences command) _ _
          rw [hunused]
          exact Tracks.nil _ }

/-- **A directory gets one code** of its own. -/
theorem Agrees.internDirectory
    (hintern : tables.internDirectory cwd = some (tables', code)) :
    Agrees hash occurrences tables' ∧ tables'.entries = tables.entries ∧
      tables.directory_paths.length ≤ tables'.directory_paths.length ∧
      tables'.directory_codes (components cwd) = some code := by
  rcases internDirectory_cases hintern with ⟨hcode, rfl⟩ | ⟨hcode, rfl, rfl⟩
  · exact ⟨h, rfl, le_rfl, hcode⟩
  · refine ⟨?_, rfl, by simp, by simp⟩
    -- A directory that had a code keeps it.
    have hkept : ∀ directory, (tables.directory_codes directory).isSome →
        Function.update tables.directory_codes (components cwd)
          (some tables.directory_paths.length) directory = tables.directory_codes directory := by
      intro directory hsome
      rw [Function.update_of_ne]
      rintro rfl
      rw [hcode] at hsome
      cases hsome
    have hlt : ∀ directory found, Function.update tables.directory_codes
        (components cwd) (some tables.directory_paths.length) directory = some found →
        directory = components cwd ∧ found = tables.directory_paths.length ∨
          tables.directory_codes directory = some found ∧
            found < tables.directory_paths.length := by
      intro directory found hfound
      rw [Function.update_apply] at hfound
      split at hfound
      · rename_i hsame
        exact Or.inl ⟨hsame, (Option.some.inj hfound).symm⟩
      · exact Or.inr ⟨hfound, h.code_lt _ _ hfound⟩
    exact {
      texts := h.texts
      hashed := h.hashed
      entered := h.entered
      coded := by
        intro occurrence hoccurrence path hpath
        have hsome := h.coded occurrence hoccurrence path hpath
        show (Function.update tables.directory_codes _ _ _).isSome
        rwa [hkept _ hsome]
      code_lt := by
        intro directory found hfound
        rw [length_append, length_singleton]
        rcases hlt directory found hfound with ⟨_, hnew⟩ | ⟨_, hold⟩ <;> omega
      code_inj := by
        intro directory other found hfound hother
        rcases hlt directory found hfound with ⟨hd, hnew⟩ | ⟨hd, hold⟩ <;>
          rcases hlt other found hother with ⟨ho, hnew'⟩ | ⟨ho, hold'⟩
        · exact hd.trans ho.symm
        · omega
        · omega
        · exact h.code_inj _ _ _ hd ho
      tracked := by
        intro hfew idx entry hentry
        rw [length_append, length_singleton] at hfew
        have htracked := h.tracked (by omega) idx entry hentry
        have hsame : ∀ command, usesOf { tables with
            directory_paths := tables.directory_paths ++ [cwd]
            directory_codes := Function.update tables.directory_codes
              (components cwd) (some tables.directory_paths.length) }
            occurrences command = tables.usesOf occurrences command := by
          intro command
          rw [usesOf, usesOf, map_inj_left]
          intro occurrence hmem
          cases hcwd : occurrence.cwd with
          | none => rfl
          | some path =>
            have hsome := h.coded occurrence (mem_of_mem_filter hmem) path hcwd
            simp only [bind_some, hkept _ hsome]
        rw [hsame]
        exact htracked }

/-- **An occurrence of a known command** is one more use of its entry. -/
theorem Agrees.applied {occurrence : Occurrence}
    {between : Tables} {idx latest_id entry tracking}
    (hentry : tables.entries[idx]? = some entry) (htext : entry.text = occurrence.command)
    (hcoded : ∀ cwd, occurrence.cwd = some cwd →
      (tables.directory_codes (components cwd)).isSome)
    (hbetween : Retracked tables between idx tracking)
    (htracks : tables.directory_paths.length ≤ DIRECTORY_DETAILED →
      Tracks (tables.usesOf (occurrences ++ [occurrence]) entry.text) tracking
        (entry.total.record occurrence.timestamp.toNat))
    (hsettled : Settled between tables' idx latest_id occurrence.timestamp.toNat) :
    Agrees hash (occurrences ++ [occurrence]) tables' := by
  have hget : ∀ i, tables'.entries[i]? = (tables.entries[i]?).map fun old =>
      if idx = i then { old with
        directories := tracking.directories
        latest_id
        total := old.total.record occurrence.timestamp.toNat } else old := by
    intro i
    rw [hsettled.entries, hbetween.entries, getElem?_modify, getElem?_modify]
    cases tables.entries[i]? with
    | none => rfl
    | some old => by_cases hi : idx = i <;> simp [hi]
  have htexts : tables'.entries.map Entry.text = tables.entries.map Entry.text := by
    apply ext_getElem?
    intro i
    rw [getElem?_map, getElem?_map, hget, Option.map_map]
    congr 1
    funext old
    by_cases hi : idx = i <;> simp [hi]
  exact {
    texts := htexts ▸ h.texts
    hashed := by
      intro other hother
      have hmem : other.text ∈ tables.entries.map Entry.text :=
        htexts ▸ mem_map_of_mem hother
      obtain ⟨old, hold, hsame⟩ := mem_map.mp hmem
      rw [hsettled.hashes, hbetween.hashes, ← hsame]
      exact h.hashed old hold
    entered := by
      intro other hother
      rw [htexts]
      rcases mem_append.mp hother with hold | hnew
      · exact h.entered other hold
      · rw [mem_singleton.mp hnew, ← htext]
        exact mem_map_of_mem (mem_of_getElem? hentry)
    coded := by
      intro other hother cwd hcwd
      rw [hsettled.codes, hbetween.codes]
      rcases mem_append.mp hother with hold | hnew
      · exact h.coded other hold cwd hcwd
      · exact hcoded cwd (mem_singleton.mp hnew ▸ hcwd)
    code_lt := by
      rw [hsettled.codes, hbetween.codes, hsettled.paths, hbetween.paths]
      exact h.code_lt
    code_inj := by
      rw [hsettled.codes, hbetween.codes]
      exact h.code_inj
    tracked := by
      intro hfew i other hother
      rw [hsettled.paths, hbetween.paths] at hfew
      have huses : ∀ command, tables'.usesOf (occurrences ++ [occurrence]) command =
          tables.usesOf (occurrences ++ [occurrence]) command := by
        intro command
        rw [usesOf, usesOf, hsettled.codes, hbetween.codes]
      rw [hget] at hother
      obtain ⟨old, hold, hsame⟩ := map_eq_some_iff.mp hother
      rw [huses, Tables.tracking, hsettled.details, hbetween.details]
      by_cases hi : idx = i
      · subst hi
        rw [hentry] at hold
        cases hold
        rw [if_pos rfl] at hsame
        subst hsame
        rw [Function.update_self]
        exact htracks hfew
      · rw [if_neg hi] at hsame
        subst hsame
        have hother_text : ¬ occurrence.command = old.text := by
          intro heq
          have hlt := (List.getElem?_eq_some_iff.mp hentry).1
          apply hi
          apply (getElem?_inj (by rwa [length_map]) h.texts).mp
          rw [getElem?_map, getElem?_map, hentry, hold, map_some, htext, heq,
            map_some]
        rw [Function.update_of_ne (Ne.symm hi), usesOf_snoc, if_neg hother_text, append_nil]
        exact h.tracked hfew i old hold }

/-- **One occurrence** keeps the tables in agreement. -/
theorem Agrees.step {occurrence}
    (happly : tables.applyOccurrence hash occurrence = some tables') :
    Agrees hash (occurrences ++ [occurrence]) tables' := by
  obtain ⟨known, idx, interned, code, entry, between, latest_id, hknown, hintern, hentry, htext,
    hbetween, hsettled⟩ := applyOccurrence_cases happly
  obtain ⟨hagrees, _⟩ := h.entryOf hknown
  -- Where the use ran decides what the entry's record becomes.
  cases hplace : occurrence.cwd with
  | none =>
    rw [hplace] at hintern
    cases hintern
    refine hagrees.applied hentry htext (by simp [hplace]) hbetween ?_ hsettled
    intro hfew
    have htracks := (hagrees.tracked hfew idx entry hentry).detach occurrence.timestamp.toNat
    rw [usesOf_snoc, if_pos htext.symm, hplace]
    exact htracks
  | some cwd =>
    rw [hplace] at hintern
    obtain ⟨found, hfound, rfl⟩ := internCwd_some hintern
    obtain ⟨hinterned, _, _, hcode⟩ := hagrees.internDirectory hfound
    refine hinterned.applied hentry htext ?_ hbetween ?_ hsettled
    · intro path hpath
      rw [hplace, Option.some.injEq] at hpath
      rw [← hpath, hcode]
      rfl
    · intro hfew
      have hlt := hinterned.code_lt _ _ hcode
      have htracks := (hinterned.tracked hfew idx entry hentry).record
        (Nat.lt_of_lt_of_le hlt hfew) occurrence.timestamp.toNat
      rw [usesOf_snoc, if_pos htext.symm, hplace, bind_some, hcode]
      exact htracks

end

theorem run_induction {P : List Occurrence → Tables → Prop}
    (hstep : ∀ occurrences tables occurrence tables', P occurrences tables →
      tables.applyOccurrence hash occurrence = some tables' →
      P (occurrences ++ [occurrence]) tables') (more : List Occurrence) (h : P occurrences tables)
    (hrun : more.foldlM (applyOccurrence hash) tables = some tables') :
    P (occurrences ++ more) tables' := by
  induction more generalizing occurrences tables with
  | nil =>
    cases hrun
    rwa [append_nil]
  | cons occurrence more ih =>
    rw [foldlM_cons, bind_eq_bind, bind_eq_some_iff] at hrun
    obtain ⟨next, happly, hrest⟩ := hrun
    have hmore := ih (hstep _ _ _ _ h happly) hrest
    rwa [append_assoc] at hmore

/-- **Any occurrences** leave the tables in agreement with them. -/
theorem agrees_ofOccurrences (h : ofOccurrences hash occurrences = some tables) :
    Agrees hash occurrences tables :=
  run_induction (fun _ _ _ _ hbefore happly => hbefore.step happly) occurrences agrees_empty h

end Tables

/-! ## The number of directories -/

/-- The directories of some occurrences. -/
def directoriesOf (occurrences : List Occurrence) : List (List Component) :=
  occurrences.filterMap fun occurrence => occurrence.cwd.map components

namespace Tables

variable {hash : List Char → UInt64} {occurrences : List Occurrence} {tables tables' : Tables}

/-- Every code is the code of one of some directories. -/
def Numbered (directories : List (List Component)) (tables : Tables) : Prop :=
  ∀ code < tables.directory_paths.length, ∃ directory ∈ directories,
    tables.directory_codes directory = some code

theorem Numbered.length_le (h : Numbered directories tables) :
    tables.directory_paths.length ≤ directories.dedup.length := by
  rw [← card_toFinset, ← Finset.card_range tables.directory_paths.length]
  have hsubset : Finset.range tables.directory_paths.length ⊆
      directories.toFinset.image fun directory => (tables.directory_codes directory).getD 0 := by
    intro code hcode
    obtain ⟨directory, hmem, hsome⟩ := h code (Finset.mem_range.mp hcode)
    exact Finset.mem_image.mpr ⟨directory, mem_toFinset.mpr hmem, by rw [hsome]; rfl⟩
  exact (Finset.card_le_card hsubset).trans Finset.card_image_le

theorem Numbered.internDirectory
    (h : Numbered directories tables)
    (hintern : tables.internDirectory cwd = some (tables', code)) :
    Numbered (directories ++ [components cwd]) tables' := by
  intro other hother
  rcases internDirectory_cases hintern with ⟨-, rfl⟩ | ⟨hcode, -, rfl⟩
  · obtain ⟨directory, hmem, hsome⟩ := h other hother
    exact ⟨directory, mem_append_left _ hmem, hsome⟩
  · simp only [length_append, length_singleton] at hother
    by_cases hnew : other = tables.directory_paths.length
    · exact ⟨UnixPath.components cwd, by simp, by simp [hnew]⟩
    · obtain ⟨directory, hmem, hsome⟩ := h other (by omega)
      refine ⟨directory, mem_append_left _ hmem, ?_⟩
      rw [← hsome]
      apply Function.update_of_ne
      rintro rfl
      rw [hcode] at hsome
      cases hsome

theorem Numbered.step (h : Numbered (directoriesOf occurrences) tables)
    (hagrees : Agrees hash occurrences tables) {occurrence}
    (happly : tables.applyOccurrence hash occurrence = some tables') :
    Numbered (directoriesOf (occurrences ++ [occurrence])) tables' := by
  obtain ⟨known, idx, interned, code, entry, between, latest_id, hknown, hintern, hentry, htext,
    hbetween, hsettled⟩ := applyOccurrence_cases happly
  obtain ⟨_, hpaths, hcodes, _⟩ := hagrees.entryOf hknown
  have hnumbered : Numbered (directoriesOf occurrences) known := by
    rw [Numbered, hpaths, hcodes]
    exact h
  rw [Numbered, hsettled.paths, hbetween.paths, hsettled.codes, hbetween.codes, directoriesOf,
    filterMap_append, ← directoriesOf]
  cases hplace : occurrence.cwd with
  | none =>
    rw [hplace] at hintern
    cases hintern
    intro other hother
    obtain ⟨directory, hmem, hsome⟩ := hnumbered other hother
    exact ⟨directory, mem_append_left _ hmem, hsome⟩
  | some cwd =>
    rw [hplace] at hintern
    obtain ⟨found, hfound, rfl⟩ := internCwd_some hintern
    intro other hother
    obtain ⟨directory, hmem, hsome⟩ := hnumbered.internDirectory hfound other hother
    exact ⟨directory, by simpa [hplace] using hmem, hsome⟩

theorem paths_ofOccurrences (h : ofOccurrences hash occurrences = some tables) :
    tables.directory_paths.length ≤ (directoriesOf occurrences).dedup.length := by
  have hrun := run_induction (P := fun occurrences tables =>
      Agrees hash occurrences tables ∧ Numbered (directoriesOf occurrences) tables)
    (fun _ _ _ _ hbefore happly =>
      ⟨hbefore.1.step happly, hbefore.2.step hbefore.1 happly⟩)
    occurrences ⟨agrees_empty, fun code hcode => absurd hcode (Nat.not_lt_zero code)⟩ h
  exact hrun.2.length_le

end Tables

/-! ## Exact usage -/

/-- The occurrences of a command in a directory. -/
def inDirectory (occurrences : List Occurrence) (command : List Char)
    (directory : List Component) : List Occurrence :=
  occurrences.filter fun occurrence =>
    occurrence.command = command ∧ occurrence.cwd.map components = some directory

/-- Each entry reports, for each directory its command ran in, how often and
when it last did. -/
def ExactUsage (occurrences : List Occurrence) (tables : Tables) : Prop :=
  ∀ idx entry path, tables.entries[idx]? = some entry →
    inDirectory occurrences entry.text (components path) ≠ [] →
    ∃ usage, tables.directoryUsage idx path = some usage ∧
      usage.count = (inDirectory occurrences entry.text (components path)).length ∧
      ((inDirectory occurrences entry.text (components path)).map
        (·.timestamp.toNat)).max? = some usage.timestamp

/-- A command that ran in a directory had one when it ran first. -/
def StartsInDirectory (occurrences : List Occurrence) : Prop :=
  ∀ occurrence ∈ occurrences, occurrence.cwd ≠ none →
    ((occurrences.find? (·.command = occurrence.command)).bind Occurrence.cwd).isSome

theorem count_totals (uses : List Use) : (totals uses).count = min uses.length U64_MAX := by
  induction uses using List.reverseRecOn with
  | nil => rfl
  | append_singleton uses use ih =>
    rw [totals_snoc, length_append, length_singleton]
    show min ((totals uses).count + 1) U64_MAX = _
    rw [ih]
    omega

theorem timestamp_totals (uses : List Use) :
    (totals uses).timestamp = (uses.map Use.timestamp).foldl max 0 := by
  induction uses using List.reverseRecOn with
  | nil => rfl
  | append_singleton uses use ih =>
    rw [totals_snoc, map_append, foldl_append, ← ih]
    rfl

theorem max?_eq_foldl (h : timestamps ≠ []) :
    timestamps.max? = some (timestamps.foldl max 0) := by
  obtain ⟨first, rest, rfl⟩ := exists_cons_of_ne_nil h
  rw [max?_cons', foldl_cons, Nat.zero_max]

section Exact

variable {hash : List Char → UInt64} {occurrences : List Occurrence} {tables : Tables}

theorem usesIn_usesOf (h : tables.Agrees hash occurrences)
    (hcode : tables.directory_codes (components path) = some code) (command : List Char) :
    (usesIn (tables.usesOf occurrences command) code).map Use.timestamp =
      (inDirectory occurrences command (components path)).map (·.timestamp.toNat) := by
  rw [usesIn, Tables.usesOf, filter_map, map_map, inDirectory, filter_filter]
  have hsame : ∀ occurrence ∈ occurrences,
      ((occurrence.cwd.bind fun cwd => tables.directory_codes (components cwd)) = some code ↔
        occurrence.cwd.map components = some (components path)) := by
    intro occurrence _
    cases occurrence.cwd with
    | none => simp
    | some cwd =>
      simp only [bind_some, map_some, Option.some.injEq]
      constructor
      · intro hcwd
        exact h.code_inj _ _ _ hcwd hcode
      · intro hsame
        rw [hsame, hcode]
  congr 1
  apply filter_congr
  intro occurrence hoccurrence
  rw [Function.comp_apply, Bool.decide_and, Bool.and_comm]
  congr 1
  exact decide_eq_decide.mpr (hsame occurrence hoccurrence)

theorem count_directoryUsage (hlength : occurrences.length ≤ U64_MAX)
    (huses : uses.length ≤ occurrences.length) (code : Nat) :
    (totals (counted uses code)).count = (counted uses code).length := by
  have hcounted : (counted uses code).length ≤ uses.length := by
    rw [counted]
    split
    · have hsplit := List.filter_append (p := (·.code = some code)) (early uses)
        (uses.dropWhile (·.code.isNone))
      have hnone : (early uses).filter (·.code = some code) = [] := by
        rw [filter_eq_nil_iff]
        intro use huse hcode
        have hisNone := mem_takeWhile_imp huse
        rw [of_decide_eq_true hcode] at hisNone
        cases hisNone
      rw [early, takeWhile_append_dropWhile, ← early, hnone, nil_append] at hsplit
      have hlen := congrArg List.length (takeWhile_append_dropWhile
        (p := fun use : Use => use.code.isNone) (l := uses))
      have hfilter := length_filter_le (·.code = some code)
        (uses.dropWhile (·.code.isNone))
      rw [length_append] at hlen ⊢
      rw [usesIn, hsplit]
      rw [early]
      omega
    · exact length_filter_le _ _
  rw [count_totals]
  omega

theorem directoryUsage_eq (h : tables.Agrees hash occurrences)
    (hfew : tables.directory_paths.length ≤ DIRECTORY_DETAILED)
    (hentry : tables.entries[idx]? = some entry)
    (hcode : tables.directory_codes (components path) = some code) :
    tables.directoryUsage idx path = reported (tables.usesOf occurrences entry.text) code := by
  rw [← (h.tracked hfew idx entry hentry).usage_eq code, Tables.directoryUsage, hcode, hentry]
  rfl

/-- No use came before the first directory when the first use had one. -/
theorem early_usesOf (h : tables.Agrees hash occurrences)
    (hoccurrence : occurrence ∈ occurrences) :
    early (tables.usesOf occurrences occurrence.command) = [] ↔
      ((occurrences.find? (·.command = occurrence.command)).bind Occurrence.cwd).isSome := by
  rw [← head?_filter]
  have hmem : occurrence ∈ occurrences.filter (·.command = occurrence.command) :=
    mem_filter.mpr ⟨hoccurrence, by simp⟩
  rw [Tables.usesOf]
  cases hfilter : occurrences.filter (·.command = occurrence.command) with
  | nil =>
    rw [hfilter] at hmem
    cases hmem
  | cons first rest =>
    have hfirst : first ∈ occurrences :=
      mem_of_mem_filter (hfilter ▸ mem_cons_self)
    rw [map_cons, early, takeWhile_cons, head?_cons, bind_some]
    cases hcwd : first.cwd with
    | none => simp
    | some cwd =>
      obtain ⟨code, hcode⟩ := isSome_iff_exists.mp (h.coded first hfirst cwd hcwd)
      simp [hcode]

/-- **Usage in a directory is exact** for the occurrences in which each command
that ran in a directory had one when it ran first, and for no others. -/
theorem exactUsage_iff (h : Tables.ofOccurrences hash occurrences = some tables)
    (hlength : occurrences.length ≤ U64_MAX)
    (hdirectories : (directoriesOf occurrences).dedup.length ≤ DIRECTORY_DETAILED) :
    ExactUsage occurrences tables ↔ StartsInDirectory occurrences := by
  have hagrees := Tables.agrees_ofOccurrences h
  have hfew := (Tables.paths_ofOccurrences h).trans hdirectories
  have huses : ∀ command, (tables.usesOf occurrences command).length ≤ occurrences.length := by
    intro command
    rw [Tables.usesOf, length_map]
    exact length_filter_le _ _
  constructor
  · intro hexact occurrence hoccurrence hcwd
    rw [← early_usesOf hagrees hoccurrence]
    obtain ⟨entry, hentry, htext⟩ := mem_map.mp (hagrees.entered occurrence hoccurrence)
    obtain ⟨idx, hidx⟩ := mem_iff_getElem?.mp hentry
    rw [← htext]
    -- The first directory of the entry is the one that early uses would spoil.
    cases hfirst : firstCode (tables.usesOf occurrences entry.text) with
    | none =>
      obtain ⟨cwd, hsome⟩ := Option.ne_none_iff_exists'.mp hcwd
      obtain ⟨code, hcode⟩ :=
        isSome_iff_exists.mp (hagrees.coded occurrence hoccurrence cwd hsome)
      have hnone := firstCode_eq_none.mp hfirst _
        (mem_map_of_mem (mem_filter.mpr ⟨hoccurrence, by simp [htext]⟩))
      simp [hsome, hcode] at hnone
    | some code =>
      obtain ⟨use, huse, hcode⟩ := exists_of_findSome?_eq_some hfirst
      obtain ⟨other, hother, rfl⟩ := mem_map.mp huse
      obtain ⟨hmem, hcommand⟩ := mem_filter.mp hother
      obtain ⟨cwd, hsome, hcode⟩ := bind_eq_some_iff.mp hcode
      have hpresent : inDirectory occurrences entry.text (components cwd) ≠ [] := by
        apply ne_nil_of_mem (a := other)
        rw [inDirectory, mem_filter]
        simpa [hsome] using ⟨hmem, of_decide_eq_true hcommand⟩
      obtain ⟨usage, husage, hcount, _⟩ := hexact idx entry cwd hidx hpresent
      have hsame := congrArg List.length (usesIn_usesOf hagrees hcode entry.text)
      rw [directoryUsage_eq hagrees hfew hidx hcode, reported,
        if_neg (usesIn_firstCode hfirst), Option.some.injEq] at husage
      rw [← husage, count_directoryUsage hlength (huses _), counted, if_pos hfirst,
        length_append] at hcount
      rw [length_map, length_map] at hsame
      exact eq_nil_of_length_eq_zero (by omega)
  · intro hstarts idx entry path hentry hpresent
    obtain ⟨occurrence, hmem⟩ := exists_mem_of_ne_nil _ hpresent
    rw [inDirectory, mem_filter, decide_eq_true_iff] at hmem
    obtain ⟨hoccurrence, htext, hcomponents⟩ := hmem
    obtain ⟨cwd, hcwd, hpath⟩ := map_eq_some_iff.mp hcomponents
    obtain ⟨code, hcode⟩ :=
      isSome_iff_exists.mp (hagrees.coded occurrence hoccurrence cwd hcwd)
    rw [hpath] at hcode
    have hearly := (early_usesOf hagrees hoccurrence).mpr
      (hstarts occurrence hoccurrence (by rw [hcwd]; simp))
    rw [htext] at hearly
    have htimes := usesIn_usesOf hagrees hcode entry.text
    have hcounted : counted (tables.usesOf occurrences entry.text) code =
        usesIn (tables.usesOf occurrences entry.text) code := by
      rw [counted, hearly]
      split <;> rfl
    have husesIn : usesIn (tables.usesOf occurrences entry.text) code ≠ [] := by
      intro hnil
      rw [hnil] at htimes
      exact hpresent (map_eq_nil_iff.mp htimes.symm)
    refine ⟨totals (usesIn (tables.usesOf occurrences entry.text) code), ?_, ?_, ?_⟩
    · rw [directoryUsage_eq hagrees hfew hentry hcode, reported, if_neg husesIn, hcounted]
    · have hcount := count_directoryUsage hlength (huses entry.text) code
      have hsame := congrArg List.length htimes
      rw [length_map, length_map] at hsame
      rw [hcounted] at hcount
      rw [hcount, hsame]
    · rw [timestamp_totals, htimes, max?_eq_foldl (by simpa using hpresent)]

end Exact

/-- A command that ran in no directory first, and then in `/`. -/
def lateDirectory : List Occurrence :=
  [{ id := 1, command := ['a'], timestamp := 5, session_id := 0, cwd := none },
    { id := 2, command := ['a'], timestamp := 6, session_id := 0, cwd := some [0x2f] }]

/-- The same command, in `/` from the start. -/
def earlyDirectory : List Occurrence :=
  [{ id := 1, command := ['a'], timestamp := 5, session_id := 0, cwd := some [0x2f] },
    { id := 2, command := ['a'], timestamp := 6, session_id := 0, cwd := none }]

/-- The usage of `/` counts the use before it. -/
theorem lateDirectory_counts_both : ∃ tables,
    Tables.ofOccurrences (fun _ => 0) lateDirectory = some tables ∧
      ¬ ExactUsage lateDirectory tables := by
  have husage : ((Tables.ofOccurrences (fun _ => 0) lateDirectory).bind fun tables =>
      tables.directoryUsage 0 [0x2f]) = some { count := 2, timestamp := 6 } := by
    decide
  have htext : ((Tables.ofOccurrences (fun _ => 0) lateDirectory).bind fun tables =>
      (tables.entries[0]?).map Entry.text) = some ['a'] := by
    decide
  obtain ⟨tables, htables, htotal⟩ := bind_eq_some_iff.mp husage
  rw [htables, bind_some] at htext
  obtain ⟨entry, hentry, hsame⟩ := map_eq_some_iff.mp htext
  refine ⟨tables, htables, fun hexact => ?_⟩
  have hone : (inDirectory lateDirectory ['a'] (components [0x2f])).length = 1 := by
    decide
  obtain ⟨usage, hreported, hcount, _⟩ := hexact 0 entry [0x2f] hentry (by
    rw [hsame]
    exact ne_nil_of_length_eq_add_one hone)
  rw [htotal, Option.some.injEq] at hreported
  rw [hsame, hone, ← hreported] at hcount
  cases hcount

/-- Where the directory comes first, its usage is exact. -/
theorem exactUsage_earlyDirectory : ∃ tables,
    Tables.ofOccurrences (fun _ => 0) earlyDirectory = some tables ∧
      ExactUsage earlyDirectory tables := by
  have hsome : (Tables.ofOccurrences (fun _ => 0) earlyDirectory).isSome := by
    decide
  obtain ⟨tables, htables⟩ := isSome_iff_exists.mp hsome
  exact ⟨tables, htables, (exactUsage_iff htables (by decide) (by decide)).mpr
    (by unfold StartsInDirectory; decide)⟩

end Ish.History
