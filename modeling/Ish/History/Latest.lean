import Ish.History.Usage
import Ish.HistoryLog.Agreement

/-!
# Latest — one row for each entry

`latest_occurrences` of `src/history.rs` holds the latest occurrence of each
entry, by id. A row is dropped when its entry gets a later occurrence, and the
ids of the occurrences a shell applies rise, so the new row goes to the end.
-/

namespace Ish.History

open Ish.Lib List
open Ish.HistoryLog (Occurrence)
open Ish.Lib.Rising (Rises rises_append)

/-! ## What an occurrence changes -/

/-- What the table of latest occurrences depends on. -/
def Entry.heading (entry : Entry) : List Char × Nat := (entry.text, entry.latest_id)

namespace Tables

variable {hash : List Char → UInt64} {tables tables' : Tables}

def headings (tables : Tables) : List (List Char × Nat) := tables.entries.map Entry.heading

theorem headings_setEntry (idx : Nat) (hf : ∀ entry, (f entry).heading = entry.heading) :
    (tables.setEntry idx f).headings = tables.headings := by
  apply ext_getElem?
  intro i
  rw [headings, headings, getElem?_map, getElem?_map, setEntry, getElem?_modify]
  cases tables.entries[i]? with
  | none => rfl
  | some entry =>
    by_cases hi : idx = i
    · simp [hi, hf]
    · simp [hi]

theorem headings_modify (hentry : tables.entries[idx]? = some entry)
    (f : Entry → Entry) :
    (tables.entries.modify idx f).map Entry.heading = tables.headings.set idx (f entry).heading := by
  apply ext_getElem?
  intro i
  rw [headings, getElem?_map, getElem?_modify, getElem?_set, length_map,
    getElem?_map]
  by_cases hi : idx = i
  · subst hi
    obtain ⟨hlt, hget⟩ := List.getElem?_eq_some_iff.mp hentry
    simp [hlt, hget]
  · simp [hi]

theorem recordDetail_latest (idx code timestamp : Nat) :
    (tables.recordDetail idx code timestamp).headings = tables.headings ∧
      (tables.recordDetail idx code timestamp).latest_occurrences = tables.latest_occurrences := by
  rw [recordDetail]
  split
  · split <;> exact ⟨rfl, rfl⟩
  · exact ⟨rfl, rfl⟩
  · exact ⟨rfl, rfl⟩

theorem recordDirectory_latest (idx code timestamp : Nat) :
    (tables.recordDirectory idx code timestamp).headings = tables.headings ∧
      (tables.recordDirectory idx code timestamp).latest_occurrences =
        tables.latest_occurrences := by
  rw [recordDirectory]
  cases hentry : tables.entries[idx]? with
  | none => exact ⟨rfl, rfl⟩
  | some entry =>
    dsimp only
    split
    · exact ⟨rfl, rfl⟩
    have hset : ∀ directories, (tables.setEntry idx fun entry =>
        { entry with directories := directories }).headings = tables.headings :=
      fun _ => headings_setEntry idx fun _ => rfl
    split
    · exact ⟨hset _, rfl⟩
    · exact recordDetail_latest idx code timestamp
    · next current _ =>
        have hdetail := @recordDetail_latest
          ((tables.setEntry idx fun entry =>
            { entry with directories := .detailed }).setDetail idx
              (.Many [(current, entry.total)])) idx code timestamp
        exact ⟨hdetail.1.trans (hset _), hdetail.2⟩

theorem detachSharedDirectory_latest (idx : Nat) :
    (tables.detachSharedDirectory idx).headings = tables.headings ∧
      (tables.detachSharedDirectory idx).latest_occurrences = tables.latest_occurrences := by
  rw [detachSharedDirectory]
  split
  · exact ⟨headings_setEntry idx fun _ => rfl, rfl⟩
  · exact ⟨rfl, rfl⟩

theorem internDirectory_latest
    (h : tables.internDirectory cwd = some (tables', code)) :
    tables'.headings = tables.headings ∧
      tables'.latest_occurrences = tables.latest_occurrences := by
  rcases internDirectory_cases h with ⟨-, rfl⟩ | ⟨-, -, rfl⟩
  · exact ⟨rfl, rfl⟩
  · exact ⟨rfl, rfl⟩

theorem recordCwd_latest
    (h : tables.recordCwd idx cwd timestamp = some tables') :
    tables'.headings = tables.headings ∧
      tables'.latest_occurrences = tables.latest_occurrences := by
  cases cwd with
  | none =>
    cases h
    exact detachSharedDirectory_latest idx
  | some cwd =>
    simp only [recordCwd, Option.bind_eq_bind, Option.bind_eq_some_iff] at h
    obtain ⟨⟨interned, code⟩, hintern, hrecord⟩ := h
    cases hrecord
    have hinterned := internDirectory_latest hintern
    have hrecorded := @recordDirectory_latest interned idx code timestamp
    exact ⟨hrecorded.1.trans hinterned.1, hrecorded.2.trans hinterned.2⟩

/-- **The latest occurrence** of its entry takes the place of the one before. -/
theorem applyOccurrence_latest
    (happly : tables.applyOccurrence hash occurrence = some tables') :
    ∃ known idx latest_id id, tables.entryOf hash occurrence.command = some (known, idx) ∧
      known.headings[idx]? = some (occurrence.command, latest_id) ∧
      occurrence.id.toInt = (id : Nat) ∧
      tables'.headings = known.headings.set idx (occurrence.command, id) ∧
      tables'.latest_occurrences =
        insertLatest id idx (known.latest_occurrences.filter (·.1 ≠ latest_id)) := by
  simp only [applyOccurrence, Option.bind_eq_bind, Option.bind_eq_some_iff] at happly
  obtain ⟨⟨known, idx⟩, hknown, between, hcwd, changed, hchanged, hrest⟩ := happly
  obtain ⟨hheadings, hlatest⟩ := recordCwd_latest hcwd
  obtain ⟨entry, hentry, htext⟩ := entryOf_text hknown
  have hsame : entry.text = changed.text := by
    have hheading : known.headings[idx]? = some changed.heading := by
      rw [← hheadings, headings, getElem?_map, hchanged, Option.map_some]
    rw [headings, getElem?_map, hentry, Option.map_some, Option.some.injEq] at hheading
    exact congrArg Prod.fst hheading
  have hheading : known.headings[idx]? = some (occurrence.command, changed.latest_id) := by
    rw [← hheadings, headings, getElem?_map, hchanged, ← htext, hsame]
    rfl
  split at hrest
  · cases hrest
  · next hid =>
      split at hrest
      · cases hrest
        rw [not_or, not_lt, not_lt] at hid
        refine ⟨known, idx, changed.latest_id, occurrence.id.toInt.toNat, hknown, hheading,
          (Int.toNat_of_nonneg hid.1).symm, ?_, ?_⟩
        · have hset := headings_modify hchanged fun entry => { entry with
            latest_id := occurrence.id.toInt.toNat
            total := entry.total.record occurrence.timestamp.toNat }
          rw [← hheadings, ← htext, hsame]
          exact hset
        · rw [← hlatest, Int.toNat_of_nonneg hid.1]
          rfl
      · cases hrest

theorem entryOf_latest
    (h : tables.entryOf hash command = some (tables', idx)) :
    tables' = tables ∨ idx = tables.headings.length ∧
      tables'.headings = tables.headings ++ [(command, 0)] ∧
      tables'.latest_occurrences = tables.latest_occurrences := by
  rcases entryOf_cases h with ⟨-, rfl⟩ | ⟨-, -, rfl, _, rfl⟩
  · exact Or.inl rfl
  · exact Or.inr ⟨(length_map _).symm, map_append, rfl⟩

/-! ## The rows -/

theorem insertLatest_eq {id rows} (h : ∀ row ∈ rows, row.1 < id)
    (idx : Nat) : insertLatest id idx rows = rows ++ [(id, idx)] := by
  induction rows with
  | nil => rfl
  | cons row rows ih =>
    obtain ⟨key, other⟩ := row
    have hkey : key < id := h _ mem_cons_self
    rw [insertLatest, if_neg (by omega), if_neg (by omega),
      ih fun row hrow => h row (mem_cons_of_mem _ hrow)]
    rfl

/-- The id of the last occurrence of a command. -/
def latestId (occurrences : List Occurrence) (command : List Char) : Option Int :=
  ((occurrences.filter (·.command = command)).getLast?).map (·.id.toInt)

theorem latestId_snoc (occurrences : List Occurrence) (occurrence : Occurrence)
    (command : List Char) :
    latestId (occurrences ++ [occurrence]) command =
      if occurrence.command = command then some occurrence.id.toInt
      else latestId occurrences command := by
  rw [latestId, latestId, List.filter_append, filter_singleton]
  by_cases h : occurrence.command = command
  · simp [h]
  · simp [h]

theorem exists_of_latestId {occurrences command id}
    (h : latestId occurrences command = some id) : ∃ occurrence ∈ occurrences,
      occurrence.id.toInt = id := by
  obtain ⟨occurrence, hlast, hid⟩ := Option.map_eq_some_iff.mp h
  exact ⟨occurrence, mem_of_mem_filter (mem_of_getLast? hlast), hid⟩

/-- The rows of the tables after some occurrences. -/
structure Rows (occurrences : List Occurrence) (tables : Tables) : Prop where
  sorted : tables.latest_occurrences.Pairwise (·.1 < ·.1)
  mem_iff : ∀ id idx, (id, idx) ∈ tables.latest_occurrences ↔
    ∃ text latest_id, tables.headings[idx]? = some (text, latest_id) ∧ id = (latest_id : Nat)
  latest : ∀ text latest_id, (text, latest_id) ∈ tables.headings →
    latestId occurrences text = some (latest_id : Int)

variable {occurrences : List Occurrence}

theorem rows_empty : Rows [] empty where
  sorted := List.Pairwise.nil
  mem_iff := by simp [empty, headings]
  latest := by simp [empty, headings]

/-- **One occurrence** with a larger id keeps one row for each entry. -/
theorem Rows.step (h : Rows occurrences tables) (hagrees : Agrees hash occurrences tables)
    (hpos : ∀ other ∈ occurrences, 0 < other.id.toInt) {occurrence}
    (hnew : ∀ other ∈ occurrences, other.id.toInt < occurrence.id.toInt)
    (happly : tables.applyOccurrence hash occurrence = some tables') :
    Rows (occurrences ++ [occurrence]) tables' := by
  obtain ⟨known, idx, old, id, hknown, hold, hid, hheadings, hlatest⟩ :=
    applyOccurrence_latest happly
  obtain ⟨hknownAgrees, _⟩ := hagrees.entryOf hknown
  -- The ids of the rows are those of earlier occurrences.
  have hrow : ∀ row ∈ tables.latest_occurrences, ∃ other ∈ occurrences, other.id.toInt = row.1 := by
    intro row hmem
    obtain ⟨text, latest_id, hget, hkey⟩ := (h.mem_iff row.1 row.2).mp hmem
    obtain ⟨other, hother, hsame⟩ := exists_of_latestId (h.latest _ _ (mem_of_getElem? hget))
    exact ⟨other, hother, hsame.trans hkey.symm⟩
  have hkeys : ∀ row ∈ tables.latest_occurrences, ∀ other ∈ tables.latest_occurrences,
      row.1 = other.1 → row = other := by
    have hnodup : (tables.latest_occurrences.map Prod.fst).Nodup := by
      rw [List.Nodup, pairwise_map]
      exact h.sorted.imp fun hlt => ne_of_lt hlt
    exact fun row hrow other hother hsame => inj_on_of_nodup_map hnodup hrow hother hsame
  -- The row that is dropped is that of the entry, which a new entry does not have.
  have hdropped : known.latest_occurrences = tables.latest_occurrences ∧
      (∀ i ≠ idx, known.headings[i]? = tables.headings[i]?) ∧
      ∀ row ∈ tables.latest_occurrences, row.1 ≠ old ↔ row.2 ≠ idx := by
    rcases entryOf_latest hknown with rfl | ⟨hidx, hknownHeadings, hsame⟩
    · refine ⟨rfl, fun _ _ => rfl, fun row hmem => not_congr ⟨fun hkey => ?_, fun hentry => ?_⟩⟩
      · have hown := (h.mem_iff old idx).mpr ⟨_, old, hold, rfl⟩
        exact congrArg Prod.snd (hkeys row hmem _ hown hkey)
      · obtain ⟨text, latest_id, hget, hkey⟩ := (h.mem_iff row.1 row.2).mp hmem
        rw [hentry, hold, Option.some.injEq] at hget
        have hsame : old = latest_id := congrArg Prod.snd hget
        rw [hkey, hsame]
    · refine ⟨hsame, fun i hi => ?_, fun row hmem => iff_of_true ?_ ?_⟩
      · rw [hknownHeadings, getElem?_append]
        split
        · rfl
        · rw [getElem?_eq_none (by simp; omega), getElem?_eq_none (by omega)]
      · obtain ⟨other, hother, hid⟩ := hrow row hmem
        rw [hknownHeadings, hidx, getElem?_concat_length, Option.some.injEq] at hold
        have hzero : 0 = old := congrArg Prod.snd hold
        rw [← hid, ← hzero]
        exact ne_of_gt (hpos other hother)
      · obtain ⟨text, latest_id, hget, _⟩ := (h.mem_iff row.1 row.2).mp hmem
        have hlt := (List.getElem?_eq_some_iff.mp hget).1
        omega
  obtain ⟨hsameRows, hsameHeadings, hdropped⟩ := hdropped
  have hrows : tables'.latest_occurrences =
      tables.latest_occurrences.filter (·.2 ≠ idx) ++ [(occurrence.id.toInt, idx)] := by
    rw [hlatest, hsameRows, insertLatest_eq, hid]
    · congr 1
      apply filter_congr
      intro row hmem
      exact decide_eq_decide.mpr (hdropped row hmem)
    · intro row hmem
      obtain ⟨other, hother, hsame⟩ := hrow row (mem_of_mem_filter hmem)
      rw [← hid, ← hsame]
      exact hnew other hother
  have hidx := (List.getElem?_eq_some_iff.mp hold).1
  refine ⟨?_, ?_, ?_⟩
  · rw [hrows, pairwise_append]
    refine ⟨h.sorted.filter _, pairwise_singleton _ _, fun row hmem last hlast => ?_⟩
    obtain ⟨other, hother, hsame⟩ := hrow row (mem_of_mem_filter hmem)
    rw [mem_singleton.mp hlast, ← hsame]
    exact hnew other hother
  · intro key i
    rw [hrows, hheadings, mem_append, mem_filter, mem_singleton, Prod.mk.injEq]
    by_cases hi : i = idx
    · subst hi
      rw [getElem?_set_self hidx, hid]
      simp [eq_comm]
    · rw [getElem?_set_ne (Ne.symm hi), hsameHeadings i hi, h.mem_iff]
      simp [hi]
  · intro text latest_id hmem
    obtain ⟨i, hget⟩ := mem_iff_getElem?.mp hmem
    rw [hheadings] at hget
    rw [latestId_snoc]
    by_cases hi : i = idx
    · subst hi
      rw [getElem?_set_self hidx, Option.some.injEq, Prod.mk.injEq] at hget
      rw [if_pos hget.1, ← hget.2, hid]
    · rw [getElem?_set_ne (Ne.symm hi)] at hget
      have htext : occurrence.command ≠ text := by
        intro hsame
        apply hi
        have htexts : known.headings.map Prod.fst = known.entries.map Entry.text := by
          rw [headings, map_map]
          rfl
        have hlt := (List.getElem?_eq_some_iff.mp hget).1
        apply (getElem?_inj (by rwa [length_map]) (htexts ▸ hknownAgrees.texts)).mp
        rw [getElem?_map, getElem?_map, hget, hold, ← hsame]
        rfl
      rw [hsameHeadings i hi] at hget
      rw [if_neg htext]
      exact h.latest text latest_id (mem_of_getElem? hget)

/-- **Occurrences with rising ids** leave one row for each entry. -/
theorem rows_ofOccurrences (h : ofOccurrences hash occurrences = some tables)
    (hrises : Rises Occurrence.id 0 occurrences) : Rows occurrences tables := by
  have hrun := run_induction (P := fun occurrences tables =>
      Agrees hash occurrences tables ∧ (Rises Occurrence.id 0 occurrences → Rows occurrences tables))
    (fun before tables occurrence tables' hbefore happly => by
      refine ⟨hbefore.1.step happly, fun hrises => ?_⟩
      have hpairwise := hrises.pairwise
      have hpositive := hrises.lt
      rw [rises_append] at hrises
      refine (hbefore.2 hrises.1).step hbefore.1 ?_ ?_ happly
      · intro other hother
        exact Int64.lt_iff_toInt_lt.mp (hpositive other (mem_append_left _ hother))
      · intro other hother
        rw [pairwise_append] at hpairwise
        exact Int64.lt_iff_toInt_lt.mp (hpairwise.2.2 other hother _ (mem_singleton_self _)))
    occurrences ⟨agrees_empty, fun _ => rows_empty⟩ h
  exact hrun.2 hrises

/-- Each entry has exactly one row, with the id of its latest occurrence, and
the rows are sorted by id. -/
structure OneRowEach (occurrences : List Occurrence) (tables : Tables) : Prop where
  sorted : tables.latest_occurrences.Pairwise (·.1 < ·.1)
  one_row : ∀ idx entry, tables.entries[idx]? = some entry →
    ∃ id, latestId occurrences entry.text = some id ∧ id = entry.latest_id ∧
      tables.latest_occurrences.filter (·.2 = idx) = [(id, idx)]
  no_other : ∀ row ∈ tables.latest_occurrences, row.2 < tables.entries.length

theorem Rows.oneRowEach (h : Rows occurrences tables) : OneRowEach occurrences tables where
  sorted := h.sorted
  one_row := by
    intro idx entry hentry
    have hheading : tables.headings[idx]? = some (entry.text, entry.latest_id) := by
      rw [headings, getElem?_map, hentry]
      rfl
    refine ⟨_, h.latest _ _ (mem_of_getElem? hheading), rfl, ?_⟩
    have hnodup : (tables.latest_occurrences.filter (·.2 = idx)).Nodup :=
      (h.sorted.imp fun hlt heq => ne_of_lt hlt (congrArg Prod.fst heq)).filter _
    refine perm_singleton.mp ((perm_ext_iff_of_nodup hnodup (nodup_singleton _)).mpr ?_)
    intro row
    rw [mem_filter, mem_singleton, decide_eq_true_iff]
    constructor
    · rintro ⟨hmem, hidx⟩
      obtain ⟨text, latest_id, hget, hkey⟩ := (h.mem_iff row.1 row.2).mp hmem
      rw [hidx, hheading, Option.some.injEq, Prod.mk.injEq] at hget
      rw [← hget.2] at hkey
      exact Prod.ext hkey hidx
    · rintro rfl
      exact ⟨(h.mem_iff _ _).mpr ⟨_, _, hheading, rfl⟩, rfl⟩
  no_other := tables.latest_valid

end Tables

/-! ## Any number of shells -/

section Shells

open Ish.HistoryLog (World History Shell)

/-- Every running shell applied occurrences with rising ids. -/
def Applying (world : World) : Prop :=
  ∀ shell history, world.shells shell = some history → Rises Occurrence.id 0 history.applied

variable {world : World}

theorem Applying.setShell (h : Applying world) (disk : HistoryLog.Disk)
    (committed : List Occurrence) (shell : Shell)
    (hshell : ∀ new, history = some new → Rises Occurrence.id 0 new.applied) :
    Applying ({ world with disk, committed }.setShell shell history) := by
  intro other found hother
  by_cases hsame : other = shell
  · subst hsame
    rw [HistoryLog.World.setShell_self] at hother
    exact hshell found hother
  · have hkept : world.shells other = some found := by
      rw [← hother]
      exact (if_neg hsame).symm
    exact h other found hkept

theorem Applying.withShell (h : Applying world) (shell : Shell)
    (hop : ∀ history history' disk, world.shells shell = some history →
      op history world.disk = .ok history' disk → Rises Occurrence.id 0 history'.applied) :
    Applying (world.withShell shell op committed).2 := by
  rw [HistoryLog.World.withShell]
  split
  · exact h
  · next history hshell =>
      split
      · next history' disk hrun =>
          refine h.setShell disk _ shell fun new hnew => ?_
          cases hnew
          exact hop history _ disk hshell hrun
      · exact h

/-- **Every step** keeps the ids rising. -/
theorem Applying.step (h : Applying world) (hconsistent : world.Consistent)
    (event : HistoryLog.Event) : Applying (world.step event).2 := by
  obtain ⟨current, tail, hinv⟩ := hconsistent
  cases event with
  | load shell session_id =>
    rw [HistoryLog.World.step]
    split
    · exact h
    · rcases HistoryLog.loadFrom_spec hinv.file session_id with
        ⟨current', disk', history', hload, hfile, -, hholds, -⟩ | hfail
      · rw [hload]
        refine h.setShell disk' world.committed shell fun new hnew => ?_
        cases hnew
        rw [hholds.applied]
        exact hfile.rises
      · rw [hfail]
        exact h
  | sync shell =>
    refine h.withShell shell fun history history' disk hshell hrun => ?_
    rcases HistoryLog.sync_spec hinv.file (hinv.shells shell history hshell) with
      ⟨current', disk', found, hsync, hfile, -, hholds, -, -⟩ | hfail
    · rw [hsync] at hrun
      cases hrun
      rw [hholds.applied]
      exact hfile.rises
    · rw [hfail] at hrun
      cases hrun
  | add_in_dir shell line cwd now =>
    refine h.withShell shell fun history history' disk hshell hrun => ?_
    cases hline : HistoryLog.History.isBlank line with
    | true =>
      rw [HistoryLog.History.addInDir, hline] at hrun
      cases hrun
      exact h shell history hshell
    | false =>
      rcases HistoryLog.addInDir_spec hinv.file (hinv.shells shell history hshell) hline cwd
        now with ⟨current', disk', found, hadd, hfile, -, hholds, -⟩ |
          ⟨e, disk', current', tail', hadd, -, -⟩
      · rw [hadd] at hrun
        cases hrun
        rw [hholds.applied]
        exact hfile.rises
      · rw [hadd] at hrun
        cases hrun
  | reset shell now =>
    refine h.withShell shell fun history history' disk hshell hrun => ?_
    rcases HistoryLog.reset_spec history hinv.file now with
      ⟨disk', found, hreset, -, -, hholds, -⟩ | hfail
    · rw [hreset] at hrun
      cases hrun
      rw [hholds.applied]
      trivial
    · rw [hfail] at hrun
      cases hrun
  | crash shell line cwd now written =>
    rw [HistoryLog.World.step]
    split
    · exact h
    · split
      · exact h.setShell world.disk world.committed shell (by rintro _ ⟨⟩)
      · exact h.setShell _ world.committed shell (by rintro _ ⟨⟩)
  | exit shell => exact h.setShell world.disk world.committed shell (by rintro _ ⟨⟩)

theorem Applying.run (h : Applying world) (hconsistent : world.Consistent)
    (events : List HistoryLog.Event) : Applying (world.run events) := by
  induction events generalizing world with
  | nil => exact h
  | cons event events ih => exact ih (h.step hconsistent event) (hconsistent.step event)

/-- **In any run of any number of shells**, the tables of each have one row for
each entry. -/
theorem oneRowEach_run (hinitial : world.Initial) (events : List HistoryLog.Event) (hshell : (world.run events).shells shell = some history)
    {hash tables}
    (htables : Tables.ofOccurrences hash history.applied = some tables) :
    Tables.OneRowEach history.applied tables := by
  have hstart : Applying world := by
    intro other found hother
    rw [hinitial.shells other] at hother
    cases hother
  have happlying := hstart.run hinitial.consistent events
  exact (Tables.rows_ofOccurrences htables (happlying shell history hshell)).oneRowEach

end Shells

end Ish.History
